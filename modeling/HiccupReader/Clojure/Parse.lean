import HiccupReader.Clojure.SyntaxError

/-! Reading Clojure source. `lex` cuts it into tokens and asks for no structure. `parse` reads it
as code; it first checks on the tokens that the forms are not nested too deep, and then matches
the grammar from the start, so that the two may cut the text at different places.

A match that succeeds has its tree already. So there is no match without a tree, and no rule among
the tokens of `lex`, which are leaves by their type; `SyntaxError` has no cases for these. -/

namespace HiccupReader.Clojure

open Matching

def outcome {α : Type} (a : Attempt Goal α) : Except SyntaxError α :=
  match a.result with
  | some (value, _) => .ok value
  | none => .error (.unexpected a.frontier)

def lex (text : String) : Except SyntaxError (List Token) :=
  (outcome (matchText .tokens text.toList)).map Rose.leaves

/-- The tree that the grammar gives to a text, whatever its depth. -/
def derive (text : String) : Except SyntaxError Tree :=
  outcome (matchText .code text.toList)

def checkNesting (tokens : List Token) : Except SyntaxError Unit :=
  match Nesting.firstTooDeep? tokens with
  | some token => .error (.tooDeep token.span)
  | none => .ok ()

def parse (text : String) : Except SyntaxError Tree := do
  let tokens ← lex text
  checkNesting tokens
  derive text

end HiccupReader.Clojure
