import HiccupReader.Clojure.Grammar
import HiccupReader.Clojure.Lexeme
import HiccupReader.Clojure.Trivia
import HiccupReader.Matching.Attempt
import HiccupReader.Tree

/-! Matching the rules of the Clojure grammar against a text. A match gives its tree at once: a
token becomes a leaf, and a rule becomes a node over what its parts gave. As no tree is made from
matches afterwards, none of the faults of such a step can come up: a match whose rule has no index,
a token with parts of its own, or a root that got lost. -/

namespace HiccupReader.Clojure

open Matching

inductive Goal
  | symbol (s : Symbol)
  | endOfInput
  deriving DecidableEq

def skipTrivia (c : Cursor) : Cursor :=
  let split := splitTrivia false c.rest
  c.advance split.1 split.2

def matchToken (k : TokenKind) : Matcher Goal Tree := fun c =>
  match k.lexeme c.rest with
  | some (taken, left) =>
    let stop := c.advance taken left
    .success (.leaf ⟨k.index, String.ofList taken, c.offset, stop.offset⟩) stop
  | none => .failure (.symbol (.token k)) c.offset

def matchEnd : Matcher Goal (List Tree) := fun c =>
  match c.rest with
  | [] => .success [] c
  | _ :: _ => .failure .endOfInput c.offset

def matchSymbol (rule : Rule → Matcher Goal Tree) : Symbol → Matcher Goal Tree
  | .rule r => rule r
  | .token k => matchToken k

def matchPart (rule : Rule → Matcher Goal Tree) : Part → Matcher Goal (List Tree)
  | .one s, c => (matchSymbol rule s c).andThen fun tree c => .success [tree] c
  | .many options, c =>
    Matcher.repeated skipTrivia (Matcher.firstOf (options.map (matchSymbol rule)))
      (c.rest.length + 1) c
  | .finish, c => matchEnd c

def matchProduction (rule : Rule → Matcher Goal Tree) : Production → Matcher Goal (List Tree)
  | .sequence parts, c => Matcher.inOrder skipTrivia (parts.map (matchPart rule)) c
  | .choice options, c =>
    (Matcher.firstOf (options.map (matchSymbol rule)) c).andThen fun tree c => .success [tree] c

/-- What is nested deeper than `depth` is not matched. The node of the rule is built here, over the
trees of its parts. -/
def matchRule : (depth : Nat) → Rule → Matcher Goal Tree
  | 0, r, c => .failure (.symbol (.rule r)) c.offset
  | depth + 1, r, c =>
    ((matchProduction (matchRule depth) r.production c).andThen fun children stop =>
      .success (.node ⟨r.index, c.offset, stop.offset⟩ children) stop).aimedAt
        (.symbol (.rule r)) c.offset

/-- A rule against a whole text. At most five rules follow each other without taking a character,
so that the depth allowed here is never reached. -/
def matchText (r : Rule) (text : List Char) : Attempt Goal Tree :=
  matchRule (5 * (text.length + 2)) r (.start text)

end HiccupReader.Clojure
