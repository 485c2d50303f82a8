import HiccupReader.Clojure.Symbol
import HiccupReader.Tree

/-! How deep forms are nested, counted on tokens alone. Each collection and each reader macro is
one level. A reader macro is pending until the forms after it are complete; a closing delimiter
ends what is pending since the last open one. -/

namespace HiccupReader.Clojure.Nesting

def limit : Nat := 256

inductive Role
  | opens
  | closes
  | awaits (forms : Nat)
  | completes
  deriving DecidableEq

def role : TokenKind → Role
  | .leftParen | .leftBracket | .leftBrace | .hashBrace | .hashParen | .readerConditional =>
    .opens
  | .rightParen | .rightBracket | .rightBrace => .closes
  | .caret => .awaits 2
  | .quote | .backtick | .unquoteSplicing | .unquote | .deref | .varQuote | .discard | .tag
  | .namespacedMapPrefix => .awaits 1
  | .number | .character | .nil | .boolean | .keyword | .string | .regex | .symbolicValue
  | .symbol => .completes

/-- A level that is not complete: an open delimiter, or a reader macro that awaits forms. -/
inductive Level
  | delimiter
  | awaiting (forms : Nat)
  deriving DecidableEq

def Level.isAwaiting : Level → Bool
  | delimiter => false
  | awaiting _ => true

def complete : List Level → List Level
  | .awaiting forms :: levels =>
    if 1 < forms then .awaiting (forms - 1) :: levels else complete levels
  | levels => levels

def step (levels : List Level) : Role → List Level
  | .opens => .delimiter :: levels
  | .awaits forms => .awaiting forms :: levels
  | .closes => complete (levels.dropWhile Level.isAwaiting).tail
  | .completes => complete levels

def roleOf (token : Token) : Role := ((TokenKind.ofIndex? token.rule).map role).getD .completes

def depths (levels : List Level) : List Token → List (Nat × Token)
  | [] => []
  | token :: tokens =>
    let levels := step levels (roleOf token)
    (levels.length, token) :: depths levels tokens

def firstTooDeep? (tokens : List Token) : Option Token :=
  ((depths [] tokens).find? fun (depth, _) => limit < depth).map Prod.snd

theorem depths_append (levels : List Level) (xs ys : List Token) :
    depths levels (xs ++ ys) =
      depths levels xs ++ depths (xs.foldl (fun l t => step l (roleOf t)) levels) ys := by
  induction xs generalizing levels with
  | nil => rfl
  | cons x xs ih => simp [depths, ih]

end HiccupReader.Clojure.Nesting
