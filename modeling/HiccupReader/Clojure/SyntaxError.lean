import HiccupReader.Clojure.Matching
import HiccupReader.Clojure.Nesting
import HiccupReader.Diagnostic

/-! Why a text is refused, and how that is told: what was expected at the furthest place that was
reached, or that the forms are nested too deep. -/

namespace HiccupReader.Clojure

open Matching

inductive Expected
  | closingParen
  | closingBracket
  | openingBrace
  | closingBrace
  | endOfInput
  | form
  deriving DecidableEq

namespace Expected

def all : List Expected :=
  [closingParen, closingBracket, openingBrace, closingBrace, endOfInput, form]

def text : Expected → String
  | closingParen => "')'"
  | closingBracket => "']'"
  | openingBrace => "'\x7b'"
  | closingBrace => "'\x7d'"
  | endOfInput => "end of input"
  | form => "form"

end Expected

def Goal.expected : Goal → Expected
  | symbol (.token .rightParen) => .closingParen
  | symbol (.token .rightBracket) => .closingBracket
  | symbol (.token .rightBrace) => .closingBrace
  | symbol (.token .leftBrace) | symbol (.rule .map) => .openingBrace
  | symbol _ => .form
  | endOfInput => .endOfInput

def expectedOf (goals : List Goal) : List Expected :=
  Expected.all.filter fun e => goals.any fun g => g.expected = e

def describe : List Expected → String
  | [] => "unexpected input"
  | [e] => "expected " ++ e.text
  | es => "expected one of " ++ ", ".intercalate (es.map Expected.text)

/-- One byte to show for a place in a text. At the end of the text it is the last byte. -/
def spotAt (offset length : Nat) : Span :=
  if length = 0 then ⟨0, 0⟩
  else
    let start := min offset (length - 1)
    ⟨start, min (max offset (start + 1)) length⟩

inductive SyntaxError
  | unexpected (frontier : Frontier Goal)
  | tooDeep (place : Span)

namespace SyntaxError

def startsString : List Char → Bool
  | '"' :: _ => true
  | '#' :: '"' :: _ => true
  | _ => false

def help? (rest : List Char) : Option String :=
  if startsString rest then some "string literal is not terminated"
  else if rest.isEmpty then some "input ended before every delimiter was closed"
  else none

def diagnostic (source : Source) : SyntaxError → Diagnostic
  | unexpected frontier =>
    { kind := .parse
      message := describe (expectedOf frontier.goals)
      span? := some (spotAt frontier.offset source.text.utf8ByteSize)
      help? := help? (Text.dropBytes frontier.offset source.text.toList)
      source? := some source }
  | tooDeep place =>
    { kind := .parse
      message := "forms are nested more than " ++ toString Nesting.limit ++ " levels deep"
      span? := some place
      help? := some "split the expression into smaller top-level forms"
      source? := some source }

end SyntaxError
end HiccupReader.Clojure
