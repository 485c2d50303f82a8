import HiccupReader.Json
import HiccupReader.Rose
import HiccupReader.Text.Basic

/-! Hiccup data: a rule is its name followed by its parts, a leaf is a text. It is written as JSON,
where a rule is the array of its name and its parts, or as EDN. Its JSON text is written straight
from the hiccup; where it is to stand within another value, it is made a JSON value first. -/

namespace HiccupReader

abbrev Hiccup := Rose String String

namespace Hiccup

def name? : Hiccup → Option String
  | .leaf _ => none
  | .node name _ => some name

def parts : Hiccup → List Hiccup
  | .leaf _ => []
  | .node _ parts => parts

def isLeaf (h : Hiccup) : Bool := h.name?.isNone

def leafTexts (h : Hiccup) : List String := Rose.walk [h]

def text (h : Hiccup) : String := String.join h.leafTexts

def find? (h : Hiccup) (name : String) : Option Hiccup :=
  h.parts.find? fun part => part.name? == some name

theorem leafTexts_eq_leaves (h : Hiccup) : h.leafTexts = h.leaves := by
  simp [leafTexts, Rose.walk_eq_leavesAll, Rose.leavesAll]

mutual

def toJson : Hiccup → Json
  | .leaf text => .string text
  | .node name parts => .array (.string name :: toJsonAll parts)

def toJsonAll : List Hiccup → List Json
  | [] => []
  | part :: parts => toJson part :: toJsonAll parts

end

mutual

/-- The JSON text of hiccup that is `depth` levels deep, in front of `rest`. The name of a rule is
the first item of its array, so that no array is empty. -/
def writeJson (pretty : Bool) (depth : Nat) : Hiccup → List Char → List Char
  | .leaf text, rest => Json.literal text rest
  | .node name parts, rest =>
    '[' :: Json.lineBreak pretty (depth + 1) (Json.literal name
      (writeJsonParts pretty (depth + 1) parts (Json.lineBreak pretty depth (']' :: rest))))

def writeJsonParts (pretty : Bool) (depth : Nat) : List Hiccup → List Char → List Char
  | [], rest => rest
  | part :: parts, rest =>
    ',' :: Json.lineBreak pretty depth
      (writeJson pretty depth part (writeJsonParts pretty depth parts rest))

end

def json (h : Hiccup) (pretty : Bool) : String := String.ofList (writeJson pretty 0 h [])

mutual

def writeEdn : Hiccup → List Char → List Char
  | .leaf text, rest => Text.quoted text rest
  | .node name parts, rest => '[' :: ':' :: (name.toList ++ writeEdnParts parts (']' :: rest))

def writeEdnParts : List Hiccup → List Char → List Char
  | [], rest => rest
  | part :: parts, rest => ' ' :: writeEdn part (writeEdnParts parts rest)

end

def edn (h : Hiccup) : String := String.ofList (writeEdn h [])

end Hiccup
end HiccupReader
