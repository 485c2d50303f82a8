import HiccupReader.Text.Basic

/-! JSON values of texts, lists and objects, and their two written forms: without any blanks, or
with each member on a line of its own and two blanks of indentation for each level. -/

namespace HiccupReader

inductive Json
  | string (text : String)
  | array (items : List Json)
  | object (members : List (String × Json))

namespace Json

def escapeChar (c : Char) : List Char :=
  if c = '"' then ['\\', '"']
  else if c = '\\' then ['\\', '\\']
  else if c = '\x08' then ['\\', 'b']
  else if c = '\x0c' then ['\\', 'f']
  else if c = '\n' then ['\\', 'n']
  else if c = '\r' then ['\\', 'r']
  else if c = '\t' then ['\\', 't']
  else if c.toNat < 0x20 then ['\\', 'u'] ++ Text.hexPadded 4 c.toNat
  else [c]

def literal (text : String) (rest : List Char) : List Char :=
  '"' :: (text.toList.flatMap escapeChar ++ '"' :: rest)

def lineBreak (pretty : Bool) (depth : Nat) (rest : List Char) : List Char :=
  if pretty then '\n' :: (List.replicate (2 * depth) ' ' ++ rest) else rest

def colon (pretty : Bool) (rest : List Char) : List Char :=
  if pretty then ':' :: ' ' :: rest else ':' :: rest

mutual

/-- The written form of a value that is `depth` levels deep, in front of `rest`. -/
def write (pretty : Bool) (depth : Nat) : Json → List Char → List Char
  | .string text, rest => literal text rest
  | .array [], rest => '[' :: ']' :: rest
  | .array (item :: items), rest =>
    '[' :: lineBreak pretty (depth + 1) (write pretty (depth + 1) item
      (writeItems pretty (depth + 1) items (lineBreak pretty depth (']' :: rest))))
  | .object [], rest => '\x7b' :: '\x7d' :: rest
  | .object ((key, value) :: members), rest =>
    '\x7b' :: lineBreak pretty (depth + 1) (literal key (colon pretty
      (write pretty (depth + 1) value
        (writeMembers pretty (depth + 1) members (lineBreak pretty depth ('\x7d' :: rest))))))

def writeItems (pretty : Bool) (depth : Nat) : List Json → List Char → List Char
  | [], rest => rest
  | item :: items, rest =>
    ',' :: lineBreak pretty depth (write pretty depth item (writeItems pretty depth items rest))

def writeMembers (pretty : Bool) (depth : Nat) :
    List (String × Json) → List Char → List Char
  | [], rest => rest
  | (key, value) :: members, rest =>
    ',' :: lineBreak pretty depth (literal key (colon pretty
      (write pretty depth value (writeMembers pretty depth members rest))))

end

def text (value : Json) (pretty : Bool) : String := String.ofList (write pretty 0 value [])

end Json
end HiccupReader
