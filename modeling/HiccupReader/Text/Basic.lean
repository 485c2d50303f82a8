import HiccupReader.Text.Printable

/-! Writing and trimming text: columns filled up with blanks, hexadecimal digits, white space, and
text in double quotes with a backslash before what could not be read otherwise. In quotes the
characters without a printed form, those that would join the character before them and those that
would not be seen are given by their number. -/

namespace HiccupReader.Text

def blanks (n : Nat) : String := String.ofList (List.replicate n ' ')

/-- Widths count characters. A text that is longer than its column is not cut. -/
def padRight (width : Nat) (text : String) : String := text ++ blanks (width - text.length)

def padLeft (width : Nat) (text : String) : String := blanks (width - text.length) ++ text

def hexDigit (n : Nat) : Char := Nat.digitChar (n % 16)

def hex (n : Nat) : List Char := Nat.toDigits 16 n

def hexPadded : (width : Nat) → Nat → List Char
  | 0, _ => []
  | width + 1, n => hexPadded width (n / 16) ++ [hexDigit n]

/-- The Unicode property `White_Space`. -/
def isWhiteSpace (c : Char) : Bool :=
  let n := c.toNat
  (0x09 ≤ n && n ≤ 0x0d) || n == 0x20 || n == 0x85 || n == 0xa0 || n == 0x1680 ||
    (0x2000 ≤ n && n ≤ 0x200a) || n == 0x2028 || n == 0x2029 || n == 0x202f || n == 0x205f ||
    n == 0x3000

def isBlankText (cs : List Char) : Bool := cs.all isWhiteSpace

def quoteChar (c : Char) : List Char :=
  if c = '"' then ['\\', '"']
  else if c = '\\' then ['\\', '\\']
  else if c = '\t' then ['\\', 't']
  else if c = '\n' then ['\\', 'n']
  else if c = '\r' then ['\\', 'r']
  else if c = '\x00' then ['\\', '0']
  else if extendsGrapheme c || isHiddenLetter c || !isPrinted c then
    ['\\', 'u', '\x7b'] ++ hex c.toNat ++ ['\x7d']
  else [c]

def quoted (text : String) (rest : List Char) : List Char :=
  '"' :: (text.toList.flatMap quoteChar ++ '"' :: rest)

end HiccupReader.Text
