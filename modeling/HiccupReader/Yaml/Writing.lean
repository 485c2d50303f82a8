import HiccupReader.Text.Basic
import HiccupReader.Yaml.Place
import HiccupReader.Yaml.Resolve

/-! Texts written as items of a block list: plain if that reads back as the same text, else in
single quotes; over several lines as a literal block; and in double quotes where nothing else can
hold the characters. -/

namespace HiccupReader.Yaml

def isWritable (c : Char) : Bool :=
  isAllowed c && c != '\t' && c != '\r' && c != '\u0085' && c != byteOrderMark

def blankEndsLine : List Char → Bool
  | [] => false
  | ' ' :: [] => true
  | ' ' :: c :: cs => isBreak c || blankEndsLine (c :: cs)
  | _ :: cs => blankEndsLine cs

def blankStartsLine : List Char → Bool
  | c :: ' ' :: cs => isBreak c || blankStartsLine (' ' :: cs)
  | _ :: cs => blankStartsLine cs
  | [] => false

def blankBeforeBreak : List Char → Bool
  | ' ' :: c :: cs => isBreak c || blankBeforeBreak (c :: cs)
  | _ :: cs => blankBeforeBreak cs
  | [] => false

/-- Whether a colon or a number sign within a plain text would end it. `previous` is the character
before. -/
def breaksOff (previous : Char) : List Char → Bool
  | [] => false
  | c :: cs =>
    (c == ':' && wordEnds cs) || (c == '#' && (isBlank previous || isBreak previous)) ||
      breaksOff c cs

def startsSpecial : List Char → Bool
  | [] => false
  | c :: cs =>
    ['#', ',', '[', ']', '\x7b', '\x7d', '&', '*', '!', '|', '>', '\x27', '"', '%', '@',
      '\x60'].contains c ||
    ((c == '?' || c == ':' || c == '-') && wordEnds cs) || breaksOff c cs ||
    ['-', '-', '-'].isPrefixOf (c :: cs) || ['.', '.', '.'].isPrefixOf (c :: cs)

def canBePlain (cs : List Char) : Bool :=
  !(startsSpecial cs || cs.any isBreak || cs.head? == some ' ' || cs.getLast? == some ' ')

def singleQuotedFrom : (afterBreak : Bool) → List Char → List Char
  | afterBreak, [] => if afterBreak then [' ', ' '] else []
  | afterBreak, c :: cs =>
    if isBreak c then c :: singleQuotedFrom true cs
    else
      (if afterBreak then [' ', ' '] else []) ++
        (if c = '\x27' then ['\x27', '\x27'] else [c]) ++ singleQuotedFrom false cs

def singleQuoted (cs : List Char) : List Char :=
  '\x27' :: (singleQuotedFrom false cs ++ ['\x27'])

def escapeTail (c : Char) : List Char :=
  let upper width := (Text.hexPadded width c.toNat).map Char.toUpper
  match c with
  | '\x00' => ['0']
  | '\x07' => ['a']
  | '\x08' => ['b']
  | '\t' => ['t']
  | '\n' => ['n']
  | '\x0b' => ['v']
  | '\x0c' => ['f']
  | '\r' => ['r']
  | '\x1b' => ['e']
  | '"' => ['"']
  | '\\' => ['\\']
  | '\u0085' => ['N']
  | '\u00a0' => ['_']
  | '\u2028' => ['L']
  | '\u2029' => ['P']
  | _ =>
    if c.toNat < 0x100 then 'x' :: upper 2
    else if c.toNat < 0x10000 then 'u' :: upper 4
    else 'U' :: upper 8

def doubleQuotedChar (c : Char) : List Char :=
  if !isWritable c || isBreak c || c = '"' || c = '\\' then '\\' :: escapeTail c else [c]

def doubleQuoted (cs : List Char) : List Char := '"' :: (cs.flatMap doubleQuotedChar ++ ['"'])

/-- What stands after the bar of a literal block: the indentation where the text does not show it,
and how the text ends. -/
def literalHints (cs : List Char) : List Char :=
  let indentation := if cs.head?.any fun c => c == ' ' || isBreak c then ['2'] else []
  let ending :=
    match cs.reverse with
    | last :: before :: _ =>
      if !isBreak last then ['-'] else if isBreak before then ['+'] else []
    | [last] => if isBreak last then ['+'] else ['-']
    | [] => ['-']
  indentation ++ ending

def literalLines : (afterBreak : Bool) → List Char → List Char
  | _, [] => []
  | afterBreak, c :: cs =>
    if isBreak c then c :: literalLines true cs
    else (if afterBreak then [' ', ' '] else []) ++ c :: literalLines false cs

def literal (cs : List Char) : List Char :=
  '|' :: (literalHints cs ++ '\n' :: literalLines true cs)

def written (text : String) : List Char :=
  let cs := text.toList
  if !cs.all isWritable then doubleQuoted cs
  else if cs.contains '\n' then
    if blankEndsLine cs then doubleQuoted cs else literal cs
  else if isPlainText text && canBePlain cs then cs
  else if blankBeforeBreak cs || blankStartsLine cs then doubleQuoted cs
  else singleQuoted cs

def itemLines (text : String) : List Char :=
  let lines := '-' :: ' ' :: written text
  if text.toList.contains '\n' && lines.getLast?.any isBreak then lines else lines ++ ['\n']

end HiccupReader.Yaml
