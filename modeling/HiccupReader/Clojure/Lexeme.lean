import HiccupReader.Clojure.Symbol
import HiccupReader.Matching.Recogniser

/-! The texts of the token kinds. Each kind has a recogniser, and what it accepts stands at the
front of the text. -/

namespace HiccupReader.Clojure

open Matching Recogniser

def delimiters : List Char :=
  [' ', '\t', '\r', '\n', ',', '(', ')', '[', ']', '\x7b', '\x7d', '"', ';', '@', '^', '\x60',
    '~', '\\']

def isSymbolChar (c : Char) : Bool := !delimiters.contains c

def isSymbolHead (c : Char) : Bool :=
  isSymbolChar c && !(c.isDigit || c == ':' || c == '#' || c == '\x27')

def isSign (c : Char) : Bool := c == '+' || c == '-'

def isOctalDigit (c : Char) : Bool := '0' ≤ c && c ≤ '7'

def isHexDigit (c : Char) : Bool :=
  c.isDigit || ('a' ≤ c && c ≤ 'f') || ('A' ≤ c && c ≤ 'F')

def isNumberChar (c : Char) : Bool := c.isAlphanum || c == '.' || c == '/'

def numberTail : Recogniser
  | [] => some ([], [])
  | [c] => if isNumberChar c then some ([c], []) else some ([], [c])
  | c :: d :: cs =>
    if (c == 'e' || c == 'E') && isSign d then
      (numberTail cs).map fun (taken, left) => (c :: d :: taken, left)
    else if isNumberChar c then
      (numberTail (d :: cs)).map fun (taken, left) => (c :: taken, left)
    else some ([], c :: d :: cs)

/-- What follows the opening quote of a string, with the closing quote. A backslash keeps the
character after it from closing. -/
def stringTail : Recogniser
  | [] => none
  | [c] => if c == '"' then some ([c], []) else none
  | c :: d :: cs =>
    if c == '"' then some ([c], d :: cs)
    else if c == '\\' then (stringTail cs).map fun (taken, left) => (c :: d :: taken, left)
    else (stringTail (d :: cs)).map fun (taken, left) => (c :: taken, left)

def symbolText : Recogniser := inOrder [oneOf isSymbolHead, run isSymbolChar]

def characterBody : Recogniser :=
  firstOf
    [word ['n', 'e', 'w', 'l', 'i', 'n', 'e'],
      word ['s', 'p', 'a', 'c', 'e'],
      word ['t', 'a', 'b'],
      word ['f', 'o', 'r', 'm', 'f', 'e', 'e', 'd'],
      word ['b', 'a', 'c', 'k', 's', 'p', 'a', 'c', 'e'],
      word ['r', 'e', 't', 'u', 'r', 'n'],
      inOrder
        [word ['u'], oneOf isHexDigit, oneOf isHexDigit, oneOf isHexDigit, oneOf isHexDigit],
      inOrder
        [word ['o'], oneOf isOctalDigit, optional (oneOf isOctalDigit),
          optional (oneOf isOctalDigit)],
      oneOf fun _ => true]

def TokenKind.lexeme : TokenKind → Recogniser
  | leftParen => word ['(']
  | rightParen => word [')']
  | leftBracket => word ['[']
  | rightBracket => word [']']
  | leftBrace => word ['\x7b']
  | rightBrace => word ['\x7d']
  | hashBrace => word ['#', '\x7b']
  | hashParen => word ['#', '(']
  | readerConditional => firstOf [word ['#', '?', '@', '('], word ['#', '?', '(']]
  | namespacedMapPrefix => inOrder [word ['#', ':'], run isSymbolChar]
  | quote => word ['\x27']
  | backtick => word ['\x60']
  | unquoteSplicing => word ['~', '@']
  | unquote => word ['~']
  | deref => word ['@']
  | caret => firstOf [word ['^'], word ['#', '^']]
  | varQuote => word ['#', '\x27']
  | discard => word ['#', '_']
  | tag => inOrder [word ['#'], symbolText]
  | number => inOrder [optional (oneOf isSign), oneOf Char.isDigit, numberTail]
  | character => inOrder [word ['\\'], characterBody]
  | nil => notBefore (word ['n', 'i', 'l']) isSymbolChar
  | boolean =>
    notBefore (firstOf [word ['t', 'r', 'u', 'e'], word ['f', 'a', 'l', 's', 'e']]) isSymbolChar
  | keyword =>
    inOrder [word [':'], optional (word [':']), oneOf isSymbolChar, run isSymbolChar]
  | string => inOrder [word ['"'], stringTail]
  | regex => inOrder [word ['#', '"'], stringTail]
  | symbolicValue =>
    inOrder
      [word ['#', '#'],
        firstOf [word ['I', 'n', 'f'], word ['-', 'I', 'n', 'f'], word ['N', 'a', 'N']]]
  | symbol => symbolText

theorem numberTail_cuts : Cuts numberTail := by
  intro cs taken left h
  fun_induction numberTail cs generalizing taken left with
  | case1 | case2 | case3 | case6 => grind
  | case4 c d cs _ ih | case5 c d cs _ _ ih =>
    obtain ⟨found, hf, he⟩ := Option.map_eq_some_iff.1 h
    cases he
    simp [ih _ _ hf]

theorem stringTail_cuts : Cuts stringTail := by
  intro cs taken left h
  fun_induction stringTail cs generalizing taken left with
  | case1 | case2 | case3 | case4 => grind
  | case5 c d cs _ _ ih | case6 c d cs _ _ ih =>
    obtain ⟨found, hf, he⟩ := Option.map_eq_some_iff.1 h
    cases he
    simp [ih _ _ hf]

theorem symbolText_cuts : Cuts symbolText := by
  simp [symbolText, inOrder_cuts, oneOf_cuts, run_cuts]

theorem characterBody_cuts : Cuts characterBody := by
  have octal : (optional (oneOf isOctalDigit)).Cuts := optional_cuts (oneOf_cuts _)
  have numeral : (inOrder [word ['u'], oneOf isHexDigit, oneOf isHexDigit, oneOf isHexDigit,
      oneOf isHexDigit]).Cuts := by
    simp [inOrder_cuts, word_cuts, oneOf_cuts]
  have octalNumeral : (inOrder [word ['o'], oneOf isOctalDigit, optional (oneOf isOctalDigit),
      optional (oneOf isOctalDigit)]).Cuts := by
    simp [inOrder_cuts, word_cuts, oneOf_cuts, octal]
  simp [characterBody, firstOf_cuts, word_cuts, oneOf_cuts, numeral, octalNumeral]

theorem TokenKind.lexeme_cuts (k : TokenKind) : k.lexeme.Cuts := by
  cases k <;>
    simp [lexeme, firstOf_cuts, inOrder_cuts, optional_cuts, notBefore_cuts, word_cuts,
      oneOf_cuts, run_cuts, symbolText_cuts, characterBody_cuts, numberTail_cuts,
      stringTail_cuts]

end HiccupReader.Clojure
