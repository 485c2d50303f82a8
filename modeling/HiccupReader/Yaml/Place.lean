/-! Places in a YAML text, and what may stand between its tokens. Line breaks of all kinds are
brought to one form before a text is read. -/

namespace HiccupReader.Yaml

def isAllowed (c : Char) : Bool :=
  let n := c.toNat
  n == 0x09 || n == 0x0a || n == 0x0d || (0x20 ≤ n && n ≤ 0x7e) || n == 0x85 ||
    (0xa0 ≤ n && n ≤ 0xfffd) || 0x10000 ≤ n

def byteOrderMark : Char := '\ufeff'

def unifyBreaks : List Char → List Char
  | [] => []
  | '\r' :: '\n' :: cs => '\n' :: unifyBreaks cs
  | c :: cs => (if c = '\r' ∨ c = '\u0085' then '\n' else c) :: unifyBreaks cs

def isBreak (c : Char) : Bool := c == '\n' || c == '\u2028' || c == '\u2029'

def isBlank (c : Char) : Bool := c == ' ' || c == '\t'

def wordEnds : List Char → Bool
  | [] => true
  | c :: _ => isBlank c || isBreak c

/-- A place with the characters that are left. On a `fresh` line no token has been read, other
than the marks of list items, names and values; there a tab is not allowed and a name may
begin. -/
structure Place where
  line : Nat
  column : Nat
  fresh : Bool
  rest : List Char

namespace Place

def start (cs : List Char) : Place := ⟨0, 0, true, cs⟩

def past (p : Place) (width : Nat) : Place :=
  ⟨p.line, p.column + width, false, p.rest.drop width⟩

def pastMark (p : Place) : Place := ⟨p.line, p.column + 1, true, p.rest.tail⟩

def atEnd (p : Place) : Bool := p.rest.isEmpty

def startsWith (p : Place) (mark : Char) : Bool :=
  p.fresh &&
    match p.rest with
    | c :: cs => c == mark && wordEnds cs
    | [] => false

def belongsTo (colon name : Place) : Bool :=
  colon.line == name.line && colon.column ≤ name.column + 1024

end Place

/-- Passes over blanks, line breaks and comments, and over a byte order mark at the start of a
line, where it takes a column like any other character. In flow context, that is, within brackets,
a tab is a blank everywhere. -/
def skip (flow : Bool) : (inComment : Bool) → (line column : Nat) → (fresh : Bool) →
    List Char → Place
  | _, line, column, fresh, [] => ⟨line, column, fresh, []⟩
  | inComment, line, column, fresh, c :: cs =>
    if isBreak c then skip flow false (line + 1) 0 true cs
    else if inComment then skip flow true line (column + 1) fresh cs
    else if column = 0 ∧ c = byteOrderMark then skip flow false line 1 fresh cs
    else if c = ' ' ∨ (c = '\t' ∧ (flow ∨ !fresh)) then
      skip flow false line (column + 1) fresh cs
    else if c = '#' then skip flow true line (column + 1) fresh cs
    else ⟨line, column, fresh, c :: cs⟩

def Place.next (p : Place) (flow : Bool) : Place :=
  skip flow false p.line p.column p.fresh p.rest

def startsDocument : List Char → Bool
  | '-' :: '-' :: '-' :: cs => wordEnds cs
  | _ => false

def endsDocument : List Char → Bool
  | '.' :: '.' :: '.' :: cs => wordEnds cs
  | _ => false

def bounds (cs : List Char) : Bool := startsDocument cs || endsDocument cs

def Place.over (p : Place) : Bool := p.atEnd || (p.column == 0 && bounds p.rest)

end HiccupReader.Yaml
