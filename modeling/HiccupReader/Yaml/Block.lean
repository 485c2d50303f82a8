import HiccupReader.Yaml.Scalar

/-! Block scalars: after a bar the lines below are taken as they are, after an angle they are
folded. What stands above the lines says how the text ends and, if need be, how far the lines are
indented. -/

namespace HiccupReader.Yaml

inductive Ending
  | clip
  | strip
  | keep
  deriving DecidableEq

structure BlockHeader where
  folded : Bool
  ending : Ending
  increment? : Option Nat
  deriving DecidableEq

def ending? : Char → Option Ending
  | '-' => some .strip
  | '+' => some .keep
  | _ => none

def increment? (c : Char) : Option Nat :=
  if '1' ≤ c ∧ c ≤ '9' then some (c.toNat - '0'.toNat) else none

def blockHeader (folded : Bool) : List Char → BlockHeader × List Char
  | c :: d :: cs =>
    match ending? c, increment? c with
    | some ending, _ =>
      match increment? d with
      | some n => (⟨folded, ending, some n⟩, cs)
      | none => (⟨folded, ending, none⟩, d :: cs)
    | none, some n =>
      match ending? d with
      | some ending => (⟨folded, ending, some n⟩, cs)
      | none => (⟨folded, .clip, some n⟩, d :: cs)
    | none, none => (⟨folded, .clip, none⟩, c :: d :: cs)
  | [c] =>
    match ending? c, increment? c with
    | some ending, _ => (⟨folded, ending, none⟩, [])
    | none, some n => (⟨folded, .clip, some n⟩, [])
    | none, none => (⟨folded, .clip, none⟩, [c])
  | [] => (⟨folded, .clip, none⟩, [])

def linesBelow (line : Nat) (cs : List Char) : Option Place :=
  let cs := cs.dropWhile isBlank
  let cs := if cs.head? = some '#' then cs.dropWhile fun c => !isBreak c else cs
  match cs with
  | [] => some ⟨line, 0, true, []⟩
  | c :: cs => if isBreak c then some ⟨line + 1, 0, true, cs⟩ else none

/-- The deepest column that is reached by the spaces of the empty lines and of the line after
them. A tab among the spaces is refused. -/
def deepestMargin : (column deepest : Nat) → List Char → Option Nat
  | column, deepest, [] => some (max deepest column)
  | column, deepest, c :: cs =>
    if c = ' ' then deepestMargin (column + 1) deepest cs
    else if c = '\t' then none
    else if isBreak c then deepestMargin 0 (max deepest column) cs
    else some (max deepest column)

/-- The lines of a block scalar as far as they were read, the last character first: the text, the
break after it, the breaks of the empty lines after that, and whether the last line begins with a
blank. -/
structure BlockText where
  text : List Char
  lineBreak : List Char
  emptyLines : List Char
  indented : Bool

namespace BlockText

def start : BlockText := ⟨[], [], [], false⟩

/-- Begins a line with this character. In folded text the break between two lines that both
begin with a word is a blank, or nothing if there are empty lines between them. -/
def beginLine (b : BlockText) (folded : Bool) (c : Char) : BlockText :=
  let lineBreak :=
    if folded && b.lineBreak == ['\n'] && !b.indented && !isBlank c then
      if b.emptyLines.isEmpty then [' '] else []
    else b.lineBreak
  ⟨c :: (b.emptyLines ++ lineBreak ++ b.text), [], [], isBlank c⟩

def add (b : BlockText) (c : Char) : BlockText := { b with text := c :: b.text }

def finish (b : BlockText) : Ending → List Char
  | .clip => (b.lineBreak ++ b.text).reverse
  | .strip => b.text.reverse
  | .keep => (b.emptyLines ++ b.lineBreak ++ b.text).reverse

end BlockText

def blockLines (folded : Bool) (indent : Nat) :
    (inLine : Bool) → (line column : Nat) → BlockText → List Char → Option (BlockText × Place)
  | _, line, column, b, [] => some (b, ⟨line, column, true, []⟩)
  | true, line, column, b, c :: cs =>
    if isBreak c then blockLines folded indent false (line + 1) 0 { b with lineBreak := [c] } cs
    else blockLines folded indent true line (column + 1) (b.add c) cs
  | false, line, column, b, c :: cs =>
    if isBreak c then
      blockLines folded indent false (line + 1) 0 { b with emptyLines := c :: b.emptyLines } cs
    else if column < indent then
      if c = ' ' then blockLines folded indent false line (column + 1) b cs
      else if c = '\t' then none
      else some (b, ⟨line, column, true, c :: cs⟩)
    else blockLines folded indent true line (column + 1) (b.beginLine folded c) cs

def blockScalar (folded : Bool) (outer : Nat) (p : Place) : Option (Scalar × Place) := do
  let (header, cs) := blockHeader folded p.rest.tail
  let p ← linesBelow p.line cs
  let indent ←
    match header.increment? with
    | some n => some (outer + n)
    | none => (deepestMargin 0 0 p.rest).map (max (outer + 1))
  let (b, p) ← blockLines folded indent false p.line 0 .start p.rest
  return (⟨String.ofList (b.finish header.ending), false⟩, p)

def Place.startsBlock (p : Place) : Bool := p.rest.head? = some '|' || p.rest.head? = some '>'

end HiccupReader.Yaml
