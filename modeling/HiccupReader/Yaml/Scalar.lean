import HiccupReader.Text.Basic
import HiccupReader.Yaml.Place

/-! Scalars of a YAML text: plain, in single quotes, and in double quotes. A scalar may go on over
several lines, which are then folded: one line break becomes a blank, and each further one is
kept. -/

namespace HiccupReader.Yaml

structure Scalar where
  text : String
  plain : Bool
  deriving DecidableEq

/-- What stands between two words of a scalar: blanks, or line breaks with the blanks around them
left out. The first of the line breaks may be escaped. -/
inductive Gap
  | blanks (cs : List Char)
  | breaks (escaped : Bool) (cs : List Char)

namespace Gap

def none : Gap := blanks []

def isNone : Gap → Bool
  | blanks [] => true
  | _ => false

def hasBreaks : Gap → Bool
  | blanks _ => false
  | breaks _ _ => true

def addBlank (c : Char) : Gap → Gap
  | blanks cs => blanks (cs ++ [c])
  | breaks escaped cs => breaks escaped cs

def addBreak (c : Char) : Gap → Gap
  | blanks _ => breaks false [c]
  | breaks escaped cs => breaks escaped (cs ++ [c])

def fold : Gap → List Char
  | blanks cs => cs
  | breaks false ['\n'] => [' ']
  | breaks false ('\n' :: c :: cs) => c :: cs
  | breaks _ cs => cs

end Gap

def indicators : List Char :=
  ['-', '?', ':', ',', '[', ']', '\x7b', '\x7d', '#', '&', '*', '!', '|', '>', '\x27', '"', '%',
    '@', '\x60']

def startsPlain (flow : Bool) : List Char → Bool
  | [] => false
  | c :: cs =>
    if c = '-' then !wordEnds cs
    else if c = '?' ∨ c = ':' then !flow && !wordEnds cs
    else !(isBlank c || isBreak c || indicators.contains c)

def isFlowIndicator (c : Char) : Bool := [',', '[', ']', '\x7b', '\x7d'].contains c

def plainFrom (flow : Bool) (indent : Nat) :
    (line column : Nat) → Gap → (text : List Char) → List Char → Option (Scalar × Place)
  | line, column, gap, text, [] =>
    some (⟨String.ofList text.reverse, true⟩, ⟨line, column, gap.hasBreaks, []⟩)
  | line, column, gap, text, c :: cs =>
    let done := some (⟨String.ofList text.reverse, true⟩, ⟨line, column, gap.hasBreaks, c :: cs⟩)
    if isBreak c then plainFrom flow indent (line + 1) 0 (gap.addBreak c) text cs
    else if isBlank c then
      if c = '\t' ∧ gap.hasBreaks ∧ column < indent then none
      else plainFrom flow indent line (column + 1) (gap.addBlank c) text cs
    else if gap.hasBreaks ∧ !flow ∧ column < indent then done
    else if column = 0 ∧ bounds (c :: cs) then done
    else if !gap.isNone ∧ c = '#' then done
    else if flow ∧ c = ':' ∧ (cs.head?.any fun d => isFlowIndicator d || d == '?') then none
    else if c = ':' ∧ wordEnds cs then done
    else if flow ∧ isFlowIndicator c then done
    else
      plainFrom flow indent line (column + 1) .none (c :: (gap.fold.reverse ++ text)) cs

/-- Where the reading of a quoted scalar is: in its text, after a single quote that may be the
first of two, after a backslash, or in the digits of an escape. -/
inductive QuoteState
  | inside
  | afterQuote
  | escape
  | digits (left value : Nat)

def unescape? (c : Char) : Option Char :=
  match c with
  | '0' => some '\x00'
  | 'a' => some '\x07'
  | 'b' => some '\x08'
  | 't' | '\t' => some '\t'
  | 'n' => some '\n'
  | 'v' => some '\x0b'
  | 'f' => some '\x0c'
  | 'r' => some '\r'
  | 'e' => some '\x1b'
  | ' ' => some ' '
  | '"' => some '"'
  | '/' => some '/'
  | '\\' => some '\\'
  | 'N' => some '\u0085'
  | '_' => some '\u00a0'
  | 'L' => some '\u2028'
  | 'P' => some '\u2029'
  | _ => none

def escapeWidth? : Char → Option Nat
  | 'x' => some 2
  | 'u' => some 4
  | 'U' => some 8
  | _ => none

def hexValue? (c : Char) : Option Nat :=
  if c.isDigit then some (c.toNat - '0'.toNat)
  else if 'a' ≤ c ∧ c ≤ 'f' then some (c.toNat - 'a'.toNat + 10)
  else if 'A' ≤ c ∧ c ≤ 'F' then some (c.toNat - 'A'.toNat + 10)
  else none

def charOf? (n : Nat) : Option Char :=
  if n.isValidChar then some (Char.ofNat n) else none

def quotedFrom (single : Bool) :
    QuoteState → (line column : Nat) → Gap → (text : List Char) → List Char →
      Option (Scalar × Place)
  | .afterQuote, line, column, _, text, [] =>
    some (⟨String.ofList text.reverse, false⟩, ⟨line, column, false, []⟩)
  | _, _, _, _, _, [] => none
  | .afterQuote, line, column, _, text, c :: cs =>
    if c = '\x27' then quotedFrom single .inside line (column + 1) .none (c :: text) cs
    else some (⟨String.ofList text.reverse, false⟩, ⟨line, column, false, c :: cs⟩)
  | .escape, line, column, _, text, c :: cs =>
    if isBreak c then quotedFrom single .inside (line + 1) 0 (.breaks true []) text cs
    else
      match unescape? c, escapeWidth? c with
      | some d, _ => quotedFrom single .inside line (column + 1) .none (d :: text) cs
      | none, some width =>
        quotedFrom single (.digits width 0) line (column + 1) .none text cs
      | none, none => none
  | .digits left value, line, column, _, text, c :: cs =>
    match hexValue? c with
    | none => none
    | some digit =>
      let value := 16 * value + digit
      if 1 < left then
        quotedFrom single (.digits (left - 1) value) line (column + 1) .none text cs
      else
        match charOf? value with
        | some d => quotedFrom single .inside line (column + 1) .none (d :: text) cs
        | none => none
  | .inside, line, column, gap, text, c :: cs =>
    if isBreak c then quotedFrom single .inside (line + 1) 0 (gap.addBreak c) text cs
    else if isBlank c then
      quotedFrom single .inside line (column + 1) (gap.addBlank c) text cs
    else if column = 0 ∧ bounds (c :: cs) then none
    else
      let text := gap.fold.reverse ++ text
      if single ∧ c = '\x27' then
        quotedFrom single .afterQuote line (column + 1) .none text cs
      else if !single ∧ c = '"' then
        some (⟨String.ofList text.reverse, false⟩, ⟨line, column + 1, false, cs⟩)
      else if !single ∧ c = '\\' then
        quotedFrom single .escape line (column + 1) .none text cs
      else quotedFrom single .inside line (column + 1) .none (c :: text) cs

/-- The scalar at a place, with the place after it. The lines of a plain scalar after its first
have to be indented by `indent`, unless it stands within brackets. -/
def scalarAt (flow : Bool) (indent : Nat) (p : Place) : Option (Scalar × Place) :=
  if p.column = 0 ∧ bounds p.rest then none
  else
    match p.rest with
    | '"' :: cs => quotedFrom false .inside p.line (p.column + 1) .none [] cs
    | '\x27' :: cs => quotedFrom true .inside p.line (p.column + 1) .none [] cs
    | cs =>
      if startsPlain flow cs then plainFrom flow indent p.line p.column .none [] cs else none

end HiccupReader.Yaml
