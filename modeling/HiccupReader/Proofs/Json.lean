import HiccupReader.Json
import Mathlib.Tactic.SplitIfs

/-! Reading JSON texts back. A text is first cut into pieces, marks and texts, where blanks are
passed over and escapes are resolved; a stack of the open arrays and objects then makes a value of
the pieces. Every written form of a value is read as that value. -/

namespace HiccupReader.Json

inductive Piece
  | openArray
  | closeArray
  | openObject
  | closeObject
  | comma
  | colon
  | text (text : String)

def isBlank (c : Char) : Bool := c == ' ' || c == '\n' || c == '\r' || c == '\t'

def mark? : Char → Option Piece
  | '[' => some .openArray
  | ']' => some .closeArray
  | '\x7b' => some .openObject
  | '\x7d' => some .closeObject
  | ',' => some .comma
  | ':' => some .colon
  | _ => none

def escaped? : Char → Option Char
  | '"' => some '"'
  | '\\' => some '\\'
  | '/' => some '/'
  | 'b' => some '\x08'
  | 'f' => some '\x0c'
  | 'n' => some '\n'
  | 'r' => some '\r'
  | 't' => some '\t'
  | _ => none

def hexValue? (c : Char) : Option Nat :=
  if '0' ≤ c && c ≤ '9' then some (c.toNat - '0'.toNat)
  else if 'a' ≤ c && c ≤ 'f' then some (c.toNat - 'a'.toNat + 10)
  else if 'A' ≤ c && c ≤ 'F' then some (c.toNat - 'A'.toNat + 10)
  else none

def unit? (a b c d : Char) : Option Nat := do
  return (((← hexValue? a) * 16 + (← hexValue? b)) * 16 + (← hexValue? c)) * 16 + (← hexValue? d)

def isLead (unit : Nat) : Bool := 0xD800 ≤ unit && unit < 0xDC00

def isTrail (unit : Nat) : Bool := 0xDC00 ≤ unit && unit < 0xE000

/-- What is meant by the characters between two quotes. The lead of a surrogate pair waits for its
trail, and nothing else may follow it. -/
def unescape : (lead? : Option Nat) → List Char → Option (List Char)
  | none, [] => some []
  | some _, [] => none
  | lead?, '\\' :: 'u' :: a :: b :: c :: d :: cs =>
    match unit? a b c d, lead? with
    | none, _ => none
    | some unit, some lead =>
      if isTrail unit then
        (unescape none cs).map
          (Char.ofNat (0x10000 + (lead - 0xD800) * 0x400 + (unit - 0xDC00)) :: ·)
      else none
    | some unit, none =>
      if isLead unit then unescape (some unit) cs
      else if isTrail unit then none
      else (unescape none cs).map (Char.ofNat unit :: ·)
  | some _, _ => none
  | none, '\\' :: c :: cs =>
    match escaped? c with
    | none => none
    | some c => (unescape none cs).map (c :: ·)
  | none, c :: cs => if c = '\\' ∨ c.toNat < 0x20 then none else (unescape none cs).map (c :: ·)

/-- Cuts a text into its pieces, where `raw?` is what was read since the last open quote, in
reverse. -/
def pieces : (raw? : Option (List Char)) → List Char → Option (List Piece)
  | none, [] => some []
  | none, c :: cs =>
    if isBlank c then pieces none cs
    else if c = '"' then pieces (some []) cs
    else
      match mark? c with
      | none => none
      | some mark => (pieces none cs).map (mark :: ·)
  | some _, [] => none
  | some raw, '"' :: cs =>
    match unescape none raw.reverse with
    | none => none
    | some text => (pieces none cs).map (.text (String.ofList text) :: ·)
  | some raw, '\\' :: c :: cs => pieces (some (c :: '\\' :: raw)) cs
  | some raw, c :: cs => pieces (some (c :: raw)) cs

inductive Container
  | array (items : List Json)
  | object (members : List (String × Json)) (key : String)

mutual

def valueFrom? : List Container → List Piece → Option Json
  | stack, .text text :: rest => closeWith? (.string text) stack rest
  | stack, .openArray :: .closeArray :: rest => closeWith? (.array []) stack rest
  | stack, .openArray :: rest => valueFrom? (.array [] :: stack) rest
  | stack, .openObject :: .closeObject :: rest => closeWith? (.object []) stack rest
  | stack, .openObject :: .text key :: .colon :: rest =>
    valueFrom? (.object [] key :: stack) rest
  | _, _ => none

def closeWith? (value : Json) : List Container → List Piece → Option Json
  | [], [] => some value
  | .array items :: stack, .comma :: rest => valueFrom? (.array (value :: items) :: stack) rest
  | .array items :: stack, .closeArray :: rest =>
    closeWith? (.array (items.reverse ++ [value])) stack rest
  | .object members key :: stack, .comma :: .text next :: .colon :: rest =>
    valueFrom? (.object ((key, value) :: members) next :: stack) rest
  | .object members key :: stack, .closeObject :: rest =>
    closeWith? (.object (members.reverse ++ [(key, value)])) stack rest
  | _, _ => none

end

/-- The value that a text writes down. Numbers, booleans and null are no values here. -/
def read? (text : String) : Option Json := (pieces none text.toList).bind (valueFrom? [])

mutual

def spell : Json → List Piece → List Piece
  | .string text, rest => .text text :: rest
  | .array [], rest => .openArray :: .closeArray :: rest
  | .array (item :: items), rest =>
    .openArray :: spell item (spellItems items (.closeArray :: rest))
  | .object [], rest => .openObject :: .closeObject :: rest
  | .object ((key, value) :: members), rest =>
    .openObject :: .text key :: .colon :: spell value (spellMembers members (.closeObject :: rest))

def spellItems : List Json → List Piece → List Piece
  | [], rest => rest
  | item :: items, rest => .comma :: spell item (spellItems items rest)

def spellMembers : List (String × Json) → List Piece → List Piece
  | [], rest => rest
  | (key, value) :: members, rest =>
    .comma :: .text key :: .colon :: spell value (spellMembers members rest)

end

variable {pretty : Bool} {depth : Nat} {rest : List Char} {made : List Piece}

theorem hexDigit_cases (n : Nat) :
    hexValue? (Text.hexDigit n) = some (n % 16) ∧ Text.hexDigit n ≠ '"' ∧
      Text.hexDigit n ≠ '\\' := by
  have hdigits : ∀ m < 16, hexValue? (Nat.digitChar m) = some m ∧ Nat.digitChar m ≠ '"' ∧
      Nat.digitChar m ≠ '\\' := by decide
  exact hdigits (n % 16) (Nat.mod_lt _ (by decide))

theorem escapeChar_cases (c : Char) :
    (∃ e, escapeChar c = ['\\', e] ∧ e ≠ 'u' ∧ escaped? e = some c) ∨
    (escapeChar c = '\\' :: 'u' :: Text.hexPadded 4 c.toNat ∧ c.toNat < 0x20) ∨
    (escapeChar c = [c] ∧ c ≠ '"' ∧ c ≠ '\\' ∧ ¬ c.toNat < 0x20) := by
  unfold escapeChar
  split_ifs with hquote hbackslash _ _ _ _ _ hcontrol
  iterate 7
    · subst c
      exact .inl ⟨_, rfl, by decide, rfl⟩
  · exact .inr (.inl ⟨rfl, hcontrol⟩)
  · exact .inr (.inr ⟨rfl, hquote, hbackslash, hcontrol⟩)

theorem pieces_escapeChar (raw : List Char) (c : Char) (cs : List Char) :
    pieces (some raw) (escapeChar c ++ cs) =
      pieces (some ((escapeChar c).reverse ++ raw)) cs := by
  rcases escapeChar_cases c with ⟨e, h, -, -⟩ | ⟨h, -⟩ | ⟨h, hquote, hbackslash, -⟩
  · rw [h]
    rfl
  · rw [h]
    simp [Text.hexPadded, pieces, hexDigit_cases]
  · rw [h]
    simp [pieces, hbackslash]

theorem hexPadded_four (n : Nat) :
    Text.hexPadded 4 n = [Text.hexDigit (n / 16 / 16 / 16), Text.hexDigit (n / 16 / 16),
      Text.hexDigit (n / 16), Text.hexDigit n] := rfl

theorem unit?_hexDigits {n : Nat} (h : n < 0x10000) :
    unit? (Text.hexDigit (n / 16 / 16 / 16)) (Text.hexDigit (n / 16 / 16))
      (Text.hexDigit (n / 16)) (Text.hexDigit n) = some n := by
  simp only [unit?, hexDigit_cases, Option.pure_def, Option.bind_eq_bind, Option.bind_some,
    Option.some.injEq]
  omega

theorem unescape_escapeChar (c : Char) (cs : List Char) :
    unescape none (escapeChar c ++ cs) = (unescape none cs).map (c :: ·) := by
  rcases escapeChar_cases c with ⟨e, h, hu, he⟩ | ⟨h, hc⟩ | ⟨h, -, hbackslash, hc⟩
  · rw [h]
    simp [unescape, hu, he]
  · have hlead : isLead c.toNat = false := by
      simp only [isLead, Bool.and_eq_false_iff, decide_eq_false_iff_not]
      omega
    have htrail : isTrail c.toNat = false := by
      simp only [isTrail, Bool.and_eq_false_iff, decide_eq_false_iff_not]
      omega
    have hunit := unit?_hexDigits (show c.toNat < 0x10000 by omega)
    rw [h, hexPadded_four]
    simp [unescape, hunit, hlead, htrail, Char.ofNat_toNat]
  · rw [h]
    simp [unescape, hbackslash, hc]

theorem pieces_escaped (raw cs rest : List Char) :
    pieces (some raw) (cs.flatMap escapeChar ++ rest) =
      pieces (some ((cs.flatMap escapeChar).reverse ++ raw)) rest := by
  induction cs generalizing raw with
  | nil => rfl
  | cons c cs ih =>
    rw [List.flatMap_cons, List.append_assoc, pieces_escapeChar, ih, List.reverse_append,
      List.append_assoc]

theorem unescape_escaped (cs : List Char) : unescape none (cs.flatMap escapeChar) = some cs := by
  induction cs with
  | nil => rfl
  | cons c cs ih => rw [List.flatMap_cons, unescape_escapeChar, ih, Option.map_some]

theorem pieces_literal (text : String) (h : pieces none rest = some made) :
    pieces none (literal text rest) = some (.text text :: made) := by
  have hopen : pieces none (literal text rest) =
      pieces (some []) (text.toList.flatMap escapeChar ++ '"' :: rest) := rfl
  rw [hopen, pieces_escaped, List.append_nil, pieces, List.reverse_reverse, unescape_escaped]
  simp [h]

theorem pieces_blanks (n : Nat) :
    pieces none (List.replicate n ' ' ++ rest) = pieces none rest := by
  induction n with
  | zero => rfl
  | succ n ih => exact ih

theorem pieces_lineBreak : pieces none (lineBreak pretty depth rest) = pieces none rest := by
  cases pretty with
  | false => rfl
  | true => exact pieces_blanks _

theorem pieces_colon (h : pieces none rest = some made) :
    pieces none (colon pretty rest) = some (.colon :: made) := by
  cases pretty <;> simp [colon, pieces, isBlank, mark?, h]

theorem pieces_mark {c : Char} {mark : Piece} (hmark : mark? c = some mark)
    (hblank : isBlank c = false) (hquote : c ≠ '"') (h : pieces none rest = some made) :
    pieces none (c :: rest) = some (mark :: made) := by
  simp [pieces, hmark, hblank, hquote, h]

mutual

theorem pieces_write (value : Json) (pretty : Bool) (depth : Nat) {rest : List Char}
    {made : List Piece} (h : pieces none rest = some made) :
    pieces none (write pretty depth value rest) = some (spell value made) := by
  cases value with
  | string text => exact pieces_literal text h
  | array items =>
    cases items with
    | nil => exact pieces_mark rfl rfl (by decide) (pieces_mark rfl rfl (by decide) h)
    | cons item items =>
      have hend : pieces none (lineBreak pretty depth (']' :: rest)) = some (.closeArray :: made) :=
        pieces_lineBreak.trans (pieces_mark rfl rfl (by decide) h)
      exact pieces_mark rfl rfl (by decide) (pieces_lineBreak.trans
        (pieces_write item pretty (depth + 1) (pieces_writeItems items pretty (depth + 1) hend)))
  | object members =>
    cases members with
    | nil => exact pieces_mark rfl rfl (by decide) (pieces_mark rfl rfl (by decide) h)
    | cons member members =>
      have hend : pieces none (lineBreak pretty depth ('\x7d' :: rest)) =
          some (.closeObject :: made) :=
        pieces_lineBreak.trans (pieces_mark rfl rfl (by decide) h)
      exact pieces_mark rfl rfl (by decide) (pieces_lineBreak.trans (pieces_literal member.1
        (pieces_colon (pieces_write member.2 pretty (depth + 1)
          (pieces_writeMembers members pretty (depth + 1) hend)))))

theorem pieces_writeItems (items : List Json) (pretty : Bool) (depth : Nat) {rest : List Char}
    {made : List Piece} (h : pieces none rest = some made) :
    pieces none (writeItems pretty depth items rest) = some (spellItems items made) := by
  cases items with
  | nil => exact h
  | cons item items =>
    exact pieces_mark rfl rfl (by decide) (pieces_lineBreak.trans
      (pieces_write item pretty depth (pieces_writeItems items pretty depth h)))

theorem pieces_writeMembers (members : List (String × Json)) (pretty : Bool) (depth : Nat)
    {rest : List Char} {made : List Piece} (h : pieces none rest = some made) :
    pieces none (writeMembers pretty depth members rest) = some (spellMembers members made) := by
  cases members with
  | nil => exact h
  | cons member members =>
    exact pieces_mark rfl rfl (by decide) (pieces_lineBreak.trans (pieces_literal member.1
      (pieces_colon (pieces_write member.2 pretty depth
        (pieces_writeMembers members pretty depth h)))))

end

mutual

theorem valueFrom?_spell (value : Json) (stack : List Container) (rest : List Piece) :
    valueFrom? stack (spell value rest) = closeWith? value stack rest := by
  cases value with
  | string text => rfl
  | array items =>
    cases items with
    | nil => rfl
    | cons item items =>
      have hopen : valueFrom? stack (spell (.array (item :: items)) rest) =
          valueFrom? (.array [] :: stack)
            (spell item (spellItems items (.closeArray :: rest))) := by
        cases item with
        | string text => rfl
        | array inner => cases inner <;> rfl
        | object inner => cases inner <;> rfl
      rw [hopen, valueFrom?_spell item, closeWith?_spellItems items]
      rfl
  | object members =>
    cases members with
    | nil => rfl
    | cons member members =>
      have hopen : valueFrom? stack (spell (.object (member :: members)) rest) =
          valueFrom? (.object [] member.1 :: stack)
            (spell member.2 (spellMembers members (.closeObject :: rest))) := rfl
      rw [hopen, valueFrom?_spell member.2, closeWith?_spellMembers members]
      rfl

theorem closeWith?_spellItems (items : List Json) (value : Json) (done : List Json)
    (stack : List Container) (rest : List Piece) :
    closeWith? value (.array done :: stack) (spellItems items (.closeArray :: rest)) =
      closeWith? (.array (done.reverse ++ value :: items)) stack rest := by
  cases items with
  | nil => rfl
  | cons item items =>
    have hcomma : closeWith? value (.array done :: stack)
        (spellItems (item :: items) (.closeArray :: rest)) =
          valueFrom? (.array (value :: done) :: stack)
            (spell item (spellItems items (.closeArray :: rest))) := rfl
    rw [hcomma, valueFrom?_spell item, closeWith?_spellItems items, List.reverse_cons,
      List.append_assoc]
    rfl

theorem closeWith?_spellMembers (members : List (String × Json)) (value : Json)
    (done : List (String × Json)) (key : String) (stack : List Container) (rest : List Piece) :
    closeWith? value (.object done key :: stack)
        (spellMembers members (.closeObject :: rest)) =
      closeWith? (.object (done.reverse ++ (key, value) :: members)) stack rest := by
  cases members with
  | nil => rfl
  | cons member members =>
    have hcomma : closeWith? value (.object done key :: stack)
        (spellMembers (member :: members) (.closeObject :: rest)) =
          valueFrom? (.object ((key, value) :: done) member.1 :: stack)
            (spell member.2 (spellMembers members (.closeObject :: rest))) := rfl
    rw [hcomma, valueFrom?_spell member.2, closeWith?_spellMembers members, List.reverse_cons,
      List.append_assoc]
    rfl

end

theorem read?_write (value : Json) (pretty : Bool) {rest : List Char}
    (h : pieces none rest = some []) :
    read? (String.ofList (write pretty 0 value rest)) = some value := by
  rw [read?, String.toList_ofList, pieces_write value pretty 0 h, Option.bind_some,
    valueFrom?_spell]
  rfl

theorem read?_text (value : Json) (pretty : Bool) : read? (value.text pretty) = some value :=
  read?_write value pretty rfl

theorem literal_append (text : String) (xs ys : List Char) :
    literal text xs ++ ys = literal text (xs ++ ys) := by
  simp [literal]

theorem lineBreak_append (pretty : Bool) (depth : Nat) (xs ys : List Char) :
    lineBreak pretty depth xs ++ ys = lineBreak pretty depth (xs ++ ys) := by
  cases pretty <;> simp [lineBreak]

theorem colon_append (pretty : Bool) (xs ys : List Char) :
    colon pretty xs ++ ys = colon pretty (xs ++ ys) := by
  cases pretty <;> rfl

mutual

theorem write_append (value : Json) (pretty : Bool) (depth : Nat) (xs ys : List Char) :
    write pretty depth value xs ++ ys = write pretty depth value (xs ++ ys) := by
  cases value with
  | string text => exact literal_append text xs ys
  | array items =>
    cases items with
    | nil => rfl
    | cons item items =>
      simp only [write, List.cons_append, lineBreak_append, write_append item,
        writeItems_append items]
  | object members =>
    cases members with
    | nil => rfl
    | cons member members =>
      simp only [write, List.cons_append, lineBreak_append, literal_append, colon_append,
        write_append member.2, writeMembers_append members]

theorem writeItems_append (items : List Json) (pretty : Bool) (depth : Nat) (xs ys : List Char) :
    writeItems pretty depth items xs ++ ys = writeItems pretty depth items (xs ++ ys) := by
  cases items with
  | nil => rfl
  | cons item items =>
    simp only [writeItems, List.cons_append, lineBreak_append, write_append item,
      writeItems_append items]

theorem writeMembers_append (members : List (String × Json)) (pretty : Bool) (depth : Nat)
    (xs ys : List Char) :
    writeMembers pretty depth members xs ++ ys = writeMembers pretty depth members (xs ++ ys) := by
  cases members with
  | nil => rfl
  | cons member members =>
    simp only [writeMembers, List.cons_append, lineBreak_append, literal_append, colon_append,
      write_append member.2, writeMembers_append members]

end

theorem read?_text_line (value : Json) (pretty : Bool) :
    read? (value.text pretty ++ "\n") = some value := by
  have hline : value.text pretty ++ "\n" = String.ofList (write pretty 0 value ['\n']) := by
    rw [text, ← List.nil_append ['\n'], ← write_append, String.ofList_append]
  rw [hline]
  exact read?_write value pretty rfl

end HiccupReader.Json
