import HiccupReader.Proofs.Documents
import HiccupReader.Reader

/-! Hiccup written as JSON and read back. Blanks outside of string literals are all that the two
written forms differ in. What is written straight from the hiccup is the text of its JSON value. -/

namespace HiccupReader

namespace Json

/-- Leaves out the blanks, but not those in a string literal. Such a literal is closed by the first
quote that is not escaped. -/
def squeeze : (quoted : Bool) → List Char → List Char
  | _, [] => []
  | false, c :: cs => if isBlank c then squeeze false cs else c :: squeeze (decide (c = '"')) cs
  | true, '\\' :: c :: cs => '\\' :: c :: squeeze true cs
  | true, c :: cs => c :: squeeze (decide (c ≠ '"')) cs

variable {rest : List Char}

theorem squeeze_escapeChar (c : Char) (cs : List Char) :
    squeeze true (escapeChar c ++ cs) = escapeChar c ++ squeeze true cs := by
  rcases escapeChar_cases c with ⟨e, h, -, -⟩ | ⟨h, -⟩ | ⟨h, hquote, hbackslash, -⟩
  · rw [h]
    rfl
  · rw [h]
    simp [Text.hexPadded, squeeze, hexDigit_cases]
  · rw [h]
    simp [squeeze, hquote, hbackslash]

theorem squeeze_escaped (cs rest : List Char) :
    squeeze true (cs.flatMap escapeChar ++ '"' :: rest) =
      cs.flatMap escapeChar ++ '"' :: squeeze false rest := by
  induction cs with
  | nil => simp [squeeze]
  | cons c cs ih =>
    rw [List.flatMap_cons, List.append_assoc, squeeze_escapeChar, ih, List.append_assoc]

theorem squeeze_literal (text : String) (rest : List Char) :
    squeeze false (literal text rest) = literal text (squeeze false rest) := by
  have hopen : squeeze false (literal text rest) =
      '"' :: squeeze true (text.toList.flatMap escapeChar ++ '"' :: rest) := rfl
  rw [hopen, squeeze_escaped, literal]

theorem squeeze_blanks (n : Nat) :
    squeeze false (List.replicate n ' ' ++ rest) = squeeze false rest := by
  induction n with
  | zero => rfl
  | succ n ih => exact ih

theorem squeeze_lineBreak (pretty : Bool) (depth : Nat) (rest : List Char) :
    squeeze false (lineBreak pretty depth rest) = squeeze false rest := by
  cases pretty with
  | false => rfl
  | true => exact squeeze_blanks _

theorem squeeze_colon (pretty : Bool) (rest : List Char) :
    squeeze false (colon pretty rest) = ':' :: squeeze false rest := by
  cases pretty <;> rfl

theorem squeeze_mark {c : Char} (hblank : isBlank c = false) (hquote : c ≠ '"') :
    squeeze false (c :: rest) = c :: squeeze false rest := by
  simp [squeeze, hblank, hquote]

mutual

theorem squeeze_write (value : Json) (pretty : Bool) (depth : Nat) (rest : List Char) :
    squeeze false (write pretty depth value rest) =
      write false depth value (squeeze false rest) := by
  cases value with
  | string text => exact squeeze_literal text rest
  | array items =>
    cases items with
    | nil => rfl
    | cons item items =>
      rw [write, squeeze_mark rfl (by decide), squeeze_lineBreak, squeeze_write item,
        squeeze_writeItems items, squeeze_lineBreak, squeeze_mark rfl (by decide)]
      rfl
  | object members =>
    cases members with
    | nil => rfl
    | cons member members =>
      rw [write, squeeze_mark rfl (by decide), squeeze_lineBreak, squeeze_literal, squeeze_colon,
        squeeze_write member.2, squeeze_writeMembers members, squeeze_lineBreak,
        squeeze_mark rfl (by decide)]
      rfl

theorem squeeze_writeItems (items : List Json) (pretty : Bool) (depth : Nat) (rest : List Char) :
    squeeze false (writeItems pretty depth items rest) =
      writeItems false depth items (squeeze false rest) := by
  cases items with
  | nil => rfl
  | cons item items =>
    rw [writeItems, squeeze_mark rfl (by decide), squeeze_lineBreak, squeeze_write item,
      squeeze_writeItems items]
    rfl

theorem squeeze_writeMembers (members : List (String × Json)) (pretty : Bool) (depth : Nat)
    (rest : List Char) : squeeze false (writeMembers pretty depth members rest) =
      writeMembers false depth members (squeeze false rest) := by
  cases members with
  | nil => rfl
  | cons member members =>
    rw [writeMembers, squeeze_mark rfl (by decide), squeeze_lineBreak, squeeze_literal,
      squeeze_colon, squeeze_write member.2, squeeze_writeMembers members]
    rfl

end

theorem squeeze_text (value : Json) :
    String.ofList (squeeze false (value.text true).toList) = value.text false := by
  rw [text, String.toList_ofList, squeeze_write]
  rfl

end Json

namespace Hiccup

mutual

theorem writeJson_eq_write (h : Hiccup) (pretty : Bool) (depth : Nat) (rest : List Char) :
    writeJson pretty depth h rest = Json.write pretty depth h.toJson rest := by
  cases h with
  | leaf text => rfl
  | node name parts =>
    rw [writeJson, writeJsonParts_eq_writeItems parts, toJson, Json.write, Json.write]

theorem writeJsonParts_eq_writeItems (parts : List Hiccup) (pretty : Bool) (depth : Nat)
    (rest : List Char) :
    writeJsonParts pretty depth parts rest =
      Json.writeItems pretty depth (toJsonAll parts) rest := by
  cases parts with
  | nil => rfl
  | cons part parts =>
    rw [writeJsonParts, writeJson_eq_write part, writeJsonParts_eq_writeItems parts, toJsonAll,
      Json.writeItems]

end

theorem json_eq_text (h : Hiccup) (pretty : Bool) : h.json pretty = h.toJson.text pretty :=
  congrArg String.ofList (writeJson_eq_write h pretty 0 [])

theorem ofJson?_json (h : Hiccup) (pretty : Bool) :
    (Json.read? (h.json pretty)).bind ofJson? = some h := by
  rw [json_eq_text, Json.read?_text, Option.bind_some, ofJson?_toJson]

theorem squeeze_json (h : Hiccup) :
    String.ofList (Json.squeeze false (h.json true).toList) = h.json false := by
  rw [json_eq_text, json_eq_text, Json.squeeze_text]

/-- Hiccup is lost in neither written form, nor as a reader prints it, and the two forms differ in
blanks only. -/
theorem json_forms (h : Hiccup) :
    (∀ pretty, (Json.read? (h.json pretty)).bind ofJson? = some h) ∧
      (∀ reader : Reader, (Json.read? (reader.json h)).bind ofJson? = some h) ∧
      String.ofList (Json.squeeze false (h.json true).toList) = h.json false :=
  ⟨h.ofJson?_json, fun reader => h.ofJson?_json reader.settings.pretty, h.squeeze_json⟩

end Hiccup

end HiccupReader
