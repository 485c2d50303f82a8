import HiccupReader.Proofs.Matching.Recogniser
import HiccupReader.Text.Basic
import Mathlib.Tactic.SplitIfs

/-! Quoted text read back. Each character is read off the front of its quoted form, whatever stands
behind it, and the first quote that is part of no such form ends the text. -/

namespace HiccupReader.Text

open Matching

def digitValue (c : Char) : Nat :=
  if c.isDigit then c.toNat - '0'.toNat else c.toNat - 'a'.toNat + 10

def hexValue (cs : List Char) : Nat := cs.foldl (fun n c => 16 * n + digitValue c) 0

theorem digitValue_hexDigit (n : Nat) : digitValue (hexDigit n) = n % 16 := by
  have hdigits : ∀ m < 16, digitValue (Nat.digitChar m) = m := by decide
  exact hdigits (n % 16) (Nat.mod_lt _ (by decide))

theorem hexDigit_ne_brace (n : Nat) : hexDigit n ≠ '\x7d' := by
  have hdigits : ∀ m < 16, Nat.digitChar m ≠ '\x7d' := by decide
  exact hdigits (n % 16) (Nat.mod_lt _ (by decide))

theorem hex_eq_append (n : Nat) :
    hex n = (if n < 16 then [] else hex (n / 16)) ++ [hexDigit n] := by
  rw [hex, Nat.toDigits_eq_if (by decide)]
  split_ifs with h
  · rw [hexDigit, Nat.mod_eq_of_lt h, List.nil_append]
  · rfl

theorem hexValue_append_digit (cs : List Char) (n : Nat) :
    hexValue (cs ++ [hexDigit n]) = 16 * hexValue cs + n % 16 := by
  simp [hexValue, digitValue_hexDigit]

theorem hexValue_hex (n : Nat) : hexValue (hex n) = n := by
  induction n using Nat.strongRecOn with
  | ind n ih =>
    rw [hex_eq_append, hexValue_append_digit]
    split_ifs with h
    · have hnone : hexValue [] = 0 := rfl
      omega
    · rw [ih (n / 16) (by omega)]
      omega

theorem brace_not_mem_hex (n : Nat) : '\x7d' ∉ hex n := by
  induction n using Nat.strongRecOn with
  | ind n ih =>
    rw [hex_eq_append, List.mem_append, List.mem_singleton, not_or]
    refine ⟨?_, (hexDigit_ne_brace n).symm⟩
    split_ifs with h
    · exact List.not_mem_nil
    · exact ih (n / 16) (by omega)

def named? : Char → Option Char
  | '"' => some '"'
  | '\\' => some '\\'
  | 't' => some '\t'
  | 'n' => some '\n'
  | 'r' => some '\r'
  | '0' => some '\x00'
  | _ => none

theorem quoteChar_cases (c : Char) :
    (∃ e, quoteChar c = ['\\', e] ∧ named? e = some c) ∨
    quoteChar c = '\\' :: 'u' :: '\x7b' :: (hex c.toNat ++ ['\x7d']) ∨
    (quoteChar c = [c] ∧ c ≠ '"' ∧ c ≠ '\\') := by
  unfold quoteChar
  split_ifs with hquote hbackslash
  iterate 6
    · subst c
      exact .inl ⟨_, rfl, rfl⟩
  · exact .inr (.inl rfl)
  · exact .inr (.inr ⟨rfl, hquote, hbackslash⟩)

/-- The character that is written first, with what is written behind it. A quote alone is not the
form of a character. -/
def unquoteChar? : List Char → Option (Char × List Char)
  | '\\' :: 'u' :: '\x7b' :: cs =>
    (Recogniser.run (· != '\x7d') cs).map fun (digits, left) =>
      (Char.ofNat (hexValue digits), left.tail)
  | '\\' :: e :: cs => (named? e).map fun c => (c, cs)
  | '"' :: _ => none
  | c :: cs => some (c, cs)
  | [] => none

theorem unquoteChar?_quoteChar (c : Char) (rest : List Char) :
    unquoteChar? (quoteChar c ++ rest) = some (c, rest) := by
  rcases quoteChar_cases c with ⟨e, h, he⟩ | h | ⟨h, hquote, hbackslash⟩
  · have hu : e ≠ 'u' := by
      rintro rfl
      cases he
    rw [h]
    simp [unquoteChar?, hu, he]
  · have hdigits : ∀ d ∈ hex c.toNat, (d != '\x7d') = true := fun d hd =>
      bne_iff_ne.2 (List.forall_mem_ne'.2 (brace_not_mem_hex _) d hd)
    have hrun : Recogniser.run (· != '\x7d') (hex c.toNat ++ '\x7d' :: rest) =
        some (hex c.toNat, '\x7d' :: rest) := Recogniser.run_eq_some_iff.2 ⟨hdigits, rfl⟩
    rw [h]
    simp [unquoteChar?, hrun, hexValue_hex, Char.ofNat_toNat]
  · rw [h]
    simp [unquoteChar?, hbackslash]

theorem unquoteChar?_flatMap_cons (c : Char) (cs rest : List Char) :
    unquoteChar? ((c :: cs).flatMap quoteChar ++ rest) =
      some (c, cs.flatMap quoteChar ++ rest) := by
  rw [List.flatMap_cons, List.append_assoc, unquoteChar?_quoteChar]

theorem flatMap_quoteChar_inj {cs ds xs ys : List Char}
    (h : cs.flatMap quoteChar ++ '"' :: xs = ds.flatMap quoteChar ++ '"' :: ys) :
    cs = ds ∧ xs = ys := by
  have hread := congrArg unquoteChar? h
  induction cs generalizing ds with
  | nil =>
    cases ds with
    | nil => exact ⟨rfl, (List.cons.inj h).2⟩
    | cons d ds =>
      rw [unquoteChar?_flatMap_cons] at hread
      cases hread
  | cons c cs ih =>
    rw [unquoteChar?_flatMap_cons] at hread
    cases ds with
    | nil => cases hread
    | cons d ds =>
      rw [unquoteChar?_flatMap_cons] at hread
      obtain ⟨rfl, hrest⟩ := Prod.mk.inj (Option.some.inj hread)
      obtain ⟨rfl, rfl⟩ := ih hrest (congrArg unquoteChar? hrest)
      exact ⟨rfl, rfl⟩

theorem quoted_inj {text other : String} {xs ys : List Char}
    (h : quoted text xs = quoted other ys) : text = other ∧ xs = ys := by
  obtain ⟨htexts, hrest⟩ := flatMap_quoteChar_inj (List.cons.inj h).2
  exact ⟨String.toList_inj.1 htexts, hrest⟩

end HiccupReader.Text
