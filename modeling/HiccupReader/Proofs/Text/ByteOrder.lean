import Mathlib.Data.String.Basic

/-! Texts are ordered by code points, and this is the order of their UTF-8 bytes. -/

namespace HiccupReader.Text

/-- Below the bound a greater number is written later, whatever stands behind it. -/
def Ascends (bound : Nat) (digits : Nat → List UInt8) : Prop :=
  ∀ m n, m < n → n < bound → ∀ xs ys : List UInt8, digits m ++ xs < digits n ++ ys

theorem cons_lt_cons_of_lt {m n : Nat} (h : m < n) (hn : n < 256) (xs ys : List UInt8) :
    UInt8.ofNat m :: xs < UInt8.ofNat n :: ys :=
  List.cons_lt_cons_iff.2 (.inl ((UInt8.ofNat_lt_iff_lt (h.trans hn) hn).2 h))

theorem ascends_lead (size mark : Nat) (h : size + mark ≤ 256) :
    Ascends size fun n => [UInt8.ofNat (n % size + mark)] := by
  intro m n hlt hn xs ys
  refine cons_lt_cons_of_lt ?_ ?_ xs ys
  · rw [Nat.mod_eq_of_lt hn, Nat.mod_eq_of_lt (hlt.trans hn)]
    omega
  · rw [Nat.mod_eq_of_lt hn]
    omega

theorem Ascends.trail {bound : Nat} {digits : Nat → List UInt8} (h : Ascends bound digits) :
    Ascends (64 * bound) fun n => digits (n / 64) ++ [UInt8.ofNat (n % 64 + 128)] := by
  intro m n hlt hn xs ys
  simp only [List.append_assoc]
  rcases Nat.lt_or_ge (m / 64) (n / 64) with hlead | hlead
  · exact h _ _ hlead (by omega) _ _
  · have hsame : m / 64 = n / 64 := by omega
    rw [hsame]
    exact List.append_left_lt (cons_lt_cons_of_lt (by omega) (by omega) xs ys)

/-- The more bytes a character has, the greater its first one is. With as many bytes the first one
that differs decides. -/
theorem utf8EncodeChar_lt {c d : Char} (h : c < d) (xs ys : List UInt8) :
    String.utf8EncodeChar c ++ xs < String.utf8EncodeChar d ++ ys := by
  have hlt : c.val.toNat < d.val.toNat := h
  have hlimit : d.val.toNat < 64 * (64 * (64 * 8)) := by
    rcases d.valid with h | h <;> omega
  have two := (ascends_lead 32 192 (by decide)).trail
  have three := (ascends_lead 16 224 (by decide)).trail.trail
  have four := (ascends_lead 8 240 (by decide)).trail.trail.trail
  simp only [Nat.div_div_eq_div_mul] at three four
  unfold String.utf8EncodeChar
  generalize c.val.toNat = m at hlt
  generalize d.val.toNat = n at hlt hlimit
  dsimp only
  by_cases hone : m ≤ 127
  · rw [if_pos hone]
    split_ifs <;> exact cons_lt_cons_of_lt (by omega) (by omega) _ _
  · rw [if_neg hone, if_neg (show ¬ n ≤ 127 by omega)]
    by_cases htwo : m ≤ 2047
    · rw [if_pos htwo]
      split_ifs with hn
      · exact two m n hlt (by omega) xs ys
      all_goals exact cons_lt_cons_of_lt (by omega) (by omega) _ _
    · rw [if_neg htwo, if_neg (show ¬ n ≤ 2047 by omega)]
      by_cases hthree : m ≤ 65535
      · rw [if_pos hthree]
        split_ifs with hn
        · exact three m n hlt (by omega) xs ys
        · exact cons_lt_cons_of_lt (by omega) (by omega) _ _
      · rw [if_neg hthree, if_neg (show ¬ n ≤ 65535 by omega)]
        exact four m n hlt hlimit xs ys

theorem flatMap_utf8EncodeChar_lt {cs ds : List Char} (h : cs < ds) :
    cs.flatMap String.utf8EncodeChar < ds.flatMap String.utf8EncodeChar := by
  induction cs generalizing ds with
  | nil =>
    cases ds with
    | nil => cases h
    | cons d ds =>
      have hne : String.utf8EncodeChar d ≠ [] := String.utf8EncodeChar_ne_nil
      obtain ⟨byte, more, hbytes⟩ := List.exists_cons_of_ne_nil hne
      rw [List.flatMap_cons, hbytes]
      exact List.nil_lt_cons ..
  | cons c cs ih =>
    cases ds with
    | nil => cases h
    | cons d ds =>
      rw [List.flatMap_cons, List.flatMap_cons]
      rcases List.cons_lt_cons_iff.1 h with hlt | ⟨rfl, hlt⟩
      · exact utf8EncodeChar_lt hlt _ _
      · exact List.append_left_lt (ih hlt)

theorem bytes_eq_flatMap (text : String) :
    text.toUTF8.data.toList = text.toList.flatMap String.utf8EncodeChar := by
  rw [String.toUTF8_eq_toByteArray, ← String.utf8Encode_toList, List.utf8Encode,
    List.toList_data_toByteArray]

theorem bytes_lt_iff {a b : String} : a.toUTF8.data.toList < b.toUTF8.data.toList ↔ a < b := by
  have mono {a b : String} (h : a < b) : a.toUTF8.data.toList < b.toUTF8.data.toList := by
    rw [bytes_eq_flatMap, bytes_eq_flatMap]
    exact flatMap_utf8EncodeChar_lt (String.lt_iff_toList_lt.1 h)
  refine ⟨fun h => ?_, mono⟩
  rcases lt_trichotomy a b with hlt | rfl | hlt
  · exact hlt
  · exact absurd h (List.lt_irrefl _)
  · exact absurd h (List.lt_asymm (mono hlt))

end HiccupReader.Text
