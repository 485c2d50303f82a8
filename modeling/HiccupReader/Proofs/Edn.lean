import HiccupReader.Hiccup
import HiccupReader.Proofs.Rose
import HiccupReader.Proofs.Text.Quoted

/-! Hiccup written as EDN. A name ends where a blank or a bracket stands, a text at its closing
quote and a rule at its bracket, so that no two values are written alike if their names are
words. -/

namespace HiccupReader

def isWordChar (c : Char) : Bool := c.isAlphanum || c == '_'

def IsWord (text : String) : Prop := ∀ c ∈ text.toList, isWordChar c = true

instance (text : String) : Decidable (IsWord text) :=
  decidable_of_iff (text.toList.all isWordChar = true) List.all_eq_true

namespace Hiccup

open Matching

def NamedByWords (h : Hiccup) : Prop := ∀ name ∈ h.labels, IsWord name

instance (h : Hiccup) : Decidable h.NamedByWords :=
  inferInstanceAs (Decidable (∀ name ∈ h.labels, _))

theorem any_writeEdnParts (parts : List Hiccup) (rest : List Char) :
    (writeEdnParts parts (']' :: rest)).head?.any isWordChar = false := by
  cases parts <;> rfl

mutual

theorem writeEdn_inj {h h' : Hiccup} {xs ys : List Char} (hwords : ∀ name ∈ h.labels, IsWord name)
    (hwords' : ∀ name ∈ h'.labels, IsWord name) (heq : writeEdn h xs = writeEdn h' ys) :
    h = h' ∧ xs = ys := by
  -- A leaf opens with a quote and a rule with a bracket, so that both values are of one kind.
  cases h with
  | leaf text =>
    cases h' with
    | leaf other =>
      obtain ⟨rfl, rfl⟩ := Text.quoted_inj heq
      exact ⟨rfl, rfl⟩
    | node => cases heq
  | node name parts =>
    cases h' with
    | leaf => cases heq
    | node name' parts' =>
      obtain ⟨hname, hparts⟩ := List.forall_mem_cons.1 hwords
      obtain ⟨hname', hparts'⟩ := List.forall_mem_cons.1 hwords'
      have hopened : name.toList ++ writeEdnParts parts (']' :: xs) =
          name'.toList ++ writeEdnParts parts' (']' :: ys) :=
        (List.cons.inj (List.cons.inj heq).2).2
      obtain ⟨hnames, hinner⟩ := Recogniser.run_unique hname hname' (any_writeEdnParts ..)
        (any_writeEdnParts ..) hopened
      obtain ⟨rfl, rfl⟩ := writeEdnParts_inj hparts hparts' hinner
      exact ⟨by rw [String.toList_inj.1 hnames], rfl⟩

theorem writeEdnParts_inj {parts parts' : List Hiccup} {xs ys : List Char}
    (hwords : ∀ name ∈ Rose.labelsAll parts, IsWord name)
    (hwords' : ∀ name ∈ Rose.labelsAll parts', IsWord name)
    (heq : writeEdnParts parts (']' :: xs) = writeEdnParts parts' (']' :: ys)) :
    parts = parts' ∧ xs = ys := by
  cases parts with
  | nil =>
    cases parts' with
    | nil => exact ⟨rfl, (List.cons.inj heq).2⟩
    | cons => cases heq
  | cons part parts =>
    cases parts' with
    | nil => cases heq
    | cons part' parts' =>
      obtain ⟨hpart, hparts⟩ := List.forall_mem_append.1 hwords
      obtain ⟨hpart', hparts'⟩ := List.forall_mem_append.1 hwords'
      obtain ⟨rfl, hrest⟩ := writeEdn_inj hpart hpart' (List.cons.inj heq).2
      obtain ⟨rfl, rfl⟩ := writeEdnParts_inj hparts hparts' hrest
      exact ⟨rfl, rfl⟩

end

theorem eq_of_edn_eq {h h' : Hiccup} (hwords : h.NamedByWords) (hwords' : h'.NamedByWords)
    (heq : h.edn = h'.edn) : h = h' :=
  (writeEdn_inj hwords hwords' (String.ofList_inj.1 heq)).1

/-- A name that is no word can look like a name and a part. -/
example : edn (.node "a \"b\"" []) = edn (.node "a" [.leaf "b"]) := by decide +kernel

end Hiccup
end HiccupReader
