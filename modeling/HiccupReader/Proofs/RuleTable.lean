import HiccupReader.RuleTable
import Mathlib.Data.List.Nodup

/-! Names and indices of a rule table stand for each other. -/

namespace HiccupReader.RuleTable

variable {table : RuleTable} {i j : Nat}

theorem name?_eq_some_iff {name : String} :
    table.name? i = some name ↔ ∃ entry, table.get? i = some entry ∧ entry.name = name := by
  rw [name?, Option.map_eq_some_iff]

theorem name?_injective {name : String} (hi : table.name? i = some name)
    (hj : table.name? j = some name) : i = j := by
  have hnames : ∀ k, (table.entries.map RuleEntry.name)[k]? = table.name? k := by
    intro k
    rw [List.getElem?_map, name?, get?]
  rw [← hnames] at hi hj
  have hlt : i < (table.entries.map RuleEntry.name).length := by
    obtain ⟨hlt, -⟩ := List.getElem?_eq_some_iff.1 hi
    exact hlt
  exact (List.getElem?_inj hlt table.names_nodup).1 (hi.trans hj.symm)

theorem indexOf?_eq_some_iff {name : String} :
    table.indexOf? name = some i ↔ table.name? i = some name := by
  have name_of_index : ∀ {k}, table.indexOf? name = some k → table.name? k = some name := by
    intro k h
    obtain ⟨hlt, hname, -⟩ := List.findIdx?_eq_some_iff_getElem.1 h
    rw [name?_eq_some_iff]
    exact ⟨table.entries[k], List.getElem?_eq_getElem hlt, by simpa using hname⟩
  constructor
  · exact name_of_index
  · intro h
    obtain ⟨entry, hentry, rfl⟩ := name?_eq_some_iff.1 h
    have hmem : entry ∈ table.entries := List.mem_of_getElem? hentry
    cases hindex : table.indexOf? entry.name with
    | none =>
      have hnone := List.findIdx?_eq_none_iff.1 hindex entry hmem
      simp at hnone
    | some k => rw [name?_injective (name_of_index hindex) h]

def kind? (table : RuleTable) (index : Nat) : Option RuleKind :=
  (table.get? index).map RuleEntry.kind

def HasParser (table : RuleTable) (name : String) : Prop :=
  ∃ entry ∈ table.entries, entry.name = name ∧ entry.kind = .parser

instance (table : RuleTable) (name : String) : Decidable (table.HasParser name) :=
  inferInstanceAs (Decidable (∃ entry ∈ table.entries, _))

section

variable {entry : RuleEntry}

theorem eq_of_name {other : RuleEntry} (h : entry ∈ table.entries) (h' : other ∈ table.entries)
    (hname : other.name = entry.name) : other = entry :=
  List.inj_on_of_nodup_map table.names_nodup h' h hname

theorem hasParser_name_iff (h : entry ∈ table.entries) :
    table.HasParser entry.name ↔ entry.kind = .parser := by
  constructor
  · rintro ⟨other, hother, hname, hkind⟩
    rwa [← eq_of_name h hother hname]
  · exact fun hkind => ⟨entry, h, rfl, hkind⟩

def marks (table : RuleTable) (name : String) : Bool :=
  table.entries.any fun entry => entry.name == name && entry.passthrough

theorem marks_name (h : table.get? i = some entry) :
    table.marks entry.name = entry.passthrough := by
  have hmem : entry ∈ table.entries := List.mem_of_getElem? h
  rw [Bool.eq_iff_iff, marks, List.any_eq_true]
  constructor
  · rintro ⟨other, hother, hmarked⟩
    rw [Bool.and_eq_true, beq_iff_eq] at hmarked
    obtain ⟨hname, hpassthrough⟩ := hmarked
    rwa [← eq_of_name hmem hother hname]
  · intro hpassthrough
    exact ⟨entry, hmem, by simp [hpassthrough]⟩

end

end HiccupReader.RuleTable
