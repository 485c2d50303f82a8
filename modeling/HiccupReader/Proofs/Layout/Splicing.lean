import HiccupReader.Layout.Basic
import HiccupReader.Proofs.Outcome
import HiccupReader.Proofs.RuleTable
import Mathlib.Data.List.Basic

/-! Marking rules as inlined adds just their indices to a layout. Only the names of parser rules can
be marked. -/

namespace HiccupReader.Layout

variable {layout out : Layout}

structure Spliced (layout : Layout) (names : List String) (out : Layout) : Prop where
  table : out.table = layout.table
  policy : out.policy = layout.policy
  mem_iff : ∀ index, index ∈ out.spliced ↔
    index ∈ layout.spliced ∨ ∃ name ∈ names, layout.table.name? index = some name

theorem Spliced.nil (layout : Layout) : Spliced layout [] layout := ⟨rfl, rfl, by simp⟩

theorem Spliced.cons {mid : Layout} {name : String} {names : List String}
    (h : Spliced layout [name] mid) (h' : Spliced mid names out) :
    Spliced layout (name :: names) out := by
  refine ⟨h'.table.trans h.table, h'.policy.trans h.policy, fun index => ?_⟩
  rw [h'.mem_iff, h.mem_iff, h.table]
  simp [or_assoc]

theorem spliced_of_splice {name : String} (h : layout.splice name = .ok out) :
    Spliced layout [name] out := by
  unfold splice at h
  split at h
  · cases h
  · next found hfound =>
    split at h
    · cases h
    · obtain rfl := Except.ok.inj h
      refine ⟨rfl, rfl, fun index => ?_⟩
      have hname : index = found ↔ layout.table.name? index = some name := by
        rw [← RuleTable.indexOf?_eq_some_iff, hfound, Option.some.injEq, eq_comm]
      simp [List.mem_insert_iff, hname, or_comm]

theorem spliced_of_spliceAll {names : List String} (h : layout.spliceAll names = .ok out) :
    Spliced layout names out := by
  induction names generalizing layout with
  | nil =>
    obtain rfl := Except.ok.inj h
    exact .nil layout
  | cons name names ih =>
    obtain ⟨mid, hfirst, hrest⟩ := bind_eq_ok_iff.1 h
    exact (spliced_of_splice hfirst).cons (ih hrest)

def refusal? (table : RuleTable) (name : String) : Option SpliceFault :=
  if table.HasParser name then none
  else if ∃ entry ∈ table.entries, entry.name = name then some (.tokenName name)
  else some (.unknownName name)

theorem refusal?_eq_none_iff {table : RuleTable} {name : String} :
    refusal? table name = none ↔ table.HasParser name := by
  unfold refusal?
  split_ifs <;> simp_all

theorem fault?_splice (name : String) :
    fault? (layout.splice name) = refusal? layout.table name := by
  unfold splice refusal?
  cases hindex : layout.table.indexOf? name with
  | none =>
    have hname : ∀ entry ∈ layout.table.entries, entry.name ≠ name := by
      simpa [RuleTable.indexOf?] using hindex
    rw [if_neg fun ⟨entry, hentry, heq, _⟩ => hname entry hentry heq,
      if_neg fun ⟨entry, hentry, heq⟩ => hname entry hentry heq]
    rfl
  | some index =>
    obtain ⟨entry, hentry, rfl⟩ :=
      RuleTable.name?_eq_some_iff.1 (RuleTable.indexOf?_eq_some_iff.1 hindex)
    have hmem : entry ∈ layout.table.entries := List.mem_of_getElem? hentry
    have hnamed : ∃ other ∈ layout.table.entries, other.name = entry.name := ⟨entry, hmem, rfl⟩
    simp only [hentry, Option.map_some, RuleTable.hasParser_name_iff hmem, if_pos hnamed]
    cases entry.kind <;> rfl

theorem fault?_spliceAll (names : List String) :
    fault? (layout.spliceAll names) = names.findSome? (refusal? layout.table) := by
  induction names generalizing layout with
  | nil => rfl
  | cons name names ih =>
    rw [spliceAll, List.findSome?_cons, ← fault?_splice]
    cases hfirst : layout.splice name with
    | error fault => rfl
    | ok out =>
      rw [ok_bind, ih, (spliced_of_splice hfirst).table]
      rfl

theorem exists_spliceAll_iff (layout : Layout) (names : List String) :
    (∃ out, layout.spliceAll names = .ok out) ↔
      ∀ name ∈ names, layout.table.HasParser name := by
  simp only [← fault?_eq_none_iff, fault?_spliceAll, List.findSome?_eq_none_iff,
    refusal?_eq_none_iff]

theorem spliceAll_eq_error_iff {names : List String} {fault : SpliceFault} :
    layout.spliceAll names = .error fault ↔ ∃ before name after, names = before ++ name :: after ∧
      refusal? layout.table name = some fault ∧
      ∀ earlier ∈ before, layout.table.HasParser earlier := by
  simp only [← fault?_eq_some_iff, fault?_spliceAll, List.findSome?_eq_some_iff,
    refusal?_eq_none_iff]

end HiccupReader.Layout
