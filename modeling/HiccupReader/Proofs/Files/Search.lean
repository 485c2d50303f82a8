import HiccupReader.Files.Sources
import HiccupReader.Proofs.Outcome
import Mathlib.Data.String.Basic

/-! The order of paths, and what a search makes of the paths that it comes by. Paths are ordered by
their components, each component by its kind and its text. A search ends with paths in strictly
ascending order, so that no two of them have the same components. -/

namespace HiccupReader.Files

namespace Component

variable {a b c : Component}

theorem precedes_iff :
    a.precedes b = true ↔ a.rank < b.rank ∨ a.rank = b.rank ∧ a.text < b.text := by
  simp [precedes]

theorem eq_of_rank {a b : Component} (hrank : a.rank = b.rank) (htext : a.text = b.text) :
    a = b := by
  cases a <;> cases b <;> simp_all [rank, text]

theorem precedes_irrefl (a : Component) : ¬ a.precedes a = true := by
  simp [precedes_iff]

theorem precedes_trans (h : a.precedes b = true) (h' : b.precedes c = true) :
    a.precedes c = true := by
  rw [precedes_iff] at h h' ⊢
  rcases h with h | ⟨h, htext⟩ <;> rcases h' with h' | ⟨h', htext'⟩
  · exact .inl (h.trans h')
  · exact .inl (h' ▸ h)
  · exact .inl (h ▸ h')
  · exact .inr ⟨h.trans h', String.lt_trans htext htext'⟩

theorem precedes_or_eq (a b : Component) : a.precedes b = true ∨ a = b ∨ b.precedes a = true := by
  rw [precedes_iff, precedes_iff]
  rcases lt_trichotomy a.rank b.rank with h | h | h
  · exact .inl (.inl h)
  · rcases lt_trichotomy a.text b.text with htext | htext | htext
    · exact .inl (.inr ⟨h, htext⟩)
    · exact .inr (.inl (eq_of_rank h htext))
    · exact .inr (.inr (.inr ⟨h.symm, htext⟩))
  · exact .inr (.inr (.inl h))

end Component

namespace Path

variable {as bs cs : List Component}

theorem componentsLe_cons_iff {a b : Component} :
    componentsLe (a :: as) (b :: bs) = true ↔
      a.precedes b = true ∨ a = b ∧ componentsLe as bs = true := by
  rw [componentsLe]
  split
  · next h => simp [h, Component.precedes_irrefl]
  · next h => simp [h]

theorem componentsLe_total (as bs : List Component) :
    (componentsLe as bs || componentsLe bs as) = true := by
  rw [Bool.or_eq_true]
  induction as generalizing bs with
  | nil => exact .inl rfl
  | cons a as ih =>
    cases bs with
    | nil => exact .inr rfl
    | cons b bs =>
      rw [componentsLe_cons_iff, componentsLe_cons_iff]
      rcases Component.precedes_or_eq a b with h | rfl | h
      · exact .inl (.inl h)
      · exact (ih bs).imp (fun h => .inr ⟨rfl, h⟩) fun h => .inr ⟨rfl, h⟩
      · exact .inr (.inl h)

theorem componentsLe_trans (h : componentsLe as bs = true) (h' : componentsLe bs cs = true) :
    componentsLe as cs = true := by
  induction as generalizing bs cs with
  | nil => rfl
  | cons a as ih =>
    cases bs with
    | nil => cases h
    | cons b bs =>
      cases cs with
      | nil => cases h'
      | cons c cs =>
        rw [componentsLe_cons_iff] at h h' ⊢
        rcases h with h | ⟨rfl, h⟩ <;> rcases h' with h' | ⟨rfl, h'⟩
        · exact .inl (Component.precedes_trans h h')
        · exact .inl h
        · exact .inl h'
        · exact .inr ⟨rfl, ih h h'⟩

theorem componentsLe_antisymm (h : componentsLe as bs = true) (h' : componentsLe bs as = true) :
    as = bs := by
  induction as generalizing bs with
  | nil =>
    cases bs with
    | nil => rfl
    | cons b bs => cases h'
  | cons a as ih =>
    cases bs with
    | nil => cases h
    | cons b bs =>
      rw [componentsLe_cons_iff] at h h'
      rcases h with h | ⟨rfl, h⟩ <;> rcases h' with h' | ⟨hba, h'⟩
      · exact absurd (Component.precedes_trans h h') (Component.precedes_irrefl a)
      · exact absurd (hba ▸ h) (Component.precedes_irrefl a)
      · exact absurd h' (Component.precedes_irrefl a)
      · rw [ih h h']

end Path

variable {world : World} {roots paths : List String}

def PathLt (a b : String) : Prop :=
  pathLe a b = true ∧ Path.components a ≠ Path.components b

theorem PathLt.trans_le {a b c : String} (h : PathLt a b) (h' : pathLe b c = true) :
    PathLt a c := by
  refine ⟨Path.componentsLe_trans h.1 h', fun heq => h.2 ?_⟩
  rw [pathLe, ← heq] at h'
  exact Path.componentsLe_antisymm h.1 h'

theorem samePath_iff {a b : String} :
    samePath a b = true ↔ Path.components a = Path.components b := by
  simp [samePath]

theorem mem_of_mem_dropRepeats {path : String} (h : path ∈ dropRepeats paths) : path ∈ paths := by
  fun_induction dropRepeats paths with
  | case1 => exact h
  | case2 first paths _ _ => simp_all
  | case3 first paths next rest hrest hsame ih | case4 first paths next rest hrest hsame ih =>
    simp only [List.mem_cons] at h ih ⊢
    grind

theorem pairwise_dropRepeats (h : paths.Pairwise fun a b => pathLe a b = true) :
    (dropRepeats paths).Pairwise PathLt := by
  induction paths with
  | nil => exact .nil
  | cons path paths ih =>
    obtain ⟨hpath, hpaths⟩ := List.pairwise_cons.1 h
    have hothers := ih hpaths
    rw [dropRepeats]
    cases hrest : dropRepeats paths with
    | nil => exact List.pairwise_singleton _ _
    | cons next rest =>
      rw [hrest] at hothers
      obtain ⟨hnext, hrests⟩ := List.pairwise_cons.1 hothers
      have hle : pathLe path next = true :=
        hpath next (mem_of_mem_dropRepeats (hrest ▸ List.mem_cons_self ..))
      simp only
      split
      · next hsame =>
        -- The first of two equal paths stands for both.
        refine List.pairwise_cons.2 ⟨fun other hother => ?_, hrests⟩
        have hlt := hnext other hother
        rw [samePath_iff] at hsame
        rwa [PathLt, pathLe, hsame]
      · next hsame =>
        rw [samePath_iff] at hsame
        have hlt : PathLt path next := ⟨hle, hsame⟩
        refine List.pairwise_cons.2 ⟨?_, hothers⟩
        rintro other (_ | ⟨_, hother⟩)
        · exact hlt
        · exact hlt.trans_le (hnext other hother).1

theorem findSources_eq_ok_iff :
    findSources world roots = .ok paths ↔
      ∃ found, sourcesOf world roots = .ok found ∧
        paths = dropRepeats (found.mergeSort pathLe) := by
  rw [findSources]
  cases h : sourcesOf world roots with
  | error fault => simp [Except.map]
  | ok found => simp [Except.map, eq_comm]

theorem pairwise_findSources (h : findSources world roots = .ok paths) :
    paths.Pairwise PathLt := by
  obtain ⟨found, -, rfl⟩ := findSources_eq_ok_iff.1 h
  have htrans (a b c : String) : pathLe a b = true → pathLe b c = true → pathLe a c = true :=
    Path.componentsLe_trans
  have htotal (a b : String) : (pathLe a b || pathLe b a) = true :=
    Path.componentsLe_total _ _
  exact pairwise_dropRepeats (List.pairwise_mergeSort htrans htotal found)

theorem nodup_findSources (h : findSources world roots = .ok paths) : paths.Nodup :=
  (pairwise_findSources h).imp fun hlt heq => hlt.2 (congrArg Path.components heq)

theorem findSources_eq_of_sorted (h : sourcesOf world roots = .ok paths)
    (hsorted : paths.Pairwise fun a b => pathLe a b = true) :
    findSources world roots = .ok (dropRepeats paths) :=
  findSources_eq_ok_iff.2 ⟨paths, h, by rw [List.mergeSort_of_pairwise hsorted]⟩

namespace Entry

theorem resolve_eq {path : String} (hinside : ¬ "/".toList <+: path.toList)
    (hplain : '\x00' ∉ path.toList ∧ path ≠ "" ∧ Path.isTooLong path = false) (top : Entry) :
    resolve top path = ((Path.segments path).foldlM step (top, [])).map Prod.fst := by
  rw [← String.startsWith_string_eq_false_iff] at hinside
  simp [resolve, hinside, hplain]

theorem step_eq {entries : List (String × Entry)} {name : String} {entry : Entry}
    (hname : name ≠ "" ∧ name ≠ "." ∧ name ≠ ".." ∧ name.utf8ByteSize ≤ Path.nameLimit)
    (hentry : entries.lookup name = some entry) (around : List Entry) :
    step (folder entries, around) name = .ok (entry, folder entries :: around) := by
  obtain ⟨hempty, hhere, hup, hshort⟩ := hname
  simp [step, hempty, hhere, hup, hentry, Nat.not_lt.2 hshort]

end Entry

theorem decode_toUTF8 (text : String) : decode text.toUTF8 = .ok text := by
  unfold decode String.fromUTF8?
  rw [String.toUTF8_eq_toByteArray, dif_pos text.isValidUTF8]
  rfl

end HiccupReader.Files
