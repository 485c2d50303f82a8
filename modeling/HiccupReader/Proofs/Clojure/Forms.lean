import HiccupReader.Proofs.Clojure.Completeness
import HiccupReader.Proofs.Clojure.Placing
import HiccupReader.Proofs.Clojure.Shifting

/-! A whole text is a run of forms, with trivia between them and around. -/

namespace HiccupReader

def Tree.topForms : Tree → List Tree
  | .node _ [.node _ forms] => forms
  | _ => []

namespace Clojure

open Matching

section

variable {R : Reading} {options : List Symbol} {c c₁ c₂ : Cursor} {ts us : List Tree}

theorem Items.append (h : Items R options c ts c₁) (h' : Items R options c₁ us c₂) :
    Items R options c (ts ++ us) c₂ := by
  induction h with
  | done => exact h'
  | item hs hread _ ih => exact .item hs hread (ih h')

theorem Items.exists_of_skip_eq {d : Cursor} (h : Items R options c ts c₁)
    (hskip : skipTrivia d = skipTrivia c) :
    ∃ stop, Items R options d ts stop ∧ skipTrivia stop = skipTrivia c₁ := by
  cases h with
  | done => exact ⟨d, .done d, hskip⟩
  | item hs hread hrest =>
    rw [← hskip] at hread
    exact ⟨c₁, .item hs hread hrest, rfl⟩

theorem Items.shift (n : Nat) (h : Items (readingOf matchAt) options c ts c₁) :
    Items (readingOf matchAt) options (c.shift n) (ts.map (Tree.shift n)) (c₁.shift n) := by
  induction h with
  | done c => exact .done _
  | item hs hread _ ih =>
    refine .item hs ?_ ih
    rw [skipTrivia_shift]
    exact reading_shift n hread

theorem FormItems.snug (h : FormItems c ts c₁) : ∀ t ∈ ts, ∀ next, Tree.Snug next t := by
  intro t ht
  obtain ⟨s, hs, d, d', hd, hread⟩ := h.forall_mem t ht
  obtain rfl := List.mem_singleton.1 hs
  exact (seats_of_reading hread).closed hd rfl

theorem exists_formItems_of_valid {ds : List Derivation} {tokens : List Token}
    (h : Derivation.Valid (.node .forms ds)) (hlexed : Lexed c (Rose.leavesAll ds) tokens c₁) :
    ∃ us, FormItems c us c₁ ∧ Matches ds us tokens := by
  cases h with
  | rule hallows hvalid =>
    refine exists_formItems (fun d hd => ?_) hlexed
    have hroot := root_of_forms hallows d hd
    exact ⟨hroot, hvalid d hd, (hvalid d hd).complete (by rw [hroot]; rfl)⟩

theorem FormItems.eq_of_matches {d : Cursor} {ds : List Derivation} {tokens : List Token}
    (h : FormItems c ts c₁) (h' : FormItems d us c₂) (hts : Matches ds ts tokens)
    (hus : Matches ds us tokens) : ts = us :=
  eq_of_snug h.snug h'.snug (hts.shapes.trans hus.shapes.symm) (hts.leaves.trans hus.leaves.symm)

end

theorem exists_items_of_forms {c c' : Cursor} {t : Tree}
    (h : readingOf matchAt (.rule .forms) c t c') :
    ∃ us, FormItems (skipTrivia c) us c' ∧
      t = .node ⟨Rule.forms.index, c.offset, c'.offset⟩ us := by
  obtain ⟨us, hforms, rfl⟩ := produced_of_reading h
  cases hforms with
  | sequence hparts =>
    cases hparts with
    | many hitems hdone =>
      cases hdone
      exact ⟨_, hitems, by rw [List.append_nil]⟩

variable {text : String} {tree : Tree}

theorem exists_items_of_derive (h : derive text = .ok tree) :
    ∃ stop, FormItems (skipTrivia (.start text.toList)) tree.topForms stop ∧
      (skipTrivia stop).rest = [] ∧ ∃ outer inner, tree =
        .node ⟨Rule.code.index, outer⟩ [.node ⟨Rule.forms.index, inner⟩ tree.topForms] := by
  obtain ⟨c, hread⟩ := derive_eq_ok_iff.1 h
  obtain ⟨ts, hcode, rfl⟩ := produced_of_reading hread
  cases hcode with
  | sequence hparts =>
    cases hparts with
    | one hforms hfinish =>
      cases hfinish with
      | finish hend hdone =>
        cases hdone
        obtain ⟨us, hitems, rfl⟩ := exists_items_of_forms hforms
        rw [skipTrivia_skipTrivia] at hitems
        exact ⟨_, hitems, hend, _, _, rfl⟩

theorem leaves_eq_of_topForms {found found' : RuleMatch}
    (h : tree = .node found [.node found' tree.topForms]) :
    tree.leaves = Rose.leavesAll tree.topForms :=
  (congrArg Rose.leaves h).trans (by simp [Rose.leaves, Rose.leavesAll])

theorem exists_derive_of_items {us : List Tree} {stop : Cursor}
    (h : FormItems (skipTrivia (.start text.toList)) us stop) (hend : (skipTrivia stop).rest = []) :
    ∃ tree, derive text = .ok tree ∧ tree.topForms = us := by
  have hforms := result_forms h (settled_skipTrivia _) (.of_end hend)
  have hcode := result_code (reading_of_production hforms) hend
  exact ⟨_, derive_eq_ok_iff.2 ⟨_, reading_of_production hcode⟩, rfl⟩

theorem map_treeShape_topForms {ds : List Derivation}
    (h : treeShape tree = Derivation.shape (.node .code [.node .forms ds])) :
    tree.topForms.map treeShape = ds.map Derivation.shape := by
  rw [Derivation.shape, Rose.map_node, List.map_singleton, Rose.map_node] at h
  cases tree with
  | leaf token => cases h
  | node found ts =>
    rw [treeShape, Rose.map_node] at h
    obtain ⟨t, rfl, ht⟩ := List.map_eq_singleton_iff.1 (Rose.node.inj h).2
    cases t with
    | leaf token => cases ht
    | node found us =>
      rw [Rose.map_node] at ht
      exact (Rose.node.inj ht).2

end Clojure
end HiccupReader
