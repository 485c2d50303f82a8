import HiccupReader.Proofs.Layout.Inlining
import HiccupReader.Proofs.Layout.Walk

/-! Layouts that are set up in steps. The last policy counts and the set of the rules that were
marked, no matter when and how often. -/

namespace HiccupReader.Layout

inductive Step
  | choose (policy : Policy)
  | mark (name : String)
  deriving DecidableEq

def take (layout : Layout) : Step → Layout
  | .choose policy => { layout with policy }
  | .mark name =>
    match layout.splice name with
    | .ok out => out
    | .error _ => layout

def takeAll (layout : Layout) (steps : List Step) : Layout := steps.foldl take layout

def lastPolicy (before : Policy) : List Step → Policy
  | [] => before
  | .choose policy :: steps => lastPolicy policy steps
  | .mark _ :: steps => lastPolicy before steps

def marked (layout : Layout) : List Step → List String
  | [] => []
  | .choose policy :: steps => marked { layout with policy } steps
  | .mark name :: steps =>
    match layout.splice name with
    | .ok out => name :: marked out steps
    | .error _ => marked layout steps

variable {layout out out' : Layout} {names names' : List String}

theorem Spliced.withPolicy (h : Spliced layout names out) (policy : Policy) :
    Spliced { layout with policy } names { out with policy } :=
  ⟨h.table, rfl, h.mem_iff⟩

theorem spliced_takeAll (layout : Layout) (steps : List Step) :
    Spliced { layout with policy := lastPolicy layout.policy steps } (marked layout steps)
      (takeAll layout steps) := by
  induction steps generalizing layout with
  | nil => exact .nil layout
  | cons step steps ih =>
    rw [takeAll, List.foldl_cons, ← takeAll]
    cases step with
    | choose policy => exact ih { layout with policy }
    | mark name =>
      rw [take, lastPolicy, marked]
      cases hsplice : layout.splice name with
      | error fault => exact ih layout
      | ok out =>
        have hout := spliced_of_splice hsplice
        -- A mark keeps the policy, so that the steps behind it choose the same one last.
        rw [← hout.policy]
        exact (hout.withPolicy _).cons (ih out)

theorem hasParser_of_mem_marked {steps : List Step} {name : String}
    (h : name ∈ marked layout steps) : layout.table.HasParser name := by
  induction steps generalizing layout with
  | nil => cases h
  | cons step steps ih =>
    cases step with
    | choose policy =>
      have hmem : name ∈ marked { layout with policy } steps := h
      have hparser := ih hmem
      exact hparser
    | mark other =>
      rw [marked] at h
      cases hsplice : layout.splice other with
      | error fault =>
        rw [hsplice] at h
        exact ih h
      | ok out =>
        rw [hsplice] at h
        rcases List.mem_cons.1 h with rfl | h
        · rw [← refusal?_eq_none_iff, ← fault?_splice, hsplice]
          rfl
        · rw [← (spliced_of_splice hsplice).table]
          exact ih h

def inlinesName (layout : Layout) (name : String) : Bool :=
  (layout.table.indexOf? name).any fun index => (layout.table.get? index).any (layout.inlines index)

theorem inlines_eq_inlinesName {index : Nat} {entry : RuleEntry}
    (h : layout.table.get? index = some entry) :
    layout.inlines index entry = layout.inlinesName entry.name := by
  have hindex : layout.table.indexOf? entry.name = some index :=
    RuleTable.indexOf?_eq_some_iff.2 (RuleTable.name?_eq_some_iff.2 ⟨entry, h, rfl⟩)
  rw [inlinesName, hindex, Option.any_some, h, Option.any_some]

theorem walk_eq_of_inlines (htable : out.table = out'.table)
    (hinlines : ∀ index entry, out.inlines index entry = out'.inlines index entry) (tree : Tree) :
    out.walk tree = out'.walk tree := by
  -- Both inline by name what the nested layout of their table leaves in place.
  have hnames : ∀ index entry, out.table.get? index = some entry →
      out.inlines index entry = out.inlinesName entry.name :=
    fun index entry hentry => inlines_eq_inlinesName hentry
  have hself : InlinesBy out { out with policy := .nested } out.inlinesName :=
    ⟨rfl, rfl, hnames⟩
  have hother : InlinesBy out' { out with policy := .nested } out.inlinesName :=
    ⟨rfl, htable.symm, fun index entry hentry =>
      (hinlines index entry).symm.trans (hnames index entry hentry)⟩
  rw [walk_eq_hiccup, walk_eq_hiccup, hself.hiccup_eq, hother.hiccup_eq]

theorem Spliced.walk_eq (h : Spliced layout names out) (h' : Spliced layout names' out')
    (hnames : ∀ name, name ∈ names ↔ name ∈ names') (tree : Tree) :
    out.walk tree = out'.walk tree := by
  refine walk_eq_of_inlines (h.table.trans h'.table.symm) (fun index entry => ?_) tree
  have hcontains : out.spliced.contains index = out'.spliced.contains index := by
    rw [Bool.eq_iff_iff, List.contains_iff_mem, List.contains_iff_mem, h.mem_iff, h'.mem_iff]
    simp only [hnames]
  rw [inlines, inlines, h.policy, h'.policy, hcontains]

theorem exists_fresh (layout : Layout) (steps : List Step)
    (hnames : ∀ name, name ∈ names ↔ name ∈ marked layout steps) :
    ∃ fresh, { layout with policy := lastPolicy layout.policy steps }.spliceAll names = .ok fresh ∧
      ∀ tree, (takeAll layout steps).walk tree = fresh.walk tree := by
  have hparsers : ∀ name ∈ names, layout.table.HasParser name :=
    fun name hname => hasParser_of_mem_marked ((hnames name).1 hname)
  obtain ⟨fresh, hfresh⟩ :=
    (exists_spliceAll_iff { layout with policy := lastPolicy layout.policy steps } names).2 hparsers
  refine ⟨fresh, hfresh, fun tree => ?_⟩
  exact (spliced_takeAll layout steps).walk_eq (spliced_of_spliceAll hfresh)
    (fun name => (hnames name).symm) tree

end HiccupReader.Layout
