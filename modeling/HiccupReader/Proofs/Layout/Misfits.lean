import HiccupReader.Proofs.Layout.Inlining
import HiccupReader.Proofs.Layout.Walk

/-! Trees that do not fit the rule table. They are just the trees that the walk refuses. It tells
what is wrong with the first part in document order that does not fit, whatever is inlined. -/

namespace HiccupReader

namespace Tree

def kind : Tree → RuleKind
  | .leaf _ => .token
  | .node _ _ => .parser

def Fits (table : RuleTable) (tree : Tree) : Prop := table.kind? tree.rule = some tree.kind

instance (table : RuleTable) (tree : Tree) : Decidable (Fits table tree) :=
  inferInstanceAs (Decidable (_ = _))

/-- What kind of trouble a root is that does not fit. Only a node can name an unknown rule. -/
def misfitKind (table : RuleTable) : Tree → DiagnosticKind
  | .leaf _ => .unexpectedNodeKind
  | .node found _ =>
    if table.kind? found.rule = none then .unknownRule else .unexpectedNodeKind

end Tree

namespace Layout

variable {layout : Layout}

def rootFault? (layout : Layout) : Tree → Option Fault
  | .leaf token => fault? (layout.leaf token)
  | .node found children => fault? (layout.ruleEntry found children.length)

theorem rootFault?_eq_none_iff (tree : Tree) :
    layout.rootFault? tree = none ↔ tree.Fits layout.table := by
  cases tree with
  | leaf token =>
    rw [rootFault?, leaf, Tree.Fits, RuleTable.kind?, Tree.rule]
    cases layout.table.get? token.rule with
    | none => simp [fault?]
    | some entry => cases hkind : entry.kind <;> simp [fault?, Tree.kind, hkind]
  | node found children =>
    rw [rootFault?, ruleEntry, Tree.Fits, RuleTable.kind?, Tree.rule]
    cases layout.table.get? found.rule with
    | none => simp [fault?]
    | some entry => cases hkind : entry.kind <;> simp [fault?, Tree.kind, hkind]

theorem diagnostic_of_rootFault? {tree : Tree} {fault : Fault}
    (h : layout.rootFault? tree = some fault) :
    fault.diagnostic.kind = tree.misfitKind layout.table ∧
      fault.diagnostic.span? = some tree.span ∧ fault.diagnostic.source? = none := by
  cases tree with
  | leaf token =>
    rw [rootFault?, fault?_eq_some_iff, leaf] at h
    split at h
    · obtain rfl := Except.error.inj h
      exact ⟨rfl, rfl, rfl⟩
    · split at h
      · cases h
      · obtain rfl := Except.error.inj h
        exact ⟨rfl, rfl, rfl⟩
  | node found children =>
    rw [rootFault?, fault?_eq_some_iff, ruleEntry] at h
    rw [Tree.misfitKind, RuleTable.kind?]
    split at h
    · next hentry =>
      obtain rfl := Except.error.inj h
      exact ⟨by rw [hentry]; rfl, rfl, rfl⟩
    · next entry hentry =>
      split at h
      · cases h
      · obtain rfl := Except.error.inj h
        exact ⟨by rw [hentry]; rfl, rfl, rfl⟩

theorem faults_eq_filterMap (tree : Tree) :
    layout.faults tree = tree.parts.filterMap layout.rootFault? := by
  induction tree using Rose.tree_induction with
  | leaf token =>
    rw [faults, Rose.parts, List.filterMap_cons, rootFault?]
    cases fault? (layout.leaf token) <;> rfl
  | node found children ih =>
    rw [faults, Rose.parts, List.filterMap_cons, rootFault?, faultsAll_eq_flatMap,
      Rose.partsAll_eq_flatMap, List.filterMap_flatMap, List.flatMap_congr ih]
    cases fault? (layout.ruleEntry found children.length) <;> rfl

theorem walk_eq_error_iff {tree : Tree} {fault : Fault} :
    layout.walk tree = .error fault ↔ tree.parts.findSome? layout.rootFault? = some fault := by
  rw [walk_eq_hiccup, ← fault?_eq_some_iff, fault?_hiccup, faults_eq_filterMap,
    List.head?_filterMap]

/-- The walk fails just where some part does not fit. It tells of the first one in document order,
and it tells the same in every layout with this table. -/
theorem walk_fails_at_first_misfit (layout : Layout) (tree : Tree) :
    ((∃ fault, layout.walk tree = .error fault) ↔
      ∃ part ∈ tree.parts, ¬ Tree.Fits layout.table part) ∧
    ∀ fault, layout.walk tree = .error fault →
      (∃ before part after, tree.parts = before ++ part :: after ∧
        (∀ earlier ∈ before, Tree.Fits layout.table earlier) ∧
        ¬ Tree.Fits layout.table part ∧
        fault.diagnostic.kind = Tree.misfitKind layout.table part ∧
        fault.diagnostic.span? = some (Tree.span part) ∧ fault.diagnostic.source? = none) ∧
      ∀ policy spliced, walk { layout with policy, spliced } tree = .error fault := by
  simp only [walk_eq_error_iff]
  refine ⟨?_, fun fault h => ⟨?_, fun policy spliced => ?_⟩⟩
  · rw [← Option.isSome_iff_exists, List.findSome?_isSome_iff]
    simp only [← rootFault?_eq_none_iff, Option.isSome_iff_ne_none, Ne]
  · obtain ⟨before, part, after, hparts, hpart, hbefore⟩ := List.findSome?_eq_some_iff.1 h
    refine ⟨before, part, after, hparts, ?_, ?_, diagnostic_of_rootFault? hpart⟩
    · exact fun earlier hearlier => (rootFault?_eq_none_iff earlier).1 (hbefore earlier hearlier)
    · rw [← rootFault?_eq_none_iff, hpart]
      exact Option.some_ne_none fault
  · have htable : { layout with policy, spliced }.table = layout.table := rfl
    rw [← List.head?_filterMap, ← faults_eq_filterMap] at h ⊢
    rwa [faults_eq_of_table htable]

/-- Three misfits. The first one, a token in the place of a rule, is in a part that may be inlined.
Behind it a leaf stands for a rule, and a rule is none of the table. -/
def misfitTree : Tree :=
  .node ⟨0, 0, 3⟩ [.node ⟨1, 0, 2⟩ [.leaf ⟨6, "a", 0, 1⟩, .node ⟨4, 1, 2⟩ []],
    .leaf ⟨3, "b", 2, 3⟩, .node ⟨9, 3, 3⟩ []]

theorem misfitTree_walk : ∃ fault, walk { table := listTable, policy := .flat } misfitTree =
      .error fault ∧ fault.diagnostic.kind = .unexpectedNodeKind ∧
    fault.diagnostic.span? = some ⟨1, 2⟩ ∧
    ∀ policy spliced, walk { table := listTable, policy, spliced } misfitTree = .error fault := by
  have hwalk : walk { table := listTable, policy := .flat } misfitTree =
      .error (.nodeOfTokenRule ⟨4, 1, 2⟩ 0 "LPAREN") := by
    rw [walk_eq_hiccup]
    rfl
  exact ⟨_, hwalk, rfl, rfl, ((walk_fails_at_first_misfit _ _).2 _ hwalk).2⟩

end Layout
end HiccupReader
