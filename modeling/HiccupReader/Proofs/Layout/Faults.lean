import HiccupReader.Layout.Recursive
import HiccupReader.Proofs.Outcome
import HiccupReader.Proofs.Rose

/-! Which trees have no layout, and why. What is wrong with a node does not depend on which rules
are inlined, and the first node in document order at which something is wrong is the one told. -/

namespace HiccupReader.Layout

variable {layout : Layout}

mutual

def faults (layout : Layout) : Tree → List Fault
  | .leaf token => (fault? (layout.leaf token)).toList
  | .node found children =>
    (fault? (layout.ruleEntry found children.length)).toList ++ faultsAll layout children

def faultsAll (layout : Layout) : List Tree → List Fault
  | [] => []
  | child :: children => faults layout child ++ faultsAll layout children

end

theorem faultsAll_eq_flatMap (children : List Tree) :
    layout.faultsAll children = children.flatMap layout.faults := by
  induction children with
  | nil => rfl
  | cons child children ih => rw [faultsAll, ih, List.flatMap_cons]

theorem head?_toList_append {α : Type} (first : Option α) (others : List α) :
    (first.toList ++ others).head? = first.or others.head? := by
  cases first with
  | none => rfl
  | some value => rfl

theorem fault?_contributions {children : List Tree}
    (h : ∀ child ∈ children, fault? (layout.contribution child) = (layout.faults child).head?) :
    fault? (layout.contributions children) = (layout.faultsAll children).head? := by
  induction children with
  | nil => rfl
  | cons child children ih =>
    obtain ⟨hchild, hchildren⟩ := List.forall_mem_cons.1 h
    rw [contributions, faultsAll, List.head?_append, ← hchild, ← ih hchildren]
    exact fault?_bind fun _ => fault?_bind_pure

theorem fault?_contribution (tree : Tree) :
    fault? (layout.contribution tree) = (layout.faults tree).head? := by
  induction tree using Rose.tree_induction with
  | leaf token =>
    rw [contribution, faults, Option.head?_toList]
    exact fault?_bind_pure
  | node found children ih =>
    rw [contribution, faults, head?_toList_append, ← fault?_contributions ih]
    exact fault?_bind fun _ => fault?_bind_pure

theorem fault?_hiccup (tree : Tree) : fault? (layout.hiccup tree) = (layout.faults tree).head? := by
  cases tree with
  | leaf token => rw [hiccup, faults, Option.head?_toList]
  | node found children =>
    rw [hiccup, faults, head?_toList_append,
      ← fault?_contributions fun child _ => fault?_contribution child]
    exact fault?_bind fun _ => fault?_bind_pure

section

variable {other : Layout} (htable : other.table = layout.table)

include htable

theorem leaf_eq_of_table (token : Token) : other.leaf token = layout.leaf token := by
  unfold leaf
  rw [htable]

theorem ruleEntry_eq_of_table (found : RuleMatch) (children : Nat) :
    other.ruleEntry found children = layout.ruleEntry found children := by
  unfold ruleEntry
  rw [htable]

theorem faults_eq_of_table (tree : Tree) : other.faults tree = layout.faults tree := by
  induction tree using Rose.tree_induction with
  | leaf token => rw [faults, faults, leaf_eq_of_table htable]
  | node found children ih =>
    rw [faults, faults, ruleEntry_eq_of_table htable, faultsAll_eq_flatMap, faultsAll_eq_flatMap,
      List.flatMap_congr ih]

theorem exists_hiccup_of_table {tree : Tree} {h : Hiccup} (hlayout : layout.hiccup tree = .ok h) :
    ∃ h', other.hiccup tree = .ok h' := by
  have hnone : fault? (layout.hiccup tree) = none := fault?_eq_none_iff.2 ⟨h, hlayout⟩
  rw [fault?_hiccup, ← faults_eq_of_table htable, ← fault?_hiccup] at hnone
  exact fault?_eq_none_iff.1 hnone

end

end HiccupReader.Layout
