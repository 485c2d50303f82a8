import HiccupReader.Rose
import Mathlib.Data.List.Basic

/-! Trees with other labels, induction on trees, their parts and the paths down a tree. -/

namespace HiccupReader.Rose

variable {ν μ α β : Type}

/-- What holds of the leaves, and of a node if it holds of all its children, holds of all trees. -/
theorem tree_induction {motive : Rose ν α → Prop} (leaf : ∀ value, motive (.leaf value))
    (node : ∀ label children, (∀ t ∈ children, motive t) → motive (.node label children)) :
    (t : Rose ν α) → motive t
  | .leaf value => leaf value
  | .node label children => node label children fun t _ => tree_induction leaf node t
termination_by t => sizeOf t
decreasing_by
  have := List.sizeOf_lt_of_mem ‹t ∈ children›
  simp only [Rose.node.sizeOf_spec]
  omega

mutual

def map (f : ν → μ) (g : α → β) : Rose ν α → Rose μ β
  | leaf value => leaf (g value)
  | node label children => node (f label) (mapAll f g children)

def mapAll (f : ν → μ) (g : α → β) : List (Rose ν α) → List (Rose μ β)
  | [] => []
  | t :: ts => map f g t :: mapAll f g ts

end

theorem mapAll_eq_map (f : ν → μ) (g : α → β) (ts : List (Rose ν α)) :
    mapAll f g ts = ts.map (map f g) := by
  induction ts with
  | nil => rfl
  | cons t ts ih => rw [mapAll, ih, List.map_cons]

@[simp] theorem map_leaf (f : ν → μ) (g : α → β) (value : α) :
    (leaf value).map f g = leaf (g value) := by rw [map]

@[simp] theorem map_node (f : ν → μ) (g : α → β) (label : ν) (children : List (Rose ν α)) :
    (node label children).map f g = node (f label) (children.map (map f g)) := by
  rw [map, mapAll_eq_map]

theorem leavesAll_eq_flatMap (ts : List (Rose ν α)) : leavesAll ts = ts.flatMap leaves := by
  induction ts with
  | nil => rfl
  | cons t ts ih => rw [leavesAll, ih, List.flatMap_cons]

theorem leaves_map (f : ν → μ) (g : α → β) (t : Rose ν α) :
    (t.map f g).leaves = t.leaves.map g := by
  induction t using tree_induction with
  | leaf value => simp [leaves]
  | node label children ih =>
    rw [map_node, leaves, leaves, leavesAll_eq_flatMap, leavesAll_eq_flatMap, List.flatMap_map,
      List.map_flatMap]
    exact List.flatMap_congr ih

theorem map_injective {f : ν → μ} {g : α → β} (hf : ∀ a b, f a = f b → a = b)
    (hg : ∀ a b, g a = g b → a = b) (t u : Rose ν α) (h : t.map f g = u.map f g) : t = u := by
  induction t using tree_induction generalizing u with
  | leaf value =>
    cases u with
    | leaf other =>
      rw [map_leaf, map_leaf] at h
      rw [hg value other (Rose.leaf.inj h)]
    | node other children =>
      rw [map_leaf, map_node] at h
      cases h
  | node label children ih =>
    cases u with
    | leaf other =>
      rw [map_leaf, map_node] at h
      cases h
    | node other siblings =>
      rw [map_node, map_node] at h
      obtain ⟨hlabel, hchildren⟩ := Rose.node.inj h
      rw [hf label other hlabel]
      congr 1
      -- The children agree one by one, each by the induction on trees.
      clear h hlabel
      induction children generalizing siblings with
      | nil => exact (List.map_eq_nil_iff.1 hchildren.symm).symm
      | cons t ts ihts =>
        cases siblings with
        | nil => cases hchildren
        | cons v vs =>
          obtain ⟨htv, hrest⟩ := List.cons.inj hchildren
          rw [ih t (List.mem_cons_self ..) v htv,
            ihts (fun t ht => ih t (List.mem_cons_of_mem _ ht)) vs hrest]

theorem map_map {ξ γ : Type} (f : ν → μ) (g : α → β) (f' : μ → ξ) (g' : β → γ) (t : Rose ν α) :
    (t.map f g).map f' g' = t.map (f' ∘ f) (g' ∘ g) := by
  induction t using tree_induction with
  | leaf value => simp
  | node label children ih =>
    simp only [map_node, List.map_map, Function.comp_apply]
    exact congrArg _ (List.map_congr_left ih)

theorem eq_of_leaves_append {g : α → β} {t u : Rose ν α} {vs ws : List α}
    (hshape : t.map id g = u.map id g) (hleaves : t.leaves ++ vs = u.leaves ++ ws) :
    t = u ∧ vs = ws := by
  induction t using tree_induction generalizing u vs ws with
  | leaf value =>
    cases u with
    | leaf other =>
      obtain ⟨rfl, rfl⟩ := List.cons.inj hleaves
      exact ⟨rfl, rfl⟩
    | node other siblings => simp at hshape
  | node label children ih =>
    cases u with
    | leaf other => simp at hshape
    | node other siblings =>
      rw [map_node, map_node] at hshape
      obtain ⟨hlabel, hchildren⟩ := Rose.node.inj hshape
      obtain rfl : label = other := hlabel
      rw [leaves, leaves] at hleaves
      clear hshape
      induction children generalizing siblings with
      | nil =>
        obtain rfl := List.map_eq_nil_iff.1 hchildren.symm
        exact ⟨rfl, hleaves⟩
      | cons t ts ihts =>
        obtain ⟨u, us, rfl, hfirst, hothers⟩ := List.map_eq_cons_iff.1 hchildren.symm
        obtain ⟨ht, hts⟩ := List.forall_mem_cons.1 ih
        rw [leavesAll, leavesAll, List.append_assoc, List.append_assoc] at hleaves
        obtain ⟨rfl, hrest⟩ := ht hfirst.symm hleaves
        obtain ⟨hnode, rfl⟩ := ihts hts us hothers.symm hrest
        exact ⟨by rw [(Rose.node.inj hnode).2], rfl⟩

theorem eq_of_leaves {g : α → β} {t u : Rose ν α} (hshape : t.map id g = u.map id g)
    (hleaves : t.leaves = u.leaves) : t = u := by
  have happend : t.leaves ++ [] = u.leaves ++ [] := by rw [hleaves]
  exact (eq_of_leaves_append hshape happend).1

inductive Within : Rose ν α → Rose ν α → Prop
  | whole (t : Rose ν α) : Within t t
  | inside {label : ν} {t u : Rose ν α} {children : List (Rose ν α)} : u ∈ children → Within t u →
    Within t (node label children)

mutual

def parts : Rose ν α → List (Rose ν α)
  | leaf value => [leaf value]
  | node label children => node label children :: partsAll children

def partsAll : List (Rose ν α) → List (Rose ν α)
  | [] => []
  | t :: ts => parts t ++ partsAll ts

end

theorem partsAll_eq_flatMap (ts : List (Rose ν α)) : partsAll ts = ts.flatMap parts := by
  induction ts with
  | nil => rfl
  | cons t ts ih => rw [partsAll, ih, List.flatMap_cons]

theorem mem_parts_iff {t u : Rose ν α} : t ∈ u.parts ↔ Within t u := by
  constructor
  · intro h
    induction u using tree_induction with
    | leaf value =>
      obtain rfl := List.mem_singleton.1 h
      exact .whole _
    | node label children ih =>
      rw [parts, partsAll_eq_flatMap] at h
      rcases List.mem_cons.1 h with rfl | h
      · exact .whole _
      · obtain ⟨child, hchild, hmem⟩ := List.mem_flatMap.1 h
        exact .inside hchild (ih child hchild hmem)
  · intro h
    induction h with
    | whole t => cases t <;> exact List.mem_cons_self ..
    | inside hchild _ ih =>
      rw [parts, partsAll_eq_flatMap]
      exact List.mem_cons_of_mem _ (List.mem_flatMap.2 ⟨_, hchild, ih⟩)

mutual

def labels : Rose ν α → List ν
  | leaf _ => []
  | node label children => label :: labelsAll children

def labelsAll : List (Rose ν α) → List ν
  | [] => []
  | t :: ts => labels t ++ labelsAll ts

end

@[simp] theorem labelsAll_append (xs ys : List (Rose ν α)) :
    labelsAll (xs ++ ys) = labelsAll xs ++ labelsAll ys := by
  induction xs with
  | nil => rfl
  | cons t ts ih => rw [List.cons_append, labelsAll, labelsAll, ih, List.append_assoc]

inductive Path : Rose ν α → List ν → Prop
  | leaf (value : α) : Path (leaf value) []
  | here (label : ν) (children : List (Rose ν α)) : Path (node label children) [label]
  | down {label : ν} {t : Rose ν α} {children : List (Rose ν α)} {labels : List ν} :
    t ∈ children → Path t labels → Path (node label children) (label :: labels)

mutual

def nesting (p : ν → Bool) : Rose ν α → Nat
  | leaf _ => 0
  | node label children => (if p label then 1 else 0) + nestingAll p children

def nestingAll (p : ν → Bool) : List (Rose ν α) → Nat
  | [] => 0
  | t :: ts => max (nesting p t) (nestingAll p ts)

end

variable {p : ν → Bool}

theorem nesting_le_nestingAll {t : Rose ν α} {ts : List (Rose ν α)} (h : t ∈ ts) :
    nesting p t ≤ nestingAll p ts := by
  induction ts with
  | nil => cases h
  | cons u ts ih =>
    rw [nestingAll]
    rcases List.mem_cons.1 h with rfl | h
    · exact Nat.le_max_left _ _
    · exact Nat.le_trans (ih h) (Nat.le_max_right _ _)

theorem exists_nesting_eq_nestingAll {ts : List (Rose ν α)} (h : ts ≠ []) :
    ∃ t ∈ ts, nesting p t = nestingAll p ts := by
  induction ts with
  | nil => exact absurd rfl h
  | cons t ts ih =>
    rw [nestingAll]
    by_cases hle : nestingAll p ts ≤ nesting p t
    · exact ⟨t, List.mem_cons_self .., (Nat.max_eq_left hle).symm⟩
    · have hne : ts ≠ [] := by
        rintro rfl
        exact hle (Nat.zero_le _)
      obtain ⟨u, hu, heq⟩ := ih hne
      exact ⟨u, List.mem_cons_of_mem _ hu, by omega⟩

theorem Path.countP_le_nesting {t : Rose ν α} {labels : List ν} (h : Path t labels) :
    labels.countP p ≤ t.nesting p := by
  induction h with
  | leaf value => exact Nat.zero_le _
  | here label children =>
    rw [List.countP_singleton, nesting]
    exact Nat.le_add_right _ _
  | down hmem _ ih =>
    have hle := nesting_le_nestingAll (p := p) hmem
    rw [List.countP_cons, nesting]
    omega

theorem exists_path_countP_eq_nesting (p : ν → Bool) (t : Rose ν α) :
    ∃ labels, Path t labels ∧ labels.countP p = t.nesting p := by
  induction t using tree_induction with
  | leaf value => exact ⟨[], .leaf value, rfl⟩
  | node label children ih =>
    by_cases hne : children = []
    · subst hne
      exact ⟨[label], .here label [], by rw [List.countP_singleton, nesting, nestingAll]; rfl⟩
    · obtain ⟨t, ht, hmost⟩ := exists_nesting_eq_nestingAll (p := p) hne
      obtain ⟨labels, hpath, hcount⟩ := ih t ht
      refine ⟨label :: labels, .down ht hpath, ?_⟩
      rw [List.countP_cons, nesting, hcount, hmost, Nat.add_comm]

theorem nesting_map (q : μ → Bool) (f : ν → μ) (g : α → β) (t : Rose ν α) :
    (t.map f g).nesting q = t.nesting (q ∘ f) := by
  induction t using tree_induction with
  | leaf value => rw [map_leaf, nesting, nesting]
  | node label children ih =>
    have hchildren : nestingAll q (children.map (map f g)) = nestingAll (q ∘ f) children := by
      clear label
      induction children with
      | nil => rfl
      | cons t ts ihts =>
        obtain ⟨ht, hts⟩ := List.forall_mem_cons.1 ih
        rw [List.map_cons, nestingAll, nestingAll, ht, ihts hts]
    rw [map_node, nesting, nesting, hchildren]
    rfl

mutual

def leavesUnder (p : ν → Bool) (around : Nat) : Rose ν α → List (Nat × α)
  | leaf value => [(around, value)]
  | node label children => leavesUnderAll p (around + if p label then 1 else 0) children

def leavesUnderAll (p : ν → Bool) (around : Nat) : List (Rose ν α) → List (Nat × α)
  | [] => []
  | t :: ts => leavesUnder p around t ++ leavesUnderAll p around ts

end

theorem leavesUnderAll_eq_flatMap (around : Nat) (ts : List (Rose ν α)) :
    leavesUnderAll p around ts = ts.flatMap (leavesUnder p around) := by
  induction ts with
  | nil => rfl
  | cons t ts ih => rw [leavesUnderAll, ih, List.flatMap_cons]

theorem map_snd_leavesUnder (around : Nat) (t : Rose ν α) :
    (t.leavesUnder p around).map Prod.snd = t.leaves := by
  induction t using tree_induction generalizing around with
  | leaf value => rfl
  | node label children ih =>
    rw [leavesUnder, leaves, leavesUnderAll_eq_flatMap, leavesAll_eq_flatMap, List.map_flatMap]
    exact List.flatMap_congr fun t ht => ih t ht _

end HiccupReader.Rose
