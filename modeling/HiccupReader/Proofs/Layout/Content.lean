import HiccupReader.Proofs.Layout.Walk
import HiccupReader.Proofs.Tree

/-! A layout looks at rules and texts only, so that trees that differ in their places have the same
hiccup. -/

namespace HiccupReader

namespace Layout

variable {layout : Layout}

theorem leaf_congr {token other : Token} (h : token.content = other.content) {leaf : Hiccup}
    (hleaf : layout.leaf token = .ok leaf) : layout.leaf other = .ok leaf := by
  obtain ⟨hrule, htext⟩ := Prod.mk.inj h
  rw [Layout.leaf] at hleaf ⊢
  rw [hrule] at hleaf
  split at hleaf
  · cases hleaf
  · next entry _ =>
    cases hkind : entry.kind with
    | token =>
      rw [hkind, htext] at hleaf
      exact hleaf
    | parser =>
      rw [hkind] at hleaf
      cases hleaf

theorem ruleEntry_congr {found other : RuleMatch} (h : found.rule = other.rule)
    {children count : Nat} {entry : RuleEntry}
    (hentry : layout.ruleEntry found children = .ok entry) :
    layout.ruleEntry other count = .ok entry := by
  rw [ruleEntry] at hentry ⊢
  rw [h] at hentry
  split at hentry
  · cases hentry
  · next given _ =>
    cases hkind : given.kind with
    | parser =>
      rw [hkind] at hentry
      exact hentry
    | token =>
      rw [hkind] at hentry
      cases hentry

theorem contributions_congr {trees others : List Tree}
    (hcontent : trees.map Tree.content = others.map Tree.content)
    (h : ∀ tree ∈ trees, ∀ other, tree.content = other.content → ∀ parts,
      layout.contribution tree = .ok parts → layout.contribution other = .ok parts)
    {parts : List Hiccup} (hparts : layout.contributions trees = .ok parts) :
    layout.contributions others = .ok parts := by
  induction trees generalizing others parts with
  | nil =>
    obtain rfl := List.map_eq_nil_iff.1 hcontent.symm
    exact hparts
  | cons tree trees ih =>
    obtain ⟨other, others, rfl, hfirst, hrest⟩ := List.map_eq_cons_iff.1 hcontent.symm
    obtain ⟨htree, htrees⟩ := List.forall_mem_cons.1 h
    obtain ⟨first, hleft, hmore⟩ := bind_eq_ok_iff.1 hparts
    obtain ⟨more, hright, hdone⟩ := bind_eq_ok_iff.1 hmore
    have hfirst' := htree other hfirst.symm first hleft
    have hmore' := ih hrest.symm htrees hright
    exact bind_eq_ok_iff.2 ⟨first, hfirst', bind_eq_ok_iff.2 ⟨more, hmore', hdone⟩⟩

theorem contribution_congr {tree other : Tree} (hcontent : tree.content = other.content)
    {parts : List Hiccup} (hparts : layout.contribution tree = .ok parts) :
    layout.contribution other = .ok parts := by
  induction tree using Rose.tree_induction generalizing other parts with
  | leaf token =>
    cases other with
    | leaf token' =>
      simp only [Tree.content, Rose.map_leaf, Rose.leaf.injEq] at hcontent
      obtain ⟨leaf, hleaf, hdone⟩ := bind_eq_ok_iff.1 hparts
      exact bind_eq_ok_iff.2 ⟨leaf, leaf_congr hcontent hleaf, hdone⟩
    | node => simp [Tree.content] at hcontent
  | node found children ih =>
    cases other with
    | leaf => simp [Tree.content] at hcontent
    | node found' children' =>
      simp only [Tree.content, Rose.map_node, Rose.node.injEq] at hcontent
      obtain ⟨entry, hentry, hrest⟩ := bind_eq_ok_iff.1 hparts
      obtain ⟨more, hmore, hdone⟩ := bind_eq_ok_iff.1 hrest
      have hentry' : layout.ruleEntry found' children'.length = .ok entry :=
        ruleEntry_congr hcontent.1 hentry
      have hmore' := contributions_congr hcontent.2 (fun t ht u hu ps hps => ih t ht hu hps) hmore
      rw [hcontent.1] at hdone
      exact bind_eq_ok_iff.2 ⟨entry, hentry', bind_eq_ok_iff.2 ⟨more, hmore', hdone⟩⟩

theorem walk_congr {tree other : Tree} (hcontent : tree.content = other.content) {h : Hiccup}
    (hwalk : layout.walk tree = .ok h) : layout.walk other = .ok h := by
  rw [walk_eq_hiccup] at hwalk ⊢
  cases tree with
  | leaf token =>
    cases other with
    | leaf token' =>
      simp only [Tree.content, Rose.map_leaf, Rose.leaf.injEq] at hcontent
      exact leaf_congr hcontent hwalk
    | node => simp [Tree.content] at hcontent
  | node found children =>
    cases other with
    | leaf => simp [Tree.content] at hcontent
    | node found' children' =>
      simp only [Tree.content, Rose.map_node, Rose.node.injEq] at hcontent
      obtain ⟨entry, hentry, hrest⟩ := bind_eq_ok_iff.1 hwalk
      obtain ⟨parts, hparts, hdone⟩ := bind_eq_ok_iff.1 hrest
      have hentry' : layout.ruleEntry found' children'.length = .ok entry :=
        ruleEntry_congr hcontent.1 hentry
      have hparts' := contributions_congr hcontent.2
        (fun _ _ _ hu _ hps => contribution_congr hu hps) hparts
      exact bind_eq_ok_iff.2 ⟨entry, hentry', bind_eq_ok_iff.2 ⟨parts, hparts', hdone⟩⟩

end Layout
end HiccupReader
