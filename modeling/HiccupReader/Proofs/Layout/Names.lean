import HiccupReader.Proofs.Layout.Inlining

/-! The names in a layout are names of parser rules of its table, whatever is inlined. -/

namespace HiccupReader.Layout

variable {layout : Layout}

theorem hasParser_of_ruleEntry {found : RuleMatch} {children : Nat} {entry : RuleEntry}
    (h : layout.ruleEntry found children = .ok entry) : layout.table.HasParser entry.name := by
  unfold ruleEntry at h
  split at h
  · cases h
  · next hentry =>
    split at h
    · next hkind =>
      obtain rfl := Except.ok.inj h
      exact ⟨_, List.mem_of_getElem? hentry, rfl, hkind⟩
    · cases h

theorem hasParser_of_contributions {children : List Tree} {parts : List Hiccup}
    (hchildren : ∀ child ∈ children, ∀ parts, layout.contribution child = .ok parts →
      ∀ name ∈ Rose.labelsAll parts, layout.table.HasParser name)
    (h : layout.contributions children = .ok parts) :
    ∀ name ∈ Rose.labelsAll parts, layout.table.HasParser name := by
  induction children generalizing parts with
  | nil =>
    obtain rfl := Except.ok.inj h
    exact List.forall_mem_nil _
  | cons child children ih =>
    obtain ⟨hchild, hchildren⟩ := List.forall_mem_cons.1 hchildren
    obtain ⟨first, hfirst, hrest⟩ := bind_eq_ok_iff.1 h
    obtain ⟨others, hothers, hparts⟩ := bind_eq_ok_iff.1 hrest
    obtain rfl := Except.ok.inj hparts
    rw [Rose.labelsAll_append, List.forall_mem_append]
    exact ⟨hchild first hfirst, ih hchildren hothers⟩

theorem hasParser_of_contribution {tree : Tree} {parts : List Hiccup}
    (h : layout.contribution tree = .ok parts) :
    ∀ name ∈ Rose.labelsAll parts, layout.table.HasParser name := by
  induction tree using Rose.tree_induction generalizing parts with
  | leaf token =>
    obtain ⟨leaf, hleaf, hparts⟩ := bind_eq_ok_iff.1 h
    obtain rfl := Except.ok.inj hparts
    rw [eq_leaf_of_leaf hleaf]
    exact List.forall_mem_nil _
  | node found children ih =>
    obtain ⟨entry, hentry, hrest⟩ := bind_eq_ok_iff.1 h
    obtain ⟨inner, hinner, hparts⟩ := bind_eq_ok_iff.1 hrest
    have hnames := hasParser_of_contributions (fun child hmem parts => ih child hmem) hinner
    obtain rfl := Except.ok.inj hparts
    split
    · exact hnames
    · rw [Rose.labelsAll, Rose.labelsAll, List.append_nil, Rose.labels, List.forall_mem_cons]
      exact ⟨hasParser_of_ruleEntry hentry, hnames⟩

theorem hasParser_of_walk {tree : Tree} {h : Hiccup} (hwalk : layout.walk tree = .ok h) :
    ∀ name ∈ h.labels, layout.table.HasParser name := by
  rw [walk_eq_hiccup] at hwalk
  cases tree with
  | leaf token =>
    rw [eq_leaf_of_leaf hwalk]
    exact List.forall_mem_nil _
  | node found children =>
    obtain ⟨entry, hentry, hrest⟩ := bind_eq_ok_iff.1 hwalk
    obtain ⟨parts, hparts, hdone⟩ := bind_eq_ok_iff.1 hrest
    obtain rfl := Except.ok.inj hdone
    rw [Rose.labels, List.forall_mem_cons]
    exact ⟨hasParser_of_ruleEntry hentry,
      hasParser_of_contributions (fun _ _ _ => hasParser_of_contribution) hparts⟩

end HiccupReader.Layout
