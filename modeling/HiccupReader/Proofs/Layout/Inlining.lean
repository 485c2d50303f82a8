import HiccupReader.Proofs.Layout.Splicing
import HiccupReader.Proofs.Layout.Walk

/-! Layouts differ by inlining only. Whatever a layout inlines, its hiccup is that of the layout
which inlines nothing, with the sequences of some names replaced by their parts. -/

namespace HiccupReader

namespace Hiccup

mutual

def inlinePart (inlined : String → Bool) : Hiccup → List Hiccup
  | .leaf text => [.leaf text]
  | .node name parts =>
    if inlined name then inlineParts inlined parts else [.node name (inlineParts inlined parts)]

def inlineParts (inlined : String → Bool) : List Hiccup → List Hiccup
  | [] => []
  | part :: parts => inlinePart inlined part ++ inlineParts inlined parts

end

def inline (inlined : String → Bool) : Hiccup → Hiccup
  | .leaf text => .leaf text
  | .node name parts => .node name (inlineParts inlined parts)

variable {inlined : String → Bool}

@[simp] theorem inlineParts_append (parts others : List Hiccup) :
    inlineParts inlined (parts ++ others) =
      inlineParts inlined parts ++ inlineParts inlined others := by
  induction parts with
  | nil => rfl
  | cons part parts ih => simp only [List.cons_append, inlineParts, ih, List.append_assoc]

theorem inlinePart_all (part : Hiccup) :
    inlinePart (fun _ => true) part = part.leaves.map .leaf := by
  induction part using Rose.tree_induction with
  | leaf text => simp [inlinePart, Rose.leaves]
  | node name parts ih =>
    rw [inlinePart, if_pos rfl, Rose.leaves]
    induction parts with
    | nil => rfl
    | cons part parts ihparts =>
      obtain ⟨hpart, hparts⟩ := List.forall_mem_cons.1 ih
      rw [inlineParts, Rose.leavesAll, List.map_append, hpart, ihparts hparts]

theorem inlineParts_all (parts : List Hiccup) :
    inlineParts (fun _ => true) parts = (Rose.leavesAll parts).map .leaf := by
  have hroot := inlinePart_all (.node "" parts)
  rwa [inlinePart, if_pos rfl, Rose.leaves] at hroot

end Hiccup

namespace Layout

variable {layout : Layout}

theorem eq_leaf_of_leaf {token : Token} {h : Hiccup} (hleaf : layout.leaf token = .ok h) :
    h = .leaf token.text := by
  unfold leaf at hleaf
  split at hleaf
  · cases hleaf
  · split at hleaf
    · exact (Except.ok.inj hleaf).symm
    · cases hleaf

theorem get?_of_ruleEntry {found : RuleMatch} {children : Nat} {entry : RuleEntry}
    (h : layout.ruleEntry found children = .ok entry) :
    layout.table.get? found.rule = some entry := by
  unfold ruleEntry at h
  split at h
  · cases h
  · next hentry =>
    split at h
    · rw [hentry, Except.ok.inj h]
    · cases h

theorem contributions_eq_inlineParts {nested : Layout} {inlined : String → Bool}
    {children : List Tree} (hchildren : ∀ child ∈ children, layout.contribution child =
      (nested.contribution child).map (Hiccup.inlineParts inlined)) :
    layout.contributions children =
      (nested.contributions children).map (Hiccup.inlineParts inlined) := by
  induction children with
  | nil => rfl
  | cons child children ih =>
    obtain ⟨hchild, hchildren⟩ := List.forall_mem_cons.1 hchildren
    rw [contributions, contributions, hchild, ih hchildren]
    rcases nested.contribution child with fault | first
    · rfl
    · rcases nested.contributions children with fault | others
      · rfl
      · simp [Except.map, pure, Except.pure]

structure InlinesBy (layout nested : Layout) (inlined : String → Bool) : Prop where
  policy : nested.policy = .nested
  table : layout.table = nested.table
  inlines : ∀ index entry, nested.table.get? index = some entry →
    layout.inlines index entry = inlined entry.name

namespace InlinesBy

variable {nested : Layout} {inlined : String → Bool} (h : InlinesBy layout nested inlined)

include h

theorem contribution_eq (tree : Tree) :
    layout.contribution tree = (nested.contribution tree).map (Hiccup.inlineParts inlined) := by
  induction tree using Rose.tree_induction with
  | leaf token =>
    rw [contribution, contribution, leaf_eq_of_table h.table]
    rcases hleaf : nested.leaf token with fault | leaf
    · rfl
    · rw [eq_leaf_of_leaf hleaf]
      rfl
  | node found children ih =>
    rw [contribution, contribution, ruleEntry_eq_of_table h.table, contributions_eq_inlineParts ih]
    rcases hentry : nested.ruleEntry found children.length with fault | entry
    · rfl
    · have hinlines := h.inlines found.rule entry (get?_of_ruleEntry hentry)
      have hnested : nested.inlines found.rule entry = false := by rw [Layout.inlines, h.policy]
      rcases nested.contributions children with fault | parts
      · rfl
      · by_cases hname : inlined entry.name = true
        · simp [Except.map, pure, Except.pure, hinlines, hnested, hname, Hiccup.inlineParts,
            Hiccup.inlinePart]
        · simp [Except.map, pure, Except.pure, hinlines, hnested, hname, Hiccup.inlineParts,
            Hiccup.inlinePart]

theorem hiccup_eq (tree : Tree) :
    layout.hiccup tree = (nested.hiccup tree).map (Hiccup.inline inlined) := by
  cases tree with
  | leaf token =>
    rw [hiccup, hiccup, leaf_eq_of_table h.table]
    rcases hleaf : nested.leaf token with fault | leaf
    · rfl
    · rw [eq_leaf_of_leaf hleaf]
      rfl
  | node found children =>
    rw [hiccup, hiccup, ruleEntry_eq_of_table h.table,
      contributions_eq_inlineParts fun child _ => h.contribution_eq child]
    rcases nested.ruleEntry found children.length with fault | entry
    · rfl
    · rcases nested.contributions children with fault | parts
      · rfl
      · rfl

end InlinesBy

theorem leavesAll_contributions {children : List Tree} {parts : List Hiccup}
    (hchildren : ∀ child ∈ children, ∀ parts, layout.contribution child = .ok parts →
      Rose.leavesAll parts = child.leaves.map Token.text)
    (h : layout.contributions children = .ok parts) :
    Rose.leavesAll parts = (Rose.leavesAll children).map Token.text := by
  induction children generalizing parts with
  | nil =>
    obtain rfl := Except.ok.inj h
    rfl
  | cons child children ih =>
    obtain ⟨hchild, hchildren⟩ := List.forall_mem_cons.1 hchildren
    obtain ⟨first, hfirst, hrest⟩ := bind_eq_ok_iff.1 h
    obtain ⟨others, hothers, hparts⟩ := bind_eq_ok_iff.1 hrest
    obtain rfl := Except.ok.inj hparts
    rw [Rose.leavesAll_append, Rose.leavesAll, List.map_append, hchild first hfirst,
      ih hchildren hothers]

theorem leavesAll_contribution {tree : Tree} {parts : List Hiccup}
    (h : layout.contribution tree = .ok parts) :
    Rose.leavesAll parts = tree.leaves.map Token.text := by
  induction tree using Rose.tree_induction generalizing parts with
  | leaf token =>
    obtain ⟨leaf, hleaf, hparts⟩ := bind_eq_ok_iff.1 h
    obtain rfl := Except.ok.inj hparts
    rw [eq_leaf_of_leaf hleaf]
    rfl
  | node found children ih =>
    obtain ⟨entry, -, hrest⟩ := bind_eq_ok_iff.1 h
    obtain ⟨inner, hinner, hparts⟩ := bind_eq_ok_iff.1 hrest
    have hleaves := leavesAll_contributions (fun child hmem parts => ih child hmem) hinner
    obtain rfl := Except.ok.inj hparts
    split
    · exact hleaves
    · rw [Rose.leavesAll, Rose.leavesAll, List.append_nil, Rose.leaves, Rose.leaves, hleaves]

theorem leaves_hiccup {tree : Tree} {h : Hiccup} (hlayout : layout.hiccup tree = .ok h) :
    h.leaves = tree.leaves.map Token.text := by
  cases tree with
  | leaf token =>
    rw [eq_leaf_of_leaf hlayout]
    rfl
  | node found children =>
    obtain ⟨entry, -, hrest⟩ := bind_eq_ok_iff.1 hlayout
    obtain ⟨parts, hparts, hdone⟩ := bind_eq_ok_iff.1 hrest
    obtain rfl := Except.ok.inj hdone
    rw [Rose.leaves, Rose.leaves]
    exact leavesAll_contributions (fun child _ parts => leavesAll_contribution) hparts

theorem inlinesBy_passthrough {before out : Layout} {names : List String}
    (hspliced : Spliced before names out) (hbefore : before.spliced = []) :
    InlinesBy { out with policy := .passthrough } { out with policy := .nested }
      fun name => names.contains name || before.table.marks name := by
  refine ⟨rfl, rfl, fun index entry hentry => ?_⟩
  have hget : before.table.get? index = some entry := by rw [← hspliced.table]; exact hentry
  have hmarked : out.spliced.contains index = names.contains entry.name := by
    rw [Bool.eq_iff_iff, List.contains_iff_mem, List.contains_iff_mem, hspliced.mem_iff, hbefore]
    have hname : ∀ name, before.table.name? index = some name ↔ entry.name = name := by
      intro name
      rw [RuleTable.name?, hget, Option.map_some, Option.some.injEq]
    simp [hname]
  show (entry.passthrough || out.spliced.contains index) = _
  rw [hmarked, RuleTable.marks_name hget, Bool.or_comm]

theorem inlinesBy_flat (layout : Layout) :
    InlinesBy { layout with policy := .flat } { layout with policy := .nested } fun _ => true :=
  ⟨rfl, rfl, fun _ _ _ => rfl⟩

/-- The layouts of a tree differ in what they inline and in nothing else. -/
theorem policies_differ_by_inlining (table : RuleTable) (policy : Policy) (names : List String)
    (layout : Layout) (tree : Tree) (h : Hiccup)
    (hsplice : Layout.spliceAll { table, policy } names = .ok layout)
    (hwalk : layout.walk tree = .ok h) :
    ∃ nested, walk { layout with policy := .nested } tree = .ok nested ∧
      walk { layout with policy := .passthrough } tree =
        .ok (nested.inline fun name => names.contains name || table.marks name) ∧
      (∀ found children, tree = .node found children → ∃ name, table.name? found.rule = some name ∧
        walk { layout with policy := .flat } tree =
          .ok (.node name (tree.tokens.map fun token => .leaf token.text))) ∧
      ∀ other : Layout, other.table = table → ∃ h, other.walk tree = .ok h ∧
        h.leafTexts = tree.tokens.map Token.text := by
  have hspliced := spliced_of_spliceAll hsplice
  have htable : layout.table = table := hspliced.table
  simp only [walk_eq_hiccup] at hwalk ⊢
  have success : ∀ other : Layout, other.table = table → ∃ h, other.hiccup tree = .ok h :=
    fun other hother => exists_hiccup_of_table (hother.trans htable.symm) hwalk
  obtain ⟨nested, hnested⟩ := success { layout with policy := .nested } htable
  refine ⟨nested, hnested, ?_, ?_, ?_⟩
  · rw [(inlinesBy_passthrough hspliced rfl).hiccup_eq, hnested]
    rfl
  · rintro found children rfl
    obtain ⟨entry, hentry, hrest⟩ := bind_eq_ok_iff.1 hnested
    obtain ⟨parts, hparts, hdone⟩ := bind_eq_ok_iff.1 hrest
    obtain rfl := Except.ok.inj hdone
    have hget : table.get? found.rule = some entry := by
      rw [← htable]
      exact get?_of_ruleEntry hentry
    refine ⟨entry.name, RuleTable.name?_eq_some_iff.2 ⟨entry, hget, rfl⟩, ?_⟩
    have hleaves := leavesAll_contributions (fun child _ parts => leavesAll_contribution) hparts
    rw [(inlinesBy_flat layout).hiccup_eq, hnested, Tree.tokens_eq_leaves, Rose.leaves]
    simp only [Except.map, Hiccup.inline, Hiccup.inlineParts_all, hleaves, List.map_map]
    rfl
  · intro other hother
    obtain ⟨h', hlayout⟩ := success other hother
    refine ⟨h', hlayout, ?_⟩
    rw [Hiccup.leafTexts_eq_leaves, Tree.tokens_eq_leaves, leaves_hiccup hlayout]

def listTable : RuleTable where
  entries :=
    [⟨"code", .parser, false⟩, ⟨"forms", .parser, true⟩, ⟨"list", .parser, false⟩,
      ⟨"symbol", .parser, false⟩, ⟨"LPAREN", .token, false⟩, ⟨"RPAREN", .token, false⟩,
      ⟨"SYMBOL", .token, false⟩]
  names_nodup := by decide

def listTree : Tree :=
  .node ⟨0, 0, 5⟩ [.node ⟨1, 0, 5⟩ [.node ⟨2, 0, 5⟩
    [.leaf ⟨4, "(", 0, 1⟩,
      .node ⟨1, 1, 4⟩ [.node ⟨3, 1, 2⟩ [.leaf ⟨6, "a", 1, 2⟩],
        .node ⟨3, 3, 4⟩ [.leaf ⟨6, "b", 3, 4⟩]],
      .leaf ⟨5, ")", 4, 5⟩]]]

theorem listTree_policies :
    ∃ layout h, Layout.spliceAll { table := listTable } ["symbol"] = .ok layout ∧
      layout.walk listTree = .ok h ∧
      ∃ nested, walk { layout with policy := .nested } listTree = .ok nested ∧
        walk { layout with policy := .passthrough } listTree =
          .ok (nested.inline fun name => ["symbol"].contains name || listTable.marks name) ∧
        (∀ found children, listTree = .node found children →
          ∃ name, listTable.name? found.rule = some name ∧
            walk { layout with policy := .flat } listTree =
              .ok (.node name (listTree.tokens.map fun token => .leaf token.text))) ∧
        ∀ other : Layout, other.table = listTable → ∃ h, other.walk listTree = .ok h ∧
          h.leafTexts = listTree.tokens.map Token.text := by
  have hsplice : Layout.spliceAll { table := listTable } ["symbol"] =
      .ok { table := listTable, spliced := [3] } := rfl
  have hwalk : walk { table := listTable, spliced := [3] } listTree =
      .ok (.node "code" [.node "list" [.leaf "(", .leaf "a", .leaf "b", .leaf ")"]]) := by
    rw [walk_eq_hiccup]
    rfl
  exact ⟨_, _, hsplice, hwalk,
    policies_differ_by_inlining listTable .passthrough ["symbol"] _ listTree _ hsplice hwalk⟩

end Layout
end HiccupReader
