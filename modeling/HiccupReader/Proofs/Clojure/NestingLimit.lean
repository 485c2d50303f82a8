import HiccupReader.Proofs.Clojure.Recutting

/-! The limit on the nesting holds of every tree that is parsed, though it is checked on the tokens
of the lexer alone. The count on the tokens of a tree gets as deep as the tree is nested, and what
the lexer makes of these tokens only adds to it. Only a tag that hides a comment takes tokens out of
the count. A text whose tree stays within the limit is refused only if the tree has a tag that the
lexer cuts in another way. -/

namespace HiccupReader.Clojure

open Matching

namespace Nesting

def nestsAt (index : Nat) : Bool := Rule.all.any fun r => r.nests && r.index == index

theorem nestsAt_index (r : Rule) : nestsAt r.index = r.nests := by
  cases r <;> rfl

def isLevel (found : RuleMatch) : Bool := nestsAt found.rule

def after (levels : List Level) (ks : List TokenKind) : List Level :=
  ks.foldl (fun levels k => step levels (role k)) levels

theorem after_append (levels : List Level) (ks js : List TokenKind) :
    after levels (ks ++ js) = after (after levels ks) js := List.foldl_append

theorem Runs.after_eq {bound : Nat} {levels levels' : List Level} {ks : List TokenKind}
    (h : Runs bound levels ks levels') : after levels ks = levels' := by
  induction h with
  | done levels => rfl
  | token _ _ ih => exact ih

def Reaches (levels : List Level) (depth : Nat) (ks : List TokenKind) : Prop :=
  ∃ front back, ks = front ++ back ∧ depth ≤ (after levels front).length

namespace Reaches

variable {levels : List Level} {depth : Nat} {ks js : List TokenKind}

theorem here (h : depth ≤ levels.length) : Reaches levels depth ks := ⟨[], ks, rfl, h⟩

theorem append (h : Reaches levels depth ks) : Reaches levels depth (ks ++ js) := by
  obtain ⟨front, back, rfl, hdepth⟩ := h
  exact ⟨front, back ++ js, List.append_assoc .., hdepth⟩

theorem behind (h : Reaches (after levels ks) depth js) : Reaches levels depth (ks ++ js) := by
  obtain ⟨front, back, rfl, hdepth⟩ := h
  refine ⟨ks ++ front, back, (List.append_assoc ..).symm, ?_⟩
  rwa [after_append]

end Reaches

def Deepens (d : Derivation) : Prop :=
  ∀ levels, (d.root = .rule .forms → complete levels = levels) →
    Reaches levels (levels.length + d.nesting) d.leaves

theorem reaches_cons {d : Derivation} {ds : List Derivation} {levels : List Level} {depth : Nat}
    (hforms : d.root ≠ .rule .forms) (hd : Completes d ∧ Deepens d) (hdepth : depth ≤ levels.length)
    (hrest : d.nesting < Derivation.nestingAll ds →
      Reaches (complete levels) (depth + Derivation.nestingAll ds) (Rose.leavesAll ds)) :
    Reaches levels (depth + Derivation.nestingAll (d :: ds)) (Rose.leavesAll (d :: ds)) := by
  have hidle : d.root = .rule .forms → complete levels = levels := fun h => absurd h hforms
  rw [Derivation.nestingAll, Rose.leavesAll]
  by_cases hlt : d.nesting < Derivation.nestingAll ds
  · apply Reaches.behind
    rw [(hd.1 levels hidle).after_eq, Nat.max_eq_right (Nat.le_of_lt hlt)]
    exact hrest hlt
  · obtain ⟨front, back, hleaves, hreached⟩ := hd.2 levels hidle
    refine Reaches.append ⟨front, back, hleaves, ?_⟩
    omega

theorem deepens_single {k : TokenKind} {r : Rule} (hr : r.nests = false) :
    Deepens (.node r [.leaf k]) := by
  intro levels _
  have hnesting : Derivation.nesting (.node r [.leaf k]) = 0 := by
    simp [Derivation.nesting, Derivation.nestingAll, hr]
  rw [hnesting]
  exact .here Nat.le.refl

theorem deepens_choice {r : Rule} {d : Derivation} (hr : r.nests = false)
    (hforms : d.root ≠ .rule .forms) (h : Deepens d) : Deepens (.node r [d]) := by
  intro levels _
  have hnesting : Derivation.nesting (.node r [d]) = d.nesting := by
    simp [Derivation.nesting, Derivation.nestingAll, hr]
  rw [hnesting, Rose.leaves, Rose.leavesAll, Rose.leavesAll, List.append_nil]
  exact h levels fun hroot => absurd hroot hforms

theorem deepens_enclosed {j k : TokenKind} (hj : role j = .opens) {r : Rule} (hr : r.nests = true)
    {d : Derivation} (h : Deepens d) : Deepens (.node r [.leaf j, d, .leaf k]) := by
  intro levels _
  have hnesting : Derivation.nesting (.node r [.leaf j, d, .leaf k]) = 1 + d.nesting := by
    simp [Derivation.nesting, Derivation.nestingAll, hr]
  have hopen : after levels [j] = .delimiter :: levels := by
    rw [after, List.foldl_cons, hj]
    rfl
  have hinside : Reaches (after levels [j]) (levels.length + d.nesting.succ) d.leaves := by
    rw [hopen, Nat.add_succ, ← Nat.succ_add]
    exact h (.delimiter :: levels) fun _ => rfl
  rw [hnesting, Nat.one_add]
  exact hinside.append.behind

theorem reaches_awaited {ds : List Derivation}
    (hds : ∀ d ∈ ds, d.root ≠ .rule .forms ∧ Completes d ∧ Deepens d) (levels : List Level) :
    Reaches (.awaiting ds.length :: levels) (levels.length + 1 + Derivation.nestingAll ds)
      (Rose.leavesAll ds) := by
  induction ds with
  | nil => exact .here Nat.le.refl
  | cons d ds ih =>
    obtain ⟨⟨hforms, hd⟩, hrest⟩ := List.forall_mem_cons.1 hds
    refine reaches_cons hforms hd Nat.le.refl fun hlt => ?_
    cases ds with
    | nil => cases hlt
    | cons e es => exact ih hrest

theorem deepens_awaiting {k : TokenKind} {ds : List Derivation} (hk : role k = .awaits ds.length)
    {r : Rule} (hr : r.nests = true)
    (hds : ∀ d ∈ ds, d.root ≠ .rule .forms ∧ Completes d ∧ Deepens d) :
    Deepens (.node r (.leaf k :: ds)) := by
  intro levels _
  have hnesting : Derivation.nesting (.node r (.leaf k :: ds)) = 1 + Derivation.nestingAll ds := by
    simp [Derivation.nesting, Derivation.nestingAll, hr]
  have hmark : after levels [k] = .awaiting ds.length :: levels := by
    rw [after, List.foldl_cons, hk]
    rfl
  have hinside := reaches_awaited hds levels
  rw [← hmark] at hinside
  rw [hnesting, ← Nat.add_assoc]
  exact hinside.behind

theorem deepens_forms {ds : List Derivation}
    (hds : ∀ d ∈ ds, d.root ≠ .rule .forms ∧ Completes d ∧ Deepens d) :
    Deepens (.node .forms ds) := by
  intro levels hlevels
  have hnesting : Derivation.nesting (.node .forms ds) = Derivation.nestingAll ds :=
    Nat.zero_add _
  have hidle : complete levels = levels := hlevels rfl
  clear hlevels
  rw [hnesting, Rose.leaves]
  clear hnesting
  induction ds with
  | nil => exact .here Nat.le.refl
  | cons d ds ih =>
    obtain ⟨⟨hforms, hd⟩, hrest⟩ := List.forall_mem_cons.1 hds
    refine reaches_cons hforms hd Nat.le.refl fun _ => ?_
    rw [hidle]
    exact ih hrest

theorem nests_eq_false_of_choice {r : Rule} {options : List Symbol}
    (hr : r.production = .choice options) : r.nests = false := by
  cases r <;> cases hr <;> rfl

theorem nests_eq_false_of_single {r : Rule} {k : TokenKind} (hr : r.production = .single k) :
    r.nests = false := by
  cases r <;> cases hr <;> rfl

theorem Formed.deepens {d : Derivation} (h : Formed d) : Deepens d := by
  induction h with
  | choice hr hroot _ ih => exact deepens_choice (nests_eq_false_of_choice hr) hroot ih
  | single hr _ => exact deepens_single (nests_eq_false_of_single hr)
  | enclosed _ hj _ hnests _ ih => exact deepens_enclosed hj hnests ih
  | awaiting _ hk _ hnests hroots hds ih =>
    exact deepens_awaiting hk hnests fun d hd => ⟨hroots d hd, (hds d hd).completes, ih d hd⟩
  | forms hroots hds ih =>
    exact deepens_forms fun d hd =>
      ⟨by rw [hroots d hd]; decide, (hds d hd).completes, ih d hd⟩

/-- The second levels are the first ones with more that await one form. -/
inductive Padded : List Level → List Level → Prop
  | nil : Padded [] []
  | same {ls ms : List Level} (level : Level) : Padded ls ms → Padded (level :: ls) (level :: ms)
  | extra {ls ms : List Level} : Padded ls ms → Padded ls (.awaiting 1 :: ms)

namespace Padded

variable {ls ms : List Level}

theorem length_le (h : Padded ls ms) : ls.length ≤ ms.length := by
  induction h with
  | nil => exact Nat.le.refl
  | same level _ ih => exact Nat.succ_le_succ ih
  | extra _ ih => exact Nat.le_succ_of_le ih

theorem complete (h : Padded ls ms) : Padded (complete ls) (complete ms) := by
  induction h with
  | nil => exact .nil
  | @same ls ms level h ih =>
    cases level with
    | delimiter => exact h.same .delimiter
    | awaiting forms =>
      rw [Nesting.complete, Nesting.complete]
      split
      · exact h.same _
      · exact ih
  | extra _ ih => exact ih

theorem tail_dropWhile (h : Padded ls ms) :
    Padded (ls.dropWhile Level.isAwaiting).tail (ms.dropWhile Level.isAwaiting).tail := by
  induction h with
  | nil => exact .nil
  | same level h ih =>
    cases level with
    | delimiter => exact h
    | awaiting forms => exact ih
  | extra _ ih => exact ih

theorem step (h : Padded ls ms) (role : Role) : Padded (step ls role) (step ms role) := by
  cases role with
  | opens => exact h.same .delimiter
  | closes => exact h.tail_dropWhile.complete
  | awaits forms => exact h.same (.awaiting forms)
  | completes => exact h.complete

theorem marks {ks : List TokenKind} (hks : ∀ k ∈ ks, role k = .awaits 1) (h : Padded ls ms) :
    Padded ls (after ms ks) := by
  induction ks generalizing ms with
  | nil => exact h
  | cons k ks ih =>
    obtain ⟨hk, hks⟩ := List.forall_mem_cons.1 hks
    have hstep : Nesting.step ms (role k) = .awaiting 1 :: ms := by rw [hk]; rfl
    rw [after, List.foldl_cons, hstep]
    exact ih hks h.extra

theorem after {ks js : List TokenKind} (hrecut : Recut ks js) (h : Padded ls ms) :
    Padded (after ls ks) (after ms js) := by
  induction hrecut generalizing ls ms with
  | nil => exact h
  | same k _ ih => exact ih (h.step (role k))
  | @reread marks ks js hmarks _ ih =>
    have hfirst : Padded (.awaiting 1 :: ls) (Nesting.after (.awaiting 1 :: ms) marks) :=
      (h.same _).marks hmarks
    have happend : Nesting.after ms (.discard :: (marks ++ js)) =
        Nesting.after (Nesting.after (.awaiting 1 :: ms) marks) js := after_append ..
    rw [happend]
    exact ih hfirst

end Padded

theorem length_after_le {bound : Nat} {ks js : List TokenKind} {tokens : List Token}
    {levels : List Level} (hkinds : tokens.map Token.rule = (ks ++ js).map TokenKind.index)
    (hlevels : levels.length ≤ bound) (h : ∀ entry ∈ depths levels tokens, entry.1 ≤ bound) :
    (after levels ks).length ≤ bound := by
  induction ks generalizing levels tokens with
  | nil => exact hlevels
  | cons k ks ih =>
    obtain ⟨token, rest, rfl, hrule, hrest⟩ := List.map_eq_cons_iff.1 hkinds
    rw [depths, roleOf_eq hrule] at h
    obtain ⟨hfirst, hothers⟩ := List.forall_mem_cons.1 h
    exact ih hrest hfirst hothers

end Nesting

theorem Recut.nesting_le {d : Derivation} {tokens : List Token} {js : List TokenKind}
    (hvalid : d.Valid) (hroot : d.root = .rule .forms) (hrecut : Recut d.leaves js)
    (hkinds : tokens.map Token.rule = js.map TokenKind.index)
    (hdeep : Nesting.firstTooDeep? tokens = none) : d.nesting ≤ Nesting.limit := by
  have hformed : Nesting.Formed d := Nesting.formed_of_valid hvalid (by rw [hroot]; rfl)
  obtain ⟨front, back, hleaves, hreached⟩ := hformed.deepens [] fun _ => rfl
  rw [hleaves] at hrecut
  obtain ⟨front', back', rfl, hfront, -⟩ := hrecut.split
  have hpadded := Nesting.Padded.after hfront .nil
  have hbound := Nesting.firstTooDeep?_eq_none_iff.1 hdeep
  calc d.nesting = ([] : List Nesting.Level).length + d.nesting := (Nat.zero_add _).symm
    _ ≤ (Nesting.after [] front).length := hreached
    _ ≤ (Nesting.after [] front').length := hpadded.length_le
    _ ≤ Nesting.limit := Nesting.length_after_le hkinds (Nat.zero_le _) hbound

theorem Derivation.nesting_eq (d : Derivation) : d.nesting = Rose.nesting Rule.nests d := by
  induction d using Rose.tree_induction with
  | leaf k => rfl
  | node r ds ih =>
    have hchildren : nestingAll ds = Rose.nestingAll Rule.nests ds := by
      induction ds with
      | nil => rfl
      | cons d ds ihds =>
        obtain ⟨hd, hds⟩ := List.forall_mem_cons.1 ih
        rw [nestingAll, Rose.nestingAll, hd, ihds hds]
    rw [nesting, Rose.nesting, hchildren]

def treeNesting (tree : Tree) : Nat := Rose.nesting Nesting.isLevel tree

theorem treeNesting_eq {tree : Tree} {d : Derivation}
    (h : treeShape tree = Derivation.shape (.node .code [d])) : treeNesting tree = d.nesting := by
  have hnests : Nesting.nestsAt ∘ Rule.index = Rule.nests := funext Nesting.nestsAt_index
  calc treeNesting tree = (treeShape tree).nesting Nesting.nestsAt := (Rose.nesting_map ..).symm
    _ = (Derivation.shape (.node .code [d])).nesting Nesting.nestsAt := by rw [h]
    _ = Rose.nesting Rule.nests (.node .code [d]) := by
      rw [Derivation.shape, Rose.nesting_map, hnests]
    _ = d.nesting := by
      rw [← Derivation.nesting_eq]
      simp [Derivation.nesting, Derivation.nestingAll, Rule.nests]

/-- No path down a tree that is parsed has more levels than the limit, if no token hides a comment
from the count. -/
theorem countP_isLevel_le_limit (text : String) (tree : Tree) (h : parse text = .ok tree)
    (hvisible : ∀ token ∈ tree.tokens, ¬ HidesComment token.text) (labels : List RuleMatch)
    (hpath : Rose.Path tree labels) : labels.countP Nesting.isLevel ≤ Nesting.limit := by
  obtain ⟨tokens, js, d, -, hdeep, hvalid, hroot, hshape, hkinds, hrecut⟩ :=
    exists_recut_of_parse h hvisible
  calc labels.countP Nesting.isLevel ≤ treeNesting tree := hpath.countP_le_nesting
    _ = d.nesting := treeNesting_eq hshape
    _ ≤ Nesting.limit := hrecut.nesting_le hvalid hroot hkinds hdeep

theorem discarded_countP_isLevel_le_limit :
    ∃ tree labels, parse "'[#_a b]" = .ok tree ∧
      (∀ token ∈ tree.tokens, ¬ HidesComment token.text) ∧ Rose.Path tree labels ∧
      labels.countP Nesting.isLevel = 3 ∧ labels.countP Nesting.isLevel ≤ Nesting.limit := by
  have hfound : (parse "'[#_a b]").toOption.map (fun tree =>
      (decide (∀ token ∈ tree.tokens, ¬ HidesComment token.text), treeNesting tree)) =
      some (true, 3) := by
    decide +kernel
  obtain ⟨tree, htree, hfacts⟩ := Option.map_eq_some_iff.1 hfound
  obtain ⟨hvisible, hnesting⟩ := Prod.mk.inj hfacts
  obtain ⟨labels, hpath, hcount⟩ := Rose.exists_path_countP_eq_nesting Nesting.isLevel tree
  have hparse := eq_ok_of_toOption htree
  refine ⟨tree, labels, hparse, of_decide_eq_true hvisible, hpath, hcount.trans hnesting, ?_⟩
  exact countP_isLevel_le_limit _ tree hparse (of_decide_eq_true hvisible) labels hpath

def commentedQuotes : List Char :=
  ['#', '_', '#', '!', 'a', ' '] ++ List.replicate 256 '\x27' ++ ['b']

set_option maxRecDepth 20000 in
theorem not_countP_isLevel_le_limit :
    ¬ ∀ text tree labels, parse text = .ok tree → Rose.Path tree labels →
      labels.countP Nesting.isLevel ≤ Nesting.limit := by
  intro hlimit
  have hlex : (outcome (matchText .tokens commentedQuotes)).toOption.map Rose.leaves =
      some [⟨TokenKind.discard.index, "#_", 0, 2⟩] := by
    decide +kernel
  have hderive : (outcome (matchText .code commentedQuotes)).toOption.map treeNesting =
      some 257 := by
    decide +kernel
  obtain ⟨found, hfound, hleaves⟩ := Option.map_eq_some_iff.1 hlex
  obtain ⟨tree, htree, hnesting⟩ := Option.map_eq_some_iff.1 hderive
  have hparse : parse (String.ofList commentedQuotes) = .ok tree := by
    refine parse_eq_ok_iff.2 ⟨[⟨TokenKind.discard.index, "#_", 0, 2⟩], ?_, rfl, ?_⟩
    · rw [lex, String.toList_ofList, eq_ok_of_toOption hfound, ← hleaves]
      rfl
    · rw [derive, String.toList_ofList, eq_ok_of_toOption htree]
  obtain ⟨labels, hpath, hcount⟩ := Rose.exists_path_countP_eq_nesting Nesting.isLevel tree
  have hle := hlimit _ tree labels hparse hpath
  have hdeeper : labels.countP Nesting.isLevel = 257 := hcount.trans hnesting
  rw [hdeeper] at hle
  exact absurd hle (by decide)

theorem countP_isLevel_le_of_treeNesting {tree : Tree} {depth : Nat} (h : treeNesting tree ≤ depth)
    (hdepth : depth ≤ Nesting.limit) :
    ∀ labels, Rose.Path tree labels → labels.countP Nesting.isLevel ≤ Nesting.limit :=
  fun _ hpath => Nat.le_trans (Nat.le_trans hpath.countP_le_nesting h) hdepth

/-- Where the grammar alone matches a text with a tree within the limit, the text is parsed as this
tree, if no tag of it begins with a discard mark. -/
theorem parse_eq_ok_of_derive (text : String) (tree : Tree) (h : derive text = .ok tree)
    (hnesting : ∀ labels, Rose.Path tree labels →
      labels.countP Nesting.isLevel ≤ Nesting.limit)
    (hplain : ∀ token ∈ tree.tokens, ¬ HoldsDiscard token) : parse text = .ok tree := by
  obtain ⟨stop, hnearly, hend⟩ := exists_spells_of_derive h
  rw [Tree.tokens_eq_leaves] at hplain
  have hlex : lex text = .ok tree.leaves :=
    lex_of_spells (hnearly.preferred_of_nearly hplain) hend
  obtain ⟨c, hread⟩ := derive_eq_ok_iff.1 h
  obtain ⟨d, hvalid, hroot, hkinds, hshape⟩ := exists_code_of_derives (derives_of_reading hread)
  obtain ⟨labels, hpath, hcount⟩ := Rose.exists_path_countP_eq_nesting Nesting.isLevel tree
  have hle : d.nesting ≤ Nesting.limit := by
    rw [← treeNesting_eq hshape, treeNesting, ← hcount]
    exact hnesting labels hpath
  exact parse_eq_ok_iff.2 ⟨tree.leaves, hlex,
    Nesting.firstTooDeep?_eq_none hvalid hroot hle hkinds, h⟩

theorem splicing_conditional_parse_eq_derive :
    ∃ tree, derive "#?@(:a #_b ~@c)" = .ok tree ∧
      (∀ labels, Rose.Path tree labels → labels.countP Nesting.isLevel ≤ Nesting.limit) ∧
      (∀ token ∈ tree.tokens, ¬ HoldsDiscard token) ∧ parse "#?@(:a #_b ~@c)" = .ok tree := by
  have hfound : (derive "#?@(:a #_b ~@c)").toOption.map (fun tree =>
      (decide (∀ token ∈ tree.tokens, ¬ HoldsDiscard token), treeNesting tree)) =
      some (true, 2) := by
    decide +kernel
  obtain ⟨tree, htree, hfacts⟩ := Option.map_eq_some_iff.1 hfound
  obtain ⟨hplain, hdepth⟩ := Prod.mk.inj hfacts
  have hderive := eq_ok_of_toOption htree
  have hnesting := countP_isLevel_le_of_treeNesting (Nat.le_of_eq hdepth) (by decide)
  have hparse := parse_eq_ok_of_derive _ tree hderive hnesting (of_decide_eq_true hplain)
  exact ⟨tree, hderive, hnesting, of_decide_eq_true hplain, hparse⟩

/-- The lexer has no token for the hash sign behind the discard mark. -/
theorem not_parse_eq_ok_of_derive :
    ¬ ∀ text tree, derive text = .ok tree →
      (∀ labels, Rose.Path tree labels → labels.countP Nesting.isLevel ≤ Nesting.limit) →
        parse text = .ok tree := by
  intro hparse
  have hfound : (derive "#_# b").toOption.map treeNesting = some 1 := by decide +kernel
  have hrefused : (parse "#_# b").toOption.isSome = false := by decide +kernel
  obtain ⟨tree, htree, hnesting⟩ := Option.map_eq_some_iff.1 hfound
  have hparsed := hparse "#_# b" tree (eq_ok_of_toOption htree)
    (countP_isLevel_le_of_treeNesting (Nat.le_of_eq hnesting) (by decide))
  rw [hparsed] at hrefused
  cases hrefused

end HiccupReader.Clojure
