import HiccupReader.Proofs.Clojure.Leads
import HiccupReader.Proofs.Clojure.Lexing
import HiccupReader.Proofs.Clojure.Nesting

/-! A text is matched as any derivation that its tokens have. A choice takes the option that the
next token asks for, and a repetition of forms goes on up to the closing delimiter. -/

namespace HiccupReader.Clojure

open Matching

theorem Rule.earlier_discards {r : Rule} {options : List Symbol}
    (hr : r.production = .choice options) :
    ∀ s ∈ options, ∀ x ∈ options.takeWhile (· ≠ s), .tag ∈ s.leads → .discard ∈ x.leads →
      x = .rule .discard := by
  cases r <;> cases hr <;> decide

theorem Reread.result_eq_none {body left : List Char} {ks : List TokenKind} {c : Cursor}
    {x : Symbol} (h : Reread body left ks) (hc : Settled c)
    (hrest : c.rest = '#' :: '_' :: body ++ left) (hfull : x.full = true)
    (havoids : ∀ j ∈ x.leads, ¬ (j = .tag ∨ j ∈ TokenKind.tag.rivals))
    (hdiscards : .discard ∈ x.leads → x = .rule .discard) :
    (matchSymbol matchAt x c).result = none := by
  rw [Option.eq_none_iff_forall_not_mem]
  rintro ⟨t, c'⟩ hread
  obtain ⟨j, hj, hsome⟩ := exists_lead_of_reading hread hc hfull
  have hpreferred := discard_preferred (body ++ left)
  rw [hrest] at hsome
  rcases hpreferred.eq_or_mem_rivals hsome with rfl | hrival
  · obtain rfl := hdiscards hj
    exact h.refuses hrest (accepts_iff.2 ⟨t, c', hread⟩)
  · exact havoids j hj (.inl (List.mem_singleton.1 hrival))

theorem Settles.preferred_of_closer {k : TokenKind} {cs : List Char} (h : Settles k cs)
    (hk : k ∈ closers) : k.Preferred cs := by
  rcases h with hpreferred | ⟨rfl, -⟩
  · exact hpreferred
  · exact absurd hk (by decide)

def Reads (d : Derivation) (c : Cursor) (ts : List Token) (c' : Cursor) : Prop :=
  ∃ t, readingOf matchAt d.root c t c' ∧ t.leaves = ts ∧ treeShape t = d.shape

/-- Wherever the text settles the tokens of the derivation it is matched, provided that no more
forms follow if it is a run of forms. -/
def Complete (d : Derivation) : Prop :=
  ∀ {c c' : Cursor} {ts : List Token}, Settled c → Lexed c d.leaves ts c' →
    (d.root = .rule .forms → Stops c') → Reads d c ts c'

/-- The trees have these tokens and, but for texts and spans, are these derivations. -/
structure Matches (ds : List Derivation) (us : List Tree) (ts : List Token) : Prop where
  leaves : Rose.leavesAll us = ts
  shapes : us.map treeShape = ds.map Derivation.shape

namespace Matches

variable {d : Derivation} {ds : List Derivation} {t : Tree} {us : List Tree} {ts : List Token}

theorem nil : Matches [] [] [] := ⟨rfl, rfl⟩

theorem cons (ht : treeShape t = d.shape) (h : Matches ds us ts) :
    Matches (d :: ds) (t :: us) (t.leaves ++ ts) :=
  ⟨by rw [Rose.leavesAll, h.leaves], by rw [List.map_cons, List.map_cons, ht, h.shapes]⟩

end Matches

theorem Reads.node {r : Rule} {ds : List Derivation} {us : List Tree} {c c' : Cursor}
    {ts : List Token} (h : (matchProduction matchAt r.production c).result = some (us, c'))
    (hmatches : Matches ds us ts) : Reads (.node r ds) c ts c' := by
  refine ⟨_, reading_of_production h, hmatches.leaves, ?_⟩
  rw [treeShape, Derivation.shape, Rose.map_node, Rose.map_node]
  exact congrArg _ hmatches.shapes

theorem complete_leaf (k : TokenKind) : Complete (.leaf k) := by
  intro c c' ts hc hlexed _
  obtain ⟨taken, left, hcut, rfl, rfl⟩ := hlexed.cut hc
  refine ⟨.leaf (k.token c taken), ?_, rfl, ?_⟩
  · exact readingOf_token_iff.2 ⟨taken, left, hcut, rfl, rfl⟩
  · rw [treeShape, Derivation.shape, Rose.map_leaf, Rose.map_leaf]
    rfl

theorem complete_choice {r : Rule} {options : List Symbol} {d : Derivation}
    (hr : r.production = .choice options) (hroot : d.root ∈ options) (hvalid : d.Valid)
    (h : Complete d) : Complete (.node r [d]) := by
  intro c c' ts hc hlexed _
  rw [Rose.leaves, Rose.leavesAll, Rose.leavesAll, List.append_nil] at hlexed
  have hfull : d.root.full = true := Rule.options_full hr d.root hroot
  obtain ⟨t, hread, rfl, hshape⟩ := h hc hlexed fun hforms => by
    rw [hforms] at hfull
    cases hfull
  obtain ⟨k, ks, hleaves, hlead⟩ := hvalid.exists_lead hfull
  rw [hleaves] at hlexed
  have hsettles : Settles k c.rest := by
    have hfirst := hlexed.settles
    rwa [hc] at hfirst
  have hresult : (matchSymbol matchAt d.root c).result = some (t, c') := hread
  -- The options in front do not begin with the token that stands here.
  have hearlier : ∀ x ∈ options.takeWhile (· ≠ d.root),
      (matchSymbol matchAt x c).result = none := by
    intro x hx
    have hx' := Rule.options_full hr x (List.takeWhile_subset _ hx)
    have havoids := Rule.earlier_avoids hr d.root hroot x hx k hlead
    rcases hsettles with hpreferred | ⟨rfl, body, left, ks, hrest, hreread⟩
    · exact result_eq_none_of_avoids hc hx' hpreferred havoids
    · exact hreread.result_eq_none hc hrest hx' havoids
        (Rule.earlier_discards hr d.root hroot x hx hlead)
  have hmatches : Matches [d] [t] t.leaves := by
    have hcons := Matches.nil.cons hshape
    rwa [List.append_nil] at hcons
  refine .node ?_ hmatches
  rw [hr, result_matchProduction_choice, findSome?_of_first hroot hresult hearlier, Option.map_some]

def ReadsInOrder (ds : List Derivation) (c : Cursor) (ts : List Token) (c' : Cursor) : Prop :=
  ∃ us, (Matcher.inOrder skipTrivia (((ds.map Derivation.root).map Part.one).map
    (matchPart matchAt)) c).result = some (us, c') ∧ Matches ds us ts

theorem Reads.cons {d : Derivation} {ds : List Derivation} {c c₁ c₂ : Cursor}
    {ts us : List Token} (h : Reads d (skipTrivia c) ts c₁) (hrest : ReadsInOrder ds c₁ us c₂) :
    ReadsInOrder (d :: ds) c (ts ++ us) c₂ := by
  obtain ⟨t, hread, rfl, hshape⟩ := h
  obtain ⟨vs, hresult, hmatches⟩ := hrest
  have hfirst : (matchSymbol matchAt d.root (skipTrivia c)).result = some (t, c₁) := hread
  refine ⟨t :: vs, ?_, hmatches.cons hshape⟩
  rw [List.map_cons, List.map_cons, List.map_cons, Matcher.result_inOrder_cons,
    result_matchPart_one, hfirst, Option.map_some, Option.bind_some, hresult]
  rfl

/-- Every symbol has a token, or is a run of forms with a closing delimiter behind it. -/
def Guarded : List Symbol → Prop
  | [] => True
  | s :: ss =>
    (s.full = true ∨ s = .rule .forms ∧ ∃ k ∈ closers, ss.head? = some (.token k)) ∧ Guarded ss

theorem Guarded.inner {ss : List Symbol} (h : Guarded ss) : ∀ s ∈ ss, s.inner = true := by
  induction ss with
  | nil => simp
  | cons s ss ih =>
    rcases h with ⟨hfull | ⟨rfl, -⟩, hrest⟩
    · exact List.forall_mem_cons.2 ⟨Symbol.inner_of_full hfull, ih hrest⟩
    · exact List.forall_mem_cons.2 ⟨rfl, ih hrest⟩

theorem Rule.production_guarded {r : Rule} (h : (Symbol.rule r).full = true) :
    (∃ options, r.production = .choice options) ∨
      ∃ ss, r.production = .sequence (ss.map .one) ∧ Guarded ss := by
  have enclosed : ∀ {j k : TokenKind}, k ∈ closers →
      Guarded [.token j, .rule .forms, .token k] := by
    intro j k hk
    exact ⟨.inl rfl, .inr ⟨rfl, k, hk, rfl⟩, .inl rfl, trivial⟩
  cases r with
  | code | tokens | forms => cases h
  | form | collection | readerMacro | literal => exact .inl ⟨_, rfl⟩
  | list | vector | map | set | fnLiteral | readerConditional =>
    exact .inr ⟨[_, _, _], rfl, enclosed (by decide)⟩
  | metadata => exact .inr ⟨[_, _, _], rfl, .inl rfl, .inl rfl, .inl rfl, trivial⟩
  | number | character | nil | boolean | keyword | string | regex | symbolicValue | symbol =>
    exact .inr ⟨[_], rfl, .inl rfl, trivial⟩
  | _ => exact .inr ⟨[_, _], rfl, .inl rfl, .inl rfl, trivial⟩

theorem readsInOrder_of_lexed {ds : List Derivation} (hguard : Guarded (ds.map Derivation.root))
    (hds : ∀ d ∈ ds, d.Valid ∧ Complete d) {c c' : Cursor} {ts : List Token}
    (h : Lexed c (Rose.leavesAll ds) ts c') : ReadsInOrder ds c ts c' := by
  induction ds generalizing c ts with
  | nil =>
    obtain ⟨rfl, rfl⟩ := h.eq_nil
    exact ⟨[], rfl, .nil⟩
  | cons d ds ih =>
    obtain ⟨⟨hvalid, hcomplete⟩, hrest⟩ := List.forall_mem_cons.1 hds
    obtain ⟨hfirst, hguard⟩ := hguard
    rw [Rose.leavesAll] at h
    rcases hfirst with hfull | ⟨hforms, k, hk, hhead⟩
    · obtain ⟨j, ks, hleaves, -⟩ := hvalid.exists_lead hfull
      obtain ⟨us, vs, mid, rfl, hus, hvs⟩ := h.split (by simp [hleaves])
      have hread : Reads d (skipTrivia c) us mid := by
        refine hcomplete (settled_skipTrivia c) hus fun hforms => ?_
        rw [hforms] at hfull
        cases hfull
      exact hread.cons (ih hguard hrest hvs)
    · obtain ⟨e, es, rfl⟩ : ∃ e es, ds = e :: es := by
        cases ds with
        | nil => cases hhead
        | cons e es => exact ⟨e, es, rfl⟩
      obtain rfl : e = .leaf k := Derivation.eq_leaf_of_root (Option.some.inj hhead)
      obtain ⟨us, vs, mid, rfl, hus, hvs⟩ := h.split (by simp [Rose.leavesAll, Rose.leaves])
      -- The run of forms ends here, as its closing delimiter comes next.
      have hstops : Stops mid := .of_closer hk (hvs.settles.preferred_of_closer hk)
      have hread := hcomplete (settled_skipTrivia c) hus fun _ => hstops
      exact hread.cons (ih hguard hrest hvs)

theorem complete_sequence {r : Rule} {ds : List Derivation}
    (hr : r.production = .sequence ((ds.map Derivation.root).map .one))
    (hguard : Guarded (ds.map Derivation.root)) (hds : ∀ d ∈ ds, d.Valid ∧ Complete d) :
    Complete (.node r ds) := by
  intro c c' ts _ hlexed _
  obtain ⟨us, hresult, hmatches⟩ := readsInOrder_of_lexed hguard hds hlexed
  refine .node ?_ hmatches
  rw [hr]
  exact hresult

abbrev FormItems : Cursor → List Tree → Cursor → Prop := Items (readingOf matchAt) [.rule .form]

theorem exists_formItems {ds : List Derivation}
    (hds : ∀ d ∈ ds, d.root = .rule .form ∧ d.Valid ∧ Complete d) {c c' : Cursor}
    {ts : List Token} (h : Lexed c (Rose.leavesAll ds) ts c') :
    ∃ us, FormItems c us c' ∧ Matches ds us ts := by
  induction ds generalizing c ts with
  | nil =>
    obtain ⟨rfl, rfl⟩ := h.eq_nil
    exact ⟨[], .done _, .nil⟩
  | cons d ds ih =>
    obtain ⟨⟨hroot, hvalid, hcomplete⟩, hrest⟩ := List.forall_mem_cons.1 hds
    obtain ⟨k, ks, hleaves, -⟩ := hvalid.exists_lead (by rw [hroot]; rfl)
    rw [Rose.leavesAll] at h
    obtain ⟨us, vs, mid, rfl, hus, hvs⟩ := h.split (by simp [hleaves])
    obtain ⟨t, hread, rfl, hshape⟩ := hcomplete (settled_skipTrivia c) hus (by simp [hroot])
    obtain ⟨ws, hitems, hmatches⟩ := ih hrest hvs
    rw [hroot] at hread
    exact ⟨t :: ws, .item (List.mem_singleton_self _) hread hitems, hmatches.cons hshape⟩

theorem result_firstOf_form (c : Cursor) :
    (Matcher.firstOf ([Symbol.rule .form].map (matchSymbol matchAt)) c).result =
      (matchAt .form c).result := by
  rw [Matcher.result_firstOf, List.findSome?_singleton]
  rfl

theorem result_forms {c c' : Cursor} {us : List Tree} (h : FormItems c us c')
    (hc : Settled c) (hstop : Stops c') :
    (matchProduction matchAt Rule.forms.production c).result = some (us, c') := by
  have shrinks : ∀ {c t c₁}, (Matcher.firstOf ([Symbol.rule .form].map (matchSymbol matchAt))
      (skipTrivia c)).result = some (t, c₁) → c₁.rest.length < c.rest.length := by
    intro c t c₁ hread
    rw [result_firstOf_form] at hread
    have hlt := length_lt_of_reading (s := .rule .form) hread (settled_skipTrivia c) rfl
    exact Nat.lt_of_lt_of_le hlt (reaches_skipTrivia c).length_le
  have hrepeats : Matcher.Repeats skipTrivia (fun c => (Matcher.firstOf
      ([Symbol.rule .form].map (matchSymbol matchAt)) c).result) c us c' := by
    clear hc
    induction h with
    | done c => exact .stop ((result_firstOf_form _).trans hstop)
    | item hs hread _ ih =>
      obtain rfl := List.mem_singleton.1 hs
      exact .next ((result_firstOf_form _).trans hread) (ih hstop)
  have hrepeated := Matcher.result_repeated_of_repeats shrinks hrepeats (Nat.lt_succ_self _)
  rw [Rule.production, matchProduction, List.map_singleton, Matcher.result_inOrder_cons, hc,
    matchPart, hrepeated, Option.bind_some, Matcher.result_inOrder_nil]
  simp

theorem root_of_forms {ds : List Derivation}
    (h : Rule.forms.production.Allows (ds.map Derivation.root)) : ∀ d ∈ ds, d.root = .rule .form := by
  have hroots : ∀ s ∈ ds.map Derivation.root, s ∈ [Symbol.rule .form] := AllowsInOrder.of_single h
  exact fun d hd => List.mem_singleton.1 (hroots _ (List.mem_map_of_mem hd))

theorem complete_forms {ds : List Derivation}
    (hds : ∀ d ∈ ds, d.root = .rule .form ∧ d.Valid ∧ Complete d) :
    Complete (.node .forms ds) := by
  intro c c' ts hc hlexed hstop
  obtain ⟨us, hitems, hmatches⟩ := exists_formItems hds hlexed
  exact .node (result_forms hitems hc (hstop rfl)) hmatches

theorem Derivation.Valid.complete {d : Derivation} (h : d.Valid) (hinner : d.root.inner = true) :
    Complete d := by
  -- By induction on the derivation, with one case for each shape of production.
  induction h with
  | token k => exact complete_leaf k
  | @rule r ds hallows hvalid ih =>
    by_cases hfull : (Symbol.rule r).full = true
    · rcases Rule.production_guarded hfull with ⟨options, hr⟩ | ⟨ss, hr, hguard⟩
      · rw [hr] at hallows
        obtain ⟨s, hs, hroots⟩ := hallows
        obtain ⟨d, rfl, rfl⟩ := List.map_eq_singleton_iff.1 hroots
        have hd := List.mem_singleton_self d
        have hroot := Symbol.inner_of_full (Rule.options_full hr _ hs)
        exact complete_choice hr hs (hvalid d hd) (ih d hd hroot)
      · rw [hr] at hallows
        obtain rfl := hallows.of_ones
        have hds : ∀ d ∈ ds, d.Valid ∧ Complete d := fun d hd =>
          ⟨hvalid d hd, ih d hd (hguard.inner _ (List.mem_map_of_mem hd))⟩
        exact complete_sequence hr hguard hds
    · have hforms : r = .forms := Rule.eq_forms hinner hfull
      subst hforms
      refine complete_forms fun d hd => ?_
      have hroot := root_of_forms hallows d hd
      exact ⟨hroot, hvalid d hd, ih d hd (by rw [hroot]; rfl)⟩

theorem result_code {c mid : Cursor} {t : Tree}
    (h : readingOf matchAt (.rule .forms) (skipTrivia c) t mid) (hend : (skipTrivia mid).rest = []) :
    (matchProduction matchAt Rule.code.production c).result = some ([t], skipTrivia mid) := by
  have hfirst : (matchSymbol matchAt (.rule .forms) (skipTrivia c)).result = some (t, mid) := h
  rw [Rule.production, matchProduction, List.map_cons, Matcher.result_inOrder_cons,
    result_matchPart_one, hfirst, Option.map_some, Option.bind_some, List.map_singleton,
    Matcher.result_inOrder_cons, result_matchPart_finish, if_pos hend]
  rfl

theorem exists_derive_of_spells {text : String} {tokens : List Token} {d : Derivation}
    {stop : Cursor} (hspells : Spells Settles (.start text.toList) tokens stop)
    (hend : (skipTrivia stop).rest = []) (hvalid : d.Valid) (hroot : d.root = .rule .forms)
    (hkinds : tokens.map Token.rule = d.leaves.map TokenKind.index) :
    ∃ tree, derive text = .ok tree ∧ tree.leaves = tokens ∧
      treeShape tree = Derivation.shape (.node .code [d]) := by
  -- The forms begin behind the first trivia.
  obtain ⟨mid, hspells, hmid⟩ := hspells.exists_of_skipTrivia hend
  obtain ⟨t, hread, rfl, hshape⟩ := hvalid.complete (by rw [hroot]; rfl) (settled_skipTrivia _)
    ⟨hspells, hkinds⟩ fun _ => .of_end hmid
  rw [hroot] at hread
  obtain ⟨tree, hcode, hleaves, htree⟩ :=
    Reads.node (result_code hread hmid) (Matches.nil.cons hshape)
  refine ⟨tree, derive_eq_ok_iff.2 ⟨_, hcode⟩, ?_, htree⟩
  rw [hleaves, List.append_nil]

theorem exists_derive_of_valid {text : String} {tokens : List Token} {d : Derivation}
    (hlex : lex text = .ok tokens) (hvalid : d.Valid) (hroot : d.root = .rule .forms)
    (hkinds : tokens.map Token.rule = d.leaves.map TokenKind.index) :
    ∃ tree, derive text = .ok tree ∧ tree.leaves = tokens ∧
      treeShape tree = Derivation.shape (.node .code [d]) := by
  obtain ⟨stop, hspells, hend⟩ := exists_spells_of_lex hlex
  exact exists_derive_of_spells (hspells.imp .inl) hend hvalid hroot hkinds

theorem parse_eq_of_derivation (text : String) (tokens : List Token) (d : Derivation)
    (hlex : lex text = .ok tokens) (hvalid : d.Valid) (hroot : d.root = .rule .forms)
    (hkinds : tokens.map Token.rule = d.leaves.map TokenKind.index)
    (hnesting : d.nesting ≤ Nesting.limit) :
    (∃ tree, parse text = .ok tree ∧ treeShape tree = Derivation.shape (.node .code [d]) ∧
      tree.tokens = tokens) ∧
    ∀ e : Derivation, e.Valid → e.root = .rule .forms → e.leaves = d.leaves → e = d := by
  obtain ⟨tree, hderive, hleaves, hshape⟩ := exists_derive_of_valid hlex hvalid hroot hkinds
  constructor
  · have hdeep := Nesting.firstTooDeep?_eq_none hvalid hroot hnesting hkinds
    refine ⟨tree, parse_eq_ok_iff.2 ⟨tokens, hlex, hdeep, hderive⟩, hshape, ?_⟩
    rw [Tree.tokens_eq_leaves, hleaves]
  · intro e hvalid' hroot' hleaves'
    rw [← hleaves'] at hkinds
    obtain ⟨tree', hderive', -, hshape'⟩ := exists_derive_of_valid hlex hvalid' hroot' hkinds
    obtain rfl : tree = tree' := Except.ok.inj (hderive.symm.trans hderive')
    have hnode := Derivation.shape_injective _ _ (hshape'.symm.trans hshape)
    exact List.singleton_inj.1 (Rose.node.inj hnode).2

def symbolForm : Derivation := .node .form [.node .literal [.node .symbol [.leaf .symbol]]]

def quotedSymbol : Derivation :=
  .node .forms [.node .form [.node .readerMacro [.node .quote [.leaf .quote, symbolForm]]]]

theorem symbolForm_valid : symbolForm.Valid := by
  have hsymbol : Derivation.Valid (.node .symbol [.leaf .symbol]) :=
    .rule (.ones [.token .symbol]) (by simpa using .token .symbol)
  have hliteral : Derivation.Valid (.node .literal [.node .symbol [.leaf .symbol]]) :=
    .rule ⟨.rule .symbol, by decide, rfl⟩ (by simpa using hsymbol)
  exact .rule ⟨.rule .literal, by decide, rfl⟩ (by simpa using hliteral)

theorem quotedSymbol_valid : quotedSymbol.Valid := by
  have hquote : Derivation.Valid (.node .quote [.leaf .quote, symbolForm]) :=
    .rule (.ones [.token .quote, .rule .form]) (by simpa using ⟨.token .quote, symbolForm_valid⟩)
  have hmacro : Derivation.Valid (.node .readerMacro [.node .quote [.leaf .quote, symbolForm]]) :=
    .rule ⟨.rule .quote, by decide, rfl⟩ (by simpa using hquote)
  have hform : Derivation.Valid
      (.node .form [.node .readerMacro [.node .quote [.leaf .quote, symbolForm]]]) :=
    .rule ⟨.rule .readerMacro, by decide, rfl⟩ (by simpa using hmacro)
  have hallows : AllowsInOrder [.many [.rule .form]] ([.rule .form] ++ []) :=
    .cons (List.forall_mem_singleton.2 (List.mem_singleton_self _)) .nil
  exact .rule hallows (by simpa using hform)

theorem parse_quotedSymbol :
    ∃ tokens, lex "'a ;b" = .ok tokens ∧
      tokens.map Token.rule = quotedSymbol.leaves.map TokenKind.index ∧
      (∃ tree, parse "'a ;b" = .ok tree ∧
        treeShape tree = Derivation.shape (.node .code [quotedSymbol]) ∧ tree.tokens = tokens) ∧
      ∀ e : Derivation, e.Valid → e.root = .rule .forms → e.leaves = quotedSymbol.leaves →
        e = quotedSymbol := by
  have hlex : lex "'a ;b" =
      .ok [⟨TokenKind.quote.index, "'", 0, 1⟩, ⟨TokenKind.symbol.index, "a", 1, 2⟩] :=
    eq_ok_of_toOption (by decide +kernel)
  exact ⟨_, hlex, rfl,
    parse_eq_of_derivation _ _ _ hlex quotedSymbol_valid rfl rfl (by decide)⟩

end HiccupReader.Clojure
