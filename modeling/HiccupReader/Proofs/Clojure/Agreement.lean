import HiccupReader.Proofs.Clojure.Completeness
import HiccupReader.Proofs.Clojure.Coverage
import HiccupReader.Proofs.Clojure.Openers
import HiccupReader.Proofs.Clojure.Soundness

/-! Whether the lexer and the parser cut a text into the same tokens. The parser goes back on a
token of the lexer in one case only: where a discard mark has no form behind it, the mark and what
follows may still be a tag. -/

namespace HiccupReader.Clojure

open Matching

/-- The kind is what the lexer reads here, or a tag where the lexer reads a discard mark. -/
def Nearly (k : TokenKind) (cs : List Char) : Prop :=
  k.Preferred cs ∨ k = .tag ∧ TokenKind.discard.Preferred cs ∧ TagsDiscard cs

theorem openers_of_lead :
    ∀ s ∈ openers, (.tag ∈ s.leads → s = .rule .taggedLiteral) ∧
      (.unquote ∈ s.leads → s = .rule .unquote) := by
  decide

theorem openers_before_rivals : ∀ s ∈ openers, ∀ k ∈ s.leads, ∀ x ∈ openers, ∀ j ∈ x.leads,
    j ∈ k.rivals → s ∈ openers.takeWhile (· ≠ x) := by
  decide

theorem nearly_of_opener {s : Symbol} {k : TokenKind} {c : Cursor} (hc : Settled c)
    (hs : s ∈ openers) (hk : k ∈ s.leads) (hsome : (k.lexeme c.rest).isSome)
    (haccepts : Accepts s c) (hearlier : ∀ x ∈ openers.takeWhile (· ≠ s), ¬ Accepts x c) :
    Nearly k c.rest := by
  obtain ⟨p, hp⟩ := TokenKind.exists_preferred hsome
  rcases hp.eq_or_mem_rivals hsome with rfl | hrival
  · exact .inl hp
  -- The rule of the preferred kind is tried before. But for the discard mark it would match here.
  have hbefore : ∀ x ∈ openers, ∀ p ∈ x.leads, k ∈ p.rivals → x ∈ openers.takeWhile (· ≠ s) :=
    fun x hx p hp hrival => openers_before_rivals x hx p hp s hs k hk hrival
  cases p with
  | discard =>
    obtain rfl := List.mem_singleton.1 hrival
    obtain rfl := (openers_of_lead s hs).1 hk
    exact .inr ⟨rfl, hp, c, rfl, hc, haccepts, hearlier _ (by decide)⟩
  | readerConditional =>
    obtain rfl := List.mem_singleton.1 hrival
    obtain rfl := (openers_of_lead s hs).1 hk
    have hreader := accepts_readerConditional hc hp.accepts haccepts
    exact absurd hreader (hearlier _ (by decide))
  | unquoteSplicing =>
    obtain rfl := List.mem_singleton.1 hrival
    obtain rfl := (openers_of_lead s hs).2 hk
    have hsplicing := accepts_unquoteSplicing hc hp.accepts haccepts
    exact absurd hsplicing (hearlier _ (by decide))
  | number =>
    have hmem := hbefore (.rule .number) (by decide) .number (by decide) hrival
    exact absurd (accepts_single rfl hc hp.accepts) (hearlier _ hmem)
  | nil =>
    have hmem := hbefore (.rule .nil) (by decide) .nil (by decide) hrival
    exact absurd (accepts_single rfl hc hp.accepts) (hearlier _ hmem)
  | boolean =>
    have hmem := hbefore (.rule .boolean) (by decide) .boolean (by decide) hrival
    exact absurd (accepts_single rfl hc hp.accepts) (hearlier _ hmem)
  | _ => cases hrival

theorem Sequenced.spells_of_symbols {P : TokenKind → List Char → Prop} {parts : List Part}
    {c c' : Cursor} {ts : List Tree}
    (hparts : ∀ {s d t d'}, (∃ part ∈ parts, s ∈ part.symbols) → c.Reaches d → Settled d →
      readingOf matchAt s d t d' → SpellsUpTo P d t.leaves d')
    (h : Sequenced (readingOf matchAt) parts c ts c') :
    SpellsUpTo P c (Rose.leavesAll ts) c' := by
  have hsymbols : Sequenced (fun _ d t d' => SpellsUpTo P d t.leaves d') parts c ts c' :=
    h.imp reaches_of_reading hparts
  exact hsymbols.spells fun hspells _ => hspells

def regular : List Symbol :=
  [.rule .form, .rule .forms, .rule .map] ++ closers.map .token

theorem openers_production {s : Symbol} (hs : s ∈ openers) :
    ∃ r k parts, s = .rule r ∧ r.production = .sequence (.one (.token k) :: parts) ∧
      s.leads = [k] ∧ ∀ part ∈ parts, ∀ x ∈ part.symbols, x ∈ regular := by
  cases s with
  | token k => exact absurd hs (by cases k <;> decide)
  | rule r =>
    cases r <;>
      first
      | exact ⟨_, _, _, rfl, rfl, rfl, by decide⟩
      | exact absurd hs (by decide)

def SpellsBelow (length : Nat) : Prop :=
  ∀ {s : Symbol} {c c' : Cursor} {t : Tree}, s ∈ regular → c.rest.length < length → Settled c →
    readingOf matchAt s c t c' → SpellsUpTo Nearly c t.leaves c'

theorem spells_of_opener {s : Symbol} {c c' : Cursor} {t : Tree} (hs : s ∈ openers)
    (hc : Settled c) (h : readingOf matchAt s c t c') (ih : SpellsBelow c.rest.length) :
    ∃ k ∈ s.leads, (k.lexeme c.rest).isSome ∧
      (Nearly k c.rest → SpellsUpTo Nearly c t.leaves c') := by
  obtain ⟨r, k, parts, rfl, hr, hleads, hregular⟩ := openers_production hs
  obtain ⟨ts, hparts, rfl⟩ := produced_of_reading h
  rw [hr] at hparts
  cases hparts with
  | sequence hparts =>
    cases hparts with
    | one hread hrest =>
      rw [hc] at hread
      obtain ⟨taken, left, hcut, rfl, rfl⟩ := readingOf_token_iff.1 hread
      refine ⟨k, by rw [hleads]; exact List.mem_singleton_self k, by rw [hcut]; rfl, ?_⟩
      intro hk
      refine .cons hc hcut hk (hrest.spells_of_symbols ?_)
      rintro s d t d' ⟨part, hpart, hmem⟩ hreach
      have hlt := length_lt_of_lexeme hcut
      have hle := hreach.length_le
      exact ih (hregular part hpart s hmem) (by omega)

theorem spells_of_form {c c' : Cursor} {t : Tree} (hc : Settled c)
    (h : readingOf matchAt (.rule .form) c t c') (ih : SpellsBelow c.rest.length) :
    SpellsUpTo Nearly c t.leaves c' := by
  have hleaves : leavesAt (.rule .form) c = some (t.leaves, c') := by
    rw [leavesAt, show (matchSymbol matchAt (.rule .form) c).result = some (t, c') from h]
    rfl
  rw [leavesAt_form] at hleaves
  obtain ⟨s, hs, hfirst, hnone⟩ := exists_first_of_findSome? hleaves
  have haccepts : Accepts s c := by rw [Accepts, hfirst]; rfl
  have hearlier : ∀ x ∈ openers.takeWhile (· ≠ s), ¬ Accepts x c := by
    intro x hx
    rw [Accepts, hnone x hx]
    exact Bool.false_ne_true
  obtain ⟨⟨u, d⟩, hread, he⟩ := Option.map_eq_some_iff.1 hfirst
  obtain ⟨hu, rfl⟩ := Prod.mk.inj he
  obtain ⟨k, hk, hsome, hspells⟩ := spells_of_opener hs hc hread ih
  rw [← hu]
  exact hspells (nearly_of_opener hc hs hk hsome haccepts hearlier)

theorem spells_of_forms {c c' : Cursor} {t : Tree} (h : readingOf matchAt (.rule .forms) c t c')
    (ih : SpellsBelow c.rest.length) : SpellsUpTo Nearly c t.leaves c' := by
  obtain ⟨ts, hparts, rfl⟩ := produced_of_reading h
  cases hparts with
  | sequence hparts =>
    apply hparts.spells_of_symbols
    rintro s d t d' ⟨part, hpart, hmem⟩ hreach hd hread
    obtain rfl := List.mem_singleton.1 hpart
    obtain rfl := List.mem_singleton.1 hmem
    have hle := hreach.length_le
    exact spells_of_form hd hread fun hs hlt => ih hs (Nat.lt_of_lt_of_le hlt hle)

theorem spells_of_unrivalled {k : TokenKind} (hk : ∀ p : TokenKind, k ∉ p.rivals) {c c' : Cursor}
    {t : Tree} (hc : Settled c) (h : readingOf matchAt (.token k) c t c') :
    SpellsUpTo Nearly c t.leaves c' := by
  obtain ⟨taken, left, hcut, rfl, rfl⟩ := readingOf_token_iff.1 h
  have hpreferred := TokenKind.Preferred.of_unrivalled hk (by rw [hcut]; rfl)
  exact .cons hc hcut (.inl hpreferred) (.done _)

theorem closers_unrivalled (p : TokenKind) :
    .leftBrace ∉ p.rivals ∧ ∀ k ∈ closers, k ∉ p.rivals := by
  cases p <;> decide

theorem spellsBelow (length : Nat) : SpellsBelow length := by
  -- Behind an opening token there is less, so that the induction is on what is left.
  induction length with
  | zero =>
    intro s c c' t _ hlt
    omega
  | succ length ih =>
    intro s c c' t hs hlt hc h
    have hbelow : SpellsBelow c.rest.length := fun hs hless => ih hs (by omega)
    rcases List.mem_append.1 hs with hs | hs
    · simp only [List.mem_cons, List.not_mem_nil, or_false] at hs
      rcases hs with rfl | rfl | rfl
      · exact spells_of_form hc h hbelow
      · exact spells_of_forms h hbelow
      · obtain ⟨k, hk, hsome, hspells⟩ := spells_of_opener (by decide) hc h hbelow
        obtain rfl := List.mem_singleton.1 hk
        exact hspells (.inl (.of_unrivalled (fun p => (closers_unrivalled p).1) hsome))
    · obtain ⟨k, hk, rfl⟩ := List.mem_map.1 hs
      exact spells_of_unrivalled (fun p => (closers_unrivalled p).2 k hk) hc h

theorem isPrefix_tag_iff {cs taken left : List Char}
    (h : TokenKind.tag.lexeme cs = some (taken, left)) :
    ['#', '_'] <+: taken ↔ (TokenKind.discard.lexeme cs).isSome := by
  have hcuts : taken ++ left = cs := TokenKind.tag.lexeme_cuts cs taken left h
  have hdiscard : (TokenKind.discard.lexeme cs).isSome ↔ ['#', '_'] <+: cs := by
    rw [TokenKind.lexeme, Recogniser.word, ← List.isPrefixOf_iff_prefix]
    split
    · next hbegins => simp [hbegins]
    · next hbegins => simp [hbegins]
  have hlength : 2 ≤ taken.length := by
    obtain ⟨first, mid, more, hmark, hrest, rfl⟩ := Recogniser.inOrder_cons_eq_some_iff.1 h
    obtain ⟨rfl, -⟩ := Recogniser.word_eq_some_iff.1 hmark
    have htakes : (Recogniser.inOrder [symbolText]).Takes :=
      Recogniser.inOrder_takes ⟨symbolText, by simp, TokenKind.symbol.lexeme_takes⟩
    have hmore := List.length_pos_iff.2 (htakes _ _ _ hrest)
    rw [List.length_append, List.length_singleton]
    omega
  rw [hdiscard]
  constructor
  · intro hbegins
    exact hbegins.trans ⟨left, hcuts⟩
  · intro hbegins
    exact List.prefix_of_prefix_length_le hbegins ⟨left, hcuts⟩ hlength

/-- The tag is one that the lexer would have cut after a discard mark. -/
def HoldsDiscard (token : Token) : Prop :=
  token.rule = TokenKind.tag.index ∧ ['#', '_'] <+: token.text.toList

instance : DecidablePred HoldsDiscard := fun token =>
  inferInstanceAs (Decidable (token.rule = TokenKind.tag.index ∧ ['#', '_'] <+: token.text.toList))

theorem Spells.not_holdsDiscard {c c' : Cursor} {ts : List Token}
    (h : Spells TokenKind.Preferred c ts c') : ∀ token ∈ ts, ¬ HoldsDiscard token := by
  rintro token hmem ⟨hrule, hbegins⟩
  obtain ⟨k, cs, taken, left, hk, htext, hcut, hpreferred⟩ := h.exists_cut token hmem
  obtain rfl : k = .tag := TokenKind.index_injective _ _ (hk.symm.trans hrule)
  rw [htext, String.toList_ofList, isPrefix_tag_iff hcut] at hbegins
  have hnone := hpreferred.earlier .discard (before_of_mem_rivals .discard .tag (by decide))
  rw [hnone] at hbegins
  cases hbegins

theorem Spells.preferred_of_nearly {c c' : Cursor} {ts : List Token} (h : Spells Nearly c ts c')
    (hts : ∀ token ∈ ts, ¬ HoldsDiscard token) : Spells TokenKind.Preferred c ts c' := by
  induction h with
  | done c => exact .done c
  | token hcut hk _ ih =>
    obtain ⟨htoken, hrest⟩ := List.forall_mem_cons.1 hts
    rcases hk with hk | ⟨rfl, hdiscard, -⟩
    · exact .token hcut hk (ih hrest)
    · refine absurd ⟨rfl, ?_⟩ htoken
      rw [TokenKind.token, String.toList_ofList, isPrefix_tag_iff hcut]
      exact hdiscard.accepts

theorem exists_spells_of_derive {text : String} {tree : Tree} (h : derive text = .ok tree) :
    ∃ stop, Spells Nearly (.start text.toList) tree.leaves stop ∧ (skipTrivia stop).rest = [] := by
  obtain ⟨c, hread⟩ := derive_eq_ok_iff.1 h
  obtain ⟨ts, hparts, rfl⟩ := produced_of_reading hread
  cases hparts with
  | sequence hparts =>
    have hforms : ∀ {s d t d'}, (∃ part ∈ [Part.one (.rule .forms), .finish], s ∈ part.symbols) →
        (Cursor.start text.toList).Reaches d → Settled d → readingOf matchAt s d t d' →
          SpellsUpTo Nearly d t.leaves d' := by
      rintro s d t d' ⟨part, hpart, hmem⟩ - hd hread
      rcases List.mem_pair.1 hpart with rfl | rfl
      · obtain rfl := List.mem_singleton.1 hmem
        exact spellsBelow _ (by decide) (Nat.lt_succ_self _) hd hread
      · cases hmem
    have hsymbols : Sequenced (fun _ d t d' => SpellsUpTo Nearly d t.leaves d')
        ([.one (.rule .forms)] ++ [.finish]) _ ts c := hparts.imp reaches_of_reading hforms
    exact hsymbols.spells_to_end fun hspells _ => hspells

theorem exists_code_of_derives {tree : Tree} (h : Derives (.rule .code) tree) :
    ∃ d : Derivation, d.Valid ∧ d.root = .rule .forms ∧
      tree.leaves.map Token.rule = d.leaves.map TokenKind.index ∧
      treeShape tree = Derivation.shape (.node .code [d]) := by
  obtain ⟨e, hvalid, hroot, hshape⟩ := h
  have hkinds := map_rule_leaves hshape
  cases hvalid with
  | token k => cases hroot
  | @rule r ds hallows hds =>
    obtain rfl := Symbol.rule.inj hroot
    obtain ⟨us, hroots, hfinish⟩ := AllowsInOrder.cons_one hallows
    have hnil : us = [] := hfinish.of_single
    rw [hnil] at hroots
    obtain ⟨d, rfl, hd⟩ := List.map_eq_singleton_iff.1 hroots
    refine ⟨d, hds d (List.mem_singleton_self d), hd, ?_, hshape⟩
    rw [hkinds, Rose.leaves, Rose.leavesAll, Rose.leavesAll, List.append_nil]

theorem exists_forms_of_derives {tree : Tree} (h : Derives (.rule .code) tree) :
    ∃ d : Derivation, d.Valid ∧ d.root = .rule .forms ∧
      tree.leaves.map Token.rule = d.leaves.map TokenKind.index := by
  obtain ⟨d, hvalid, hroot, hkinds, -⟩ := exists_code_of_derives h
  exact ⟨d, hvalid, hroot, hkinds⟩

/-- The lexer and the parser agree unless the parser reads a discard mark again as a tag. This
never happens in a text whose tokens are forms by themselves. -/
theorem lex_eq_tokens_iff (text : String) (tree : Tree) (h : parse text = .ok tree) :
    ∃ tokens, lex text = .ok tokens ∧
      (tree.tokens = tokens ↔ ∀ token ∈ tree.tokens, ¬ HoldsDiscard token) ∧
      (tree.tokens = tokens ↔ ∃ d : Derivation, d.Valid ∧ d.root = .rule .forms ∧
        tokens.map Token.rule = d.leaves.map TokenKind.index) := by
  obtain ⟨tokens, hlex, -, hderive⟩ := parse_eq_ok_iff.1 h
  obtain ⟨stop, hspells, hend⟩ := exists_spells_of_lex hlex
  rw [Tree.tokens_eq_leaves]
  refine ⟨tokens, hlex, ⟨?_, ?_⟩, ?_, ?_⟩
  · rintro rfl
    exact hspells.not_holdsDiscard
  · intro hnone
    -- All tokens of the tree are then read by preference, which leaves no choice.
    obtain ⟨stop', hnearly, hend'⟩ := exists_spells_of_derive hderive
    exact (hnearly.preferred_of_nearly hnone).preferred_unique hspells hend' hend
  · rintro rfl
    obtain ⟨c, hread⟩ := derive_eq_ok_iff.1 hderive
    exact exists_forms_of_derives (derives_of_reading hread)
  · rintro ⟨d, hvalid, hroot, hkinds⟩
    obtain ⟨tree', hderive', hleaves, -⟩ := exists_derive_of_valid hlex hvalid hroot hkinds
    obtain rfl : tree = tree' := Except.ok.inj (hderive.symm.trans hderive')
    exact hleaves

/-- Without a form behind it the discard mark becomes part of a tag. -/
theorem lex_ne_tokens_of_reread_discard :
    ¬ ∀ tree, parse "#_#:a b" = .ok tree → lex "#_#:a b" = .ok tree.tokens := by
  intro hagree
  have hlex : lex "#_#:a b" =
      .ok [⟨TokenKind.discard.index, "#_", 0, 2⟩,
        ⟨TokenKind.namespacedMapPrefix.index, "#:a", 2, 5⟩,
        ⟨TokenKind.symbol.index, "b", 6, 7⟩] :=
    eq_ok_of_toOption (by decide +kernel)
  have hparse : (parse "#_#:a b").toOption.map Tree.tokens =
      some [⟨TokenKind.tag.index, "#_#:a", 0, 5⟩, ⟨TokenKind.symbol.index, "b", 6, 7⟩] := by
    decide +kernel
  obtain ⟨tree, htree, hterminals⟩ := Option.map_eq_some_iff.1 hparse
  have htokens := Except.ok.inj (hlex.symm.trans (hagree tree (eq_ok_of_toOption htree)))
  have hlength := congrArg List.length (htokens.trans hterminals)
  cases hlength

theorem lex_eq_tokens_iff_discarded_symbol :
    ∃ tree tokens, parse "#_a b" = .ok tree ∧ lex "#_a b" = .ok tokens ∧
      (tree.tokens = tokens ↔ ∀ token ∈ tree.tokens, ¬ HoldsDiscard token) ∧
      (tree.tokens = tokens ↔ ∃ d : Derivation, d.Valid ∧ d.root = .rule .forms ∧
        tokens.map Token.rule = d.leaves.map TokenKind.index) := by
  obtain ⟨tree, hparse⟩ : ∃ tree, parse "#_a b" = .ok tree := exists_eq_ok (by decide +kernel)
  obtain ⟨tokens, hlex, hiff⟩ := lex_eq_tokens_iff "#_a b" tree hparse
  exact ⟨tree, tokens, hparse, hlex, hiff⟩

end HiccupReader.Clojure
