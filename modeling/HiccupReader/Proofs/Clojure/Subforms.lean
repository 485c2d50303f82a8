import HiccupReader.Proofs.Clojure.Moving
import HiccupReader.Proofs.Clojure.Occurring

/-! A form by itself. The text of a form within a parsed text is parsed alone, as this form and
nothing else, unless a tag up to its end hides a comment. -/

namespace HiccupReader.Clojure

open Matching Text

variable {P Q : TokenKind → List Char → Prop} {c d d' : Cursor} {ts : List Token} {w : List Char}
  {text : String} {tree node : Tree}

theorem Spells.same_stop (h : Spells P c ts d) (h' : Spells Q c ts d') : d = d' := by
  induction h with
  | done => exact h'.eq_of_nil.symm
  | @token k c stop taken left ts hcut _ _ ih =>
    generalize htoken : k.token (skipTrivia c) taken = token at h'
    cases h' with
    | @token j _ _ taken' left' _ hcut' _ hrest =>
      obtain rfl : k = j := TokenKind.index_injective _ _ (congrArg Token.rule htoken)
      obtain rfl : taken = taken' := String.ofList_injective (congrArg Token.text htoken)
      rw [hcut] at hcut'
      obtain ⟨-, rfl⟩ := Prod.mk.inj (Option.some.inj hcut')
      exact ih hrest

theorem Spells.stop_le (h : Spells P c ts d) : ∀ token ∈ ts, token.span.stop ≤ d.offset := by
  induction h with
  | done => simp
  | token _ _ hrest ih => exact List.forall_mem_cons.2 ⟨hrest.reaches.offset_le, ih⟩

theorem Spells.exists_preferred (h : Spells Settles c ts d) :
    ∃ ls, Spells TokenKind.Preferred c ls d := by
  induction h with
  | done c => exact ⟨[], .done c⟩
  | token hcut hk _ ih =>
    obtain ⟨us, hus⟩ := hk.exists_spells hcut
    obtain ⟨ls, hls⟩ := ih
    exact ⟨us ++ ls, hus.append hls⟩

theorem eq_form_of_rule {s : Symbol} (h : readingOf matchAt s c node d)
    (hform : node.rule = Rule.form.index) : s = .rule .form := by
  cases s with
  | rule r =>
    obtain ⟨ts, -, rfl⟩ := produced_of_reading h
    exact congrArg Symbol.rule (Rule.index_injective _ _ hform)
  | token k =>
    obtain ⟨taken, left, -, rfl, -⟩ := readingOf_token_iff.1 h
    have hindex : k.index = Rule.form.index := hform
    cases k <;> cases hindex

theorem exists_form_occurs (h : derive text = .ok tree) (hnode : Rose.Within node tree)
    (hform : node.rule = Rule.form.index) : ∃ d d' before after,
      Occurs (readingOf matchAt) (.start text.toList) tree.leaves (.rule .form) node d d' before
        after := by
  obtain ⟨stop, hitems, -, outer, inner, htree⟩ := exists_items_of_derive h
  obtain ⟨top, htop, hin⟩ : ∃ top ∈ tree.topForms, Rose.Within node top := by
    rw [htree] at hnode
    cases hnode with
    | whole => cases hform
    | inside hmem hin =>
      obtain rfl := List.mem_singleton.1 hmem
      cases hin with
      | whole => cases hform
      | inside hmem hin => exact ⟨_, hmem, hin⟩
  obtain ⟨s, d, d', before, after, houter⟩ := hitems.occurAll upTo_of_reading top htop
  obtain ⟨s', e, e', before', after', hinner⟩ :=
    exists_occurs_of_within hin houter.reading houter.settled
  obtain rfl := eq_form_of_rule hinner.reading hform
  rw [leaves_eq_of_topForms htree]
  exact ⟨e, e', _, _, (houter.trans hinner).of_skipTrivia⟩

theorem exists_spells_alone
    (h : Spells P ⟨d.offset, w ++ []⟩ ts ⟨d'.offset, []⟩) : ∃ us stop,
      Spells P (.start w) us stop ∧ stop.rest = [] ∧ ts = us.map (Token.shift d.offset) := by
  rw [List.append_nil] at h
  have hstart : (⟨d.offset, w⟩ : Cursor) = (Cursor.start w).shift d.offset :=
    congrArg (Cursor.mk · w) (Nat.zero_add _).symm
  obtain ⟨us, stop, hspells, hts, hstop⟩ := h.exists_unshift hstart
  exact ⟨us, stop, hspells, (congrArg Cursor.rest hstop).symm, hts⟩

theorem parted_nil (cs : List Char) : Parted cs [] := .here fun _ h => by cases h

theorem exists_lex_alone (h : Spells TokenKind.Preferred d ts d') (hw : d.rest = w ++ d'.rest) :
    ∃ us, lex (String.ofList w) = .ok us ∧ us.map Token.rule = ts.map Token.rule := by
  obtain ⟨us, stop, hspells, hend, rfl⟩ :=
    exists_spells_alone (h.exchange_preferred (parted_nil _) hw)
  rw [← String.toList_ofList (l := w)] at hspells
  refine ⟨us, lex_of_spells hspells (by rw [Settled.of_rest_nil hend, hend]), ?_⟩
  rw [List.map_map]
  rfl

theorem exists_form_alone {e : Derivation} (hvalid : e.Valid) (hroot : e.root = .rule .form)
    (hkinds : ts.map Token.rule = e.leaves.map TokenKind.index) (h : Spells Settles d ts d')
    (hw : d.rest = w ++ d'.rest) : ∃ form us stop, FormItems (skipTrivia (.start w)) [form] stop ∧
      (skipTrivia stop).rest = [] ∧ Matches [e] [form] us ∧ ts = us.map (Token.shift d.offset) := by
  have hformed := Nesting.formed_of_valid hvalid (by rw [hroot]; rfl)
  obtain ⟨us, mid, hspells, hend, rfl⟩ := exists_spells_alone
    (h.exchange_settles hkinds hformed.endsForm (parted_nil _) hw)
  obtain ⟨stop, hspells, hstop⟩ := hspells.exists_of_skip_eq (skipTrivia_skipTrivia _)
  have hlexed : us.map Token.rule = (Rose.leavesAll [e]).map TokenKind.index := by
    rw [Rose.leavesAll, Rose.leavesAll, List.append_nil, ← hkinds, List.map_map]
    rfl
  have hcomplete : Complete e := hvalid.complete (by rw [hroot]; rfl)
  obtain ⟨forms, hitems, hmatches⟩ :=
    exists_formItems (List.forall_mem_singleton.2 ⟨hroot, hvalid, hcomplete⟩) ⟨hspells, hlexed⟩
  obtain ⟨form, rfl, -⟩ := List.map_eq_singleton_iff.1 hmatches.shapes
  exact ⟨form, us, stop, hitems, by rw [hstop, Settled.of_rest_nil hend, hend], hmatches, rfl⟩

theorem exists_derive_alone (h : readingOf matchAt (.rule .form) d node d')
    (hsettles : Spells Settles d node.leaves d') (hd : Settled d) (hw : d.rest = w ++ d'.rest) :
    ∃ alone form, derive (String.ofList w) = .ok alone ∧ alone.topForms = [form] ∧
      form.shift d.offset = node := by
  obtain ⟨e, hvalid, hroot, hshape⟩ := derives_of_reading h
  obtain ⟨form, us, stop, hitems, hend, hmatches, hleaves⟩ :=
    exists_form_alone hvalid hroot (map_rule_leaves hshape) hsettles hw
  rw [← String.toList_ofList (l := w)] at hitems
  obtain ⟨alone, hderive, htop⟩ := exists_derive_of_items hitems hend
  refine ⟨alone, form, hderive, htop, ?_⟩
  -- Moved to where it stands in the text, the form has the tokens and the shape of the node.
  have hplaced : FormItems d [node] d' := by
    rw [← hd] at h
    exact .item (List.mem_singleton_self _) h (.done d')
  have hmoved : Matches [e] ([form].map (Tree.shift d.offset)) node.leaves := by
    refine ⟨?_, ?_⟩
    · rw [Tree.leavesAll_shift, hmatches.leaves, hleaves]
    · rw [← hmatches.shapes, List.map_map]
      exact List.map_congr_left fun t _ => treeShape_shift _ t
  have hstands : Matches [e] [node] node.leaves := by
    refine ⟨?_, congrArg (fun shape => [shape]) hshape⟩
    rw [Rose.leavesAll, Rose.leavesAll, List.append_nil]
  exact List.singleton_inj.1
    (FormItems.eq_of_matches (hitems.shift d.offset) hplaced hmoved hstands)

theorem exists_form_settles (h : parse text = .ok tree) (hnode : Rose.Within node tree)
    (hform : node.rule = Rule.form.index)
    (hvisible : ∀ token ∈ tree.tokens, token.span.stop ≤ node.span.stop →
      ¬ HidesComment token.text) :
    ∃ before mid d', readingOf matchAt (.rule .form) (skipTrivia mid) node d' ∧
      Spells Settles (.start text.toList) before mid ∧ Spells Settles mid node.leaves d' := by
  obtain ⟨tokens, hlex, -, hderive⟩ := parse_eq_ok_iff.1 h
  obtain ⟨d, d', before, after, hd, hread, hleaves, mid, hfront, hmid⟩ :=
    exists_form_occurs hderive hnode hform
  obtain ⟨stop, hnearly, -⟩ := exists_spells_of_derive hderive
  have hspan : node.span = ⟨d.offset, d'.offset⟩ := (fits_of_reading hread).placed.span
  have hspelled := spelled_of_reading hread hd
  obtain rfl : d = skipTrivia mid := by
    rcases hmid with rfl | rfl
    · exact hd.symm
    · rfl
  rw [hleaves, ← List.append_assoc] at hnearly
  obtain ⟨last, hupto, -⟩ := hnearly.split
  obtain rfl : last = d' := by
    obtain ⟨e, hfirst, hrest⟩ := hupto.split
    obtain rfl := hfirst.same_stop hfront
    exact (hrest.skip (hspelled.ne_nil rfl)).same_stop (hspelled.exactly rfl)
  have hsettles : Spells Settles (.start text.toList) (before ++ node.leaves) last := by
    refine hupto.settles (lexable_of_lex hlex) fun token hmem => hvisible token ?_ ?_
    · rw [Tree.tokens_eq_leaves, hleaves, ← List.append_assoc]
      exact List.mem_append_left _ hmem
    · rw [hspan]
      exact hupto.stop_le token hmem
  obtain ⟨e, hfirst, hrest⟩ := hsettles.split
  obtain rfl := hfirst.same_stop hfront
  exact ⟨before, e, last, hread, hfirst, hrest⟩

theorem exists_shallow {before : List Token}
    (hbefore : Spells Settles (.start text.toList) before c) (hts : Spells Settles c ts d)
    (hne : ts ≠ []) {tokens : List Token} (hlex : lex text = .ok tokens)
    (hdeep : Nesting.firstTooDeep? tokens = none) :
    ∃ ls, Spells TokenKind.Preferred (skipTrivia c) ls d ∧ Nesting.Shallow [] ls := by
  obtain ⟨bs, hbs⟩ := hbefore.exists_preferred
  obtain ⟨ls, hls⟩ := hts.exists_preferred
  have hlsne : ls ≠ [] := by
    rintro rfl
    have hlt := hts.length_lt hne
    rw [hls.eq_of_nil] at hlt
    exact Nat.lt_irrefl _ hlt
  obtain ⟨stop, hall, hend⟩ := exists_spells_of_lex hlex
  obtain ⟨vs, rfl, -⟩ := (hbs.append hls).exists_rest id hall hend
  rw [Nesting.firstTooDeep?_eq_none_iff, List.append_assoc, Nesting.shallow_append_iff,
    Nesting.shallow_append_iff] at hdeep
  exact ⟨ls, hls.skip hlsne, hdeep.2.1.of_isPrefix List.nil_prefix⟩

/-- A form of a text that is parsed is parsed alone, as it stands in the text but for its place, if
no tag up to its end hides a comment. -/
theorem forms_read_alone (text : String) (tree node : Tree) (h : parse text = .ok tree)
    (hnode : Rose.Within node tree) (hform : node.rule = Rule.form.index)
    (hvisible : ∀ token ∈ tree.tokens, token.span.stop ≤ node.span.stop →
      ¬ HidesComment token.text) :
    ∃ piece : String, Selects text.toList node.span piece.toList ∧
      ∃ alone form, parse piece = .ok alone ∧ alone.topForms = [form] ∧
        form.shift node.span.start = node := by
  obtain ⟨tokens, hlex, hdeep, -⟩ := parse_eq_ok_iff.1 h
  obtain ⟨before, mid, d', hread, hbefore, hsettles⟩ := exists_form_settles h hnode hform hvisible
  have hd := settled_skipTrivia mid
  have hne := (spelled_of_reading hread hd).ne_nil rfl
  have hspan : node.span = ⟨(skipTrivia mid).offset, d'.offset⟩ :=
    (fits_of_reading hread).placed.span
  obtain ⟨w, hw, hbytes⟩ := reaches_of_reading hread
  obtain ⟨ls, hls, hshallow⟩ := exists_shallow hbefore hsettles hne hlex hdeep
  obtain ⟨us, hlexed, hrules⟩ := exists_lex_alone hls hw.symm
  obtain ⟨alone, form, hderived, htop, hshift⟩ :=
    exists_derive_alone hread (hsettles.skip hne) hd hw.symm
  obtain ⟨front, htext, hoffset⟩ := hbefore.reaches.trans (reaches_skipTrivia mid)
  refine ⟨String.ofList w, ⟨front, d'.rest, ?_, ?_, ?_⟩, alone, form, ?_, htop, ?_⟩
  · rw [String.toList_ofList, List.append_assoc, hw]
    exact htext.symm
  · rw [hspan, hoffset]
    exact Nat.zero_add _
  · rw [hspan, String.toList_ofList, hbytes, hoffset]
    exact congrArg (· + byteLength w) (Nat.zero_add _)
  · exact parse_eq_ok_iff.2 ⟨us, hlexed,
      Nesting.firstTooDeep?_eq_none_iff.2 (hshallow.of_rules hrules), hderived⟩
  · rw [hspan]
    exact hshift

theorem quoted_vector_reads_alone :
    ∃ tree, ∃ node : Tree, parse "(a '[b ;c)\n])" = .ok tree ∧ Rose.Within node tree ∧
      node.rule = Rule.form.index ∧ node.span = ⟨3, 12⟩ ∧
      (∀ token ∈ tree.tokens, token.span.stop ≤ node.span.stop → ¬ HidesComment token.text) ∧
      ∃ piece : String, Selects "(a '[b ;c)\n])".toList node.span piece.toList ∧
        ∃ alone form, parse piece = .ok alone ∧ alone.topForms = [form] ∧
          form.shift node.span.start = node := by
  have hfound : ((parse "(a '[b ;c)\n])").toOption.bind fun tree =>
      tree.parts.find? fun node : Tree =>
        decide (node.rule = Rule.form.index ∧ node.span = ⟨3, 12⟩ ∧ ∀ token ∈ tree.tokens,
          token.span.stop ≤ node.span.stop → ¬ HidesComment token.text)).isSome = true := by
    decide +kernel
  obtain ⟨node, hnode⟩ := Option.isSome_iff_exists.1 hfound
  obtain ⟨tree, htree, hnode⟩ := Option.bind_eq_some_iff.1 hnode
  have hparse := eq_ok_of_toOption htree
  have hwithin := Rose.mem_parts_iff.1 (List.mem_of_find?_eq_some hnode)
  have hchecked := List.find?_some hnode
  obtain ⟨hform, hspan, hvisible⟩ := of_decide_eq_true hchecked
  exact ⟨tree, node, hparse, hwithin, hform, hspan, hvisible,
    forms_read_alone _ tree node hparse hwithin hform hvisible⟩

/-- Alone the string is not closed: only the text behind it closes it to the lexer, which takes its
first quote for a part of a comment. -/
theorem not_forms_read_alone :
    ¬ ∀ text tree, ∀ node : Tree, parse text = .ok tree → Rose.Within node tree →
      node.rule = Rule.form.index → ∃ piece : String, Selects text.toList node.span piece.toList ∧
        ∃ alone form, parse piece = .ok alone ∧ alone.topForms = [form] ∧
          form.shift node.span.start = node := by
  intro hparsed
  have hfound : ((parse "#_#!x \"\n)\" ;\"").toOption.bind fun tree =>
      tree.parts.find? fun node : Tree =>
        decide (node.rule = Rule.form.index ∧ node.span = ⟨0, 10⟩)).isSome = true := by
    decide +kernel
  have hrefused : (parse "#_#!x \"\n)\"").toOption.isSome = false := by decide +kernel
  obtain ⟨node, hnode⟩ := Option.isSome_iff_exists.1 hfound
  obtain ⟨tree, htree, hnode⟩ := Option.bind_eq_some_iff.1 hnode
  have hwithin := Rose.mem_parts_iff.1 (List.mem_of_find?_eq_some hnode)
  have hchecked := List.find?_some hnode
  obtain ⟨hform, hspan⟩ := of_decide_eq_true hchecked
  obtain ⟨piece, hpiece, alone, form, halone, -⟩ :=
    hparsed _ tree node (eq_ok_of_toOption htree) hwithin hform
  have hselects : Selects "#_#!x \"\n)\" ;\"".toList node.span "#_#!x \"\n)\"".toList :=
    ⟨[], " ;\"".toList, by decide, by rw [hspan]; rfl, by rw [hspan]; decide +kernel⟩
  obtain rfl := String.toList_inj.1 (hpiece.unique hselects)
  rw [halone] at hrefused
  cases hrefused

end HiccupReader.Clojure
