import HiccupReader.Proofs.Clojure.Respacing

/-! How the lexer cuts the tokens of a tree. It keeps all of them but the tags that the parser reads
again. Each of these is a discard mark to it, with more marks behind. -/

namespace HiccupReader.Clojure

open Matching

/-- The kinds of the tokens of a tree, and the kinds that the lexer finds in the same text. -/
inductive Recut : List TokenKind → List TokenKind → Prop
  | nil : Recut [] []
  | same {ks js : List TokenKind} (k : TokenKind) : Recut ks js → Recut (k :: ks) (k :: js)
  | reread {marks ks js : List TokenKind} : (∀ k ∈ marks, Nesting.role k = .awaits 1) →
    Recut ks js → Recut (.tag :: ks) (.discard :: (marks ++ js))

theorem Recut.split {front back js : List TokenKind} (h : Recut (front ++ back) js) :
    ∃ front' back', js = front' ++ back' ∧ Recut front front' ∧ Recut back back' := by
  induction front generalizing js with
  | nil => exact ⟨[], js, rfl, .nil, h⟩
  | cons k front ih =>
    cases h with
    | same _ hrest =>
      obtain ⟨front', back', rfl, hfront, hback⟩ := ih hrest
      exact ⟨k :: front', back', rfl, hfront.same k, hback⟩
    | @reread marks _ _ hmarks hrest =>
      obtain ⟨front', back', rfl, hfront, hback⟩ := ih hrest
      exact ⟨.discard :: (marks ++ front'), back', by simp, .reread hmarks hfront, hback⟩

theorem QuoteMark.role_eq {mark : List Char} {k : TokenKind} {r : Rule} (h : QuoteMark mark k r) :
    Nesting.role k = .awaits 1 := by
  have hproduction := h.production
  cases r <;> cases hproduction <;> rfl

theorem Marked.role_eq {body : List Char} {ks : List TokenKind} (h : Marked body ks) :
    ∀ k ∈ ks, Nesting.role k = .awaits 1 := by
  induction h with
  | mapPrefix cs => exact List.forall_mem_singleton.2 rfl
  | quoted hmark _ ih => exact List.forall_mem_cons.2 ⟨hmark.role_eq, ih⟩

theorem Spells.exists_recut {c stop : Cursor} {ts : List Token} {ks : List TokenKind}
    (h : Spells Settles c ts stop) (hkinds : ts.map Token.rule = ks.map TokenKind.index) :
    ∃ ls js, Spells TokenKind.Preferred c ls stop ∧ ls.map Token.rule = js.map TokenKind.index ∧
      Recut ks js := by
  induction h generalizing ks with
  | done c =>
    obtain rfl := List.map_eq_nil_iff.1 hkinds.symm
    exact ⟨[], [], .done c, rfl, .nil⟩
  | @token k c stop taken left ts hcut hp _ ih =>
    obtain ⟨j, ks, rfl, hrule, hrest⟩ := List.map_eq_cons_iff.1 hkinds.symm
    obtain rfl : j = k := TokenKind.index_injective _ _ hrule
    obtain ⟨ls, js, hspells, hlexed, hrecut⟩ := ih hrest.symm
    rcases hp with hp | ⟨rfl, body, left', marks, hcs, hreread⟩
    · exact ⟨_, j :: js, .token hcut hp hspells, congrArg (List.cons j.index) hlexed, hrecut.same j⟩
    · obtain ⟨rfl, rfl⟩ := hreread.eq_of_lexeme hcs hcut
      obtain ⟨us, hus, hmarks⟩ := hreread.spells hcs
      refine ⟨us ++ ls, _, hus.append hspells, ?_, .reread hreread.marked.role_eq hrecut⟩
      rw [List.map_append, hmarks, hlexed, ← List.map_append, List.cons_append]

theorem exists_recut_of_parse {text : String} {tree : Tree} (h : parse text = .ok tree)
    (hts : ∀ token ∈ tree.tokens, ¬ HidesComment token.text) :
    ∃ tokens js, ∃ d : Derivation, lex text = .ok tokens ∧
      Nesting.firstTooDeep? tokens = none ∧ d.Valid ∧ d.root = .rule .forms ∧
      treeShape tree = Derivation.shape (.node .code [d]) ∧
      tokens.map Token.rule = js.map TokenKind.index ∧ Recut d.leaves js := by
  obtain ⟨tokens, hlex, hdeep, hderive⟩ := parse_eq_ok_iff.1 h
  obtain ⟨stop, hsettles, hend⟩ := exists_settles_of_parse h hts
  obtain ⟨stop', hpreferred, hend'⟩ := exists_spells_of_lex hlex
  obtain ⟨c, hread⟩ := derive_eq_ok_iff.1 hderive
  obtain ⟨d, hvalid, hroot, hkinds, hshape⟩ := exists_code_of_derives (derives_of_reading hread)
  obtain ⟨ls, js, hls, hlexed, hrecut⟩ := hsettles.exists_recut hkinds
  obtain rfl := hls.preferred_unique hpreferred hend hend'
  exact ⟨ls, js, d, hlex, hdeep, hvalid, hroot, hshape, hlexed, hrecut⟩

end HiccupReader.Clojure
