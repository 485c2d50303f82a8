import HiccupReader.Proofs.Clojure.Agreement
import HiccupReader.Proofs.Tree

/-! Texts with the same tokens and other trivia between them. They are read alike, but for tags that
hide a comment. -/

namespace HiccupReader.Clojure

open Matching

/-- The texts one after the other, with a gap between each and the next. -/
inductive Joined (gaps : List Char → Prop) : List String → List Char → Prop
  | empty : Joined gaps [] []
  | last (text : String) : Joined gaps [text] text.toList
  | next {text : String} {texts : List String} {gap rest : List Char} : gaps gap → texts ≠ [] →
    Joined gaps texts rest → Joined gaps (text :: texts) (text.toList ++ gap ++ rest)

variable {gaps : List Char → Prop} {P : TokenKind → List Char → Prop}

theorem Joined.uncons {text : String} {texts : List String} {cs : List Char}
    (h : Joined gaps (text :: texts) cs) : ∃ left, cs = text.toList ++ left ∧
      (texts = [] ∧ left = [] ∨ ∃ gap rest, gaps gap ∧ left = gap ++ rest ∧
        Joined gaps texts rest) := by
  cases h with
  | last => exact ⟨[], by rw [List.append_nil], .inl ⟨rfl, rfl⟩⟩
  | next hgap _ hrest => exact ⟨_, List.append_assoc .., .inr ⟨_, _, hgap, rfl, hrest⟩⟩

theorem Separator.apart {gap : List Char} (h : Separator gap) (rest : List Char) :
    Apart (gap ++ rest) := by
  obtain ⟨c, cs, rfl, hc⟩ := h.begins
  intro d hd
  obtain rfl : c = d := Option.some.inj hd
  exact hc

theorem Joined.bare {c stop : Cursor} {ts : List Token} {cs : List Char}
    (hspells : Spells P c ts stop) (h : Joined gaps (ts.map Token.text) cs) :
    (splitTrivia false cs).2 = cs := by
  cases hspells with
  | done =>
    cases h
    rfl
  | @token k _ _ taken left ts hcut _ _ =>
    obtain ⟨left', rfl, -⟩ := h.uncons
    have htext : taken ++ left = (skipTrivia c).rest := k.lexeme_cuts _ _ _ hcut
    have hbare := settled_iff.1 (settled_skipTrivia c)
    rw [← htext] at hcut hbare
    rw [TokenKind.token, String.toList_ofList]
    exact splitTrivia_of_lexeme hcut hbare left'

section

variable (hgaps : ∀ gap, gaps gap → Separator gap) {c stop : Cursor} {ts : List Token}
  {cs : List Char}

include hgaps

theorem Joined.step {text : String} (hspells : Spells P c ts stop)
    (h : Joined gaps (text :: ts.map Token.text) cs) :
    ∃ left, cs = text.toList ++ left ∧ Apart left ∧
      Joined gaps (ts.map Token.text) (splitTrivia false left).2 := by
  obtain ⟨left, rfl, hleft⟩ := h.uncons
  refine ⟨left, rfl, ?_⟩
  rcases hleft with ⟨hnil, rfl⟩ | ⟨gap, rest, hgap, rfl, hrest⟩
  · rw [hnil]
    exact ⟨fun _ h => by (cases h), .empty⟩
  · have hsep := hgaps gap hgap
    refine ⟨hsep.apart rest, ?_⟩
    rw [hsep.trivia.splitTrivia_append, hrest.bare hspells]
    exact hrest

end

theorem Joined.head_eq {c stop : Cursor} {ts : List Token} {cs : List Char}
    (hspells : Spells P c ts stop) (hend : (skipTrivia stop).rest = [])
    (h : Joined gaps (ts.map Token.text) cs) : cs.head? = (skipTrivia c).rest.head? := by
  cases hspells with
  | done =>
    cases h
    rw [hend]
  | @token k _ _ taken left ts hcut _ _ =>
    obtain ⟨left', rfl, -⟩ := h.uncons
    have htext : taken ++ left = (skipTrivia c).rest := k.lexeme_cuts _ _ _ hcut
    obtain ⟨d, ds, rfl⟩ := List.exists_cons_of_ne_nil (k.lexeme_takes _ _ _ hcut)
    rw [TokenKind.token, String.toList_ofList, ← htext]
    rfl

theorem Spells.exists_respaced (hgaps : ∀ gap, gaps gap → Separator gap) {c stop d : Cursor}
    {ts : List Token} (h : Spells Settles c ts stop) (hend : (skipTrivia stop).rest = [])
    (hjoined : Joined gaps (ts.map Token.text) (skipTrivia d).rest) :
    ∃ us stop', Spells Settles d us stop' ∧ (skipTrivia stop').rest = [] ∧
      us.map Token.content = ts.map Token.content ∧
        ∃ ls ms, Spells TokenKind.Preferred c ls stop ∧ Spells TokenKind.Preferred d ms stop' ∧
          ms.map Token.rule = ls.map Token.rule := by
  induction h generalizing d with
  | done c =>
    generalize hcs : (skipTrivia d).rest = cs at hjoined
    cases hjoined
    exact ⟨[], d, .done d, hcs, rfl, [], [], .done c, .done d, rfl⟩
  | @token k c stop taken left ts hcut hp hrest ih =>
    obtain ⟨left', htext', hapart, hjoined'⟩ := Joined.step hgaps hrest hjoined
    rw [TokenKind.token, String.toList_ofList] at htext'
    have htext : taken ++ left = (skipTrivia c).rest := k.lexeme_cuts _ _ _ hcut
    have hcut' : k.lexeme (skipTrivia d).rest = some (taken, left') := by
      rw [← htext] at hcut
      rw [htext']
      exact k.lexeme_stable taken left left' hcut (.here hapart)
    obtain ⟨us, stop', hus, hend', hcontents, ls, ms, hls, hms, hkinds⟩ :=
      ih hend (d := (skipTrivia d).advance taken left') hjoined'
    rcases hp with hpreferred | ⟨rfl, body, left₁, ks, hcs, hreread⟩
    · have hpreferred' : k.Preferred (skipTrivia d).rest := by
        rw [← htext] at hcut hpreferred
        rw [htext']
        exact hpreferred.of_parted hcut (.here hapart)
      exact ⟨_, stop', .token hcut' (.inl hpreferred') hus, hend',
        congrArg (List.cons _) hcontents, _, _, .token hcut hpreferred hls,
        .token hcut' hpreferred' hms, congrArg (List.cons _) hkinds⟩
    · obtain ⟨rfl, rfl⟩ := hreread.eq_of_lexeme hcs hcut
      -- The next token is the same, so that no map stands behind the tag.
      have hnoMap : (splitTrivia false left').2.head? ≠ some '\x7b' := by
        rw [Joined.head_eq hrest hend hjoined']
        exact hreread.noMap
      have hreread' := hreread.of_parted (.here hapart) hnoMap
      obtain ⟨es, hes, heskinds⟩ := hreread.spells hcs
      obtain ⟨fs, hfs, hfskinds⟩ := hreread'.spells htext'
      refine ⟨_, stop', .token hcut' (.inr ⟨rfl, body, left', ks, htext', hreread'⟩) hus, hend',
        congrArg (List.cons _) hcontents, _, _, hes.append hls, hfs.append hms, ?_⟩
      rw [List.map_append, List.map_append, heskinds, hfskinds, hkinds]

theorem Spells.exists_rest (hP : ∀ {k cs}, P k cs → k.Preferred cs) {c mid stop : Cursor}
    {ts us : List Token} (h : Spells TokenKind.Preferred c us mid) (hall : Spells P c ts stop)
    (hend : (skipTrivia stop).rest = []) : ∃ vs, ts = us ++ vs ∧ Spells P mid vs stop := by
  induction h generalizing ts with
  | done c => exact ⟨ts, rfl, hall⟩
  | @token k c mid taken left us hcut hk _ ih =>
    cases hall with
    | done =>
      rw [hend, k.lexeme_nil] at hcut
      cases hcut
    | token hcut' hj hrest =>
      obtain rfl := hk.unique (hP hj)
      rw [hcut] at hcut'
      obtain ⟨rfl, rfl⟩ := Prod.mk.inj (Option.some.inj hcut')
      obtain ⟨vs, rfl, hvs⟩ := ih hrest
      exact ⟨vs, rfl, hvs⟩

theorem exists_body_of_discard {cs taken left : List Char}
    (hcut : TokenKind.tag.lexeme cs = some (taken, left))
    (hdiscard : TokenKind.discard.Preferred cs) : ∃ body, taken = '#' :: '_' :: body := by
  obtain ⟨body, rfl⟩ := (isPrefix_tag_iff hcut).2 hdiscard.accepts
  exact ⟨body, rfl⟩

theorem Lexable.skip {c : Cursor} (h : Lexable c.rest) : Lexable (skipTrivia c).rest := by
  obtain ⟨d, ts, stop, hd, hspells, hend⟩ := h
  obtain ⟨mid, hmid, hend'⟩ := hspells.exists_of_skipTrivia hend
  have hrest : (skipTrivia d).rest = (skipTrivia c).rest :=
    congrArg (fun cs => (splitTrivia false cs).2) hd
  exact ⟨skipTrivia d, ts, mid, hrest, hmid, hend'⟩

theorem Settles.exists_spells {c : Cursor} {k : TokenKind} {taken left : List Char}
    (hk : Settles k (skipTrivia c).rest)
    (hcut : k.lexeme (skipTrivia c).rest = some (taken, left)) :
    ∃ us, Spells TokenKind.Preferred c us ((skipTrivia c).advance taken left) := by
  rcases hk with hk | ⟨rfl, body, left', ks, htext, hreread⟩
  · exact ⟨_, .token hcut hk (.done _)⟩
  · obtain ⟨rfl, rfl⟩ := hreread.eq_of_lexeme htext hcut
    obtain ⟨us, hus, -⟩ := hreread.spells htext
    exact ⟨us, hus⟩

theorem Lexable.advance {c : Cursor} {k : TokenKind} {taken left : List Char}
    (h : Lexable c.rest) (hc : Settled c) (hk : Settles k c.rest)
    (hcut : k.lexeme c.rest = some (taken, left)) : Lexable left := by
  obtain ⟨d, ts, stop, hd, hspells, hend⟩ := h
  have hskip : (skipTrivia d).rest = c.rest := by
    have hrest := settled_iff.1 hc
    rw [← hd] at hrest ⊢
    exact hrest
  rw [← hskip] at hk hcut
  obtain ⟨us, hus⟩ := hk.exists_spells hcut
  obtain ⟨vs, -, hvs⟩ := hus.exists_rest id hspells hend
  exact ⟨_, vs, stop, rfl, hvs, hend⟩

theorem Nearly.settles {c : Cursor} {k : TokenKind} {taken left : List Char}
    (h : Nearly k c.rest) (hc : Settled c) (hlex : Lexable c.rest)
    (hcut : k.lexeme c.rest = some (taken, left))
    (hhidden : ∀ body, k = .tag → taken = '#' :: '_' :: body → ¬ opensHidden body = true) :
    Settles k c.rest := by
  rcases h with hk | ⟨rfl, hdiscard, htags⟩
  · exact .inl hk
  · obtain ⟨body, rfl⟩ := exists_body_of_discard hcut hdiscard
    have htext : '#' :: '_' :: body ++ left = c.rest := TokenKind.tag.lexeme_cuts _ _ _ hcut
    have hdiscardCut : TokenKind.discard.lexeme c.rest = some (['#', '_'], body ++ left) := by
      rw [← htext]
      rfl
    have hlexBody : Lexable (body ++ left) := hlex.advance hc (.inl hdiscard) hdiscardCut
    rw [← htext] at htags hcut
    obtain ⟨ks, hreread⟩ := htags.exists_reread hcut (hhidden body rfl rfl) hlexBody
    exact .inr ⟨rfl, body, left, ks, htext.symm, hreread⟩

theorem Spells.settles {c stop : Cursor} {ts : List Token} (h : Spells Nearly c ts stop)
    (hlex : Lexable c.rest) (hts : ∀ token ∈ ts, ¬ HidesComment token.text) :
    Spells Settles c ts stop := by
  induction h with
  | done c => exact .done c
  | @token k c stop taken left ts hcut hk hrest ih =>
    obtain ⟨htoken, hothers⟩ := List.forall_mem_cons.1 hts
    have hvisible : ∀ body, k = .tag → taken = '#' :: '_' :: body → ¬ opensHidden body = true := by
      rintro body - rfl hhidden
      exact htoken (hidesComment_iff.2 ⟨body, String.toList_ofList, hhidden⟩)
    have hsettles := hk.settles (settled_skipTrivia c) hlex.skip hcut hvisible
    have hleft := hlex.skip.advance (settled_skipTrivia c) hsettles hcut
    exact .token hcut hsettles (ih hleft hothers)

theorem exists_settles_of_parse {text : String} {tree : Tree} (h : parse text = .ok tree)
    (hts : ∀ token ∈ tree.tokens, ¬ HidesComment token.text) :
    ∃ stop, Spells Settles (.start text.toList) tree.leaves stop ∧ (skipTrivia stop).rest = [] := by
  obtain ⟨tokens, hlex, -, hderive⟩ := parse_eq_ok_iff.1 h
  obtain ⟨stop, hnearly, hend⟩ := exists_spells_of_derive hderive
  rw [Tree.tokens_eq_leaves] at hts
  exact ⟨stop, hnearly.settles (lexable_of_lex hlex) hts, hend⟩

theorem exists_parse_of_joined (hgaps : ∀ gap, gaps gap → Separator gap) {text other : String}
    {tree : Tree} (h : parse text = .ok tree)
    (hts : ∀ token ∈ tree.tokens, ¬ HidesComment token.text)
    (hjoined : Joined gaps (tree.tokens.map Token.text) other.toList) :
    ∃ tree', parse other = .ok tree' ∧ tree'.content = tree.content := by
  obtain ⟨tokens, hlex, hdeep, hderive⟩ := parse_eq_ok_iff.1 h
  obtain ⟨stop, hsettles, hend⟩ := exists_settles_of_parse h hts
  obtain ⟨stop', hpreferred, hend'⟩ := exists_spells_of_lex hlex
  rw [Tree.tokens_eq_leaves] at hjoined
  have hstart : (skipTrivia (.start other.toList)).rest = other.toList :=
    hjoined.bare hsettles
  rw [← hstart] at hjoined
  obtain ⟨us, last, hus, hlast, hcontents, ls, ms, hls, hms, hrules⟩ :=
    hsettles.exists_respaced hgaps hend hjoined
  -- The lexer cuts the two texts alike, so that both pass the check of the nesting.
  obtain rfl := hls.preferred_unique hpreferred hend hend'
  have hlex' : lex other = .ok ms := lex_of_spells hms hlast
  have hdeep' := Nesting.firstTooDeep?_eq_none_of_rules hrules hdeep
  obtain ⟨c, hread⟩ := derive_eq_ok_iff.1 hderive
  obtain ⟨d, hvalid, hroot, hkinds, hshape⟩ := exists_code_of_derives (derives_of_reading hread)
  have hkinds' : us.map Token.rule = d.leaves.map TokenKind.index := by
    have hfst := congrArg (List.map Prod.fst) hcontents
    rw [List.map_map, List.map_map] at hfst
    exact hfst.trans hkinds
  obtain ⟨tree', hderive', rfl, hshape'⟩ := exists_derive_of_spells hus hlast hvalid hroot hkinds'
  refine ⟨tree', parse_eq_ok_iff.2 ⟨ms, hlex', hdeep', hderive'⟩, ?_⟩
  apply Tree.content_eq (hshape'.trans hshape.symm)
  rw [Tree.tokens_eq_leaves, Tree.tokens_eq_leaves, hcontents]

theorem separator_newline : Separator ['\n'] :=
  ⟨.blank (by decide) .none, '\n', [], rfl, .inl (by decide)⟩

theorem separator_of_newline : ∀ gap, gap = ['\n'] → Separator gap := by
  rintro gap rfl
  exact separator_newline

theorem eq_tag_of_hidden {k : TokenKind} {body left : List Char}
    (hcut : k.lexeme ('#' :: '_' :: body ++ left) = some ('#' :: '_' :: body, left))
    (hhidden : opensHidden body = true) : k = .tag := by
  have hmem : k ∈ [TokenKind.discard, .tag] := lexeme_mem_candidates hcut
  rcases List.mem_pair.1 hmem with rfl | rfl
  · obtain ⟨htaken, -⟩ := Recogniser.word_eq_some_iff.1 hcut
    obtain rfl : body = [] := (List.cons.inj (List.cons.inj htaken).2).2
    cases hhidden
  · rfl

theorem Spells.not_hidesComment {c stop : Cursor} {ts : List Token} (h : Spells Nearly c ts stop)
    (hjoined : Joined (· = ['\n']) (ts.map Token.text) (skipTrivia c).rest) :
    ∀ token ∈ ts, ¬ HidesComment token.text := by
  induction h with
  | done c => simp
  | @token k c stop taken left ts hcut hk hrest ih =>
    have htext : taken ++ left = (skipTrivia c).rest := k.lexeme_cuts _ _ _ hcut
    have hlines : ∀ {rest}, (skipTrivia c).rest = taken ++ rest → left = rest := by
      intro rest hrest
      exact List.append_cancel_left (htext.trans hrest)
    rw [List.map_cons, TokenKind.token] at hjoined
    refine List.forall_mem_cons.2 ⟨?_, ih ?_⟩
    · intro hhides
      obtain ⟨body, hbody, hhidden⟩ := hidesComment_iff.1 hhides
      rw [TokenKind.token, String.toList_ofList] at hbody
      subst hbody
      rw [← htext] at hcut hk
      obtain rfl := eq_tag_of_hidden hcut hhidden
      obtain ⟨left', htext', hleft'⟩ := hjoined.uncons
      rw [String.toList_ofList] at htext'
      obtain rfl := hlines htext'
      have hend : ∀ e ∈ left.head?, isLineEnd e = true := by
        rcases hleft' with ⟨-, rfl⟩ | ⟨gap, rest, rfl, rfl, -⟩
        · simp
        · simp [isLineEnd]
      rcases hk with hk | ⟨-, -, htags⟩
      · have hnone := hk.earlier .discard (before_of_mem_rivals .discard .tag (by decide))
        have hsome := (discard_preferred (body ++ left)).accepts
        rw [← List.cons_append, ← List.cons_append, hnone] at hsome
        cases hsome
      · exact not_tagsDiscard_of_hidden hhidden hcut hend htags
    · obtain ⟨left', htext', -, hjoined'⟩ := hjoined.step separator_of_newline hrest
      rw [String.toList_ofList] at htext'
      obtain rfl := hlines htext'
      exact hjoined'

theorem not_hidesComment_of_lines {text : String} {tree : Tree} (h : parse text = .ok tree)
    (hjoined : Joined (· = ['\n']) (tree.tokens.map Token.text) text.toList) :
    ∀ token ∈ tree.tokens, ¬ HidesComment token.text := by
  obtain ⟨tokens, -, -, hderive⟩ := parse_eq_ok_iff.1 h
  obtain ⟨stop, hnearly, -⟩ := exists_spells_of_derive hderive
  rw [Tree.tokens_eq_leaves] at hjoined ⊢
  have hstart : (skipTrivia (.start text.toList)).rest = text.toList :=
    hjoined.bare hnearly
  rw [← hstart] at hjoined
  exact hnearly.not_hidesComment hjoined

theorem joined_intercalate (separator : String) (h : gaps separator.toList) (texts : List String) :
    Joined gaps texts (separator.intercalate texts).toList := by
  rw [String.toList_intercalate]
  induction texts with
  | nil => exact .empty
  | cons text texts ih =>
    cases texts with
    | nil =>
      rw [List.map_singleton, List.intercalate_singleton]
      exact .last text
    | cons other texts =>
      rw [List.map_cons, List.map_cons, List.intercalate_cons_cons]
      exact .next h (List.cons_ne_nil _ _) ih

end HiccupReader.Clojure
