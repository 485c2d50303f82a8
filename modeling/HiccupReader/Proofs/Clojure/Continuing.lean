import HiccupReader.Proofs.Clojure.Finishing
import HiccupReader.Proofs.Clojure.Following

/-! What is read up to some place can be gone on with. The text up to there, a new line and the
tokens that finish what is pending are a text of the grammar. -/

namespace HiccupReader.Clojure

open Matching

def glyph : TokenKind → Char
  | .leftBrace => '\x7b'
  | .rightBrace => '\x7d'
  | .rightParen => ')'
  | .rightBracket => ']'
  | _ => 'x'

theorem lexeme_glyph :
    ∀ k ∈ Pending.finishers, k.lexeme [glyph k] = some ([glyph k], []) ∧ k.Preferred [glyph k] := by
  have cut : ∀ k ∈ Pending.finishers, k.lexeme [glyph k] = some ([glyph k], []) := by decide
  have earlier : ∀ k ∈ Pending.finishers,
      ∀ j ∈ TokenKind.precedence.takeWhile (· ≠ k), j.lexeme [glyph k] = none := by
    decide
  intro k hk
  exact ⟨cut k hk, by rw [cut k hk]; rfl, earlier k hk⟩

def glyphs (ks : List TokenKind) : List Char := ks.flatMap fun k => [glyph k, '\n']

theorem parted_newline (w cs cs' : List Char) : Parted (w ++ cs) (w ++ '\n' :: cs') := by
  have hapart : Apart ('\n' :: cs') := by
    intro c hc
    obtain rfl : '\n' = c := Option.some.inj hc
    exact .inl (by decide)
  exact (Parted.here hapart).append w

theorem splitTrivia_newline (cs : List Char) :
    (splitTrivia false ('\n' :: cs)).2 = (splitTrivia false cs).2 := rfl

theorem splitTrivia_glyphs {ks : List TokenKind} (hks : ∀ k ∈ ks, k ∈ Pending.finishers) :
    (splitTrivia false (glyphs ks)).2 = glyphs ks := by
  cases ks with
  | nil => rfl
  | cons k ks =>
    obtain ⟨hcut, -⟩ := lexeme_glyph k (hks k (List.mem_cons_self ..))
    have bare : ∀ k ∈ Pending.finishers, (splitTrivia false [glyph k]).2 = [glyph k] := by decide
    have hbare : (splitTrivia false ([glyph k] ++ [])).2 = [glyph k] ++ [] :=
      bare k (hks k (List.mem_cons_self ..))
    exact splitTrivia_of_lexeme hcut hbare ('\n' :: glyphs ks)

theorem exists_spells_glyphs {ks : List TokenKind} (hks : ∀ k ∈ ks, k ∈ Pending.finishers)
    {c : Cursor} (hrest : (skipTrivia c).rest = glyphs ks) :
    ∃ ts stop, Spells Settles c ts stop ∧ ts.map Token.rule = ks.map TokenKind.index ∧
      (skipTrivia stop).rest = [] := by
  induction ks generalizing c with
  | nil => exact ⟨[], c, .done c, rfl, hrest⟩
  | cons k ks ih =>
    obtain ⟨hk, hothers⟩ := List.forall_mem_cons.1 hks
    obtain ⟨hcut, hpreferred⟩ := lexeme_glyph k hk
    have htext : (skipTrivia c).rest = [glyph k] ++ '\n' :: glyphs ks := hrest
    have hparted : Parted [] ('\n' :: glyphs ks) := parted_newline [] [] _
    have hcut' := k.lexeme_stable [glyph k] [] _ hcut hparted
    have hpreferred' : k.Preferred ([glyph k] ++ '\n' :: glyphs ks) :=
      .of_parted hpreferred hcut hparted
    rw [← htext] at hcut' hpreferred'
    have hnext : (skipTrivia ((skipTrivia c).advance [glyph k] ('\n' :: glyphs ks))).rest =
        glyphs ks := splitTrivia_glyphs hothers
    obtain ⟨ts, stop, hts, hkinds, hend⟩ := ih hothers hnext
    exact ⟨_, stop, .token hcut' (.inl hpreferred') hts, congrArg (List.cons _) hkinds, hend⟩

theorem splitTrivia_resumed {left v rest more : List Char}
    (h : (splitTrivia false left).2 = v ++ rest) :
    (splitTrivia false ((splitTrivia false left).1 ++ (v ++ '\n' :: more))).2 =
      (splitTrivia false (v ++ '\n' :: more)).2 := by
  cases v with
  | nil =>
    -- The trivia may be a comment that the text ends in.
    have hend : isLineEnd '\n' = true := rfl
    have hline := (trivia_splitTrivia left).line hend
    rw [List.nil_append, List.append_cons]
    exact hline.splitTrivia_append more
  | cons e es => exact splitTrivia_gap (by rw [h]; exact List.cons_ne_nil _ _) _

variable {P : TokenKind → List Char → Prop} {st st' : List Pending} {c c' : Cursor}
  {k : TokenKind} {taken left w : List Char}

theorem exists_behind_token (hcut : k.lexeme c.rest = some (taken, left))
    (h : (skipTrivia (c.advance taken left)).Reaches c') (hw : c.rest = w ++ c'.rest) :
    ∃ v, w = taken ++ ((splitTrivia false left).1 ++ v) ∧
      (skipTrivia (c.advance taken left)).rest = v ++ c'.rest := by
  obtain ⟨v, hv, -⟩ := h
  have hgap : (splitTrivia false left).1 ++ (skipTrivia (c.advance taken left)).rest = left :=
    splitTrivia_append false left
  have hwhole : w ++ c'.rest = taken ++ ((splitTrivia false left).1 ++ v) ++ c'.rest := by
    rw [← hw, ← k.lexeme_cuts _ _ _ hcut, List.append_assoc, List.append_assoc, hv, hgap]
  exact ⟨v, List.append_cancel_right hwhole, hv.symm⟩

theorem Decided.settles_resumed {left' : List Char} (hk : Decided k (taken ++ left))
    (hcut : k.lexeme (taken ++ left) = some (taken, left)) (hparted : Parted left left')
    (hnoMap : k = .tag → (splitTrivia false left).2.head? ≠ some '\x7b' →
      (splitTrivia false left').2.head? ≠ some '\x7b') : Settles k (taken ++ left') := by
  rcases hk with ⟨⟨body, left₁, ks, htext, hreread⟩, rfl⟩ | ⟨-, hpreferred⟩
  · obtain ⟨rfl, rfl⟩ := hreread.eq_of_lexeme htext hcut
    have hreread' := hreread.of_parted hparted (hnoMap rfl hreread.noMap)
    exact .inr ⟨rfl, body, left', ks, rfl, hreread'⟩
  · exact .inl (hpreferred.of_parted hcut hparted)

namespace Follows

theorem exists_front (h : Follows P st c st' c') : ∃ w, c.rest = w ++ c'.rest := by
  obtain ⟨w, hw, -⟩ := h.reaches
  exact ⟨w, hw.symm⟩

theorem done_or_bare (h : Follows P st c st' c') (hc : Settled c) (hw : c.rest = w ++ c'.rest) :
    st' = st ∧ w = [] ∨ w ≠ [] ∧ ∀ more, (splitTrivia false (w ++ more)).2 = w ++ more := by
  cases h with
  | done => exact .inl ⟨rfl, List.append_left_eq_self.1 hw.symm⟩
  | @token k _ _ _ _ _ taken left hcut _ _ hrest =>
    obtain ⟨v, rfl, -⟩ := exists_behind_token hcut hrest.reaches hw
    have htext := k.lexeme_cuts _ _ _ hcut
    have hbare := settled_iff.1 hc
    rw [← htext] at hcut hbare
    refine .inr ⟨List.append_ne_nil_of_left_ne_nil (k.lexeme_takes _ _ _ hcut) _, fun more => ?_⟩
    rw [List.append_assoc]
    exact splitTrivia_of_lexeme hcut hbare _

theorem bare_of_lexeme {t r : List Char} (h : Follows P st c st' c') (hc : Settled c)
    (hw : c.rest = w ++ c'.rest) (ht : k.lexeme c'.rest = some (t, r)) (r' : List Char) :
    (splitTrivia false (w ++ (t ++ r'))).2 = w ++ (t ++ r') := by
  rcases h.done_or_bare hc hw with ⟨-, rfl⟩ | ⟨-, hbare⟩
  · have hplain := settled_iff.1 hc
    rw [hw, List.nil_append, ← k.lexeme_cuts _ _ _ ht] at hplain
    rw [← k.lexeme_cuts _ _ _ ht] at ht
    exact splitTrivia_of_lexeme ht hplain r'
  · exact hbare _

theorem exists_spells (h : Follows Decided st c st' c') (hc : Settled c)
    (hw : c.rest = w ++ c'.rest) {more : List Char} (hmore : (splitTrivia false more).2 = more)
    (hbrace : ∀ n, st'.head? = some (.forms n) → more.head? ≠ some '\x7b') {d : Cursor}
    (hd : (skipTrivia d).rest = (splitTrivia false (w ++ '\n' :: more)).2) :
    ∃ ts ks stop, Spells Settles d ts stop ∧ ts.map Token.rule = ks.map TokenKind.index ∧
      Pending.run st ks = some st' ∧ (skipTrivia stop).rest = more := by
  induction h generalizing d w with
  | done st c =>
    obtain rfl : w = [] := List.append_left_eq_self.1 hw.symm
    exact ⟨[], [], d, .done d, rfl, rfl, hd.trans hmore⟩
  | @token k st st₁ st₂ c c' taken left hcut hk hfollow hrest ih =>
    obtain ⟨v, rfl, hv⟩ := exists_behind_token hcut hrest.reaches hw
    have htext := k.lexeme_cuts _ _ _ hcut
    have hbare := settled_iff.1 hc
    have hsettled := settled_skipTrivia (c.advance taken left)
    have hgap := splitTrivia_append false left
    have hleft : (splitTrivia false left).2 = v ++ c'.rest := hv
    rw [hleft] at hgap
    rw [← htext] at hcut hbare hk
    -- The token stands in the other text as well, and the same place is reached behind it.
    generalize hmid : (splitTrivia false left).1 ++ (v ++ '\n' :: more) = left'
    have hplace : (skipTrivia d).rest = taken ++ left' := by
      rw [hd, ← splitTrivia_of_lexeme hcut hbare left', ← hmid]
      simp only [List.append_assoc]
    have hparted : Parted left left' := by
      rw [← hmid, ← List.append_assoc]
      conv => lhs; rw [← hgap, ← List.append_assoc]
      exact parted_newline _ _ _
    have hcut' := k.lexeme_stable taken left left' hcut hparted
    have hsettles : Settles k (taken ++ left') := by
      refine hk.settles_resumed hcut hparted fun htag hnoMap => ?_
      subst htag
      rw [← hmid, splitTrivia_resumed hleft]
      rcases hrest.done_or_bare hsettled hv with ⟨rfl, rfl⟩ | ⟨hne, hbare'⟩
      · rw [Pending.follow_awaits hfollow rfl nofun] at hbrace
        rw [List.nil_append, splitTrivia_newline, hmore]
        exact hbrace 0 rfl
      · obtain ⟨e, es, rfl⟩ := List.exists_cons_of_ne_nil hne
        rw [hleft] at hnoMap
        rw [hbare']
        exact hnoMap
    have hnext : (skipTrivia ((skipTrivia d).advance taken left')).rest =
        (splitTrivia false (v ++ '\n' :: more)).2 := by
      rw [← splitTrivia_resumed hleft, hmid]
      rfl
    obtain ⟨ts, ks, stop, hts, hkinds, hrun, hstop⟩ := ih hsettled hv hbrace hnext
    rw [← hplace] at hcut' hsettles
    exact ⟨_, k :: ks, stop, .token hcut' hsettles hts, congrArg (List.cons _) hkinds,
      (Pending.run_cons_of_follow hfollow).trans hrun, hstop⟩

end Follows

theorem exists_derive_of_follows {text : String} {before : List Char}
    (h : Follows Decided [] (skipTrivia (.start text.toList)) st c)
    (htext : text.toList = before ++ c.rest) :
    ∃ more tree, derive (String.ofList (before ++ more)) = .ok tree := by
  obtain ⟨w, hw⟩ := h.exists_front
  have hsplit : (splitTrivia false text.toList).2 = w ++ c.rest := hw
  have hwhole : before ++ c.rest = (splitTrivia false text.toList).1 ++ w ++ c.rest := by
    rw [← htext, List.append_assoc, ← hsplit, splitTrivia_append]
  obtain rfl := List.append_cancel_right hwhole
  obtain ⟨js, hfinish, hjs, hsymbol⟩ := Pending.exists_finish st
  have hmore := splitTrivia_glyphs hjs
  have hbrace : ∀ n, st.head? = some (.forms n) → (glyphs js).head? ≠ some '\x7b' := by
    intro n hforms
    obtain ⟨rest, rfl⟩ := List.head?_eq_some_iff.1 (hsymbol n hforms)
    exact fun h => by cases h
  -- The kinds that are read and those that finish what is pending make up a derivation.
  have hstart : (skipTrivia (.start ((splitTrivia false text.toList).1 ++
      (w ++ '\n' :: glyphs js)))).rest = (splitTrivia false (w ++ '\n' :: glyphs js)).2 :=
    splitTrivia_resumed hsplit
  obtain ⟨ts, ks, mid, hts, hkinds, hrun, hmid⟩ :=
    h.exists_spells (settled_skipTrivia _) hw hmore hbrace hstart
  obtain ⟨us, stop, hus, hkinds', hend⟩ := exists_spells_glyphs hjs hmid
  obtain ⟨d, hvalid, hroot, hleaves⟩ := (hfinish.of_run hrun).exists_derivation
  have hall : (ts ++ us).map Token.rule = d.leaves.map TokenKind.index := by
    rw [hleaves, List.map_append, List.map_append, hkinds, hkinds']
  rw [← String.toList_ofList (l := (splitTrivia false text.toList).1 ++ _)] at hts
  obtain ⟨tree, htree, -⟩ := exists_derive_of_spells (hts.append hus) hend hvalid hroot hall
  rw [← List.append_assoc] at htree
  exact ⟨'\n' :: glyphs js, tree, htree⟩

end HiccupReader.Clojure
