import HiccupReader.Proofs.Clojure.Continuing
import HiccupReader.Proofs.Clojure.Sealing

/-! Texts that go on alike up to a token that does not fit. What is read in the one up to there is
read in the other, and so the other is refused as well. -/

namespace HiccupReader.Clojure

open Matching Recogniser

theorem candidates_of_closer {k : TokenKind} (hk : k ∈ closers) {d : Char} {cs : List Char}
    (hsome : (k.lexeme (d :: cs)).isSome) :
    d ∈ closingMarks ∧ ∀ cs', candidates (d :: cs') = [k] := by
  obtain ⟨found, hfound⟩ := Option.isSome_iff_exists.1 hsome
  simp only [closers, List.mem_cons, List.not_mem_nil, or_false] at hk
  rcases hk with rfl | rfl | rfl <;>
  · obtain ⟨rest, hrest⟩ := begins_of_word hfound
    obtain ⟨rfl, -⟩ := List.cons.inj hrest
    exact ⟨by decide, fun _ => rfl⟩

variable {P : TokenKind → List Char → Prop} {st st₁ st' : List Pending} {c c' : Cursor}
  {k : TokenKind} {taken left w t r : List Char}

theorem Follows.exists_mapPrefix (hcut : k.lexeme c.rest = some (taken, left))
    (hfollow : Pending.follow st k = some st₁)
    (h : Follows P st₁ (skipTrivia (c.advance taken left)) st' c')
    (hmap : st'.head? = some .map) :
    ∃ v gap, c.rest = taken ++ v ++ (gap ++ c'.rest) ∧ ':' ∈ taken ++ v ∧
      (gap ++ c'.rest).head?.any isSymbolChar = false := by
  generalize hp : skipTrivia (c.advance taken left) = p at h
  have htext := k.lexeme_cuts _ _ _ hcut
  have hgap : (splitTrivia false left).1 ++ p.rest = left := by
    rw [← hp]
    exact splitTrivia_append false left
  induction h generalizing c k taken left st with
  | done st₁ p =>
    obtain rfl := Pending.eq_mapPrefix_of_follow hfollow hmap
    rw [← htext, TokenKind.lexeme] at hcut
    obtain ⟨first, mid, more, hfirst, hrun, rfl⟩ := inOrder_cons_eq_some_iff.1 hcut
    obtain ⟨rfl, hmid⟩ := word_eq_some_iff.1 hfirst
    rw [List.append_assoc] at hmid
    obtain rfl := List.append_cancel_left hmid
    rw [inOrder_single] at hrun
    refine ⟨[], _, by rw [hgap, List.append_nil, htext], by simp, ?_⟩
    rw [hgap]
    exact (run_eq_some_iff.1 hrun).2
  | @token j _ _ _ p _ taken₁ left₁ hcut₁ _ hfollow₁ _ ih =>
    obtain ⟨v, gap, hrest, hcolon, hstop⟩ := ih hcut₁ hfollow₁ hmap rfl
      (j.lexeme_cuts _ _ _ hcut₁) (splitTrivia_append false left₁)
    generalize (splitTrivia false left).1 = before at hgap
    refine ⟨before ++ (taken₁ ++ v), gap, ?_, ?_, hstop⟩
    · rw [← htext, ← hgap, hrest]
      simp only [List.append_assoc]
    · exact List.mem_append_right _ (List.mem_append_right _ hcolon)

theorem Follows.exists_sealed (hcut : k.lexeme c.rest = some (taken, left))
    (hfollow : Pending.follow st k = some st₁)
    (h : Follows P st₁ (skipTrivia (c.advance taken left)) st' c') (hblocked : Blocked st' c')
    (ht : t ≠ []) (hrest : c'.rest = t ++ r) (hw : c.rest = w ++ c'.rest) :
    ∃ x d b, Sealed x d ∧ taken <+: x ∧ w ++ t = x ++ d :: b := by
  obtain ⟨e, t, rfl⟩ := List.exists_cons_of_ne_nil ht
  rcases hblocked with hnil | ⟨j, hj, hnone⟩
  · rw [hrest] at hnil
    cases hnil
  rcases Pending.follow_eq_none hnone with hcloser | ⟨hmap, -⟩
  · obtain ⟨v, rfl, -⟩ := exists_behind_token hcut h.reaches hw
    have haccepts := hj.accepts
    rw [hrest] at haccepts
    obtain ⟨he, -⟩ := candidates_of_closer hcloser haccepts
    have hdelimiters : closingMarks.any isSymbolChar = false := by decide
    have hdelimiter : isSymbolChar e = false :=
      Bool.not_eq_true _ ▸ List.any_eq_false.1 hdelimiters e he
    exact ⟨_, e, t, ⟨hdelimiter, .inl he⟩, List.prefix_append .., rfl⟩
  · obtain ⟨v, gap, htext, hcolon, hstop⟩ := h.exists_mapPrefix hcut hfollow hmap
    rw [hw, ← List.append_assoc] at htext
    obtain rfl := List.append_cancel_right htext
    rw [hrest, ← List.append_assoc] at hstop
    obtain ⟨d, b, hb⟩ := List.exists_cons_of_ne_nil (List.append_ne_nil_of_right_ne_nil gap ht)
    rw [hb] at hstop
    refine ⟨taken ++ v, d, b, ⟨hstop, .inr hcolon⟩, List.prefix_append .., ?_⟩
    rw [List.append_assoc, hb]

def Halted (st : List Pending) (c : Cursor) : Prop :=
  c.rest = [] ∨ ∃ k : TokenKind, (k.lexeme c.rest).isSome ∧ Pending.follow st k = none

theorem Blocked.halted (h : Blocked st c) : Halted st c :=
  h.imp id fun ⟨k, hk, hnone⟩ => ⟨k, hk.accepts, hnone⟩

theorem Marked.settled {body : List Char} {ks : List TokenKind} (h : Marked body ks)
    (hrest : c.rest = body ++ left) : Settled c := by
  cases h with
  | mapPrefix cs => exact .of_rest_cons hrest (by decide) rfl
  | quoted hmark _ =>
    rw [List.append_assoc] at hrest
    exact hmark.settled hrest

theorem Halted.follow_eq_none (h : Halted st c) (halone : candidates c.rest = [k])
    (hcut : k.lexeme c.rest = some (taken, left)) : Pending.follow st k = none := by
  rcases h with hnil | ⟨j, hsome, hnone⟩
  · rw [hnil, k.lexeme_nil] at hcut
    cases hcut
  · rwa [eq_of_candidates halone hsome] at hnone

theorem Follows.forced (halone : candidates c.rest = [k])
    (hcut : k.lexeme c.rest = some (taken, left)) (hfollow : Pending.follow st k = some st₁)
    (h : Follows P st c st' c') (hhalted : Halted st' c') :
    Follows P st₁ (skipTrivia (c.advance taken left)) st' c' := by
  cases h with
  | done =>
    rw [hhalted.follow_eq_none halone hcut] at hfollow
    cases hfollow
  | token hcut' _ hfollow' hrest =>
    obtain rfl := eq_of_candidates halone (by rw [hcut']; rfl)
    rw [hcut] at hcut'
    obtain ⟨rfl, rfl⟩ := Prod.mk.inj (Option.some.inj hcut')
    rw [hfollow] at hfollow'
    obtain rfl := Option.some.inj hfollow'
    exact hrest

theorem Follows.through_marks {body : List Char} {ks : List TokenKind} (hmarked : Marked body ks)
    (hrest : c.rest = body ++ left) (hrun : run isSymbolChar (body ++ left) = some (body, left))
    (hst : Pending.Open st) (h : Follows P st c st' c') (hhalted : Halted st' c') :
    ∃ st₁, Follows P (.map :: st₁) (skipTrivia (c.advance body left)) st' c' := by
  induction hmarked generalizing c st with
  | mapPrefix cs =>
    have hcut := lexeme_mapPrefix (run_tail (run_tail hrun))
    rw [← hrest] at hcut
    exact ⟨st, h.forced (by rw [hrest]; rfl) hcut (Pending.follow_mapPrefix hst) hhalted⟩
  | @quoted mark cs k r ks hmark hmarked ih =>
    rw [List.append_assoc] at hrest
    have hplain : k ≠ .namespacedMapPrefix := by
      rintro rfl
      have hproduction := hmark.production
      cases r <;> cases hproduction
    have hfollow := Pending.follow_mark hmark.role_eq hplain hst
    have hnext := h.forced (by rw [hrest, hmark.alone]) (hmark.cut_at hrest) hfollow hhalted
    have hsettled : Settled (c.advance mark (cs ++ left)) := hmarked.settled rfl
    rw [hsettled] at hnext
    obtain ⟨st₁, hlast⟩ := ih rfl (run_of_append hrun) (fun hmap => by cases hmap) hnext
    rw [Cursor.advance_advance] at hlast
    exact ⟨st₁, hlast⟩

theorem Follows.through_discard {body : List Char} {ks : List TokenKind}
    (hmarked : Marked body ks) (hrun : run isSymbolChar (body ++ left) = some (body, left))
    (hfollow : Pending.follow st .discard = some st₁)
    (h : Follows P st₁ (skipTrivia (c.advance ['#', '_'] (body ++ left))) st' c')
    (hhalted : Halted st' c') :
    ∃ st₂, Follows P (.map :: st₂) (skipTrivia (c.advance ('#' :: '_' :: body) left)) st' c' := by
  obtain rfl := Pending.follow_awaits hfollow rfl nofun
  have hsettled : Settled (c.advance ['#', '_'] (body ++ left)) := hmarked.settled rfl
  rw [hsettled] at h
  obtain ⟨st₂, hlast⟩ := h.through_marks hmarked rfl hrun (fun hmap => by cases hmap) hhalted
  rw [Cursor.advance_advance] at hlast
  exact ⟨st₂, hlast⟩

theorem head_of_map (hcut : k.lexeme c.rest = some (taken, left))
    (hfollow : Pending.follow (.map :: st) k = some st₁) : c.rest.head? = some '\x7b' := by
  by_cases hk : k = .leftBrace
  · subst hk
    obtain ⟨rest, hrest⟩ := begins_of_word hcut
    rw [hrest]
    rfl
  · rw [Pending.follow_map rfl hk] at hfollow
    cases hfollow

theorem Settles.decided (hk : Settles k c.rest) (hcut : k.lexeme c.rest = some (taken, left))
    (hfollow : Pending.follow st k = some st₁)
    (h : Follows P st₁ (skipTrivia (c.advance taken left)) [] c') (hend : c'.rest = []) :
    Decided k c.rest := by
  rcases hk with hk | ⟨rfl, hrereads⟩
  · refine .inr ⟨fun hrereads => ?_, hk⟩
    obtain rfl := hrereads.discard_preferred.unique hk
    obtain ⟨body, left₁, ks, htext, hreread⟩ := hrereads
    have hdiscard : TokenKind.discard.lexeme c.rest = some (['#', '_'], body ++ left₁) := by
      rw [htext]
      rfl
    rw [hcut] at hdiscard
    obtain ⟨rfl, rfl⟩ := Prod.mk.inj (Option.some.inj hdiscard)
    obtain ⟨st₂, hlast⟩ := h.through_discard hreread.marked hreread.run hfollow (.inl hend)
    cases hlast with
    | token hcut₂ _ hfollow₂ _ => exact hreread.noMap (head_of_map hcut₂ hfollow₂)
  · exact .inl ⟨hrereads, rfl⟩

theorem splitTrivia_other {s z r' : List Char} (h : (splitTrivia false (s ++ r)).2 = z ++ r)
    (hz : z ≠ []) (hbare : (splitTrivia false (z ++ r')).2 = z ++ r') :
    (splitTrivia false (s ++ r')).2 = z ++ r' := by
  have hgap := splitTrivia_append false (s ++ r)
  rw [h, ← List.append_assoc] at hgap
  have hsame := List.append_cancel_right hgap
  have hne : (splitTrivia false (s ++ r)).2 ≠ [] := by simp [h, hz]
  have hskip := splitTrivia_gap hne (z ++ r')
  rwa [← List.append_assoc, hsame, hbare] at hskip

theorem run_resealed {p : Char → Bool} {v r' : List Char} {d : Char}
    (h : run p (w ++ (v ++ d :: r)) = some (w, v ++ d :: r)) :
    run p (w ++ (v ++ d :: r')) = some (w, v ++ d :: r') := by
  rw [run_eq_some_iff] at h ⊢
  cases v with
  | nil => exact h
  | cons e v => exact h

theorem Follows.exists_map {body : List Char} {ks : List TokenKind} (hmarked : Marked body ks)
    (hrun : run isSymbolChar (body ++ left) = some (body, left))
    (hfollow : Pending.follow st .discard = some st₁)
    (h : Follows Decided st₁ (skipTrivia (c.advance ['#', '_'] (body ++ left))) st' c')
    (hblocked : Blocked st' c') (hbrace : (splitTrivia false left).2.head? = some '\x7b') :
    ∃ v, (splitTrivia false left).2 = '\x7b' :: v ++ c'.rest := by
  obtain ⟨st₂, hlast⟩ := h.through_discard hmarked hrun hfollow hblocked.halted
  obtain ⟨more, hmore⟩ := List.head?_eq_some_iff.1 hbrace
  have hplace : (skipTrivia (c.advance ('#' :: '_' :: body) left)).rest = '\x7b' :: more := hmore
  obtain ⟨w, hw⟩ := hlast.exists_front
  rw [hplace] at hw
  rcases hlast.done_or_bare (settled_skipTrivia _) (hplace.trans hw) with ⟨rfl, rfl⟩ | ⟨hne, -⟩
  · rw [List.nil_append] at hw
    have hcut : TokenKind.leftBrace.lexeme c'.rest = some (['\x7b'], more) := by
      rw [← hw]
      rfl
    have hnone := hblocked.halted.follow_eq_none (by rw [← hw]; rfl) hcut
    rw [Pending.follow_opening rfl fun _ => rfl] at hnone
    cases hnone
  · obtain ⟨e, w, rfl⟩ := List.exists_cons_of_ne_nil hne
    obtain ⟨rfl, hrest⟩ := List.cons.inj hw
    exact ⟨w, by rw [hmore, hrest]; rfl⟩

section

variable {x u b r' : List Char} {d : Char}

theorem Follows.rereads_of_other (hfollow : Pending.follow st .discard = some st₁)
    (h : Follows Decided st₁ (skipTrivia (c.advance ['#', '_'] (u ++ d :: (b ++ r)))) st' c')
    (hblocked : Blocked st' c') (hrest : c'.rest = t ++ r) (hsealed : Sealed ('#' :: '_' :: u) d)
    (hother : Rereads ('#' :: '_' :: (u ++ d :: (b ++ r')))) :
    Rereads ('#' :: '_' :: (u ++ d :: (b ++ r))) := by
  obtain ⟨body, left, ks, htext, hreread⟩ := hother
  have hcut := hreread.cut
  rw [← htext] at hcut
  have hin : '#' :: '_' :: body <+: '#' :: '_' :: u := by
    rcases hsealed.isPrefix_or (List.cons_ne_nil _ _) hcut with hin | ⟨hquoting, -⟩
    · exact hin
    · exact absurd hquoting (by decide)
  obtain ⟨u', hu'⟩ := hin
  obtain rfl : body ++ u' = u := (List.cons.inj (List.cons.inj hu').2).2
  have hbody : body ++ u' ++ d :: (b ++ r') = body ++ left :=
    (List.cons.inj (List.cons.inj htext).2).2
  rw [List.append_assoc] at hbody
  obtain rfl := List.append_cancel_left hbody
  rw [List.append_assoc] at h ⊢
  have hrun : run isSymbolChar (body ++ (u' ++ d :: (b ++ r))) = some (body, u' ++ d :: (b ++ r)) :=
    run_resealed hreread.run
  by_contra hnot
  have hbrace : (splitTrivia false (u' ++ d :: (b ++ r))).2.head? = some '\x7b' := by
    by_contra hnoMap
    exact hnot ⟨body, _, ks, rfl, hreread.marked, hrun, hnoMap⟩
  -- Then the map stands in front of the block, and so in the other text too.
  obtain ⟨v, hv⟩ := h.exists_map hreread.marked hrun hfollow hblocked hbrace
  have hmap : (splitTrivia false (u' ++ d :: b ++ r)).2 = '\x7b' :: v ++ t ++ r := by
    rw [List.append_assoc, List.cons_append, hv, hrest, List.append_assoc]
  have hother : (splitTrivia false (u' ++ d :: b ++ r')).2 = '\x7b' :: v ++ t ++ r' :=
    splitTrivia_other hmap (List.cons_ne_nil _ _) rfl
  rw [List.append_assoc, List.cons_append] at hother
  exact hreread.noMap (by rw [hother]; rfl)

theorem Rereads.other (h : Rereads (taken ++ (u ++ d :: (b ++ r))))
    (hcut : TokenKind.tag.lexeme (taken ++ (u ++ d :: (b ++ r))) =
      some (taken, u ++ d :: (b ++ r)))
    (hhead : (splitTrivia false (u ++ d :: (b ++ r'))).2.head? =
      (splitTrivia false (u ++ d :: (b ++ r))).2.head?) :
    Rereads (taken ++ (u ++ d :: (b ++ r'))) := by
  obtain ⟨body, left, ks, htext, hreread⟩ := h
  obtain ⟨rfl, rfl⟩ := hreread.eq_of_lexeme htext hcut
  refine ⟨body, _, ks, rfl, hreread.marked, run_resealed hreread.run, ?_⟩
  rw [hhead]
  exact hreread.noMap

theorem Follows.rereads_iff (hk : Decided k (taken ++ (u ++ d :: (b ++ r))))
    (hcut : k.lexeme (taken ++ (u ++ d :: (b ++ r))) = some (taken, u ++ d :: (b ++ r)))
    (hfollow : Pending.follow st k = some st₁)
    (h : Follows Decided st₁ (skipTrivia (c.advance taken (u ++ d :: (b ++ r)))) st' c')
    (hblocked : Blocked st' c') (hrest : c'.rest = t ++ r) (hsealed : Sealed (taken ++ u) d)
    (hhead : (splitTrivia false (u ++ d :: (b ++ r'))).2.head? =
      (splitTrivia false (u ++ d :: (b ++ r))).2.head?) :
    Rereads (taken ++ (u ++ d :: (b ++ r))) ↔ Rereads (taken ++ (u ++ d :: (b ++ r'))) := by
  constructor
  · intro hrereads
    rcases hk with ⟨-, rfl⟩ | ⟨hnot, -⟩
    · exact hrereads.other hcut hhead
    · exact absurd hrereads hnot
  · intro hother
    rcases hk with ⟨hrereads, -⟩ | ⟨hnot, hpreferred⟩
    · exact hrereads
    · have hdiscard := hother.discard_preferred
      rw [← List.append_assoc] at hdiscard hcut hpreferred
      obtain ⟨rfl, left', hcut'⟩ :=
        hsealed.agree hpreferred hcut (List.prefix_append ..) hdiscard
      obtain ⟨rfl, -⟩ := word_eq_some_iff.1 hcut
      exact h.rereads_of_other hfollow hblocked hrest hsealed hother

theorem Readable.not_opensHidden_of_other (hread : Readable c) (hc : Settled c)
    (hsealed : Sealed x d) (hx : x ≠ []) (hrest : c.rest = x ++ d :: r)
    (hcut : TokenKind.tag.lexeme (x ++ d :: r') = some (taken, left)) {body : List Char}
    (hbody : taken = '#' :: '_' :: body) : ¬ opensHidden body = true := by
  rcases hsealed.isPrefix_or hx hcut with ⟨y, rfl⟩ | ⟨hquoting, -⟩
  · subst hbody
    intro hhidden
    rw [List.append_assoc] at hrest
    exact hread.not_opensHidden hc hrest (opensHidden_append hhidden _)
  · exact absurd hquoting (by decide)

theorem Decided.other {k₂ : TokenKind} {taken₂ left₂ : List Char} (hsealed : Sealed x d)
    (hin : taken <+: x) (hk : Decided k (x ++ d :: r))
    (hcut : k.lexeme (x ++ d :: r) = some (taken, left)) (hk₂ : Decided k₂ (x ++ d :: r'))
    (hcut₂ : k₂.lexeme (x ++ d :: r') = some (taken₂, left₂))
    (hsame : Rereads (x ++ d :: r) ↔ Rereads (x ++ d :: r')) : k₂ = k ∧ taken₂ = taken := by
  rcases hk with ⟨hrereads, rfl⟩ | ⟨hnot, hpreferred⟩
  · rcases hk₂ with ⟨-, rfl⟩ | ⟨hnot, -⟩
    · have hx : x ≠ [] := by
        rintro rfl
        exact TokenKind.lexeme_takes _ _ _ _ hcut (List.prefix_nil.1 hin)
      rcases hsealed.isPrefix_or hx hcut₂ with hin₂ | ⟨hquoting, -⟩
      · obtain ⟨v, -, -, hfront, -⟩ := exists_lexeme_front hcut hin
        obtain ⟨v₂, -, -, hfront₂, -⟩ := exists_lexeme_front hcut₂ hin₂
        rw [hfront] at hfront₂
        exact ⟨rfl, (Prod.mk.inj (Option.some.inj hfront₂)).1.symm⟩
      · exact absurd hquoting (by decide)
    · exact absurd (hsame.1 hrereads) hnot
  · rcases hk₂ with ⟨hrereads, -⟩ | ⟨-, hpreferred₂⟩
    · exact absurd (hsame.2 hrereads) hnot
    · obtain ⟨rfl, left', hcut'⟩ := hsealed.agree hpreferred hcut hin hpreferred₂
      rw [hcut₂] at hcut'
      exact ⟨rfl, (Prod.mk.inj (Option.some.inj hcut')).1⟩

end

theorem Follows.exists_shared (hcut : k.lexeme c.rest = some (taken, left))
    (hfollow : Pending.follow st k = some st₁)
    (h : Follows Decided st₁ (skipTrivia (c.advance taken left)) st' c')
    (hblocked : Blocked st' c') {j : TokenKind} (ht : j.lexeme c'.rest = some (t, r))
    (hw : c.rest = w ++ c'.rest) :
    ∃ u d b v, Sealed (taken ++ u) d ∧ left = u ++ d :: (b ++ r) ∧
      w ++ t = taken ++ (u ++ d :: b) ∧
        (skipTrivia (c.advance taken left)).rest = v ++ c'.rest ∧
          ∀ r', (splitTrivia false (u ++ d :: (b ++ r'))).2 = v ++ (t ++ r') := by
  have htakes := j.lexeme_takes _ _ _ ht
  have htr := j.lexeme_cuts _ _ _ ht
  have hsettled := settled_skipTrivia (c.advance taken left)
  obtain ⟨v, rfl, hv⟩ := exists_behind_token hcut h.reaches hw
  obtain ⟨x, d, b, hsealed, ⟨u, rfl⟩, hx⟩ :=
    h.exists_sealed hcut hfollow hblocked htakes htr.symm hw
  have hwhole : taken ++ left = taken ++ (u ++ d :: (b ++ r)) := by
    rw [k.lexeme_cuts _ _ _ hcut, hw, ← htr, ← List.append_assoc, hx]
    simp only [List.append_assoc, List.cons_append]
  obtain rfl := List.append_cancel_left hwhole
  refine ⟨u, d, b, v, hsealed, rfl, by rw [hx, List.append_assoc], hv, fun r' => ?_⟩
  have hplace : (splitTrivia false (u ++ d :: b ++ r)).2 = v ++ t ++ r := by
    rw [List.append_assoc, List.append_assoc, htr]
    exact hv
  have hbare : (splitTrivia false (v ++ t ++ r')).2 = v ++ t ++ r' := by
    rw [List.append_assoc]
    exact h.bare_of_lexeme hsettled hv ht r'
  have hother := splitTrivia_other hplace (List.append_ne_nil_of_right_ne_nil _ htakes) hbare
  rwa [List.append_assoc, List.append_assoc] at hother

section

variable {o o' : Cursor} {u b r' : List Char} {d : Char} {k₂ : TokenKind} {st₂ : List Pending}
  {taken₂ left₂ : List Char}

theorem Follows.same_token (hc : Settled c) (hread : Readable c)
    (hrest : c.rest = taken ++ (u ++ d :: (b ++ r))) (hk : Decided k c.rest)
    (hcut : k.lexeme c.rest = some (taken, u ++ d :: (b ++ r)))
    (hsealed : Sealed (taken ++ u) d) (ho : Settled o) (hlex : Lexable o.rest)
    (horest : o.rest = taken ++ (u ++ d :: (b ++ r'))) (hk₂ : Nearly k₂ o.rest)
    (hcut₂ : k₂.lexeme o.rest = some (taken₂, left₂))
    (hfollow₂ : Pending.follow st k₂ = some st₂)
    (h : Follows Nearly st₂ (skipTrivia (o.advance taken₂ left₂)) [] o') (hend : o'.rest = [])
    (hsame : Rereads c.rest ↔ Rereads o.rest) :
    k₂ = k ∧ taken₂ = taken ∧ left₂ = u ++ d :: (b ++ r') ∧ Lexable left₂ := by
  rw [← List.append_assoc] at hrest horest
  have hx : taken ++ u ≠ [] := List.append_ne_nil_of_left_ne_nil (k.lexeme_takes _ _ _ hcut) _
  have hvisible : ∀ body, k₂ = .tag → taken₂ = '#' :: '_' :: body →
      ¬ opensHidden body = true := by
    rintro body rfl hbody
    rw [horest] at hcut₂
    exact hread.not_opensHidden_of_other hc hsealed hx hrest hcut₂ hbody
  have hsettles := hk₂.settles ho hlex hcut₂ hvisible
  have hlexLeft := hlex.advance ho hsettles hcut₂
  have hdecided := hsettles.decided hcut₂ hfollow₂ h hend
  have htext₂ := k₂.lexeme_cuts _ _ _ hcut₂
  rw [hrest] at hk hcut hsame
  rw [horest] at hdecided hcut₂ htext₂ hsame
  obtain ⟨rfl, rfl⟩ := hk.other hsealed (List.prefix_append ..) hcut hdecided hcut₂ hsame
  rw [List.append_assoc] at htext₂
  exact ⟨rfl, rfl, List.append_cancel_left htext₂, hlexLeft⟩

end

theorem Blocked.not_follow {o : Cursor} {e : Char} {cs cs' : List Char} (h : Blocked st c)
    (hc : c.rest = e :: cs) (ho : o.rest = e :: cs') (hcut : k.lexeme o.rest = some (taken, left))
    (hfollow : Pending.follow st k = some st₁) : False := by
  rcases h with hnil | ⟨j, hj, hnone⟩
  · rw [hc] at hnil
    cases hnil
  have haccepts := hj.accepts
  rw [hc] at haccepts
  rcases Pending.follow_eq_none hnone with hcloser | ⟨hmap, hbrace⟩
  · obtain ⟨-, halone⟩ := candidates_of_closer hcloser haccepts
    obtain rfl : k = j := eq_of_candidates (halone cs') (by rw [← ho, hcut]; rfl)
    rw [hnone] at hfollow
    cases hfollow
  · obtain ⟨rest, rfl⟩ := List.head?_eq_some_iff.1 hmap
    have hhead := head_of_map hcut hfollow
    rw [ho] at hhead
    obtain rfl : e = '\x7b' := Option.some.inj hhead
    exact hbrace (eq_of_candidates (by rw [hc]; rfl) hj.accepts)

theorem Follows.refuses (h : Follows Decided st c st' c') (hc : Settled c) (hread : Readable c)
    (hblocked : Blocked st' c') {j : TokenKind} (ht : j.lexeme c'.rest = some (t, r))
    (hw : c.rest = w ++ c'.rest) {o o' : Cursor} {r' : List Char} (ho : Settled o)
    (hlex : Lexable o.rest) (hrest : o.rest = w ++ (t ++ r'))
    (hother : Follows Nearly st o [] o') (hend : o'.rest = []) : False := by
  have htakes := j.lexeme_takes _ _ _ ht
  have htr : t ++ r = c'.rest := j.lexeme_cuts _ _ _ ht
  have hne : o.rest ≠ [] := by
    rw [hrest]
    exact List.append_ne_nil_of_right_ne_nil _ (List.append_ne_nil_of_left_ne_nil htakes _)
  induction h generalizing w o with
  | done st c =>
    obtain rfl : w = [] := List.append_left_eq_self.1 hw.symm
    obtain ⟨e, t, rfl⟩ := List.exists_cons_of_ne_nil htakes
    cases hother with
    | done => exact hne hend
    | token hcut _ hfollow _ => exact hblocked.not_follow htr.symm hrest hcut hfollow
  | @token k st st₁ st' c c' taken left hcut hk hfollow hgo ih =>
    obtain ⟨u, d, b, v, hsealed, rfl, hwt, hv, hplace⟩ :=
      hgo.exists_shared hcut hfollow hblocked ht hw
    have htext := k.lexeme_cuts _ _ _ hcut
    have horest : o.rest = taken ++ (u ++ d :: (b ++ r')) := by
      rw [hrest, ← List.append_assoc, hwt]
      simp only [List.append_assoc, List.cons_append]
    have hhead : (splitTrivia false (u ++ d :: (b ++ r'))).2.head? =
        (splitTrivia false (u ++ d :: (b ++ r))).2.head? := by
      rw [hplace, hplace, ← List.append_assoc, ← List.append_assoc,
        List.head?_append_of_ne_nil _ (List.append_ne_nil_of_right_ne_nil _ htakes),
        List.head?_append_of_ne_nil _ (List.append_ne_nil_of_right_ne_nil _ htakes)]
    cases hother with
    | done => exact hne hend
    | @token k₂ _ _ _ _ _ taken₂ left₂ hcut₂ hk₂ hfollow₂ hgo₂ =>
      have hsame : Rereads c.rest ↔ Rereads o.rest := by
        rw [← htext] at hk hcut ⊢
        rw [horest]
        exact hgo.rereads_iff hk hcut hfollow hblocked htr.symm hsealed hhead
      obtain ⟨rfl, rfl, rfl, hleft⟩ := hgo₂.same_token hc hread htext.symm hk hcut hsealed ho hlex
        horest hk₂ hcut₂ hfollow₂ hend hsame
      rw [hfollow] at hfollow₂
      obtain rfl := Option.some.inj hfollow₂
      have hnext : (skipTrivia (o.advance taken₂ (u ++ d :: (b ++ r')))).rest = v ++ (t ++ r') :=
        hplace r'
      refine ih (settled_skipTrivia _) (hread.advance hc hk hcut).skip hblocked ht hv
        (settled_skipTrivia _) (Lexable.skip hleft) hnext hgo₂ htr ?_
      rw [hnext, ← List.append_assoc]
      exact List.append_ne_nil_of_left_ne_nil (List.append_ne_nil_of_right_ne_nil _ htakes) _

end HiccupReader.Clojure
