import HiccupReader.Proofs.Clojure.Levels
import HiccupReader.Proofs.Clojure.Shifting

/-! The same tokens in another text. What stands behind some tokens may be exchanged, as long as it
is put apart from the last one. What stands in front of them may be left out. -/

namespace HiccupReader.Clojure

open Matching

variable {P : TokenKind → List Char → Prop} {c stop : Cursor} {ts : List Token}
  {w more : List Char}

theorem splitTrivia_front {k : TokenKind} {cs taken left : List Char}
    (h : (splitTrivia false cs).2 = taken ++ left)
    (hcut : k.lexeme (taken ++ left) = some (taken, left)) (left' : List Char) :
    splitTrivia false ((splitTrivia false cs).1 ++ (taken ++ left')) =
      ((splitTrivia false cs).1, taken ++ left') := by
  have htakes := List.append_ne_nil_of_left_ne_nil (k.lexeme_takes _ _ _ hcut) left
  have hbare : (splitTrivia false (taken ++ left)).2 = taken ++ left := by
    rw [← h, splitTrivia_splitTrivia]
  have hrest : (splitTrivia false ((splitTrivia false cs).1 ++ (taken ++ left'))).2 =
      taken ++ left' := by
    rw [splitTrivia_gap (by rwa [h]), splitTrivia_of_lexeme hcut hbare]
  have hwhole := splitTrivia_append false ((splitTrivia false cs).1 ++ (taken ++ left'))
  rw [hrest] at hwhole
  exact Prod.ext (List.append_cancel_right hwhole) hrest

theorem Spells.eq_of_nil (h : Spells P c [] stop) : stop = c := by
  cases h
  rfl

theorem Spells.exists_place {k : TokenKind} {taken left : List Char}
    (hcut : k.lexeme (skipTrivia c).rest = some (taken, left))
    (hrest : Spells P ((skipTrivia c).advance taken left) ts stop)
    (hw : c.rest = w ++ stop.rest) : ∃ v, v ++ stop.rest = left ∧
      ∀ more, skipTrivia ⟨c.offset, w ++ more⟩ =
        ⟨(skipTrivia c).offset, taken ++ (v ++ more)⟩ := by
  obtain ⟨v, hv, -⟩ := hrest.reaches
  have hleft : v ++ stop.rest = left := hv
  have htext : taken ++ left = (skipTrivia c).rest := k.lexeme_cuts _ _ _ hcut
  rw [← htext] at hcut
  have hskip : (splitTrivia false c.rest).2 = taken ++ left := htext.symm
  have hwhole : (splitTrivia false c.rest).1 ++ (taken ++ v) = w := by
    have hgap := splitTrivia_append false c.rest
    rw [hskip, ← hleft, hw, ← List.append_assoc, ← List.append_assoc] at hgap
    rw [hw]
    exact (List.append_assoc ..).symm.trans (List.append_cancel_right hgap)
  refine ⟨v, hleft, fun more => ?_⟩
  have hsplit := splitTrivia_front hskip hcut (v ++ more)
  rw [← List.append_assoc taken, ← List.append_assoc, hwhole] at hsplit
  rw [skipTrivia, hsplit, List.append_assoc]
  rfl

theorem Spells.head_eq (h : Spells P c ts stop) (hts : ts ≠ []) (hw : c.rest = w ++ stop.rest)
    (more : List Char) :
    (splitTrivia false (w ++ more)).2.head? = (splitTrivia false c.rest).2.head? := by
  cases h with
  | done => exact absurd rfl hts
  | @token k _ _ taken left ts hcut _ hrest =>
    obtain ⟨v, -, hplace⟩ := exists_place hcut hrest hw
    have htakes := k.lexeme_takes _ _ _ hcut
    have hrests := fun more => congrArg Cursor.rest (hplace more)
    have hmore : (splitTrivia false (w ++ more)).2 = taken ++ (v ++ more) := hrests more
    have hhere : (splitTrivia false (w ++ stop.rest)).2 = taken ++ (v ++ stop.rest) :=
      hrests stop.rest
    rw [hw, hmore, hhere, List.head?_append_of_ne_nil _ htakes,
      List.head?_append_of_ne_nil _ htakes]

/-- What holds at a token holds where the text is parted behind it, as long as the same character
comes next. -/
def Carried (P : TokenKind → List Char → Prop) : Prop :=
  ∀ k taken left left', P k (taken ++ left) → k.lexeme (taken ++ left) = some (taken, left) →
    Parted left left' → (splitTrivia false left').2.head? = (splitTrivia false left).2.head? →
      P k (taken ++ left')

theorem carried_preferred : Carried TokenKind.Preferred :=
  fun _ _ _ _ hp hcut hparted _ => hp.of_parted hcut hparted

theorem Settles.of_parted {k : TokenKind} {taken left left' : List Char}
    (h : Settles k (taken ++ left)) (hcut : k.lexeme (taken ++ left) = some (taken, left))
    (hparted : Parted left left')
    (hnoMap : k = .tag → (splitTrivia false left).2.head? ≠ some '\x7b' →
      (splitTrivia false left').2.head? ≠ some '\x7b') : Settles k (taken ++ left') := by
  rcases h with hpreferred | ⟨rfl, body, left₁, ks, htext, hreread⟩
  · exact .inl (hpreferred.of_parted hcut hparted)
  · obtain ⟨rfl, rfl⟩ := hreread.eq_of_lexeme htext hcut
    exact .inr ⟨rfl, body, left', ks, rfl, hreread.of_parted hparted (hnoMap rfl hreread.noMap)⟩

theorem carried_settles : Carried Settles :=
  fun _ _ _ _ h hcut hparted hhead => h.of_parted hcut hparted fun _ hnoMap => hhead ▸ hnoMap

def Steady (P : TokenKind → List Char → Prop) (k : TokenKind) : Prop :=
  ∀ taken left left', P k (taken ++ left) → k.lexeme (taken ++ left) = some (taken, left) →
    Parted left left' → P k (taken ++ left')

theorem steady_preferred (k : TokenKind) : Steady TokenKind.Preferred k :=
  fun _ _ _ hp hcut hparted => hp.of_parted hcut hparted

theorem steady_settles {k : TokenKind} (hk : k ≠ .tag) : Steady Settles k :=
  fun _ _ _ h hcut hparted => h.of_parted hcut hparted fun htag => absurd htag hk

theorem Spells.exchange (h : Spells P c ts stop) (hcarried : Carried P)
    (hparted : Parted stop.rest more)
    (hend : ∀ last ∈ ts.getLast?, ∀ k : TokenKind, last.rule = k.index → Steady P k)
    (hw : c.rest = w ++ stop.rest) : Spells P ⟨c.offset, w ++ more⟩ ts ⟨stop.offset, more⟩ := by
  induction h generalizing w with
  | done c =>
    obtain rfl : w = [] := List.append_left_eq_self.1 hw.symm
    exact .done _
  | @token k c stop taken left ts hcut hp hrest ih =>
    obtain ⟨v, rfl, hplace⟩ := exists_place hcut hrest hw
    have htext : taken ++ (v ++ stop.rest) = (skipTrivia c).rest := k.lexeme_cuts _ _ _ hcut
    rw [← htext] at hcut hp
    have hleft := hparted.append v
    have hpmore : P k (taken ++ (v ++ more)) := by
      by_cases hts : ts = []
      · subst hts
        have hv : stop.rest = v ++ stop.rest := congrArg Cursor.rest hrest.eq_of_nil
        obtain rfl : v = [] := List.append_left_eq_self.1 hv.symm
        exact hend _ rfl k rfl taken _ _ hp hcut hparted
      · exact hcarried k taken _ _ hp hcut hleft (hrest.head_eq hts rfl more)
    have hothers : ∀ last ∈ ts.getLast?, ∀ k : TokenKind, last.rule = k.index → Steady P k := by
      intro last hlast
      exact hend last (List.mem_getLast?_cons hlast)
    have htoken : k.token (skipTrivia c) taken =
        k.token (skipTrivia ⟨c.offset, w ++ more⟩) taken := by
      rw [hplace]
      rfl
    rw [htoken]
    refine .token (by rw [hplace]; exact k.lexeme_stable taken _ _ hcut hleft)
      (by rw [hplace]; exact hpmore) ?_
    rw [hplace]
    exact ih hparted hothers rfl

theorem Spells.exchange_preferred (h : Spells TokenKind.Preferred c ts stop)
    (hparted : Parted stop.rest more) (hw : c.rest = w ++ stop.rest) :
    Spells TokenKind.Preferred ⟨c.offset, w ++ more⟩ ts ⟨stop.offset, more⟩ :=
  h.exchange carried_preferred hparted (fun _ _ k _ => steady_preferred k) hw

theorem Spells.exchange_settles {ks : List TokenKind} (h : Spells Settles c ts stop)
    (hkinds : ts.map Token.rule = ks.map TokenKind.index) (hends : Nesting.EndsForm ks)
    (hparted : Parted stop.rest more) (hw : c.rest = w ++ stop.rest) :
    Spells Settles ⟨c.offset, w ++ more⟩ ts ⟨stop.offset, more⟩ := by
  refine h.exchange carried_settles hparted (fun last hlast k hk => steady_settles ?_) hw
  rintro rfl
  have hmem : TokenKind.tag.index ∈ (ts.map Token.rule).getLast? := by
    rw [List.getLast?_map, ← hk]
    exact Option.mem_map_of_mem Token.rule hlast
  rw [hkinds, List.getLast?_map] at hmem
  obtain ⟨j, hj, hindex⟩ := Option.map_eq_some_iff.1 hmem
  obtain rfl := TokenKind.index_injective _ _ hindex
  rcases hends _ hj with hrole | hrole <;> cases hrole

theorem Spells.exists_unshift {n : Nat} {d d' : Cursor} (h : Spells P d ts d')
    (hd : d = c.shift n) :
    ∃ us c', Spells P c us c' ∧ ts = us.map (Token.shift n) ∧ d' = c'.shift n := by
  induction h generalizing c with
  | done d => exact ⟨[], c, .done c, rfl, hd⟩
  | @token k d d' taken left ts hcut hp _ ih =>
    subst hd
    rw [skipTrivia_shift] at hcut hp
    obtain ⟨us, c', hus, rfl, rfl⟩ := ih (c := (skipTrivia c).advance taken left)
      (by rw [skipTrivia_shift, advance_shift])
    refine ⟨k.token (skipTrivia c) taken :: us, c', .token hcut hp hus, ?_, rfl⟩
    rw [List.map_cons, skipTrivia_shift, token_shift]

end HiccupReader.Clojure
