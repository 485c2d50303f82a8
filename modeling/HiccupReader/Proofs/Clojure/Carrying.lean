import HiccupReader.Proofs.Clojure.Courses
import HiccupReader.Proofs.Clojure.Unclosed

/-! The bracket that the lexer leaves open between two places. Whatever mark the parser tries in
front of a form, the lexer leaves the same bracket open from in front of it as from behind it. It
cuts the text in another way where it reads more than the mark, as with a reader conditional that
is tried as a tag, and behind a discard mark that is tried as a tag. -/

namespace HiccupReader.Clojure

open Matching Recogniser

/-- Between a place and an offset the lexer leaves this bracket open, as the innermost one. -/
def Opened (c : Cursor) (offset : Nat) (b : Bracket) : Prop :=
  ∃ ts stop, Spells TokenKind.Preferred c ts stop ∧ (skipTrivia stop).offset = offset ∧
    Innermost b (delimitersOf ts)

structure Carries (c d : Cursor) : Prop where
  readable : Readable (skipTrivia d)
  opened : ∀ {offset : Nat} {b : Bracket}, Opened d offset b → Opened c offset b

variable {b : Bracket} {offset : Nat} {c d e : Cursor} {k j : TokenKind}
  {taken taken' left : List Char} {word : List Delimiter} {ts us : List Token}

namespace Innermost

theorem append_left (front : List Delimiter) (h : Innermost b word) :
    Innermost b (front ++ word) := by
  obtain ⟨before, back, rfl, hback⟩ := h
  exact ⟨front ++ before, back, (List.append_assoc ..).symm, hback⟩

theorem ne_nil (h : Innermost b word) : word ≠ [] := by
  obtain ⟨front, back, rfl, -⟩ := h
  exact List.append_ne_nil_of_right_ne_nil _ (List.cons_ne_nil _ _)

end Innermost

theorem delimitersOf_append (ts us : List Token) :
    delimitersOf (ts ++ us) = delimitersOf ts ++ delimitersOf us := List.filterMap_append

theorem delimitersOf_token (c : Cursor) (k : TokenKind) (taken : List Char) (ts : List Token) :
    delimitersOf (k.token c taken :: ts) = k.delimiter?.toList ++ delimitersOf ts := by
  have hkind : (TokenKind.ofIndex? (k.token c taken).rule).bind TokenKind.delimiter? =
      k.delimiter? := by
    rw [TokenKind.token, k.ofIndex?_index, Option.bind_some]
  rw [delimitersOf, List.filterMap_cons, hkind]
  cases k.delimiter? <;> rfl

theorem Readable.of_preferred (h : Readable c) (hc : Settled c) (hk : k.Preferred c.rest)
    (hcut : k.lexeme c.rest = some (taken, left)) : Readable (c.advance taken left) := by
  have hne : c.rest ≠ [] := by
    intro hnil
    rw [hnil, k.lexeme_nil] at hcut
    cases hcut
  obtain ⟨j, taken', left', hcut', ⟨hj, -⟩, hread⟩ := h.exists_first hc hne
  obtain rfl := hk.unique hj
  obtain ⟨rfl, rfl⟩ := Prod.mk.inj (Option.some.inj (hcut.symm.trans hcut'))
  exact hread

theorem Readable.cons (h : Readable (c.advance taken left)) (hc : Settled c)
    (hk : k.Preferred c.rest) (hplain : k ≠ .discard)
    (hcut : k.lexeme c.rest = some (taken, left)) : Readable c := by
  obtain ⟨ts, stop, hspells, hend⟩ := h
  rw [← hc] at hcut hk hspells
  exact ⟨_, stop, .token hcut ⟨hk, fun hdiscard => absurd hdiscard hplain⟩ hspells, hend⟩

theorem opened_iff (hc : Settled c) (hk : k.Preferred c.rest)
    (hcut : k.lexeme c.rest = some (taken, left)) : Opened c offset b ↔
      ∃ ts stop, Spells TokenKind.Preferred (c.advance taken left) ts stop ∧
        (skipTrivia stop).offset = offset ∧
          Innermost b (k.delimiter?.toList ++ delimitersOf ts) := by
  constructor
  · rintro ⟨ts, stop, hspells, hoffset, hinnermost⟩
    cases hspells with
    | done => exact absurd rfl hinnermost.ne_nil
    | @token j _ _ taken' left' ts hcut' hj hrest =>
      rw [hc] at hcut' hj hrest
      obtain rfl := hk.unique hj
      obtain ⟨rfl, rfl⟩ := Prod.mk.inj (Option.some.inj (hcut.symm.trans hcut'))
      rw [delimitersOf_token] at hinnermost
      exact ⟨ts, stop, hrest, hoffset, hinnermost⟩
  · rintro ⟨ts, stop, hspells, hoffset, hinnermost⟩
    rw [← hc] at hcut hk hspells
    refine ⟨_, stop, .token hcut hk hspells, hoffset, ?_⟩
    rwa [delimitersOf_token]

namespace Carries

theorem trans (h : Carries c d) (h' : Carries d e) : Carries c e :=
  ⟨h'.readable, fun hopened => h.opened (h'.opened hopened)⟩

theorem of_spells (h : Spells TokenKind.Preferred c ts d) (hskip : skipTrivia d = skipTrivia e)
    (hread : Readable (skipTrivia e)) : Carries c e := by
  refine ⟨hread, fun {offset b} hopened => ?_⟩
  obtain ⟨us, stop, hspells, hoffset, hinnermost⟩ := hopened
  obtain ⟨stop', hspells', hstop⟩ := hspells.exists_of_skip_eq hskip
  refine ⟨ts ++ us, stop', h.append hspells', by rwa [hstop], ?_⟩
  rw [delimitersOf_append]
  exact hinnermost.append_left _

theorem of_skip_eq (h : skipTrivia c = skipTrivia d) (hread : Readable (skipTrivia d)) :
    Carries c d := .of_spells (.done c) h hread

theorem skip (hread : Readable (skipTrivia c)) : Carries c (skipTrivia c) := by
  have hc := settled_skipTrivia c
  refine .of_skip_eq hc.symm ?_
  rwa [hc]

theorem of_preferred (hc : Settled c) (hread : Readable c) (hk : k.Preferred c.rest)
    (hcut : k.lexeme c.rest = some (taken, left)) : Carries c (c.advance taken left) := by
  have hleft := hread.of_preferred hc hk hcut
  rw [← hc] at hcut hk
  have hfirst := Spells.token hcut hk (.done _)
  rw [hc] at hfirst
  exact .of_spells hfirst rfl hleft.skip

theorem of_twin (hc : Settled c) (hd : Settled d) (hread : Readable c) (hj : j.Preferred c.rest)
    (hcut : j.lexeme c.rest = some (taken, left)) (hk : k.Preferred d.rest)
    (hcut' : k.lexeme d.rest = some (taken', left))
    (hplace : d.advance taken' left = c.advance taken left) (hplain : k ≠ .discard)
    (hsame : k.delimiter? = j.delimiter?) : Carries c d where
  readable := by
    have hleft := hread.of_preferred hc hj hcut
    rw [← hplace] at hleft
    rw [hd]
    exact hleft.cons hd hk hplain hcut'
  opened hopened := by
    rw [opened_iff hd hk hcut', hplace, hsame] at hopened
    exact (opened_iff hc hj hcut).2 hopened

theorem of_behind (h : Carries c (d.advance taken left)) (hd : Settled d) (hk : k.Preferred d.rest)
    (hcut : k.lexeme d.rest = some (taken, left)) (hplain : k ≠ .discard)
    (hnone : k.delimiter? = none) (hsettled : Settled (d.advance taken left)) : Carries c d where
  readable := by
    have hleft := h.readable
    rw [hsettled] at hleft
    rw [hd]
    exact hleft.cons hd hk hplain hcut
  opened hopened := by
    rw [opened_iff hd hk hcut, hnone] at hopened
    exact h.opened hopened

end Carries

theorem preferred_of_isSome (hrole : Nesting.role k ≠ .completes) (htag : k ≠ .tag)
    (hunquote : k ≠ .unquote) {cs : List Char} (h : (k.lexeme cs).isSome) : k.Preferred cs := by
  refine .of_unrivalled (fun p => ?_) h
  have rivals : ∀ p : TokenKind, ∀ j ∈ p.rivals,
      Nesting.role j = .completes ∨ j = .tag ∨ j = .unquote := by
    intro p
    cases p <;> decide
  intro hmem
  rcases rivals p k hmem with h | h | h
  · exact hrole h
  · exact htag h
  · exact hunquote h

theorem carries_unquote (hc : Settled c) (hread : Readable c)
    (hcut : TokenKind.unquote.lexeme c.rest = some (taken, left)) :
    Carries c (c.advance taken left) := by
  obtain ⟨j, hj⟩ := TokenKind.exists_preferred (by rw [hcut]; rfl)
  rcases hj.eq_or_mem_rivals (by rw [hcut]; rfl) with rfl | hrival
  · exact .of_preferred hc hread hj hcut
  · obtain rfl : j = .unquoteSplicing := by
      have only : ∀ j : TokenKind, .unquote ∈ j.rivals → j = .unquoteSplicing := by
        intro j
        cases j <;> decide
      exact only j hrival
    -- The lexer reads both signs, and the second one is a token of its own to the parser.
    obtain ⟨⟨mark, cs⟩, hjcut⟩ := Option.isSome_iff_exists.1 hj.accepts
    obtain ⟨rfl, hrest⟩ := word_eq_some_iff.1 hjcut
    rw [hrest] at hcut
    obtain ⟨rfl, rfl⟩ := Prod.mk.inj (Option.some.inj hcut)
    have hd : Settled (c.advance ['~'] ('@' :: cs)) := .of_rest_cons rfl (by decide) rfl
    exact .of_twin hc hd hread hj hjcut (preferred_of_isSome (k := .deref) nofun nofun nofun rfl)
      rfl (Cursor.advance_advance ..) nofun rfl

theorem carries_questionTag (hc : Settled c) (hread : Readable c)
    (hk : TokenKind.readerConditional.Preferred c.rest)
    (hcut : TokenKind.tag.lexeme c.rest = some (taken, left)) :
    Carries c (c.advance taken left) := by
  obtain ⟨⟨mark, cs⟩, hkcut⟩ := Option.isSome_iff_exists.1 hk.accepts
  have hrest : mark ++ cs = c.rest := TokenKind.readerConditional.lexeme_cuts _ _ _ hkcut
  -- The lexer reads the parenthesis too, which is a token of its own to the parser.
  have paren : ∀ {d : Cursor}, d.rest = '(' :: cs → d.advance ['('] cs = c.advance mark cs →
      Carries c d := by
    intro d hd hplace
    have hparen : TokenKind.leftParen.lexeme d.rest = some (['('], cs) := by
      rw [hd]
      rfl
    exact .of_twin hc (.of_rest_cons hd (by decide) rfl) hread hk hkcut
      (preferred_of_isSome (k := .leftParen) nofun nofun nofun (by rw [hparen]; rfl)) hparen hplace
      nofun rfl
  rcases eq_of_firstOf_words hkcut with rfl | rfl
  · have htag : TokenKind.tag.lexeme c.rest = some (['#', '?'], '@' :: '(' :: cs) := by
      rw [← hrest]
      rfl
    obtain ⟨rfl, rfl⟩ := Prod.mk.inj (Option.some.inj (hcut.symm.trans htag))
    have hlist : Carries c ((c.advance ['#', '?'] ('@' :: '(' :: cs)).advance ['@'] ('(' :: cs)) := by
      refine paren rfl ?_
      rw [Cursor.advance_advance, Cursor.advance_advance]
      rfl
    exact hlist.of_behind (k := .deref) (.of_rest_cons rfl (by decide) rfl)
      (preferred_of_isSome (k := .deref) nofun nofun nofun rfl) rfl nofun rfl
      (.of_rest_cons rfl (by decide) rfl)
  · have htag : TokenKind.tag.lexeme c.rest = some (['#', '?'], '(' :: cs) := by
      rw [← hrest]
      rfl
    obtain ⟨rfl, rfl⟩ := Prod.mk.inj (Option.some.inj (hcut.symm.trans htag))
    exact paren rfl (Cursor.advance_advance ..)

theorem opening_of_production {r : Rule} {parts : List Part}
    (hr : r.production = .sequence (.one (.token k) :: parts)) (hmem : Symbol.rule r ∈ openers) :
    Opening k parts := by
  obtain ⟨s, j, parts', hs, hproduction, -, -, hopening⟩ := exists_opening_of_opener hmem
  obtain rfl := Symbol.rule.inj hs
  obtain ⟨hfirst, rfl⟩ := List.cons.inj (Production.sequence.inj (hr.symm.trans hproduction))
  obtain rfl := Symbol.token.inj (Part.one.inj hfirst)
  exact hopening

theorem Opening.delimiter?_eq {parts : List Part} (h : Opening k parts) (h' : Opening j parts) :
    k.delimiter? = j.delimiter? := by
  cases h with
  | literal hrole =>
    cases h' with
    | literal hrole' => rw [delimiter?_of_completes hrole, delimiter?_of_completes hrole']
    | awaiting _ _ hparts => cases hparts
  | enclosed hopens hcloses =>
    cases h' with
    | enclosed hopens' hcloses' =>
      obtain rfl := Delimiter.closing.inj (Option.some.inj (hcloses.symm.trans hcloses'))
      rw [hopens, hopens']
    | awaiting _ _ hparts => cases hparts
  | awaiting hrole _ hparts =>
    rw [delimiter?_of_awaits hrole]
    cases h' with
    | literal => cases hparts
    | enclosed => cases hparts
    | awaiting hrole' => rw [delimiter?_of_awaits hrole']
    | mapPrefix => cases hparts
  | mapPrefix hmark =>
    subst hmark
    cases h' with
    | awaiting _ _ hparts => cases hparts
    | mapPrefix hmark' => rw [hmark']

theorem preferred_of_alone {cs : List Char} (h : candidates cs = [k])
    (hsome : (k.lexeme cs).isSome) : k.Preferred cs := by
  obtain ⟨p, hp⟩ := TokenKind.exists_preferred hsome
  obtain rfl := eq_of_candidates h hp.accepts
  exact hp

theorem TwinMark.carries {d : Char} {r s : Rule} {parts : List Part}
    (h : TwinMark d k j r s parts) {cs : List Char} (hc : Settled c) (hread : Readable c)
    (hrest : c.rest = '#' :: d :: cs) : Carries c (c.advance ['#'] (d :: cs)) := by
  have hj : j.Preferred c.rest := by
    rw [hrest]
    exact preferred_of_alone (h.hashAlone cs) (by rw [h.hashCut]; rfl)
  have hjcut : j.lexeme c.rest = some (['#', d], cs) := by rw [hrest, h.hashCut]
  have hk : k.Preferred (d :: cs) := preferred_of_alone (h.alone cs) (by rw [h.cut]; rfl)
  have hplain : k ≠ .discard := by
    rintro rfl
    obtain ⟨hword, -⟩ := word_eq_some_iff.1 (h.cut [])
    cases hword
  exact .of_twin hc (h.settled rfl) hread hj hjcut hk (h.cut cs) (Cursor.advance_advance ..) hplain
    ((opening_of_production h.production h.opens).delimiter?_eq
      (opening_of_production h.hashProduction h.hashOpens))

theorem QuoteMark.carries {mark cs : List Char} {r : Rule} (h : QuoteMark mark k r)
    (hrest : c.rest = mark ++ cs) (hread : Readable (skipTrivia c)) :
    Carries c (c.advance mark cs) := by
  have hc := h.settled hrest
  have hcut := h.cut_at hrest
  rw [hc] at hread
  exact .of_preferred hc hread (.of_unrivalled h.unrivalled (by rw [hcut]; rfl)) hcut

def CarriesBelow (length : Nat) : Prop :=
  ∀ {c : Cursor} {body left : List Char}, body.length < length → c.rest = body ++ left →
    run isSymbolChar (body ++ left) = some (body, left) → ¬ opensHidden body = true →
      Readable (skipTrivia c) → ¬ Accepts (.rule .form) (skipTrivia c) →
        Carries c (c.advance body left)

theorem carries_tag {length : Nat} (hbelow : CarriesBelow length) (hc : Settled c)
    (hread : Readable c) (hcut : TokenKind.tag.lexeme c.rest = some (taken, left))
    (hlength : taken.length ≤ length + 1)
    (hrefused : ∀ cs, c.rest = '#' :: '_' :: cs →
      ¬ Accepts (.rule .form) (skipTrivia (c.advance ['#', '_'] cs))) :
    Carries c (c.advance taken left) := by
  obtain ⟨j, hj⟩ := TokenKind.exists_preferred (by rw [hcut]; rfl)
  rcases hj.eq_or_mem_rivals (by rw [hcut]; rfl) with rfl | hrival
  · exact .of_preferred hc hread hj hcut
  have only : ∀ j : TokenKind, .tag ∈ j.rivals → j = .readerConditional ∨ j = .discard := by
    intro j
    cases j <;> decide
  rcases only j hrival with rfl | rfl
  · exact carries_questionTag hc hread hj hcut
  · obtain ⟨⟨mark, cs⟩, hjcut⟩ := Option.isSome_iff_exists.1 hj.accepts
    obtain ⟨rfl, hrest⟩ := word_eq_some_iff.1 hjcut
    obtain ⟨body, rfl⟩ := exists_body_of_discard hcut hj
    have htext : '#' :: '_' :: body ++ left = c.rest := TokenKind.tag.lexeme_cuts _ _ _ hcut
    obtain rfl : body ++ left = cs := by
      rw [hrest] at htext
      exact (List.cons.inj (List.cons.inj htext).2).2
    have hrun : run isSymbolChar (body ++ left) = some (body, left) := by
      rw [← htext] at hcut
      exact run_tail (run_of_lexeme_tag hcut)
    have hhidden : ¬ opensHidden body = true := fun h =>
      hread.not_opensHidden hc hrest (opensHidden_append h left)
    have hdiscard : Carries c (c.advance ['#', '_'] (body ++ left)) :=
      .of_preferred hc hread hj hjcut
    simp only [List.length_cons] at hlength
    have hbody := hbelow (c := c.advance ['#', '_'] (body ++ left)) (by omega) rfl hrun hhidden
      hdiscard.readable (hrefused _ hrest)
    rw [Cursor.advance_advance] at hbody
    exact hdiscard.trans hbody

theorem carriesBelow (length : Nat) : CarriesBelow length := by
  induction length with
  | zero => exact fun hlt => absurd hlt (Nat.not_lt_zero _)
  | succ length ih =>
    intro c body left hlength hrest hrun hhidden hread hrefused
    have quoted : ∀ {mark cs : List Char} {k : TokenKind} {r : Rule}, QuoteMark mark k r →
        mark ≠ [] → body = mark ++ cs → ¬ opensHidden cs = true →
          Carries c (c.advance body left) := by
      rintro mark cs k r hmark hne rfl hvisible
      rw [List.append_assoc] at hrest
      have hfirst := hmark.carries hrest hread
      have hpos := List.length_pos_iff.2 hne
      rw [List.length_append] at hlength
      rw [hmark.accepts_form_iff hrest] at hrefused
      have hbehind := ih (c := c.advance mark (cs ++ left)) (by omega) rfl (run_of_append hrun)
        hvisible hfirst.readable hrefused
      rw [Cursor.advance_advance] at hbehind
      exact hfirst.trans hbehind
    fun_cases opensHidden body with
    | case1 => exact absurd rfl hhidden
    | case2 cs => exact quoted quoteMark_quote (List.cons_ne_nil _ _) rfl hhidden
    | case3 cs => exact quoted quoteMark_varQuote (List.cons_ne_nil _ _) rfl hhidden
    | case4 body hbang hquote hvar =>
      cases body with
      | nil =>
        have hsame : c.advance [] left = c := advance_nil c hrest
        rw [hsame]
        exact .of_skip_eq rfl hread
      | cons d ds =>
        have hc := settled_of_run hrest hrun hbang
        rw [hc] at hread hrefused
        cases bareHash_of_refused hc hrest hrun hquote hvar hread.lexable hrefused with
        | twin cs htwin => exact htwin.carries hc hread hrest
        | mapPrefix es =>
          have hcut := lexeme_mapPrefix (run_tail (run_tail hrun))
          rw [← hrest] at hcut
          exact .of_preferred hc hread
            (preferred_of_isSome (k := .namespacedMapPrefix) nofun nofun nofun
              (by rw [hcut]; rfl)) hcut
        | tag es _ hhead =>
          have hcut := lexeme_tag_of_run ⟨_, rfl, hhead⟩ (run_tail hrun)
          rw [← hrest] at hcut
          refine carries_tag ih hc hread hcut (by omega) fun cs hcs haccepts => hrefused ?_
          have hdiscard : TokenKind.discard.lexeme c.rest = some (['#', '_'], cs) := by
            rw [hcs]
            rfl
          exact accepts_form_of_parts (r := .discard) rfl (by decide) hc hdiscard
            (acceptsInOrder_one_iff.2 haccepts)

/-- Whatever reader macro is tried, its mark takes nothing away that is open behind it. A tag is only
tried where the discard mark in front of it is refused. -/
theorem carries_mark {more : Nat} (hc : Settled c) (hread : Readable c)
    (hrole : Nesting.role k = .awaits (more + 1)) (hcut : k.lexeme c.rest = some (taken, left))
    (hdiscard : k = .tag → ¬ Accepts (.rule .discard) c) : Carries c (c.advance taken left) := by
  by_cases htag : k = .tag
  · subst htag
    refine carries_tag (carriesBelow taken.length) hc hread hcut (Nat.le_succ _) ?_
    intro cs hcs haccepts
    refine hdiscard rfl ((accepts_sequence_iff rfl hc).2 ⟨['#', '_'], cs, ?_, ?_⟩)
    · rw [hcs]
      rfl
    · exact acceptsInOrder_one_iff.2 haccepts
  by_cases hunquote : k = .unquote
  · subst hunquote
    exact carries_unquote hc hread hcut
  · refine .of_preferred hc hread (preferred_of_isSome ?_ htag hunquote (by rw [hcut]; rfl)) hcut
    rw [hrole]
    nofun

end HiccupReader.Clojure
