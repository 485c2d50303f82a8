import HiccupReader.Proofs.Clojure.Derivation
import HiccupReader.Proofs.Clojure.Parse
import HiccupReader.Proofs.Clojure.Rereading

/-! What the lexer reads: at each place the token of the kind that it prefers there, up to the end
of the text. The text leaves no choice in this. -/

namespace HiccupReader.Clojure

open Matching

theorem chosen_of_many {rule : Rule → Matcher Goal Tree} {options : List Symbol}
    {parts : List Part} {c c' : Cursor} {ts : List Tree}
    (h : (matchProduction rule (.sequence (.many options :: parts)) c).result = some (ts, c')) :
    ∃ us vs d, ts = us ++ vs ∧ Items (chosenOf rule options) options (skipTrivia c) us d ∧
      Sequenced (readingOf rule) parts d vs c' := by
  rw [matchProduction, List.map_cons, Matcher.result_inOrder_cons] at h
  obtain ⟨⟨us, d⟩, hitems, hrest⟩ := Option.bind_eq_some_iff.1 h
  obtain ⟨⟨vs, e⟩, hmore, he⟩ := Option.map_eq_some_iff.1 hrest
  obtain ⟨rfl, rfl⟩ := Prod.mk.inj he
  exact ⟨us, vs, d, rfl, chosen_of_repeated hitems, sequenced_of_inOrder hmore⟩

theorem TokenKind.Preferred.of_chosen {k : TokenKind} {c c' : Cursor} {t : Tree}
    (h : chosenOf matchAt (precedence.map .token) (.token k) c t c') : k.Preferred c.rest := by
  obtain ⟨hread, hearlier⟩ := h
  obtain ⟨taken, left, hcut, -, -⟩ := readingOf_token_iff.1 hread
  refine ⟨by rw [hcut]; rfl, fun j hj => ?_⟩
  have hmem : Symbol.token j ∈ (precedence.map .token).takeWhile (· ≠ .token k) := by
    rw [List.takeWhile_map]
    exact List.mem_map_of_mem (by simpa [Function.comp_def] using hj)
  have hnone := hearlier _ hmem
  rw [matchSymbol, result_matchToken] at hnone
  exact Option.map_eq_none_iff.1 hnone

theorem Items.spells_preferred {c c' : Cursor} {ts : List Tree}
    (h : Items (chosenOf matchAt (TokenKind.precedence.map .token))
      (TokenKind.precedence.map .token) c ts c') :
    Spells TokenKind.Preferred c (Rose.leavesAll ts) c' := by
  induction h with
  | done c => exact .done c
  | item hs hread _ ih =>
    obtain ⟨k, -, rfl⟩ := List.mem_map.1 hs
    have hpreferred := TokenKind.Preferred.of_chosen hread
    obtain ⟨taken, left, hcut, rfl, rfl⟩ := readingOf_token_iff.1 hread.1
    exact .token hcut hpreferred ih

theorem exists_spells_of_lex {text : String} {tokens : List Token}
    (h : lex text = .ok tokens) :
    ∃ stop, Spells TokenKind.Preferred (.start text.toList) tokens stop ∧
      (skipTrivia stop).rest = [] := by
  obtain ⟨tree, c, hread, rfl⟩ := lex_eq_ok_iff.1 h
  rw [readingOf, matchSymbol, result_matchAt] at hread
  obtain ⟨⟨ts, c'⟩, hparts, he⟩ := Option.map_eq_some_iff.1 hread
  obtain ⟨rfl, rfl⟩ := Prod.mk.inj he
  obtain ⟨us, vs, d, rfl, hitems, hend⟩ := chosen_of_many hparts
  have hspells := hitems.spells_preferred
  cases hend with
  | finish hend hdone =>
    cases hdone
    rw [List.append_nil, Rose.leaves]
    by_cases hnil : Rose.leavesAll us = []
    · -- Without tokens the trivia in front is the whole text.
      rw [hnil] at hspells ⊢
      cases hspells
      exact ⟨_, .done _, by simpa using hend⟩
    · exact ⟨d, hspells.of_skipTrivia hnil, hend⟩

theorem lexable_of_lex {text : String} {tokens : List Token} (h : lex text = .ok tokens) :
    Lexable (Cursor.start text.toList).rest := by
  obtain ⟨stop, hspells, hend⟩ := exists_spells_of_lex h
  exact ⟨_, tokens, stop, rfl, hspells, hend⟩

abbrev matchAnyToken : Matcher Goal Tree :=
  Matcher.firstOf ((TokenKind.precedence.map Symbol.token).map (matchSymbol matchAt))

theorem TokenKind.Preferred.result_matchAnyToken {k : TokenKind} {c : Cursor}
    {taken left : List Char} (hk : k.Preferred c.rest) (hcut : k.lexeme c.rest = some (taken, left)) :
    (matchAnyToken c).result = some (.leaf (k.token c taken), c.advance taken left) := by
  rw [Matcher.result_firstOf]
  have hmem : Symbol.token k ∈ precedence.map Symbol.token :=
    List.mem_map_of_mem k.mem_precedence
  have hfound : (matchSymbol matchAt (.token k) c).result =
      some (.leaf (k.token c taken), c.advance taken left) :=
    readingOf_token_iff.2 ⟨taken, left, hcut, rfl, rfl⟩
  refine findSome?_of_first hmem hfound ?_
  intro x hx
  rw [List.takeWhile_map] at hx
  obtain ⟨j, hj, rfl⟩ := List.mem_map.1 hx
  rw [matchSymbol, result_matchToken, hk.earlier j (by simpa [Function.comp_def] using hj)]
  rfl

def Barren (cs : List Char) : Prop := ∀ k : TokenKind, k.lexeme cs = none

theorem barren_of_nil {cs : List Char} (h : cs = []) : Barren cs := h ▸ TokenKind.lexeme_nil

theorem result_matchAnyToken_of_barren {c : Cursor} (h : Barren c.rest) :
    (matchAnyToken c).result = none := by
  rw [Matcher.result_firstOf, List.findSome?_eq_none_iff]
  intro x hx
  obtain ⟨k, -, rfl⟩ := List.mem_map.1 hx
  rw [matchSymbol, result_matchToken, h k]
  rfl

theorem Spells.exists_repeats {c stop : Cursor} {ts : List Token}
    (h : Spells TokenKind.Preferred c ts stop) (hend : Barren (skipTrivia stop).rest) :
    ∃ us, Matcher.Repeats skipTrivia (fun c => (matchAnyToken c).result) c us stop ∧
      Rose.leavesAll us = ts := by
  induction h with
  | done c => exact ⟨[], .stop (result_matchAnyToken_of_barren hend), rfl⟩
  | token hcut hk _ ih =>
    obtain ⟨us, hrepeats, rfl⟩ := ih hend
    exact ⟨_, .next (hk.result_matchAnyToken hcut) hrepeats, rfl⟩

theorem Spells.exists_repeated {c stop : Cursor} {ts : List Token}
    (h : Spells TokenKind.Preferred c ts stop) (hend : Barren (skipTrivia stop).rest) :
    ∃ us, (Matcher.repeated skipTrivia matchAnyToken (c.rest.length + 1) c).result =
      some (us, stop) ∧ Rose.leavesAll us = ts := by
  obtain ⟨us, hrepeats, hleaves⟩ := h.exists_repeats hend
  have shrinks : ∀ {c t c₁}, (matchAnyToken (skipTrivia c)).result = some (t, c₁) →
      c₁.rest.length < c.rest.length := by
    intro c t c₁ hread
    rw [Matcher.result_firstOf] at hread
    obtain ⟨s, hs, hread⟩ := List.exists_of_findSome?_eq_some hread
    obtain ⟨k, -, rfl⟩ := List.mem_map.1 hs
    have hlt := length_lt_of_reading (s := .token k) hread (settled_skipTrivia c) rfl
    exact Nat.lt_of_lt_of_le hlt (reaches_skipTrivia c).length_le
  exact ⟨us, Matcher.result_repeated_of_repeats shrinks hrepeats (Nat.lt_succ_self _), hleaves⟩

theorem lex_of_spells {text : String} {ts : List Token} {stop : Cursor}
    (h : Spells TokenKind.Preferred (.start text.toList) ts stop)
    (hend : (skipTrivia stop).rest = []) : lex text = .ok ts := by
  generalize hc : Cursor.start text.toList = c at h
  obtain ⟨mid, hspells, hmid⟩ := h.exists_of_skipTrivia hend
  obtain ⟨us, hrepeated, rfl⟩ := hspells.exists_repeated (barren_of_nil hmid)
  have hresult : (matchProduction matchAt Rule.tokens.production c).result =
      some (us, skipTrivia mid) := by
    rw [Rule.production, matchProduction, List.map_cons, Matcher.result_inOrder_cons, matchPart,
      hrepeated, Option.bind_some, List.map_singleton, Matcher.result_inOrder_cons,
      result_matchPart_finish, if_pos hmid, Option.bind_some, Matcher.result_inOrder_nil]
    simp
  have hread := reading_of_production hresult
  rw [← hc] at hread
  exact lex_eq_ok_iff.2 ⟨_, _, hread, rfl⟩

theorem Spells.preferred_unique {c d e : Cursor} {ts us : List Token}
    (h : Spells TokenKind.Preferred c ts d) (h' : Spells TokenKind.Preferred c us e)
    (hd : (skipTrivia d).rest = []) (he : (skipTrivia e).rest = []) : ts = us := by
  induction h generalizing us with
  | done c =>
    cases h' with
    | done => rfl
    | @token k _ _ _ _ _ hcut =>
      rw [hd, k.lexeme_nil] at hcut
      cases hcut
  | @token k c d taken left ts hcut hk _ ih =>
    cases h' with
    | done =>
      rw [he, k.lexeme_nil] at hcut
      cases hcut
    | @token j _ _ taken' left' us hcut' hj hrest =>
      obtain rfl := hk.unique hj
      rw [hcut] at hcut'
      obtain ⟨rfl, rfl⟩ := Prod.mk.inj (Option.some.inj hcut')
      rw [ih hrest hd]

structure Lexed (c : Cursor) (ks : List TokenKind) (ts : List Token) (c' : Cursor) : Prop where
  spells : Spells Settles c ts c'
  kinds : ts.map Token.rule = ks.map TokenKind.index

namespace Lexed

variable {c c' : Cursor} {k : TokenKind} {ks js : List TokenKind} {ts : List Token}

theorem settles (h : Lexed c (k :: ks) ts c') : Settles k (skipTrivia c).rest := by
  obtain ⟨hspells, hkinds⟩ := h
  cases hspells with
  | done => cases hkinds
  | token _ hp _ =>
    obtain ⟨hrule, -⟩ := List.cons.inj hkinds
    rwa [← TokenKind.index_injective _ _ hrule]

theorem eq_nil (h : Lexed c [] ts c') : ts = [] ∧ c' = c := by
  obtain ⟨hspells, hkinds⟩ := h
  obtain rfl := List.map_eq_nil_iff.1 hkinds
  cases hspells
  exact ⟨rfl, rfl⟩

theorem cut (h : Lexed c [k] ts c') (hc : Settled c) :
    ∃ taken left, k.lexeme c.rest = some (taken, left) ∧ ts = [k.token c taken] ∧
      c' = c.advance taken left := by
  obtain ⟨hspells, hkinds⟩ := h
  cases hspells with
  | done => cases hkinds
  | token hcut _ hrest =>
    obtain ⟨hrule, hnil⟩ := List.cons.inj hkinds
    obtain rfl := List.map_eq_nil_iff.1 hnil
    cases hrest
    obtain rfl := TokenKind.index_injective _ _ hrule
    rw [hc] at hcut ⊢
    exact ⟨_, _, hcut, rfl, rfl⟩

theorem split (h : Lexed c (ks ++ js) ts c') (hne : ks ++ js ≠ []) :
    ∃ us vs d, ts = us ++ vs ∧ Lexed (skipTrivia c) ks us d ∧ Lexed d js vs c' := by
  obtain ⟨hspells, hkinds⟩ := h
  have hts : ts ≠ [] := by
    rintro rfl
    exact hne (List.map_eq_nil_iff.1 hkinds.symm)
  rw [List.map_append] at hkinds
  obtain ⟨us, vs, rfl, hus, hvs⟩ := List.map_eq_append_iff.1 hkinds
  obtain ⟨d, hfirst, hsecond⟩ := (hspells.skip hts).split
  exact ⟨us, vs, d, rfl, ⟨hfirst, hus⟩, ⟨hsecond, hvs⟩⟩

end Lexed
end HiccupReader.Clojure
