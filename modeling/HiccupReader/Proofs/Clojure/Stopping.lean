import HiccupReader.Proofs.Clojure.Failures
import HiccupReader.Proofs.Clojure.Lexing
import HiccupReader.Proofs.Clojure.Reach

/-! Where the lexer stops. It goes on up to a place where no token begins. If the text does not end
there, it is refused, and the error stands at that place. -/

namespace HiccupReader.Clojure

open Matching

variable {c stop : Cursor} {ts : List Token}

structure LexedUpTo (c : Cursor) (ts : List Token) (stop : Cursor) : Prop where
  spells : Spells TokenKind.Preferred c ts stop
  barren : Barren (skipTrivia stop).rest

theorem exists_lexedUpTo (c : Cursor) : ∃ ts stop, LexedUpTo c ts stop := by
  induction hlength : c.rest.length using Nat.strongRecOn generalizing c with
  | _ length ih =>
    by_cases hbarren : Barren (skipTrivia c).rest
    · exact ⟨[], c, .done c, hbarren⟩
    · rw [Barren, not_forall] at hbarren
      obtain ⟨k, hsome⟩ := hbarren
      obtain ⟨j, hj⟩ := TokenKind.exists_preferred (Option.isSome_iff_ne_none.2 hsome)
      obtain ⟨⟨taken, left⟩, hcut⟩ := Option.isSome_iff_exists.1 hj.accepts
      have hfirst : Spells TokenKind.Preferred c [j.token (skipTrivia c) taken]
          ((skipTrivia c).advance taken left) := .token hcut hj (.done _)
      have hlt := hfirst.length_lt (List.cons_ne_nil _ _)
      obtain ⟨ts, stop, hrest, hend⟩ := ih _ (hlength ▸ hlt) _ rfl
      exact ⟨_ :: ts, stop, .token hcut hj hrest, hend⟩

theorem reach_token (k : TokenKind) (c : Cursor) : reach (.token k) c = c.offset := by
  rw [reach, matchSymbol, matchToken]
  split
  · exact Nat.max_zero _
  · exact Nat.max_self _

theorem offset_matchAnyToken_le (c : Cursor) : (matchAnyToken c).frontier.offset ≤ c.offset := by
  have hreach : ∀ ks : List TokenKind, reachFirst (ks.map .token) c = c.offset := by
    intro ks
    induction ks with
    | nil => rfl
    | cons k ks ih =>
      rw [List.map_cons, reachFirst, ih, reach_token]
      split
      · rfl
      · exact Nat.max_self _
  calc (matchAnyToken c).frontier.offset
      ≤ max c.offset (matchAnyToken c).frontier.offset := Nat.le_max_right _ _
    _ = c.offset := (offset_firstOf _ c).trans (hreach _)

theorem offset_repeated_le {limit : Nat} {c d : Cursor} {us : List Tree}
    (h : (Matcher.repeated skipTrivia matchAnyToken limit c).result = some (us, d)) :
    (Matcher.repeated skipTrivia matchAnyToken limit c).frontier.offset ≤
      (skipTrivia d).offset := by
  induction limit generalizing c us with
  | zero => exact Nat.zero_le _
  | succ limit ih =>
    have hitem := offset_matchAnyToken_le (skipTrivia c)
    have hread := items_of_repeated h
    rw [Matcher.result_repeated_succ] at h
    rw [Matcher.repeated]
    cases hresult : (matchAnyToken (skipTrivia c)).result with
    | none =>
      simp only [hresult, Option.some.injEq, Prod.mk.injEq] at h ⊢
      obtain ⟨-, rfl⟩ := h
      exact hitem
    | some found =>
      simp only [hresult, Option.map_eq_some_iff] at h ⊢
      obtain ⟨⟨us, d'⟩, hmore, he⟩ := h
      obtain ⟨rfl, rfl⟩ := Prod.mk.inj he
      have hreach : (skipTrivia c).Reaches d' := by
        cases hread with
        | item _ hfirst hrest =>
          exact (reaches_of_reading hfirst).trans (hrest.reaches reaches_of_reading)
      have hle := (hreach.trans (reaches_skipTrivia d')).offset_le
      rw [Attempt.offset_after, Attempt.offset_andThen_success]
      exact Nat.max_le.2 ⟨Nat.le_trans hitem hle, ih hmore⟩

theorem tokens_refused {d : Cursor} {us : List Tree}
    (h : (Matcher.repeated skipTrivia matchAnyToken ((skipTrivia c).rest.length + 1)
      (skipTrivia c)).result = some (us, d)) (hne : (skipTrivia d).rest ≠ []) :
    (matchProduction matchAt Rule.tokens.production c).result = none ∧
      (matchProduction matchAt Rule.tokens.production c).frontier.offset =
        (skipTrivia d).offset := by
  have hfinish : matchPart matchAt .finish (skipTrivia d) =
      .failure .endOfInput (skipTrivia d).offset := by
    obtain ⟨e, es, hrest⟩ := List.exists_cons_of_ne_nil hne
    rw [matchPart, matchEnd, hrest]
  have hlast : (matchParts [.finish] d).result = none ∧
      (matchParts [.finish] d).frontier.offset = (skipTrivia d).offset := by
    rw [matchParts, List.map_singleton, Matcher.result_inOrder_cons, Matcher.inOrder, hfinish]
    exact ⟨rfl, Attempt.offset_andThen_of_none rfl⟩
  refine ⟨?_, ?_⟩
  · rw [Rule.production, matchProduction, List.map_cons, Matcher.result_inOrder_cons, matchPart,
      h, Option.bind_some, hlast.1]
    rfl
  · rw [Rule.production, matchProduction, List.map_cons, Matcher.inOrder, matchPart,
      Attempt.offset_andThen_of_some h, Attempt.offset_andThen_success, hlast.2]
    exact Nat.max_eq_right (offset_repeated_le h)

namespace LexedUpTo

theorem exists_error {text : String} (h : LexedUpTo (.start text.toList) ts stop)
    (hne : (skipTrivia stop).rest ≠ []) :
    ∃ frontier, lex text = .error (.unexpected frontier) ∧
      frontier.offset = (skipTrivia stop).offset := by
  generalize hc : Cursor.start text.toList = c at h
  obtain ⟨hspells, hbarren⟩ := h
  obtain ⟨mid, hspells, hmid⟩ := hspells.exists_of_skip_eq (skipTrivia_skipTrivia c)
  rw [← hmid] at hbarren hne ⊢
  obtain ⟨us, hrepeated, -⟩ := hspells.exists_repeated hbarren
  obtain ⟨hresult, hoffset⟩ := tokens_refused hrepeated hne
  have hnone : (matchAt .tokens c).result = none := by rw [result_matchAt, hresult]; rfl
  have hstart : c.offset ≤ (skipTrivia mid).offset := by
    rw [← hc]
    exact Nat.zero_le _
  refine ⟨(matchAt .tokens c).frontier, ?_, ?_⟩
  · rw [lex, matchText_eq_matchAt, hc, outcome, hnone]
    rfl
  · rw [reach_of_refused (not_accepts_iff.2 hnone), reach_rule, hoffset]
    exact Nat.max_eq_right hstart

end LexedUpTo

theorem exists_lexedUpTo_of_error {text : String} {error : SyntaxError}
    (h : lex text = .error error) :
    ∃ ts stop frontier, LexedUpTo (.start text.toList) ts stop ∧ (skipTrivia stop).rest ≠ [] ∧
      error = .unexpected frontier ∧ frontier.offset = (skipTrivia stop).offset := by
  obtain ⟨ts, stop, hlexed⟩ := exists_lexedUpTo (.start text.toList)
  have hne : (skipTrivia stop).rest ≠ [] := by
    intro hend
    rw [lex_of_spells hlexed.spells hend] at h
    cases h
  obtain ⟨frontier, herror, hoffset⟩ := hlexed.exists_error hne
  exact ⟨ts, stop, frontier, hlexed, hne, Except.error.inj (h.symm.trans herror), hoffset⟩

theorem exists_barren_of_lex_error {text : String} {frontier : Frontier Goal}
    (h : lex text = .error (.unexpected frontier)) :
    ∃ d, (Cursor.start text.toList).Reaches d ∧ d.offset = frontier.offset ∧ Barren d.rest ∧
      d.rest ≠ [] := by
  obtain ⟨ts, stop, other, hlexed, hne, herror, hoffset⟩ := exists_lexedUpTo_of_error h
  obtain rfl := SyntaxError.unexpected.inj herror
  exact ⟨_, hlexed.spells.reaches.trans (reaches_skipTrivia stop), hoffset.symm, hlexed.barren, hne⟩

end HiccupReader.Clojure
