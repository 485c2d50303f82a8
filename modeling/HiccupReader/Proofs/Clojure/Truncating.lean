import HiccupReader.Proofs.Clojure.Concatenation
import HiccupReader.Proofs.Clojure.Misfit
import HiccupReader.Proofs.Clojure.Sealing

/-! Texts that end earlier. Where no token begins in a text, none begins in what is left of it there
when its end is cut off. So the lexer cuts the same tokens of every front part of a text that it
refuses, up to the same place, and it refuses just those that go on behind this place. -/

namespace HiccupReader.Matching.Recogniser

open Clojure

theorem run_total (p : Char → Bool) : (run p).Total := fun _ => rfl

theorem pair_firm {r s : Recogniser} (hr : r.Exact) (hs : s.Firm) : (inOrder [r, s]).Firm := by
  apply inOrder_firm [r] [s]
  · exact List.forall_mem_singleton.2 hr
  · rwa [inOrder_single]

theorem isSome_firstOf {r : Recogniser} {rs : List Recogniser} {cs : List Char} (hr : r ∈ rs)
    (h : (r cs).isSome) : (firstOf rs cs).isSome := by
  induction rs with
  | nil => cases hr
  | cons s rs ih =>
    rw [firstOf]
    split
    · rfl
    · next hnone =>
      rcases List.mem_cons.1 hr with rfl | hr
      · rw [hnone] at h
        cases h
      · exact ih hr

end HiccupReader.Matching.Recogniser

namespace HiccupReader.Clojure

open Matching Recogniser Text

variable {k : TokenKind} {cs more rest : List Char} {ts : List Token} {c stop : Cursor}

theorem parted_front (cs rest : List Char) : Parted (cs ++ rest) cs := by
  have hend : Apart [] := fun _ h => by cases h
  have hparted : Parted (cs ++ rest) (cs ++ []) := (Parted.here hend).append cs
  rwa [List.append_nil] at hparted

theorem symbolText_firm : symbolText.Firm :=
  pair_firm (oneOf_exact (by decide)) (run_total _).firm

/-- The kinds whose tokens hold no separator and do not look at what stands behind them. A keyword
is one of them too, but its second colon is never given back. -/
theorem lexeme_firm (hk : k ∉ [TokenKind.nil, .boolean, .keyword])
    (hquoting : k ∉ quotingKinds) : k.lexeme.Firm := by
  have named : (inOrder [word ['#', ':'], run isSymbolChar]).Firm :=
    pair_firm (word_exact (by decide)) (run_total _).firm
  have tagged : (inOrder [word ['#'], symbolText]).Firm :=
    pair_firm (word_exact (by decide)) symbolText_firm
  have values : (inOrder [word ['#', '#'],
      firstOf [word ['I', 'n', 'f'], word ['-', 'I', 'n', 'f'], word ['N', 'a', 'N']]]).Firm :=
    pair_firm (word_exact (by decide)) (firstOf_firm (by simp +decide [word_firm]))
  cases k with
  | number => exact number_firm
  | nil | boolean | keyword => exact absurd (by decide) hk
  | character | string | regex => exact absurd (by decide) hquoting
  | _ =>
    simp +decide [TokenKind.lexeme, word_firm, firstOf_firm, named, tagged, values,
      symbolText_firm]

theorem keyword_isSome_iff : (TokenKind.keyword.lexeme cs).isSome ↔ ∃ w d left,
    cs = ':' :: (w ++ d :: left) ∧ (w = [':'] ∨ w = [] ∧ d ≠ ':') ∧ isSymbolChar d = true := by
  rw [TokenKind.lexeme, Option.isSome_iff_exists]
  constructor
  · rintro ⟨⟨taken, left⟩, h⟩
    obtain ⟨_, mid, _, hmark, hrest, -⟩ := inOrder_cons_eq_some_iff.1 h
    obtain ⟨-, rfl⟩ := word_eq_some_iff.1 hmark
    obtain ⟨second, _, _, hsecond, hname, -⟩ := inOrder_cons_eq_some_iff.1 hrest
    obtain ⟨name, hname⟩ := begins_of_inOrder hname
    obtain ⟨d, hd, -, rfl⟩ := oneOf_eq_some_iff.1 hname
    rcases optional_eq_some_iff.1 hsecond with hcolon | ⟨hnone, hmid⟩
    · obtain ⟨-, rfl⟩ := word_eq_some_iff.1 hcolon
      exact ⟨[':'], d, name.2, rfl, .inl rfl, hd⟩
    · obtain ⟨-, rfl⟩ := Prod.mk.inj hmid
      refine ⟨[], d, name.2, rfl, .inr ⟨rfl, ?_⟩, hd⟩
      rintro rfl
      simp [word] at hnone
  · rintro ⟨w, d, left, rfl, hw, hd⟩
    have hmark : word [':'] (':' :: (w ++ d :: left)) = some ([':'], w ++ d :: left) :=
      word_eq_some_iff.2 ⟨rfl, rfl⟩
    have hcolon : (optional (word [':'])) (w ++ d :: left) = some (w, d :: left) := by
      rcases hw with rfl | ⟨rfl, hne⟩
      · exact optional_eq_some_iff.2 (.inl (word_eq_some_iff.2 ⟨rfl, rfl⟩))
      · exact optional_eq_some_iff.2 (.inr ⟨by simp [word, Ne.symm hne], rfl⟩)
    simp [inOrder, hmark, hcolon, oneOf, hd, run]

theorem character_isSome_iff :
    (TokenKind.character.lexeme cs).isSome ↔ ∃ d left, cs = '\\' :: d :: left := by
  rw [TokenKind.lexeme, Option.isSome_iff_exists]
  constructor
  · rintro ⟨⟨taken, left⟩, h⟩
    obtain ⟨_, mid, more, hmark, hbody, -⟩ := inOrder_cons_eq_some_iff.1 h
    obtain ⟨-, rfl⟩ := word_eq_some_iff.1 hmark
    cases mid with
    | nil => simp [characterBody, inOrder, firstOf, word, oneOf] at hbody
    | cons d mid => exact ⟨d, mid, rfl⟩
  · rintro ⟨d, left, rfl⟩
    have hmark : word ['\\'] ('\\' :: d :: left) = some (['\\'], d :: left) :=
      word_eq_some_iff.2 ⟨rfl, rfl⟩
    have hbody : (characterBody (d :: left)).isSome := by
      refine isSome_firstOf (r := oneOf fun _ => true) ?_ rfl
      simp
    obtain ⟨found, hfound⟩ := Option.isSome_iff_exists.1 hbody
    simp [inOrder, hmark, hfound]

theorem symbol_isSome_of_word (hk : k ∈ [TokenKind.nil, .boolean])
    (h : (k.lexeme cs).isSome) : (TokenKind.symbol.lexeme cs).isSome := by
  have opens : ∀ {e w}, isSymbolHead e = true → (symbolText (e :: w)).isSome := by
    intro e w he
    simp [symbolText, inOrder, oneOf, run, he]
  obtain ⟨⟨taken, left⟩, hcut⟩ := Option.isSome_iff_exists.1 h
  rcases List.mem_pair.1 hk with rfl | rfl
  · obtain ⟨-, rfl⟩ := word_eq_some_iff.1 (notBefore_eq_some_iff.1 hcut).1
    exact opens (by decide)
  · rcases begins_of_firstOf_words (notBefore_eq_some_iff.1 hcut).1 with ⟨_, rfl⟩ | ⟨_, rfl⟩
    · exact opens (by decide)
    · exact opens (by decide)

theorem exists_lexeme_append (h : (k.lexeme cs).isSome) (rest : List Char) :
    ∃ j : TokenKind, (j.lexeme (cs ++ rest)).isSome := by
  have hfront := parted_front cs rest
  cases k with
  | nil | boolean =>
    -- What comes next may make the word the front part of a symbol.
    exact ⟨.symbol, symbolText_firm _ _ hfront (symbol_isSome_of_word (by decide) h)⟩
  | string | regex =>
    obtain ⟨⟨taken, left⟩, hcut⟩ := Option.isSome_iff_exists.1 h
    obtain rfl := TokenKind.lexeme_cuts _ _ _ _ hcut
    rw [List.append_assoc]
    exact ⟨_, by rw [lexeme_append_of_quoted (by decide) hcut]; rfl⟩
  | keyword =>
    obtain ⟨w, d, left, rfl, hw, hd⟩ := keyword_isSome_iff.1 h
    exact ⟨.keyword, keyword_isSome_iff.2 ⟨w, d, left ++ rest, by simp, hw, hd⟩⟩
  | character =>
    obtain ⟨d, left, rfl⟩ := character_isSome_iff.1 h
    exact ⟨.character, character_isSome_iff.2 ⟨d, left ++ rest, rfl⟩⟩
  | _ => exact ⟨_, lexeme_firm (by decide) (by decide) _ _ hfront h⟩

theorem Barren.of_append (h : Barren (cs ++ rest)) : Barren cs := by
  intro k
  by_contra hne
  obtain ⟨j, hj⟩ := exists_lexeme_append (Option.isSome_iff_ne_none.2 hne) rest
  rw [h j] at hj
  cases hj

theorem opensComment_append (h : opensComment cs = true) (rest : List Char) :
    opensComment (cs ++ rest) = true := by
  rcases (opensComment_iff cs).1 h with ⟨ds, rfl⟩ | ⟨ds, rfl⟩
  · rfl
  · rfl

theorem settled_of_append {n : Nat} (h : Settled ⟨n, cs ++ rest⟩) : Settled ⟨n, cs⟩ := by
  rw [settled_iff] at h ⊢
  cases cs with
  | nil => rfl
  | cons d cs =>
    obtain ⟨hblank, hmark⟩ := splitTrivia_cons_iff.1 h
    refine splitTrivia_cons_iff.2 ⟨hblank, ?_⟩
    rw [← Bool.not_eq_true] at hmark ⊢
    exact fun hopens => hmark (opensComment_append hopens rest)

namespace LexedUpTo

variable {before : List Char} {text front back : String}

theorem exists_cut_off (h : LexedUpTo c ts stop) (hrest : (skipTrivia stop).rest = more ++ rest)
    (hne : (skipTrivia stop).rest ≠ []) (hbefore : before ++ (more ++ rest) = c.rest) :
    ∃ d, LexedUpTo ⟨c.offset, before ++ more⟩ ts d ∧
      skipTrivia d = ⟨(skipTrivia stop).offset, more⟩ := by
  obtain ⟨w, hw, -⟩ := h.spells.reaches
  obtain ⟨gap, hgap⟩ : ∃ gap, (splitTrivia false stop.rest).1 = gap := ⟨_, rfl⟩
  have hstop : stop.rest = gap ++ (more ++ rest) := by
    rw [← hgap, ← hrest]
    exact (splitTrivia_append false stop.rest).symm
  obtain rfl : w ++ gap = before := by
    rw [hstop, ← hbefore, ← List.append_assoc] at hw
    exact List.append_cancel_right hw
  have htrivia : Trivia False gap := by
    rw [← hgap]
    exact (trivia_splitTrivia stop.rest).mono hne
  have hsettled : Settled ⟨stop.offset + byteLength gap, more ++ rest⟩ := by
    have hskip := settled_skipTrivia stop
    rw [skipTrivia, hgap] at hskip
    rwa [← hrest]
  have hskip : skipTrivia ⟨stop.offset, gap ++ more⟩ = ⟨(skipTrivia stop).offset, more⟩ := by
    rw [skipTrivia_gap htrivia, settled_of_append hsettled, ← hgap]
    rfl
  have hparted : Parted stop.rest (gap ++ more) := by
    rw [hstop, ← List.append_assoc]
    exact parted_front _ _
  refine ⟨⟨stop.offset, gap ++ more⟩, ⟨?_, ?_⟩, hskip⟩
  · rw [List.append_assoc]
    exact h.spells.exchange_preferred hparted hw.symm
  · have hbarren := h.barren
    rw [hrest] at hbarren
    rw [hskip]
    exact hbarren.of_append

theorem exists_of_front (h : LexedUpTo (.start text.toList) ts stop)
    (hne : (skipTrivia stop).rest ≠ []) (htext : text = front ++ back)
    (hle : (skipTrivia stop).offset ≤ front.utf8ByteSize) :
    ∃ more d, front.utf8ByteSize = (skipTrivia stop).offset + byteLength more ∧
      LexedUpTo (.start front.toList) ts d ∧ skipTrivia d = ⟨(skipTrivia stop).offset, more⟩ := by
  obtain ⟨before, hbefore, hoffset⟩ := h.spells.reaches.trans (reaches_skipTrivia stop)
  have hplace : (skipTrivia stop).offset = byteLength before := hoffset.trans (Nat.zero_add _)
  have hsplit : before ++ (skipTrivia stop).rest = front.toList ++ back.toList := by
    rw [hbefore, ← String.toList_append, ← htext]
    rfl
  obtain ⟨more, hfront, hrest⟩ : ∃ more, front.toList = before ++ more ∧
      (skipTrivia stop).rest = more ++ back.toList := by
    rcases List.append_eq_append_iff.1 hsplit with hlonger | ⟨mid, hmid, hback⟩
    · exact hlonger
    · -- The front part is no shorter, so that nothing stands between its end and the place.
      have hsize : front.utf8ByteSize + byteLength mid = byteLength before := by
        rw [hmid, byteLength_append, byteLength_toList]
      obtain rfl : mid = [] := byteLength_eq_zero_iff.1 (by omega)
      rw [List.append_nil] at hmid
      exact ⟨[], by rw [hmid, List.append_nil], hback.symm⟩
  obtain ⟨d, hcut, hd⟩ := h.exists_cut_off hrest hne (hrest ▸ hbefore)
  refine ⟨more, d, ?_, ?_, hd⟩
  · rw [← byteLength_toList, hfront, byteLength_append, hplace]
  · rw [hfront]
    exact hcut

theorem exists_front (h : LexedUpTo (.start text.toList) ts stop)
    (hne : (skipTrivia stop).rest ≠ []) : ∃ front back, text = front ++ back ∧
      front.utf8ByteSize = (skipTrivia stop).offset ∧ lex front = .ok ts := by
  obtain ⟨before, hbefore, hplace⟩ := h.spells.reaches.trans (reaches_skipTrivia stop)
  have htext : text = String.ofList before ++ String.ofList (skipTrivia stop).rest := by
    rw [← String.ofList_append, hbefore]
    exact String.ofList_toList.symm
  have hsize : (String.ofList before).utf8ByteSize = (skipTrivia stop).offset := by
    rw [← byteLength_toList, String.toList_ofList, hplace]
    exact (Nat.zero_add _).symm
  obtain ⟨more, d, hmore, hcut, hd⟩ := h.exists_of_front hne htext (Nat.le_of_eq hsize.symm)
  obtain rfl : more = [] := byteLength_eq_zero_iff.1 (by omega)
  exact ⟨_, _, htext, hsize, lex_of_spells hcut.spells (by rw [hd])⟩

end LexedUpTo

/-- The lexer refuses a text where its longest front part ends that it accepts. All the longer ones
are refused there too. -/
theorem lex_error_at_longest_front (source : Source) (error : SyntaxError)
    (h : lex source.text = .error error) :
    ∃ p, (error.diagnostic source).span? = some ⟨p, p + 1⟩ ∧ p < source.text.utf8ByteSize ∧
      (∃ front back tokens, source.text = front ++ back ∧ front.utf8ByteSize = p ∧
        lex front = .ok tokens) ∧
      ∀ front back, source.text = front ++ back → p < front.utf8ByteSize →
        ∃ error', lex front = .error error' ∧
          ∀ name, (error'.diagnostic ⟨name, front⟩).span? = some ⟨p, p + 1⟩ := by
  obtain ⟨ts, stop, frontier, hlexed, hne, rfl, hoffset⟩ := exists_lexedUpTo_of_error h
  have hspan := span?_of_lexedUpTo hlexed hne hoffset source.name
  refine ⟨(skipTrivia stop).offset, hspan, ?_, ?_, ?_⟩
  · obtain ⟨span, hspan', -, hle, -⟩ := (fits_of_lex_error h).pointsInto.place
    obtain rfl := Option.some.inj (hspan.symm.trans hspan')
    exact hle
  · obtain ⟨front, back, htext, hsize, hlex⟩ := hlexed.exists_front hne
    exact ⟨front, back, ts, htext, hsize, hlex⟩
  · intro front back htext hlt
    obtain ⟨more, d, hsize, hfront, hd⟩ := hlexed.exists_of_front hne htext (Nat.le_of_lt hlt)
    have hmore : (skipTrivia d).rest ≠ [] := by
      rw [hd]
      rintro rfl
      rw [hsize] at hlt
      exact Nat.lt_irrefl _ hlt
    obtain ⟨frontier', herror, hoffset'⟩ := hfront.exists_error hmore
    refine ⟨_, herror, fun name => ?_⟩
    rw [span?_of_lexedUpTo hfront hmore hoffset' name, hd]

theorem lex_error_at_open_quote : ∃ error, lex "[é \"b\\n" = .error error ∧
    ∃ p, (error.diagnostic ⟨"a", "[é \"b\\n"⟩).span? = some ⟨p, p + 1⟩ ∧
      p < "[é \"b\\n".utf8ByteSize ∧
      (∃ front back tokens, "[é \"b\\n" = front ++ back ∧ front.utf8ByteSize = p ∧
        lex front = .ok tokens) ∧
      ∀ front back, "[é \"b\\n" = front ++ back → p < front.utf8ByteSize →
        ∃ error', lex front = .error error' ∧
          ∀ name, (error'.diagnostic ⟨name, front⟩).span? = some ⟨p, p + 1⟩ := by
  have hplace : misfit? (lex "[é \"b\\n") = some 4 := by decide +kernel
  obtain ⟨frontier, hlex, -⟩ := exists_unexpected_of_misfit? hplace
  exact ⟨_, hlex, lex_error_at_longest_front ⟨"a", "[é \"b\\n"⟩ _ hlex⟩

end HiccupReader.Clojure
