import HiccupReader.Proofs.Clojure.Separation

/-! Tokens that are put apart. A token is read again where something else stands behind it, and it
is what the lexer prefers there if it was before. -/

namespace HiccupReader.Clojure

open Matching Recogniser

theorem numberTail_of_stop {cs : List Char} (h : cs.head?.any isNumberChar = false) :
    numberTail cs = some ([], cs) := by
  have exponent : ∀ c, isNumberChar c = false → (c == 'e' || c == 'E') = false := by
    intro c hc
    by_contra hne
    simp only [Bool.not_eq_false, Bool.or_eq_true, beq_iff_eq] at hne
    rcases hne with rfl | rfl <;> revert hc <;> decide
  fun_cases numberTail cs with
  | case1 => rfl
  | case2 c hc => simp_all
  | case3 => rfl
  | case4 c d cs hexp => simp_all
  | case5 => simp_all
  | case6 => rfl

theorem numberTail_cons {c : Char} {cs : List Char} (hc : isNumberChar c = true)
    (hexp : ((c == 'e' || c == 'E') && cs.head?.any isSign) = false) :
    numberTail (c :: cs) = (numberTail cs).map fun (taken, left) => (c :: taken, left) := by
  cases cs with
  | nil => simp [numberTail, hc]
  | cons d cs =>
    rw [List.head?_cons, Option.any_some] at hexp
    rw [numberTail, hexp, hc]
    rfl

theorem numberTail_stable : Stable numberTail := by
  intro taken left left' h hparted
  generalize hcs : taken ++ left = cs at h
  fun_induction numberTail cs generalizing taken with
  | case1 =>
    obtain ⟨rfl, rfl⟩ := List.append_eq_nil_iff.1 hcs
    exact numberTail_of_stop (hparted.any_eq_false (by decide) rfl)
  | case2 c hc =>
    obtain ⟨rfl, rfl⟩ := Prod.mk.inj (Option.some.inj h)
    have hsign : left'.head?.any isSign = false := hparted.any_eq_false (by decide) rfl
    rw [List.singleton_append, numberTail_cons hc (by simp [hsign]),
      numberTail_of_stop (hparted.any_eq_false (by decide) rfl)]
    rfl
  | case3 c hc =>
    obtain ⟨rfl, rfl⟩ := Prod.mk.inj (Option.some.inj h)
    exact numberTail_of_stop (hparted.any_eq_false (by decide) (by simpa using hc))
  | case4 c d cs hexp ih =>
    obtain ⟨⟨more, rest⟩, hmore, he⟩ := Option.map_eq_some_iff.1 h
    obtain ⟨rfl, rfl⟩ := Prod.mk.inj he
    have hrest := ih more (by simpa using hcs) hmore
    rw [List.cons_append, List.cons_append, numberTail, if_pos hexp, hrest]
    rfl
  | case5 c d cs hexp hc ih =>
    obtain ⟨⟨more, rest⟩, hmore, he⟩ := Option.map_eq_some_iff.1 h
    obtain ⟨rfl, rfl⟩ := Prod.mk.inj he
    have htext : more ++ rest = d :: cs := by simpa using hcs
    have hrest := ih more htext hmore
    have hsign : ((c == 'e' || c == 'E') && (more ++ left').head?.any isSign) = false := by
      cases hexponent : c == 'e' || c == 'E' with
      | false => rfl
      | true =>
        have hhead : (more ++ rest).head?.any isSign = false := by
          rw [htext]
          simpa [hexponent] using hexp
        exact (hparted.append more).any_eq_false (by decide) hhead
    rw [List.cons_append, numberTail_cons hc hsign, hrest]
    rfl
  | case6 c d cs _ hc =>
    obtain ⟨rfl, rfl⟩ := Prod.mk.inj (Option.some.inj h)
    exact numberTail_of_stop (hparted.any_eq_false (by decide) (by simpa using hc))

theorem stringTail_takes : Takes stringTail := by
  intro cs taken left h
  fun_induction stringTail cs generalizing taken with
  | case1 | case3 => cases h
  | case2 | case4 =>
    obtain ⟨rfl, -⟩ := Prod.mk.inj (Option.some.inj h)
    exact List.cons_ne_nil _ _
  | case5 | case6 =>
    obtain ⟨found, -, he⟩ := Option.map_eq_some_iff.1 h
    obtain ⟨rfl, -⟩ := Prod.mk.inj he
    exact List.cons_ne_nil _ _

theorem stringTail_append {taken left : List Char}
    (h : stringTail (taken ++ left) = some (taken, left)) (left' : List Char) :
    stringTail (taken ++ left') = some (taken, left') := by
  generalize hcs : taken ++ left = cs at h
  fun_induction stringTail cs generalizing taken with
  | case1 | case3 => cases h
  | case2 c hc | case4 c _ _ hc =>
    obtain ⟨rfl, rfl⟩ := Prod.mk.inj (Option.some.inj h)
    cases left' with
    | nil => simp [stringTail, hc]
    | cons e es => simp [stringTail, hc]
  | case5 c d cs hquote hescape ih =>
    obtain ⟨⟨more, rest⟩, hmore, he⟩ := Option.map_eq_some_iff.1 h
    obtain ⟨rfl, rfl⟩ := Prod.mk.inj he
    have hrest := ih (by simpa using hcs) hmore
    rw [List.cons_append, List.cons_append, stringTail, if_neg hquote, if_pos hescape, hrest]
    rfl
  | case6 c d cs hquote hescape ih =>
    obtain ⟨⟨more, rest⟩, hmore, he⟩ := Option.map_eq_some_iff.1 h
    obtain ⟨rfl, rfl⟩ := Prod.mk.inj he
    have hrest := ih (by simpa using hcs) hmore
    obtain ⟨e, es, rfl⟩ := List.exists_cons_of_ne_nil (stringTail_takes _ _ _ hmore)
    rw [List.cons_append, List.cons_append, stringTail, if_neg hquote, if_neg hescape,
      ← List.cons_append, hrest]
    rfl

theorem stringTail_stable : Stable stringTail :=
  fun _ _ left' h _ => stringTail_append h left'

theorem symbolText_stable : symbolText.Stable := by
  apply inOrder_stable
  simp +decide [oneOf_cuts, run_cuts, oneOf_stable, run_stable]

theorem characterBody_stable : characterBody.Stable := by
  have hex : (oneOf isHexDigit).Exact := oneOf_exact (by decide)
  have octal : (oneOf isOctalDigit).Exact := oneOf_exact (by decide)
  have digit : (optional (oneOf isOctalDigit)).Cuts ∧ (optional (oneOf isOctalDigit)).Stable :=
    ⟨optional_cuts (oneOf_cuts _), optional_stable (oneOf_stable _) octal.firm⟩
  have numeral : (inOrder [word ['u'], oneOf isHexDigit, oneOf isHexDigit, oneOf isHexDigit,
      oneOf isHexDigit]).Firm := by
    apply inOrder_firm [_, _, _, _, _] []
    · simp +decide [hex, word_exact]
    · exact (inOrder_total (by simp)).firm
  have octalNumeral : (inOrder [word ['o'], oneOf isOctalDigit, optional (oneOf isOctalDigit),
      optional (oneOf isOctalDigit)]).Firm := by
    apply inOrder_firm [_, _] [_, _]
    · simp +decide [octal, word_exact]
    · exact (inOrder_total (by simp [optional_total])).firm
  apply firstOf_stable
  · simp [word_stable, oneOf_stable, inOrder_stable, word_cuts, oneOf_cuts, digit]
  · simp +decide [word_firm, numeral, octalNumeral]

theorem TokenKind.lexeme_stable (k : TokenKind) : k.lexeme.Stable := by
  have sign : (oneOf isSign).Firm := (oneOf_exact (by decide)).firm
  have colon : (optional (word [':'])).Cuts ∧ (optional (word [':'])).Stable :=
    ⟨optional_cuts (word_cuts _), optional_stable (word_stable _) (word_firm (by decide))⟩
  have booleans : (firstOf [word ['t', 'r', 'u', 'e'], word ['f', 'a', 'l', 's', 'e']]).Stable := by
    apply firstOf_stable <;> simp +decide [word_stable, word_firm]
  have values : (firstOf
      [word ['I', 'n', 'f'], word ['-', 'I', 'n', 'f'], word ['N', 'a', 'N']]).Stable := by
    apply firstOf_stable <;> simp +decide [word_stable, word_firm]
  cases k <;>
    simp +decide [lexeme, firstOf_stable, inOrder_stable, optional_stable, notBefore_stable,
      word_stable, oneOf_stable, run_stable, symbolText_stable, characterBody_stable,
      numberTail_stable, stringTail_stable, firstOf_cuts, optional_cuts, word_cuts, oneOf_cuts,
      run_cuts, symbolText_cuts, characterBody_cuts, numberTail_cuts, stringTail_cuts, word_firm,
      sign, colon, booleans, values]

theorem numberTail_total : Total numberTail := by
  intro cs
  fun_induction numberTail cs with
  | case1 | case2 | case3 | case6 => rfl
  | case4 c d cs _ ih | case5 c d cs _ _ ih => rwa [Option.isSome_map]

theorem isSign_of_isDigit {c : Char} (h : c.isDigit = true) : isSign c = false := by
  by_contra hsign
  simp only [isSign, Bool.not_eq_false, Bool.or_eq_true, beq_iff_eq] at hsign
  rcases hsign with rfl | rfl <;> revert h <;> decide

theorem number_isSome_iff {cs : List Char} :
    (TokenKind.number.lexeme cs).isSome ↔ ∃ w d left, cs = w ++ d :: left ∧
      (w = [] ∨ ∃ c, isSign c = true ∧ w = [c]) ∧ d.isDigit = true := by
  rw [TokenKind.lexeme, Option.isSome_iff_exists]
  constructor
  · rintro ⟨⟨taken, left⟩, h⟩
    obtain ⟨first, mid, more, hsign, hrest, -⟩ := inOrder_cons_eq_some_iff.1 h
    obtain ⟨digits, htext⟩ := begins_of_inOrder hrest
    obtain ⟨d, hd, -, rfl⟩ := oneOf_eq_some_iff.1 htext
    rcases optional_eq_some_iff.1 hsign with hfirst | ⟨-, hnone⟩
    · obtain ⟨c, hc, -, rfl⟩ := oneOf_eq_some_iff.1 hfirst
      exact ⟨[c], d, digits.2, rfl, .inr ⟨c, hc, rfl⟩, hd⟩
    · obtain ⟨-, rfl⟩ := Prod.mk.inj hnone
      exact ⟨[], d, digits.2, rfl, .inl rfl, hd⟩
  · rintro ⟨w, d, left, rfl, hw, hd⟩
    obtain ⟨⟨more, rest⟩, hmore⟩ := Option.isSome_iff_exists.1 (numberTail_total left)
    have hsign : (optional (oneOf isSign)) (w ++ d :: left) = some (w, d :: left) := by
      rcases hw with rfl | ⟨c, hc, rfl⟩
      · exact optional_eq_some_iff.2 (.inr ⟨by simp [oneOf, isSign_of_isDigit hd], rfl⟩)
      · exact optional_eq_some_iff.2 (.inl (oneOf_eq_some_iff.2 ⟨c, hc, rfl, rfl⟩))
    simp [inOrder, hsign, oneOf, hd, hmore]

theorem number_firm : TokenKind.number.lexeme.Firm := by
  intro cs cs' hparted hsome
  obtain ⟨w, d, left', rfl, hw, hd⟩ := number_isSome_iff.1 hsome
  have hsigns : Spares isSign := by decide
  have hdigits : Spares Char.isDigit := by decide
  have hnone : Solid (w ++ [d]) := by
    intro c hc hmem
    rcases List.mem_append.1 hmem with hmem | hmem
    · rcases hw with rfl | ⟨e, he, rfl⟩
      · cases hmem
      · obtain rfl := List.mem_singleton.1 hmem
        rw [hsigns _ hc] at he
        cases he
    · obtain rfl := List.mem_singleton.1 hmem
      rw [hdigits _ hc] at hd
      cases hd
  rw [List.append_cons] at hparted
  obtain ⟨left, rfl, -⟩ := hparted.of_append hnone
  exact number_isSome_iff.2 ⟨w, d, left, by simp, hw, hd⟩

theorem eq_of_firstOf_words {v w cs taken left : List Char}
    (h : firstOf [word v, word w] cs = some (taken, left)) : taken = v ∨ taken = w := by
  rcases firstOf_cons_eq_some_iff.1 h with hv | ⟨-, hrest⟩
  · exact .inl (word_eq_some_iff.1 hv).1
  · rcases firstOf_cons_eq_some_iff.1 hrest with hw | ⟨-, hnone⟩
    · exact .inr (word_eq_some_iff.1 hw).1
    · cases hnone

theorem isSymbolChar_of_head {c : Char} (h : isSymbolHead c = true) : isSymbolChar c = true := by
  rw [isSymbolHead, Bool.and_eq_true] at h
  exact h.1

theorem inOrder_single (r : Recogniser) : inOrder [r] = r := by
  funext cs
  cases h : r cs with
  | none => simp [inOrder, h]
  | some found => simp [inOrder, h]

theorem symbolText_eq_some_iff {taken left : List Char} :
    symbolText (taken ++ left) = some (taken, left) ↔
      (∃ c ∈ taken.head?, isSymbolHead c = true) ∧
        run isSymbolChar (taken ++ left) = some (taken, left) := by
  rw [symbolText, inOrder_cons_eq_some_iff, inOrder_single, run_eq_some_iff]
  constructor
  · rintro ⟨first, mid, more, hfirst, hrun, rfl⟩
    obtain ⟨c, hc, rfl, he⟩ := oneOf_eq_some_iff.1 hfirst
    obtain rfl : more ++ left = mid := by simpa using he
    obtain ⟨hmore, hleft⟩ := run_eq_some_iff.1 hrun
    exact ⟨⟨c, rfl, hc⟩, List.forall_mem_cons.2 ⟨isSymbolChar_of_head hc, hmore⟩, hleft⟩
  · rintro ⟨⟨c, hhead, hc⟩, hall, hleft⟩
    obtain ⟨cs, rfl⟩ := List.head?_eq_some_iff.1 hhead
    have hrun := run_eq_some_iff.2 ⟨(List.forall_mem_cons.1 hall).2, hleft⟩
    exact ⟨[c], cs ++ left, cs, oneOf_eq_some_iff.2 ⟨c, hc, rfl, rfl⟩, hrun, rfl⟩

theorem run_of_word {k : TokenKind} (hk : k ∈ [TokenKind.nil, .boolean, .symbol])
    {taken left : List Char} (h : k.lexeme (taken ++ left) = some (taken, left)) :
    run isSymbolChar (taken ++ left) = some (taken, left) := by
  simp only [List.mem_cons, List.not_mem_nil, or_false] at hk
  rcases hk with rfl | rfl | rfl
  · obtain ⟨hword, hleft⟩ := notBefore_eq_some_iff.1 h
    obtain ⟨rfl, -⟩ := word_eq_some_iff.1 hword
    exact run_eq_some_iff.2 ⟨List.all_eq_true.1 (by decide), hleft⟩
  · obtain ⟨hword, hleft⟩ := notBefore_eq_some_iff.1 h
    rcases eq_of_firstOf_words hword with rfl | rfl
    · exact run_eq_some_iff.2 ⟨List.all_eq_true.1 (by decide), hleft⟩
    · exact run_eq_some_iff.2 ⟨List.all_eq_true.1 (by decide), hleft⟩
  · exact (symbolText_eq_some_iff.1 h).2

theorem word_isSome_of_run {k p : TokenKind} {taken left left' : List Char}
    (hk : k ∈ [TokenKind.nil, .boolean, .symbol]) (hp : p ∈ [TokenKind.nil, .boolean])
    (hcut : k.lexeme (taken ++ left) = some (taken, left)) (hparted : Parted left left')
    (hsome : (p.lexeme (taken ++ left')).isSome) : (p.lexeme (taken ++ left)).isSome := by
  obtain ⟨⟨word, rest⟩, hword⟩ := Option.isSome_iff_exists.1 hsome
  have hrun := run_of_word hk (k.lexeme_stable taken left left' hcut hparted)
  have hcuts : word ++ rest = taken ++ left' := p.lexeme_cuts _ _ _ hword
  rw [← hcuts] at hword hrun
  have hpwords : p ∈ [TokenKind.nil, .boolean, .symbol] :=
    List.mem_append_left [TokenKind.symbol] hp
  rw [run_of_word hpwords hword] at hrun
  obtain ⟨rfl, rfl⟩ := Prod.mk.inj (Option.some.inj hrun)
  obtain ⟨-, hleft⟩ := run_eq_some_iff.1 (run_of_word hk hcut)
  simp only [List.mem_cons, List.not_mem_nil, or_false] at hp
  rcases hp with rfl | rfl
  · obtain ⟨rfl, -⟩ := word_eq_some_iff.1 (notBefore_eq_some_iff.1 hword).1
    rw [TokenKind.lexeme, notBefore_eq_some_iff.2 ⟨word_eq_some_iff.2 ⟨rfl, rfl⟩, hleft⟩]
    rfl
  · rcases eq_of_firstOf_words (notBefore_eq_some_iff.1 hword).1 with rfl | rfl
    · rw [TokenKind.lexeme, notBefore_eq_some_iff.2 ⟨rfl, hleft⟩]
      rfl
    · rw [TokenKind.lexeme, notBefore_eq_some_iff.2 ⟨rfl, hleft⟩]
      rfl

namespace TokenKind.Preferred

theorem of_parted {k : TokenKind} {taken left left' : List Char}
    (hk : k.Preferred (taken ++ left)) (hcut : k.lexeme (taken ++ left) = some (taken, left))
    (hleft : Parted left left') : k.Preferred (taken ++ left') := by
  have hparted : Parted (taken ++ left) (taken ++ left') := hleft.append taken
  have hstable := k.lexeme_stable taken left left' hcut hleft
  obtain ⟨p, hp⟩ := exists_preferred (k := k) (by rw [hstable]; rfl)
  rcases hp.eq_or_mem_rivals (by rw [hstable]; rfl) with rfl | hrival
  · exact hp
  have before : (p.lexeme (taken ++ left)).isSome := by
    cases p with
    | readerConditional =>
      exact firstOf_firm (by simp +decide [word_firm]) _ _ hparted hp.accepts
    | discard | unquoteSplicing => exact word_firm (by decide) _ _ hparted hp.accepts
    | number => exact number_firm _ _ hparted hp.accepts
    | nil =>
      refine word_isSome_of_run ?_ (by decide) hcut hleft hp.accepts
      simp_all [TokenKind.rivals]
    | boolean =>
      refine word_isSome_of_run ?_ (by decide) hcut hleft hp.accepts
      simp_all [TokenKind.rivals]
    | _ => cases hrival
  rw [hk.earlier p (before_of_mem_rivals p k hrival)] at before
  cases before

end TokenKind.Preferred

theorem TokenKind.lexeme_ne_hash {k : TokenKind} {left : List Char} :
    k.lexeme ('#' :: left) ≠ some (['#'], left) := by
  intro hcut
  have hend : Apart [] := fun _ h => by cases h
  have hstable := k.lexeme_stable ['#'] left [] hcut (.here hend)
  exact absurd (lexeme_mem_candidates hstable) List.not_mem_nil

theorem splitTrivia_of_lexeme {k : TokenKind} {taken left : List Char}
    (hcut : k.lexeme (taken ++ left) = some (taken, left))
    (h : (splitTrivia false (taken ++ left)).2 = taken ++ left) (left' : List Char) :
    (splitTrivia false (taken ++ left')).2 = taken ++ left' := by
  obtain ⟨c, cs, rfl⟩ := List.exists_cons_of_ne_nil (k.lexeme_takes _ _ _ hcut)
  obtain ⟨hblank, hmark⟩ := splitTrivia_cons_iff.1 h
  refine splitTrivia_cons_iff.2 ⟨hblank, ?_⟩
  by_contra hopens
  rcases (opensComment_iff _).1 (Bool.not_eq_false _ ▸ hopens) with ⟨ds, he⟩ | ⟨ds, he⟩
  · obtain ⟨rfl, -⟩ := List.cons.inj he
    cases hmark
  · obtain ⟨rfl, hrest⟩ := List.cons.inj he
    cases cs with
    | nil => exact TokenKind.lexeme_ne_hash hcut
    | cons d cs =>
      obtain ⟨rfl, -⟩ := List.cons.inj hrest
      cases hmark

end HiccupReader.Clojure
