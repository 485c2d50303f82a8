import HiccupReader.Proofs.Clojure.Relexing

/-! Texts that are the same up to a delimiter. What the lexer prefers in front of it does not depend
on what comes behind, unless a token runs over the delimiter. -/

namespace HiccupReader.Matching.Recogniser

def Holds (p : Char → Bool) (r : Recogniser) : Prop :=
  ∀ cs taken left, r cs = some (taken, left) → ∀ c ∈ taken, p c = true

variable {p : Char → Bool}

theorem word_holds {w : List Char} (h : w.all p = true) : (word w).Holds p := by
  intro cs taken left hw
  rw [(word_eq_some_iff.1 hw).1]
  exact List.all_eq_true.1 h

theorem oneOf_holds {q : Char → Bool} (h : ∀ c, q c = true → p c = true) : (oneOf q).Holds p := by
  intro cs taken left hq
  obtain ⟨c, hc, rfl, -⟩ := oneOf_eq_some_iff.1 hq
  exact List.forall_mem_singleton.2 (h c hc)

theorem run_holds : (run p).Holds p := by
  intro cs taken left h
  rw [← run_cuts p cs taken left h] at h
  exact (run_eq_some_iff.1 h).1

theorem exists_of_firstOf {rs : List Recogniser} {cs : List Char} {found : List Char × List Char}
    (h : firstOf rs cs = some found) : ∃ r ∈ rs, r cs = some found := by
  induction rs with
  | nil => cases h
  | cons r rs ih =>
    rcases firstOf_cons_eq_some_iff.1 h with hfirst | ⟨-, hrest⟩
    · exact ⟨r, List.mem_cons_self .., hfirst⟩
    · obtain ⟨s, hs, hfound⟩ := ih hrest
      exact ⟨s, List.mem_cons_of_mem _ hs, hfound⟩

theorem firstOf_holds {rs : List Recogniser} (h : ∀ r ∈ rs, r.Holds p) : (firstOf rs).Holds p := by
  intro cs taken left hfound
  obtain ⟨r, hr, hcut⟩ := exists_of_firstOf hfound
  exact h r hr cs taken left hcut

theorem inOrder_holds {rs : List Recogniser} (h : ∀ r ∈ rs, r.Holds p) : (inOrder rs).Holds p := by
  induction rs with
  | nil =>
    intro cs taken left hf
    obtain ⟨rfl, -⟩ := Prod.mk.inj (Option.some.inj hf)
    simp
  | cons r rs ih =>
    obtain ⟨hr, hrs⟩ := List.forall_mem_cons.1 h
    intro cs taken left hf
    obtain ⟨first, mid, more, hfirst, hmore, rfl⟩ := inOrder_cons_eq_some_iff.1 hf
    exact List.forall_mem_append.2 ⟨hr cs first mid hfirst, ih hrs mid more left hmore⟩

theorem optional_holds {r : Recogniser} (h : r.Holds p) : r.optional.Holds p := by
  intro cs taken left hf
  rcases optional_eq_some_iff.1 hf with hr | ⟨-, he⟩
  · exact h cs taken left hr
  · obtain ⟨rfl, -⟩ := Prod.mk.inj he
    simp

theorem notBefore_holds {r : Recogniser} (h : r.Holds p) (q : Char → Bool) :
    (r.notBefore q).Holds p := fun cs taken left hf =>
  h cs taken left (notBefore_eq_some_iff.1 hf).1

end HiccupReader.Matching.Recogniser

namespace HiccupReader.Clojure

open Matching Recogniser

theorem isSymbolChar_of {p : Char → Bool} (hp : delimiters.any p = false) (c : Char)
    (h : p c = true) : isSymbolChar c = true := by
  by_contra hnot
  have hmem : c ∈ delimiters := by simpa [isSymbolChar] using hnot
  exact List.any_eq_false.1 hp c hmem h

theorem numberTail_holds : Holds isSymbolChar numberTail := by
  have number : ∀ c, isNumberChar c = true → isSymbolChar c = true := isSymbolChar_of (by decide)
  have sign : ∀ c, isSign c = true → isSymbolChar c = true := isSymbolChar_of (by decide)
  intro cs taken left h
  fun_induction numberTail cs generalizing taken left with
  | case1 | case3 | case6 =>
    obtain ⟨rfl, -⟩ := Prod.mk.inj (Option.some.inj h)
    simp
  | case2 c hc =>
    obtain ⟨rfl, -⟩ := Prod.mk.inj (Option.some.inj h)
    exact List.forall_mem_singleton.2 (number c hc)
  | case4 c d cs hexp ih =>
    obtain ⟨⟨more, rest⟩, hmore, he⟩ := Option.map_eq_some_iff.1 h
    obtain ⟨rfl, -⟩ := Prod.mk.inj he
    obtain ⟨hc, hd⟩ := Bool.and_eq_true_iff.1 hexp
    have hletter : isSymbolChar c = true := by
      rcases Bool.or_eq_true_iff.1 hc with hc | hc <;> rw [beq_iff_eq.1 hc] <;> decide
    simp only [List.forall_mem_cons]
    exact ⟨hletter, sign d hd, ih more rest hmore⟩
  | case5 c d cs _ hc ih =>
    obtain ⟨⟨more, rest⟩, hmore, he⟩ := Option.map_eq_some_iff.1 h
    obtain ⟨rfl, -⟩ := Prod.mk.inj he
    exact List.forall_mem_cons.2 ⟨number c hc, ih more rest hmore⟩

theorem symbolText_holds : symbolText.Holds isSymbolChar := by
  have head : (oneOf isSymbolHead).Holds isSymbolChar := oneOf_holds fun _ => isSymbolChar_of_head
  apply inOrder_holds
  simp [head, run_holds]

def wordKinds : List TokenKind :=
  [.namespacedMapPrefix, .quote, .varQuote, .discard, .tag, .number, .nil, .boolean, .keyword,
    .symbolicValue, .symbol]

theorem lexeme_holds {k : TokenKind} (hk : k ∈ wordKinds) : k.lexeme.Holds isSymbolChar := by
  have sign : (oneOf isSign).Holds isSymbolChar := oneOf_holds (isSymbolChar_of (by decide))
  have digit : (oneOf Char.isDigit).Holds isSymbolChar := oneOf_holds (isSymbolChar_of (by decide))
  have symbol : (oneOf isSymbolChar).Holds isSymbolChar := oneOf_holds fun _ h => h
  have booleans : (firstOf [word ['t', 'r', 'u', 'e'],
      word ['f', 'a', 'l', 's', 'e']]).Holds isSymbolChar := by
    apply firstOf_holds
    simp +decide [word_holds]
  have values : (firstOf [word ['I', 'n', 'f'], word ['-', 'I', 'n', 'f'],
      word ['N', 'a', 'N']]).Holds isSymbolChar := by
    apply firstOf_holds
    simp +decide [word_holds]
  revert k
  simp only [wordKinds, List.forall_mem_cons]
  simp +decide [TokenKind.lexeme, inOrder_holds, optional_holds, notBefore_holds, word_holds,
    run_holds, numberTail_holds, symbolText_holds, sign, digit, symbol, booleans, values]

theorem characterBody_tail {cs taken left : List Char} (h : characterBody cs = some (taken, left)) :
    ∀ c ∈ taken.tail, isSymbolChar c = true := by
  have octal : (oneOf isOctalDigit).Holds isSymbolChar :=
    oneOf_holds (isSymbolChar_of (by decide))
  have hex : (oneOf isHexDigit).Holds isSymbolChar := oneOf_holds (isSymbolChar_of (by decide))
  obtain ⟨r, hr, hcut⟩ := exists_of_firstOf h
  have options : r.Holds isSymbolChar ∨ r = oneOf fun _ => true := by
    clear hcut
    revert r
    simp only [List.forall_mem_cons]
    simp +decide [inOrder_holds, optional_holds, word_holds, octal, hex]
  rcases options with hholds | rfl
  · exact fun c hc => hholds cs taken left hcut c (List.mem_of_mem_tail hc)
  · obtain ⟨c, -, rfl, -⟩ := oneOf_eq_some_iff.1 hcut
    simp

def fixedTexts : List (List Char) :=
  [['('], [')'], ['['], [']'], ['\x7b'], ['\x7d'], ['\x60'], ['~'], ['@'], ['^'],
    ['#', '\x7b'], ['#', '('], ['#', '?', '@', '('], ['#', '?', '('], ['~', '@'], ['#', '^']]

def quotingKinds : List TokenKind := [.string, .regex, .character]

theorem mem_fixedTexts_of_lexeme {k : TokenKind} (hk : k ∉ wordKinds) (hquoting : k ∉ quotingKinds)
    {cs taken left : List Char} (h : k.lexeme cs = some (taken, left)) : taken ∈ fixedTexts := by
  have either : ∀ {v w : List Char}, v ∈ fixedTexts → w ∈ fixedTexts →
      firstOf [word v, word w] cs = some (taken, left) → taken ∈ fixedTexts := by
    intro v w hv hw h
    rcases eq_of_firstOf_words h with rfl | rfl
    · exact hv
    · exact hw
  cases k with
  | leftParen | rightParen | leftBracket | rightBracket | leftBrace | rightBrace | hashBrace
  | hashParen | backtick | unquoteSplicing | unquote | deref =>
    obtain ⟨rfl, -⟩ := word_eq_some_iff.1 h
    decide
  | readerConditional | caret => exact either (by decide) (by decide) h
  | string | regex | character => exact absurd (by decide) hquoting
  | _ => exact absurd (by decide) hk

theorem lexeme_append_of_quoted {k : TokenKind} (hk : k = .string ∨ k = .regex)
    {taken left : List Char} (h : k.lexeme (taken ++ left) = some (taken, left))
    (left' : List Char) : k.lexeme (taken ++ left') = some (taken, left') := by
  have quoted : ∀ {w}, inOrder [word w, stringTail] (taken ++ left) = some (taken, left) →
      inOrder [word w, stringTail] (taken ++ left') = some (taken, left') := by
    intro w h
    obtain ⟨first, mid, more, hfirst, htail, rfl⟩ := inOrder_cons_eq_some_iff.1 h
    obtain ⟨rfl, hmid⟩ := word_eq_some_iff.1 hfirst
    rw [List.append_assoc] at hmid
    obtain rfl := List.append_cancel_left hmid
    rw [inOrder_single] at htail
    refine inOrder_cons_eq_some_iff.2 ⟨first, more ++ left', more, ?_, ?_, rfl⟩
    · exact word_eq_some_iff.2 ⟨rfl, List.append_assoc ..⟩
    · rw [inOrder_single]
      exact stringTail_append htail left'
  rcases hk with rfl | rfl
  · exact quoted h
  · exact quoted h

theorem exists_lexeme_front {k : TokenKind} {x rest taken left : List Char}
    (h : k.lexeme (x ++ rest) = some (taken, left)) (hin : taken <+: x) :
    ∃ v, x = taken ++ v ∧ left = v ++ rest ∧ k.lexeme x = some (taken, v) ∧
      (k.Preferred (x ++ rest) → k.Preferred x) := by
  obtain ⟨v, rfl⟩ := hin
  have htext := k.lexeme_cuts _ _ _ h
  rw [List.append_assoc] at htext h ⊢
  obtain rfl := List.append_cancel_left htext
  have hend : Apart [] := fun _ h => by cases h
  have hparted : Parted (v ++ rest) (v ++ []) := (Parted.here hend).append v
  rw [List.append_nil] at hparted
  exact ⟨v, rfl, rfl, k.lexeme_stable taken _ _ h hparted, fun hk => hk.of_parted h hparted⟩

def closingMarks : List Char := [')', ']', '\x7d']

structure Sealed (x : List Char) (d : Char) : Prop where
  delimiter : isSymbolChar d = false
  closed : d ∈ closingMarks ∨ ':' ∈ x

namespace Sealed

variable {x y r left taken : List Char} {d : Char} {k j : TokenKind}

theorem mem_quotingKinds (h : Sealed x d) (hx : x ≠ [])
    (hcut : k.lexeme (x ++ d :: r) = some (x ++ d :: y, left)) : k ∈ quotingKinds := by
  by_contra hquoting
  by_cases hk : k ∈ wordKinds
  · have hd := lexeme_holds hk _ _ _ hcut d (by simp)
    rw [h.delimiter] at hd
    cases hd
  · have hmem := mem_fixedTexts_of_lexeme hk hquoting hcut
    have fixed : ∀ w ∈ fixedTexts,
        w.length = 1 ∨ w.all (fun c => c ∉ closingMarks ∧ c ≠ ':') = true := by
      decide
    rcases fixed _ hmem with hone | hnone
    · have hpos := List.length_pos_iff.2 hx
      rw [List.length_append, List.length_cons] at hone
      omega
    · have hfree := fun c hc => of_decide_eq_true (List.all_eq_true.1 hnone c hc)
      rcases h.closed with hclosing | hcolon
      · exact (hfree d (by simp)).1 hclosing
      · exact (hfree ':' (by simp [hcolon])).2 rfl

theorem isPrefix_or (h : Sealed x d) (hx : x ≠ [])
    (hcut : k.lexeme (x ++ d :: r) = some (taken, left)) :
    taken <+: x ∨ k ∈ quotingKinds ∧ ∃ y, taken = x ++ d :: y := by
  have htext := k.lexeme_cuts _ _ _ hcut
  rcases List.append_eq_append_iff.1 htext with ⟨v, hv, -⟩ | ⟨v, hv, hleft⟩
  · exact .inl ⟨v, hv.symm⟩
  · cases v with
    | nil => exact .inl ⟨[], by simpa using hv⟩
    | cons e v =>
      obtain ⟨rfl, -⟩ := List.cons.inj hleft
      rw [hv] at hcut
      exact .inr ⟨h.mem_quotingKinds hx hcut, v, hv⟩

theorem eq_of_quoting {r' left' : List Char} (h : Sealed x d)
    (hcut : j.lexeme (x ++ d :: r) = some (taken, left)) (hin : taken <+: x)
    (hk : k ∈ quotingKinds) (hcut' : k.lexeme (x ++ d :: r') = some (x ++ d :: y, left')) :
    j = k ∧ k ≠ .character := by
  have hx : x ≠ [] := by
    rintro rfl
    exact j.lexeme_takes _ _ _ hcut (List.prefix_nil.1 hin)
  obtain ⟨e, x, rfl⟩ := List.exists_cons_of_ne_nil hx
  have alone : candidates (e :: x ++ d :: r) = [k] → j = k := fun hone =>
    eq_of_candidates hone (by rw [hcut]; rfl)
  simp only [quotingKinds, List.mem_cons, List.not_mem_nil, or_false] at hk
  rcases hk with rfl | rfl | rfl
  · obtain ⟨first, hfirst⟩ := begins_of_inOrder hcut'
    obtain ⟨rest, hrest⟩ := begins_of_word hfirst
    obtain ⟨rfl, -⟩ := List.cons.inj hrest
    exact ⟨alone rfl, nofun⟩
  · obtain ⟨first, hfirst⟩ := begins_of_inOrder hcut'
    obtain ⟨rest, hrest⟩ := begins_of_word hfirst
    obtain ⟨rfl, hquote⟩ := List.cons.inj hrest
    cases x with
    | nil =>
      -- The quote is no delimiter that closes, and no colon stands in front of it.
      obtain ⟨rfl, -⟩ := List.cons.inj hquote
      exact absurd h.closed (by decide)
    | cons e x =>
      obtain ⟨rfl, -⟩ := List.cons.inj hquote
      exact ⟨alone rfl, nofun⟩
  · obtain ⟨first, mid, body, hfirst, hbody, htext⟩ := inOrder_cons_eq_some_iff.1 hcut'
    obtain ⟨rfl, -⟩ := word_eq_some_iff.1 hfirst
    obtain ⟨rfl, -⟩ := List.cons.inj htext
    obtain rfl := alone rfl
    rw [inOrder_single] at hbody
    cases x with
    | nil =>
      obtain ⟨v, -, -, hfront, -⟩ := exists_lexeme_front hcut hin
      cases hfront
    | cons e x =>
      obtain rfl : e :: x ++ d :: y = body := (List.cons.inj htext).2
      have hd := characterBody_tail hbody d (by simp)
      rw [h.delimiter] at hd
      cases hd

theorem agree {r' : List Char} (h : Sealed x d) (hj : j.Preferred (x ++ d :: r))
    (hcut : j.lexeme (x ++ d :: r) = some (taken, left)) (hin : taken <+: x)
    (hk : k.Preferred (x ++ d :: r')) :
    k = j ∧ ∃ left', k.lexeme (x ++ d :: r') = some (taken, left') := by
  obtain ⟨⟨taken', left'⟩, hcut'⟩ := Option.isSome_iff_exists.1 hk.accepts
  have hx : x ≠ [] := by
    rintro rfl
    exact j.lexeme_takes _ _ _ hcut (List.prefix_nil.1 hin)
  obtain ⟨v, htext, hleft, hfront, hpreferred⟩ := exists_lexeme_front hcut hin
  rcases h.isPrefix_or hx hcut' with hin' | ⟨hquoting, y, rfl⟩
  · obtain ⟨v', -, -, hfront', hpreferred'⟩ := exists_lexeme_front hcut' hin'
    obtain rfl := (hpreferred hj).unique (hpreferred' hk)
    rw [hfront] at hfront'
    obtain ⟨rfl, -⟩ := Prod.mk.inj (Option.some.inj hfront')
    exact ⟨rfl, left', hcut'⟩
  · obtain ⟨rfl, hcharacter⟩ := h.eq_of_quoting hcut hin hquoting hcut'
    have hquoted : j = .string ∨ j = .regex := by
      simpa [quotingKinds, hcharacter] using hquoting
    subst htext
    rw [hleft, List.append_assoc] at hcut
    refine ⟨rfl, v ++ d :: r', ?_⟩
    rw [List.append_assoc]
    exact lexeme_append_of_quoted hquoted hcut _

end Sealed
end HiccupReader.Clojure
