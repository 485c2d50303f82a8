import HiccupReader.Proofs.Clojure.Slicing
import HiccupReader.Proofs.Clojure.Unclosed

/-! What the help of an error says, and whether it is so. That a string is not terminated is told
where the lexer stops at one, and wherever a text is refused at the opening quote of a string, also
at one that only stands in the place of a map. That the input ended too early is told at the end of
a text, also where only reader macros await a form there. -/

namespace HiccupReader.Clojure

open Matching

def closesQuote : List Char → Bool
  | '"' :: _ => true
  | '\\' :: _ :: cs => closesQuote cs
  | _ :: cs => closesQuote cs
  | [] => false

def unterminated : List Char → Bool
  | '"' :: cs => !closesQuote cs
  | '#' :: '"' :: cs => !closesQuote cs
  | _ => false

theorem isSome_stringTail (cs : List Char) : (stringTail cs).isSome = closesQuote cs := by
  fun_induction stringTail cs <;> simp_all [closesQuote]

theorem startsString_of_unterminated {cs : List Char} (h : unterminated cs = true) :
    SyntaxError.startsString cs = true := by
  unfold unterminated at h
  split at h
  · rfl
  · rfl
  · cases h

theorem exists_isSome_lexeme {cs : List Char} (h : SyntaxError.startsString cs = true) :
    ∃ k ∈ [TokenKind.string, .regex], (k.lexeme cs).isSome = !unterminated cs := by
  have quoted : ∀ {w cs : List Char}, (Recogniser.inOrder [Recogniser.word w, stringTail]
      (w ++ cs)).isSome = closesQuote cs := by
    intro w cs
    have hword : Recogniser.word w (w ++ cs) = some (w, cs) :=
      Recogniser.word_eq_some_iff.2 ⟨rfl, rfl⟩
    rw [Recogniser.inOrder, hword, ← isSome_stringTail]
    cases htail : stringTail cs with
    | none => simp [Recogniser.inOrder, htail]
    | some found => simp [Recogniser.inOrder, htail]
  unfold SyntaxError.startsString at h
  split at h
  · next cs =>
    refine ⟨.string, by decide, ?_⟩
    rw [unterminated, Bool.not_not]
    exact quoted (w := ['"'])
  · next cs =>
    refine ⟨.regex, by decide, ?_⟩
    rw [unterminated, Bool.not_not]
    exact quoted (w := ['#', '"'])
  · cases h

theorem unterminated_of_barren {cs : List Char} (hbarren : Barren cs)
    (h : SyntaxError.startsString cs = true) : unterminated cs = true := by
  obtain ⟨k, -, hsome⟩ := exists_isSome_lexeme h
  rw [hbarren k] at hsome
  simpa using hsome.symm

theorem settled_of_startsString {d : Cursor} (h : SyntaxError.startsString d.rest = true) :
    Settled d := by
  refine settled_iff.2 ?_
  unfold SyntaxError.startsString at h
  split at h
  · next hrest => rw [hrest]; rfl
  · next hrest => rw [hrest]; rfl
  · cases h

theorem unterminated_of_refused {d : Cursor} (h : SyntaxError.startsString d.rest = true)
    (hrefused : ¬ Accepts (.rule .form) d) : unterminated d.rest = true := by
  obtain ⟨k, hk, hsome⟩ := exists_isSome_lexeme h
  by_contra hclosed
  rw [Bool.not_eq_true] at hclosed
  rw [hclosed] at hsome
  have literals : ∀ k ∈ [TokenKind.string, .regex], k ∈ literalKinds := by decide
  exact hrefused (accepts_form_of_literal (literals k hk) (settled_of_startsString h) hsome)

theorem describe_openingBrace {goals : List Goal} (hne : goals ≠ [])
    (h : ∀ g ∈ goals, g.expected = .openingBrace) :
    describe (expectedOf goals) = "expected '\x7b'" := by
  have hgoals : expectedOf goals = [.openingBrace] := by
    obtain ⟨goal, hgoal⟩ := List.exists_mem_of_ne_nil goals hne
    have hany : ∀ e : Expected, goals.any (fun g => g.expected = e) = (e == .openingBrace) := by
      intro e
      rw [Bool.eq_iff_iff, List.any_eq_true]
      simp only [decide_eq_true_eq, beq_iff_eq]
      constructor
      · rintro ⟨g, hg, rfl⟩
        exact h g hg
      · rintro rfl
        exact ⟨goal, hgoal, h goal hgoal⟩
    simp only [expectedOf, hany]
    rfl
  rw [hgoals]
  rfl

namespace SyntaxError

theorem help?_unexpected (source : Source) (frontier : Frontier Goal) :
    ((unexpected frontier).diagnostic source).help? =
      help? (Text.dropBytes frontier.offset source.text.toList) := rfl

theorem help?_eq_string_iff {rest : List Char} :
    help? rest = some "string literal is not terminated" ↔ startsString rest = true := by
  unfold help?
  split
  · next h => exact iff_of_true rfl h
  · next h =>
    refine iff_of_false (fun htext => ?_) h
    split at htext
    · exact absurd (Option.some.inj htext) (by decide)
    · cases htext

theorem eq_nil_of_help?_eq_end {rest : List Char}
    (h : help? rest = some "input ended before every delimiter was closed") : rest = [] := by
  unfold help? at h
  split at h
  · exact absurd (Option.some.inj h) (by decide)
  · split at h
    · next hempty => exact List.isEmpty_iff.1 hempty
    · cases h

theorem exists_unexpected_of_help? {source : Source} {error : SyntaxError} {help : String}
    (h : (error.diagnostic source).help? = some help)
    (hne : help ≠ "split the expression into smaller top-level forms") :
    ∃ frontier, error = .unexpected frontier ∧
      help? (Text.dropBytes frontier.offset source.text.toList) = some help := by
  cases error with
  | unexpected frontier => exact ⟨frontier, rfl, h⟩
  | tooDeep place => exact absurd (Option.some.inj h).symm hne

end SyntaxError

variable {text : String} {frontier : Frontier Goal}

theorem unterminated_or_openingBrace (h : parse text = .error (.unexpected frontier))
    (hstarts : SyntaxError.startsString (Text.dropBytes frontier.offset text.toList) = true) :
    unterminated (Text.dropBytes frontier.offset text.toList) = true ∨
      describe (expectedOf frontier.goals) = "expected '\x7b'" := by
  rcases lex_or_derive_of_parse_error h with hlex | ⟨tokens, -, hderive⟩
  · obtain ⟨d, hreach, hoffset, hbarren, -⟩ := exists_barren_of_lex_error hlex
    rw [← hoffset, hreach.dropBytes_eq] at hstarts ⊢
    exact .inl (unterminated_of_barren hbarren hstarts)
  · have hlacks := lacks_of_derive_error hderive
    obtain ⟨d, hreach, hoffset, htold⟩ := hlacks.place
    rw [← hoffset, hreach.dropBytes_eq] at hstarts ⊢
    by_cases haccepts : Accepts (.rule .form) d
    · exact .inr (describe_openingBrace hlacks.goals (htold haccepts))
    · exact .inl (unterminated_of_refused hstarts haccepts)

theorem levels_of_ended (h : parse text = .error (.unexpected frontier))
    (hend : Text.dropBytes frontier.offset text.toList = []) :
    ∃ tokens, lex text = .ok tokens ∧
      ((∀ token ∈ tokens, token.rule = TokenKind.discard.index →
        ¬ opensHidden (Text.dropBytes token.span.stop text.toList) = true) →
      Nesting.levelsAfter [] tokens ≠ [] ∧
        (Unclosed (delimitersOf tokens) ↔
          Nesting.Level.delimiter ∈ Nesting.levelsAfter [] tokens)) := by
  rcases lex_or_derive_of_parse_error h with hlex | ⟨tokens, hlex, hderive⟩
  · obtain ⟨d, hreach, hoffset, -, hne⟩ := exists_barren_of_lex_error hlex
    rw [← hoffset, hreach.dropBytes_eq] at hend
    exact absurd hend hne
  · refine ⟨tokens, hlex, fun hvisible => ?_⟩
    obtain ⟨st, c, hfollows, hoffset, -⟩ :=
      stuck_of_derive_error (readable_of_lex hlex hvisible) hderive
    have hreach := (reaches_skipTrivia _).trans hfollows.reaches
    rw [← hoffset, hreach.dropBytes_eq] at hend
    obtain ⟨hleaving, hpadded⟩ := leaving_of_lex hfollows hend hlex
    constructor
    · intro hlevels
      have hlength := hpadded.length_le
      rw [hlevels, List.length_map, List.length_nil, Nat.le_zero, List.length_eq_zero_iff] at hlength
      subst hlength
      obtain ⟨tree, hok⟩ := exists_derive_of_settled hfollows hend
      cases hok.symm.trans hderive
    · rw [hleaving.unclosed_iff, ← hpadded.delimiter_mem_iff, Pending.delimiter_mem_levels_iff]

/-- Where the lexer stops at a literal that is not closed, the help says so. Where the help says so
the literal is not closed, unless a map is looked for there. At the end of a text an opening
delimiter is not closed, unless all that is open is awaiting a form. -/
theorem help_truthful (source : Source) (error : SyntaxError)
    (hparse : parse source.text = .error error) :
    (∀ ts stop, LexedUpTo (.start source.text.toList) ts stop →
      unterminated (skipTrivia stop).rest = true →
        (error.diagnostic source).help? = some "string literal is not terminated") ∧
    ((error.diagnostic source).help? = some "string literal is not terminated" →
      ∃ frontier, error = .unexpected frontier ∧
        (unterminated (Text.dropBytes frontier.offset source.text.toList) = true ∨
          (error.diagnostic source).message = "expected '\x7b'")) ∧
    ((error.diagnostic source).help? = some "input ended before every delimiter was closed" →
      ∃ tokens, lex source.text = .ok tokens ∧
        ((∀ token ∈ tokens, token.rule = TokenKind.discard.index →
          ¬ opensHidden (Text.dropBytes token.span.stop source.text.toList) = true) →
        Nesting.levelsAfter [] tokens ≠ [] ∧
          (Unclosed (delimitersOf tokens) ↔
            Nesting.Level.delimiter ∈ Nesting.levelsAfter [] tokens))) := by
  refine ⟨fun ts stop hlexed hopen => ?_, fun hhelp => ?_, fun hhelp => ?_⟩
  · have hne : (skipTrivia stop).rest ≠ [] := by
      intro hnil
      rw [hnil] at hopen
      cases hopen
    obtain ⟨frontier, hlex, hoffset⟩ := hlexed.exists_error hne
    have hreach := hlexed.spells.reaches.trans (reaches_skipTrivia stop)
    obtain rfl : error = .unexpected frontier := by
      rw [parse, hlex] at hparse
      exact (Except.error.inj hparse).symm
    refine SyntaxError.help?_eq_string_iff.2 ?_
    rw [hoffset, hreach.dropBytes_eq]
    exact startsString_of_unterminated hopen
  · obtain ⟨frontier, rfl, htext⟩ := SyntaxError.exists_unexpected_of_help? hhelp (by decide)
    exact ⟨frontier, rfl, unterminated_or_openingBrace hparse
      (SyntaxError.help?_eq_string_iff.1 htext)⟩
  · obtain ⟨frontier, rfl, htext⟩ := SyntaxError.exists_unexpected_of_help? hhelp (by decide)
    exact levels_of_ended hparse (SyntaxError.eq_nil_of_help?_eq_end htext)

theorem help_truthful_open_string_and_list :
    (∃ error, parse "(\"a)" = .error error ∧ (error.diagnostic ⟨"a", "(\"a)"⟩).help? =
      some "string literal is not terminated") ∧
    ∃ error tokens, parse "'(a" = .error error ∧ lex "'(a" = .ok tokens ∧
      Nesting.levelsAfter [] tokens = [.delimiter, .awaiting 1] ∧
        Unclosed (delimitersOf tokens) := by
  constructor
  · have hplace : misfit? (lex "(\"a)") = some 1 := by decide +kernel
    have hparse : misfit? (parse "(\"a)") = some 1 := by decide +kernel
    obtain ⟨frontier, hlex, hoffset⟩ := exists_unexpected_of_misfit? hplace
    obtain ⟨frontier', hparse, -⟩ := exists_unexpected_of_misfit? hparse
    obtain ⟨ts, stop, other, hlexed, -, herror, hstop⟩ := exists_lexedUpTo_of_error hlex
    obtain rfl := SyntaxError.unexpected.inj herror
    have hreach := hlexed.spells.reaches.trans (reaches_skipTrivia stop)
    refine ⟨_, hparse, (help_truthful ⟨"a", "(\"a)"⟩ _ hparse).1 ts stop hlexed ?_⟩
    rw [← hreach.dropBytes_eq, ← hstop, hoffset]
    decide +kernel
  · have hfound : (lex "'(a").toOption.map (fun tokens => decide
        (Nesting.levelsAfter [] tokens = [.delimiter, .awaiting 1] ∧
          ∀ token ∈ tokens, token.rule ≠ TokenKind.discard.index)) = some true := by
      decide +kernel
    have hplace : misfit? (parse "'(a") = some 3 := by decide +kernel
    obtain ⟨tokens, htokens, hchecked⟩ := Option.map_eq_some_iff.1 hfound
    obtain ⟨hlevels, hdiscards⟩ := of_decide_eq_true hchecked
    have hlex := eq_ok_of_toOption htokens
    obtain ⟨frontier, hparse, hoffset⟩ := exists_unexpected_of_misfit? hplace
    have hhelp : ((SyntaxError.unexpected frontier).diagnostic ⟨"a", "'(a"⟩).help? =
        some "input ended before every delimiter was closed" := by
      rw [SyntaxError.help?_unexpected, hoffset]
      decide +kernel
    obtain ⟨tokens', hlex', hopen⟩ := (help_truthful ⟨"a", "'(a"⟩ _ hparse).2.2 hhelp
    obtain rfl := Except.ok.inj (hlex'.symm.trans hlex)
    obtain ⟨-, hunclosed⟩ := hopen fun token hmem hrule => absurd hrule (hdiscards token hmem)
    refine ⟨_, _, hparse, hlex, hlevels, hunclosed.2 ?_⟩
    rw [hlevels]
    exact List.mem_cons_self ..

/-- A string in the place of a map is told not to be terminated, and a missing form behind a quote
mark to be a missing delimiter. -/
theorem not_help_truthful :
    (¬ ∀ source error, parse source.text = .error error →
      (error.diagnostic source).help? = some "string literal is not terminated" →
        ∃ frontier, error = .unexpected frontier ∧
          unterminated (Text.dropBytes frontier.offset source.text.toList) = true) ∧
    ¬ ∀ source error, parse source.text = .error error →
      (error.diagnostic source).help? = some "input ended before every delimiter was closed" →
        ∃ tokens, lex source.text = .ok tokens ∧ Unclosed (delimitersOf tokens) := by
  constructor
  · intro htruthful
    have hplace : misfit? (parse "#:a \"b\"") = some 4 := by decide +kernel
    obtain ⟨frontier, hparse, hoffset⟩ := exists_unexpected_of_misfit? hplace
    have hhelp : ((SyntaxError.unexpected frontier).diagnostic ⟨"a", "#:a \"b\""⟩).help? =
        some "string literal is not terminated" := by
      rw [SyntaxError.help?_unexpected, hoffset]
      decide +kernel
    obtain ⟨frontier', herror, hopen⟩ := htruthful ⟨"a", "#:a \"b\""⟩ _ hparse hhelp
    obtain rfl := SyntaxError.unexpected.inj herror
    rw [hoffset] at hopen
    exact absurd hopen (by decide +kernel)
  · intro htruthful
    have hplace : misfit? (parse "'") = some 1 := by decide +kernel
    obtain ⟨frontier, hparse, hoffset⟩ := exists_unexpected_of_misfit? hplace
    have hhelp : ((SyntaxError.unexpected frontier).diagnostic ⟨"a", "'"⟩).help? =
        some "input ended before every delimiter was closed" := by
      rw [SyntaxError.help?_unexpected, hoffset]
      decide +kernel
    obtain ⟨tokens, hlex, hunclosed⟩ := htruthful ⟨"a", "'"⟩ _ hparse hhelp
    have hmark : lex "'" = .ok [⟨TokenKind.quote.index, "'", 0, 1⟩] :=
      eq_ok_of_toOption (by decide +kernel)
    obtain rfl := Except.ok.inj (hlex.symm.trans hmark)
    exact Balanced.nil.not_unclosed hunclosed

end HiccupReader.Clojure
