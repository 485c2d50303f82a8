import HiccupReader.Proofs.Clojure.Lexing
import HiccupReader.Proofs.Clojure.Sealing
import HiccupReader.Proofs.Listing

/-! Listings of the tokens of a source. Only strings, patterns and characters can hold a line end,
and such a token takes more than one line. A listing still tells all of the tokens that it lists. -/

namespace HiccupReader.Clojure

open Matching Recogniser Text

variable {text : String} {ts : List Token}

theorem Spells.exists_lexeme {P : TokenKind → List Char → Prop} {c c' : Cursor}
    (h : Spells P c ts c') {token : Token} (htoken : token ∈ ts) :
    ∃ k d taken left, TokenKind.lexeme k (Cursor.rest d) = some (taken, left) ∧
      token = k.token d taken := by
  induction h with
  | done c => cases htoken
  | @token k c _ taken left _ hcut _ _ ih =>
    rcases List.mem_cons.1 htoken with rfl | hmem
    · exact ⟨k, skipTrivia c, taken, left, hcut, rfl⟩
    · exact ih hmem

theorem exists_lexeme_of_lex (h : lex text = .ok ts) {token : Token} (htoken : token ∈ ts) :
    ∃ k d taken left, TokenKind.lexeme k (Cursor.rest d) = some (taken, left) ∧
      token = k.token d taken := by
  obtain ⟨stop, hspells, -⟩ := exists_spells_of_lex h
  exact hspells.exists_lexeme htoken

theorem TokenKind.name?_index (k : TokenKind) : ruleTable.name? k.index = some k.name := by
  rw [RuleTable.name?, k.get?_index]
  rfl

theorem TokenKind.plain_name (k : TokenKind) : ' ' ∉ k.name.toList ∧ '\n' ∉ k.name.toList := by
  cases k <;> decide +kernel

theorem legible_of_lex (h : lex text = .ok ts) : ∀ token ∈ ts, Listing.Legible ruleTable token := by
  intro token htoken
  obtain ⟨k, d, taken, -, -, rfl⟩ := exists_lexeme_of_lex h htoken
  refine ⟨⟨k.name, k.name?_index, k.plain_name⟩, ?_⟩
  rw [TokenKind.token, String.toList_ofList]

theorem not_mem_newline_of_lexeme {k : TokenKind} (hk : k ∉ quotingKinds)
    {cs taken left : List Char} (h : k.lexeme cs = some (taken, left)) : '\n' ∉ taken := by
  intro hmem
  by_cases hword : k ∈ wordKinds
  · have hsymbol := lexeme_holds hword cs taken left h '\n' hmem
    revert hsymbol
    decide
  · have hfixed : ∀ w ∈ fixedTexts, '\n' ∉ w := by decide
    exact hfixed taken (mem_fixedTexts_of_lexeme hword hk h) hmem

theorem exists_quoting_of_newline (h : lex text = .ok ts) {token : Token} (htoken : token ∈ ts)
    (hnewline : '\n' ∈ token.text.toList) : ∃ k ∈ quotingKinds, token.rule = k.index := by
  obtain ⟨k, d, taken, left, hcut, rfl⟩ := exists_lexeme_of_lex h htoken
  rw [TokenKind.token, String.toList_ofList] at hnewline
  refine ⟨k, ?_, rfl⟩
  by_contra hk
  exact not_mem_newline_of_lexeme hk hcut hnewline

/-- Each line of a listing tells the token at its place just if no token holds a line end. Else
there are as many more lines as there are line ends, all in strings, patterns and characters. -/
theorem line_for_each_token_iff (text : String) (ts : List Token) (h : lex text = .ok ts) :
    (List.Forall₂ (Listing.Tells ruleTable) ts
        (Listing.linesOf (Listing.tokens ruleTable ts).toList) ↔
      ∀ token ∈ ts, '\n' ∉ token.text.toList) ∧
    (Listing.linesOf (Listing.tokens ruleTable ts).toList).length =
      ts.length + (ts.flatMap fun token => token.text.toList).count '\n' ∧
    ∀ token ∈ ts, '\n' ∈ token.text.toList → ∃ k ∈ quotingKinds, token.rule = k.index := by
  have hlegible := legible_of_lex h
  exact ⟨Listing.forall₂_tells_iff hlegible, Listing.length_linesOf_tokens hlegible,
    fun token htoken => exists_quoting_of_newline h htoken⟩

theorem line_for_each_token_of_escaped_newline :
    ∃ ts, lex "\"\\n 0..4 \"\n\\ " = .ok ts ∧ ts.length = 2 ∧
      List.Forall₂ (Listing.Tells ruleTable) ts
        (Listing.linesOf (Listing.tokens ruleTable ts).toList) := by
  have hlex : lex "\"\\n 0..4 \"\n\\ " =
      .ok [⟨TokenKind.string.index, "\"\\n 0..4 \"", 0, 10⟩,
        ⟨TokenKind.character.index, "\\ ", 11, 13⟩] := eq_ok_of_toOption (by decide +kernel)
  obtain ⟨hlines, -, -⟩ := line_for_each_token_iff _ _ hlex
  exact ⟨_, hlex, rfl, hlines.2 (by decide)⟩

theorem two_lines_for_broken_string :
    ∃ ts, lex "\"\n\"" = .ok ts ∧ ts.length = 1 ∧
      (Listing.linesOf (Listing.tokens ruleTable ts).toList).length = 2 ∧
      ¬ List.Forall₂ (Listing.Tells ruleTable) ts
        (Listing.linesOf (Listing.tokens ruleTable ts).toList) := by
  have hlex : lex "\"\n\"" = .ok [⟨TokenKind.string.index, "\"\n\"", 0, 3⟩] :=
    eq_ok_of_toOption (by decide +kernel)
  have hlines := Listing.length_linesOf_tokens (legible_of_lex hlex)
  refine ⟨_, hlex, rfl, hlines, fun htells => ?_⟩
  rw [htells.length_eq.symm] at hlines
  cases hlines

/-- Sources with the same listing have the same tokens, with the same spans. -/
theorem eq_of_listing_eq (text other : String) (ts us : List Token) (h : lex text = .ok ts)
    (h' : lex other = .ok us)
    (hlisting : Listing.tokens ruleTable ts = Listing.tokens ruleTable us) : ts = us :=
  Listing.tokens_inj (legible_of_lex h) (legible_of_lex h') hlisting

theorem eq_of_listing_eq_behind_comment :
    ∃ ts us, lex "\"\nSYMBOL 1..2 a\" ;b" = .ok ts ∧ lex "\"\nSYMBOL 1..2 a\"" = .ok us ∧
      Listing.tokens ruleTable ts = Listing.tokens ruleTable us ∧ ts = us := by
  have hlex : lex "\"\nSYMBOL 1..2 a\" ;b" =
      .ok [⟨TokenKind.string.index, "\"\nSYMBOL 1..2 a\"", 0, 16⟩] :=
    eq_ok_of_toOption (by decide +kernel)
  have hlex' : lex "\"\nSYMBOL 1..2 a\"" =
      .ok [⟨TokenKind.string.index, "\"\nSYMBOL 1..2 a\"", 0, 16⟩] :=
    eq_ok_of_toOption (by decide +kernel)
  exact ⟨_, _, hlex, hlex', rfl, eq_of_listing_eq _ _ _ _ hlex hlex' rfl⟩

end HiccupReader.Clojure
