import HiccupReader.Proofs.Clojure.Barring
import HiccupReader.Proofs.Clojure.Tracing

/-! The place that an error of the grammar names. What stands in front of it can be continued to a
text of the grammar, and with the token that begins there it is the front part of no text that is
parsed. This holds unless a comment hides behind a discard mark. -/

namespace HiccupReader.Clojure

open Matching

/-- Some text that begins so is one of the grammar, whatever its depth. -/
def Continues (front : List Char) : Prop :=
  ∃ more tree, derive (String.ofList (front ++ more)) = .ok tree

def Refused (front : List Char) : Prop :=
  ∀ other tree, parse other = .ok tree → ¬ front <+: other.toList

/-- The text can be continued up to the place only. What blocks it there is its end or a token. -/
structure MisfitAt (text : String) (tokens : List Token) (before after : List Char) : Prop where
  text_eq : text.toList = before ++ after
  continues : Continues before
  token : after ≠ [] → ∃ token ∈ tokens, token.span.start = Text.byteLength before ∧
    token.text.toList <+: after ∧ Refused (before ++ token.text.toList)

variable {P : TokenKind → List Char → Prop} {st st' : List Pending} {c c' stop : Cursor}
  {ts : List Token} {ks : List TokenKind} {text : String} {tokens : List Token}

theorem Spells.exists_follows (h : Spells P c ts stop)
    (hkinds : ts.map Token.rule = ks.map TokenKind.index) (hrun : Pending.run st ks = some st') :
    Follows P st (skipTrivia c) st' (skipTrivia stop) := by
  induction h generalizing st ks with
  | done c =>
    obtain rfl := List.map_eq_nil_iff.1 hkinds.symm
    obtain rfl := Option.some.inj hrun
    exact .done _ _
  | @token k c stop taken left ts hcut hp _ ih =>
    obtain ⟨j, js, rfl, hrule, hrest⟩ := List.map_eq_cons_iff.1 hkinds.symm
    obtain rfl : j = k := TokenKind.index_injective _ _ hrule
    obtain ⟨st₁, hfollow, hrun⟩ := Option.bind_eq_some_iff.1 hrun
    exact .token hcut hp hfollow (ih hrest.symm hrun)

theorem exists_follows_of_parse {tree : Tree} (h : parse text = .ok tree) :
    ∃ c, Follows Nearly [] (skipTrivia (.start text.toList)) [] c ∧ c.rest = [] := by
  obtain ⟨-, -, -, hderive⟩ := parse_eq_ok_iff.1 h
  obtain ⟨stop, hspells, hend⟩ := exists_spells_of_derive hderive
  obtain ⟨c, hread⟩ := derive_eq_ok_iff.1 hderive
  obtain ⟨d, hvalid, hroot, hkinds⟩ := exists_forms_of_derives (derives_of_reading hread)
  exact ⟨_, hspells.exists_follows hkinds (Pending.run_of_valid hvalid hroot), hend⟩

theorem Spells.plain {cs : List Char} (hreach : (Cursor.start cs).Reaches c)
    (h : Spells TokenKind.Preferred c ts stop)
    (hvisible : ∀ token ∈ ts, token.rule = TokenKind.discard.index →
      ¬ opensHidden (Text.dropBytes token.span.stop cs) = true) : Spells Plain c ts stop := by
  induction h with
  | done c => exact .done c
  | @token k c stop taken left ts hcut hk _ ih =>
    obtain ⟨htoken, hothers⟩ := List.forall_mem_cons.1 hvisible
    have hreach' : (Cursor.start cs).Reaches ((skipTrivia c).advance taken left) :=
      (hreach.trans (reaches_skipTrivia c)).trans (reaches_of_lexeme hcut)
    refine .token hcut ⟨hk, ?_⟩ (ih hreach' hothers)
    rintro rfl
    obtain ⟨rfl, hrest⟩ := Recogniser.word_eq_some_iff.1 hcut
    obtain ⟨front, hfront, hoffset⟩ := hreach'
    have htext : front ++ left = cs := hfront
    have hstop : (skipTrivia c).offset + Text.byteLength ['#', '_'] = Text.byteLength front :=
      hoffset.trans (Nat.zero_add _)
    have hdrop := htoken rfl
    rw [TokenKind.token, hstop, ← htext, Text.dropBytes_byteLength_append] at hdrop
    rwa [hrest]

theorem readable_of_lex (h : lex text = .ok tokens)
    (hvisible : ∀ token ∈ tokens, token.rule = TokenKind.discard.index →
      ¬ opensHidden (Text.dropBytes token.span.stop text.toList) = true) :
    Readable (.start text.toList) := by
  obtain ⟨stop, hspells, hend⟩ := exists_spells_of_lex h
  exact ⟨tokens, stop, hspells.plain (.refl _) hvisible, hend⟩

theorem Follows.exists_token (h : Follows Decided st c st' c') (hc : Settled c)
    (hspells : Spells TokenKind.Preferred c ts stop) (hend : (skipTrivia stop).rest = [])
    (hne : c'.rest ≠ []) :
    ∃ k : TokenKind, ∃ taken left, k.lexeme c'.rest = some (taken, left) ∧
      k.token c' taken ∈ ts := by
  induction h generalizing ts stop with
  | done st c =>
    cases hspells with
    | done =>
      rw [hc] at hend
      exact absurd hend hne
    | token hcut _ _ =>
      rw [hc] at hcut ⊢
      exact ⟨_, _, _, hcut, List.mem_cons_self ..⟩
  | @token k st st₁ st' c c' taken left hcut hk hfollow _ ih =>
    rw [← hc] at hcut hk
    obtain ⟨us, hus⟩ := hk.settles.exists_spells hcut
    obtain ⟨vs, rfl, hvs⟩ := hus.exists_rest id hspells hend
    rw [hc] at hvs
    obtain ⟨last, hlast, hend'⟩ := hvs.exists_of_skipTrivia hend
    obtain ⟨j, word, rest, hword, hmem⟩ := ih (settled_skipTrivia _) hlast hend' hne
    exact ⟨j, word, rest, hword, List.mem_append_right _ hmem⟩

theorem refused_of_blocked {before : List Char}
    (h : Follows Decided [] (skipTrivia (.start text.toList)) st c)
    (hread : Readable (.start text.toList)) (hblocked : Blocked st c) {k : TokenKind}
    {taken left : List Char} (hcut : k.lexeme c.rest = some (taken, left))
    (htext : text.toList = before ++ c.rest) : Refused (before ++ taken) := by
  rintro other tree hparse ⟨left', hother⟩
  obtain ⟨w, hw⟩ := h.exists_front
  obtain ⟨tokens, hlex, -⟩ := parse_eq_ok_iff.1 hparse
  obtain ⟨o, hgo, hend⟩ := exists_follows_of_parse hparse
  have hc := settled_skipTrivia (.start text.toList)
  have htakes := k.lexeme_takes _ _ _ hcut
  -- Both texts begin with the same trivia.
  have hplace : (splitTrivia false (before ++ taken ++ left)).2 = w ++ taken ++ left := by
    rw [List.append_assoc, List.append_assoc, k.lexeme_cuts _ _ _ hcut, ← htext]
    exact hw
  have hbare : (splitTrivia false (w ++ taken ++ left')).2 = w ++ taken ++ left' := by
    rw [List.append_assoc]
    exact h.bare_of_lexeme hc hw hcut left'
  have hotherPlace := splitTrivia_other hplace (List.append_ne_nil_of_right_ne_nil _ htakes) hbare
  rw [hother, List.append_assoc] at hotherPlace
  exact h.refuses hc hread.skip hblocked hcut hw (settled_skipTrivia _)
    (Lexable.skip (lexable_of_lex hlex)) hotherPlace hgo hend

/-- An error of the grammar names the place up to which the text can be continued, if no comment
hides behind a discard mark. -/
theorem error_at_misfit (text : String) (tokens : List Token) (error : SyntaxError)
    (hlex : lex text = .ok tokens) (hdeep : Nesting.firstTooDeep? tokens = none)
    (hparse : parse text = .error error)
    (hvisible : ∀ token ∈ tokens, token.rule = TokenKind.discard.index →
      ¬ opensHidden (Text.dropBytes token.span.stop text.toList) = true) :
    ∃ frontier before after, error = .unexpected frontier ∧
      frontier.offset = Text.byteLength before ∧ MisfitAt text tokens before after ∧
        (after ≠ [] → ∀ name, (error.diagnostic ⟨name, text⟩).span?.map Span.start =
          some frontier.offset) := by
  have hderive : derive text = .error error := by
    simpa [parse, hlex, checkNesting, hdeep, bind, Except.bind] using hparse
  obtain ⟨frontier, rfl⟩ := exists_unexpected_of_outcome hderive
  have hread := readable_of_lex hlex hvisible
  obtain ⟨st, c, h, hoffset, hblocked⟩ := stuck_of_derive_error hread hderive
  obtain ⟨before, htext, hplace⟩ := (reaches_skipTrivia _).trans h.reaches
  have hsplit : text.toList = before ++ c.rest := htext.symm
  have hbefore : frontier.offset = Text.byteLength before := by
    rw [← hoffset, hplace]
    exact Nat.zero_add _
  refine ⟨frontier, before, c.rest, rfl, hbefore, ⟨hsplit, ?_, fun hne => ?_⟩, fun hne name => ?_⟩
  · exact exists_derive_of_follows h hsplit
  · obtain ⟨stop, hspells, hend⟩ := exists_spells_of_lex hlex
    obtain ⟨last, hlast, hend'⟩ := hspells.exists_of_skipTrivia hend
    obtain ⟨k, taken, left, hcut, hmem⟩ :=
      h.exists_token (settled_skipTrivia _) hlast hend' hne
    refine ⟨_, hmem, hoffset.trans hbefore, ?_, ?_⟩
    · rw [TokenKind.token, String.toList_ofList]
      exact ⟨left, k.lexeme_cuts _ _ _ hcut⟩
    · rw [TokenKind.token, String.toList_ofList]
      exact refused_of_blocked h hread hblocked hcut hsplit
  · have hlength := Text.byteLength_toList text
    rw [hsplit, Text.byteLength_append] at hlength
    have hafter := Text.length_le_byteLength c.rest
    have hpos := List.length_pos_iff.2 hne
    have hinside : frontier.offset < text.utf8ByteSize := by omega
    exact congrArg (some ∘ Span.start) (spotAt_of_lt hinside)

def misfit? {α : Type} : Except SyntaxError α → Option Nat
  | .error (.unexpected frontier) => some frontier.offset
  | _ => none

theorem exists_unexpected_of_misfit? {α : Type} {result : Except SyntaxError α} {offset : Nat}
    (h : misfit? result = some offset) :
    ∃ frontier, result = .error (.unexpected frontier) ∧ frontier.offset = offset := by
  unfold misfit? at h
  split at h
  · next frontier => exact ⟨frontier, rfl, Option.some.inj h⟩
  · cases h

theorem error_at_surplus_bracket : ∃ tokens frontier, lex "(#_a ] b" = .ok tokens ∧
    Nesting.firstTooDeep? tokens = none ∧ parse "(#_a ] b" = .error (.unexpected frontier) ∧
    (∀ token ∈ tokens, token.rule = TokenKind.discard.index →
      ¬ opensHidden (Text.dropBytes token.span.stop "(#_a ] b".toList) = true) ∧
    frontier.offset = 5 ∧ ∃ before after, frontier.offset = Text.byteLength before ∧
      MisfitAt "(#_a ] b" tokens before after ∧ (after ≠ [] → ∀ name,
        ((SyntaxError.unexpected frontier).diagnostic ⟨name, "(#_a ] b"⟩).span?.map Span.start =
          some frontier.offset) := by
  have hfound : (lex "(#_a ] b").toOption.map (fun tokens =>
      decide (Nesting.firstTooDeep? tokens = none ∧
        ∀ token ∈ tokens, token.rule = TokenKind.discard.index →
          ¬ opensHidden (Text.dropBytes token.span.stop "(#_a ] b".toList) = true)) = some true := by
    decide +kernel
  obtain ⟨tokens, htokens, hchecked⟩ := Option.map_eq_some_iff.1 hfound
  obtain ⟨hdeep, hvisible⟩ := of_decide_eq_true hchecked
  have hplace : misfit? (parse "(#_a ] b") = some 5 := by decide +kernel
  obtain ⟨frontier, hparse, hoffset⟩ := exists_unexpected_of_misfit? hplace
  have hlex := eq_ok_of_toOption htokens
  obtain ⟨frontier', before, after, herror, hbefore, hmisfit⟩ :=
    error_at_misfit _ tokens _ hlex hdeep hparse hvisible
  obtain rfl := SyntaxError.unexpected.inj herror
  exact ⟨tokens, frontier, hlex, hdeep, hparse, hvisible, hoffset, before, after, hbefore, hmisfit⟩

/-- Where the lexer finds a comment behind a discard mark, the error may stand within a token. -/
theorem not_error_at_misfit :
    ¬ ∀ text tokens error, lex text = .ok tokens → Nesting.firstTooDeep? tokens = none →
      parse text = .error error → ∃ frontier before after, error = .unexpected frontier ∧
        frontier.offset = Text.byteLength before ∧ MisfitAt text tokens before after := by
  intro hmisfit
  have hlex : lex "#_#!x \"\n)\" ] ;\"" =
      .ok [⟨TokenKind.discard.index, "#_", 0, 2⟩, ⟨TokenKind.rightParen.index, ")", 8, 9⟩,
        ⟨TokenKind.string.index, "\" ] ;\"", 9, 15⟩] :=
    eq_ok_of_toOption (by decide +kernel)
  have hplace : misfit? (parse "#_#!x \"\n)\" ] ;\"") = some 11 := by decide +kernel
  obtain ⟨frontier, hparse, hoffset⟩ := exists_unexpected_of_misfit? hplace
  obtain ⟨frontier', before, after, herror, hbefore, hat⟩ := hmisfit _ _ _ hlex (by decide) hparse
  obtain rfl := SyntaxError.unexpected.inj herror
  have hlength : Text.byteLength "#_#!x \"\n)\" ] ;\"".toList = 15 := by decide +kernel
  have hne : after ≠ [] := by
    rintro rfl
    rw [hat.text_eq, List.append_nil] at hlength
    omega
  obtain ⟨token, hmem, hstart, -⟩ := hat.token hne
  rw [← hbefore, hoffset] at hstart
  have hstarts : ∀ token ∈ [Token.mk TokenKind.discard.index "#_" ⟨0, 2⟩,
      ⟨TokenKind.rightParen.index, ")", 8, 9⟩, ⟨TokenKind.string.index, "\" ] ;\"", 9, 15⟩],
      token.span.start ≠ 11 := by
    decide
  exact hstarts token hmem hstart

end HiccupReader.Clojure
