import HiccupReader.Proofs.Clojure.Coverage
import HiccupReader.Proofs.Outcome

/-! How a text is refused. Every refusal is a parse error that shows a stretch of the text, which
is never empty, because the empty text is not refused. -/

namespace HiccupReader

/-- The diagnostic is a parse error about the source, and its label lies in the source. -/
structure Diagnostic.PointsInto (source : Source) (d : Diagnostic) : Prop where
  kind : d.kind = .parse
  about : d.source? = some source
  place : ∃ span, d.span? = some span ∧ span.start < span.stop ∧
    span.stop ≤ source.text.utf8ByteSize ∧ d.label? = some ⟨span.start, span.length, d.message⟩

namespace Clojure

theorem spotAt_inside (offset : Nat) {length : Nat} (h : 0 < length) :
    (spotAt offset length).start < (spotAt offset length).stop ∧
      (spotAt offset length).stop ≤ length := by
  unfold spotAt
  rw [if_neg (Nat.ne_of_gt h)]
  simp only
  omega

theorem spotAt_of_lt {offset length : Nat} (h : offset < length) :
    spotAt offset length = ⟨offset, offset + 1⟩ := by
  have hpos : length ≠ 0 := by omega
  have hstart : min offset (length - 1) = offset := by omega
  have hstop : min (max offset (offset + 1)) length = offset + 1 := by omega
  simp only [spotAt, if_neg hpos, hstart, hstop]

theorem spotAt_of_le {offset length : Nat} (hpos : 0 < length) (h : length ≤ offset) :
    spotAt offset length = ⟨length - 1, length⟩ := by
  have hstart : min offset (length - 1) = length - 1 := by omega
  have hstop : min (max offset (length - 1 + 1)) length = length := by omega
  simp only [spotAt, if_neg (Nat.ne_of_gt hpos), hstart, hstop]

namespace SyntaxError

def Fits (text : String) : SyntaxError → Prop
  | unexpected _ => text ≠ ""
  | tooDeep place => place.start < place.stop ∧ place.stop ≤ text.utf8ByteSize

theorem Fits.pointsInto {source : Source} {error : SyntaxError} (h : error.Fits source.text) :
    Diagnostic.PointsInto source (error.diagnostic source) := by
  obtain ⟨span, hspan, hlt, hle⟩ : ∃ span, (error.diagnostic source).span? = some span ∧
      span.start < span.stop ∧ span.stop ≤ source.text.utf8ByteSize := by
    cases error with
    | unexpected frontier =>
      have hpos : 0 < source.text.utf8ByteSize := by
        rw [Nat.pos_iff_ne_zero, Ne, String.utf8ByteSize_eq_zero_iff]
        exact h
      obtain ⟨hlt, hle⟩ := spotAt_inside frontier.offset hpos
      exact ⟨_, rfl, hlt, hle⟩
    | tooDeep place => exact ⟨place, rfl, h⟩
  have hsource : (error.diagnostic source).source? = some source := by
    cases error with
    | unexpected frontier => rfl
    | tooDeep place => rfl
  have hkind : (error.diagnostic source).kind = .parse := by
    cases error with
    | unexpected frontier => rfl
    | tooDeep place => rfl
  refine ⟨hkind, hsource, span, hspan, hlt, hle, ?_⟩
  have hlength : max span.length 1 = span.length := by
    rw [Span.length]
    omega
  rw [Diagnostic.label?, hsource, hspan]
  simp only [hlength]

end SyntaxError

theorem exists_unexpected_of_outcome {α : Type} {a : Matching.Attempt Goal α}
    {error : SyntaxError} (h : outcome a = .error error) :
    ∃ frontier, error = .unexpected frontier := by
  unfold outcome at h
  split at h
  · cases h
  · exact ⟨_, (Except.error.inj h).symm⟩

theorem fits_of_lex_error {text : String} {error : SyntaxError} (h : lex text = .error error) :
    error.Fits text := by
  have hne : text ≠ "" := by
    rintro rfl
    have hempty : lex "" = .ok [] := eq_ok_of_toOption (by decide)
    rw [hempty] at h
    cases h
  rw [lex] at h
  cases houtcome : outcome (matchText .tokens text.toList) with
  | ok tree =>
    rw [houtcome] at h
    cases h
  | error other =>
    rw [houtcome] at h
    obtain ⟨frontier, rfl⟩ := exists_unexpected_of_outcome houtcome
    obtain rfl := Except.error.inj h
    exact hne

theorem fits_of_derive_error {text : String} {error : SyntaxError}
    (h : derive text = .error error) : error.Fits text := by
  have hne : text ≠ "" := by
    rintro rfl
    obtain ⟨tree, hempty⟩ : ∃ tree, derive "" = .ok tree := exists_eq_ok (by decide)
    rw [hempty] at h
    cases h
  obtain ⟨frontier, rfl⟩ := exists_unexpected_of_outcome h
  exact hne

theorem covers_of_lex {text : String} {tokens : List Token} (h : lex text = .ok tokens) :
    Covers text tokens := by
  obtain ⟨tree, c, hread, rfl⟩ := lex_eq_ok_iff.1 h
  have hentry : Rule.tokens.production =
      .sequence ([.many (TokenKind.precedence.map .token)] ++ [.finish]) := rfl
  exact covers_of_reading hentry hread

theorem lex_or_derive_of_parse_error {text : String} {frontier : Matching.Frontier Goal}
    (h : parse text = .error (.unexpected frontier)) :
    lex text = .error (.unexpected frontier) ∨
      ∃ tokens, lex text = .ok tokens ∧ derive text = .error (.unexpected frontier) := by
  rcases bind_eq_error_iff.1 h with hlex | ⟨tokens, hlex, hrest⟩
  · exact .inl hlex
  rcases bind_eq_error_iff.1 hrest with hdeep | ⟨_, -, hderive⟩
  · unfold checkNesting at hdeep
    split at hdeep <;> cases hdeep
  · exact .inr ⟨tokens, hlex, hderive⟩

theorem Nesting.mem_of_firstTooDeep? {tokens : List Token} {token : Token}
    (h : firstTooDeep? tokens = some token) : token ∈ tokens := by
  have mem_of_depths : ∀ levels, ∀ entry ∈ depths levels tokens, entry.2 ∈ tokens := by
    clear h
    induction tokens with
    | nil => simp [depths]
    | cons first others ih =>
      intro levels
      rw [depths, List.forall_mem_cons]
      exact ⟨List.mem_cons_self .., fun entry hentry => List.mem_cons_of_mem _ (ih _ entry hentry)⟩
  obtain ⟨entry, hfound, rfl⟩ := Option.map_eq_some_iff.1 h
  exact mem_of_depths [] entry (List.mem_of_find?_eq_some hfound)

theorem fits_of_parse_error {text : String} {error : SyntaxError} (h : parse text = .error error) :
    error.Fits text := by
  rcases bind_eq_error_iff.1 h with hlex | ⟨tokens, hlex, hrest⟩
  · exact fits_of_lex_error hlex
  rcases bind_eq_error_iff.1 hrest with hdeep | ⟨_, -, hderive⟩
  · unfold checkNesting at hdeep
    split at hdeep
    · next token htoken =>
      obtain rfl := Except.error.inj hdeep
      have hcovers := covers_of_lex hlex
      have hmem := Nesting.mem_of_firstTooDeep? htoken
      obtain ⟨before, after, htext, hstart, hstop⟩ := hcovers.selected token hmem
      refine ⟨hcovers.nonempty token hmem, ?_⟩
      rw [hstop, ← Text.byteLength_toList, htext, Text.byteLength_append, Text.byteLength_append]
      omega
    · cases hdeep
  · exact fits_of_derive_error hderive

end Clojure
end HiccupReader
