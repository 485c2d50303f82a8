import HiccupReader.Proofs.Clojure.Lacking
import HiccupReader.Proofs.Clojure.Misfit
import HiccupReader.Proofs.Clojure.Stopping

/-! Whether the span of an error can be cut out of its text. It is one byte long when a text is
refused at a place, so that it cuts a longer character there in two. -/

namespace HiccupReader.Clojure

open Matching

structure Slices (text : String) (span : Span) : Prop where
  start : String.Pos.Raw.IsValid text ⟨span.start⟩
  stop : String.Pos.Raw.IsValid text ⟨span.stop⟩
  nonempty : span.start < span.stop

def shown? (text : String) (offset : Nat) : Option Char :=
  match Text.dropBytes offset text.toList with
  | [] => text.toList.getLast?
  | ch :: _ => some ch

variable {text : String} {before after : List Char} {ch : Char}

theorem isValid_iff {offset : Nat} : String.Pos.Raw.IsValid text ⟨offset⟩ ↔
    ∃ before after, text.toList = before ++ after ∧ offset = Text.byteLength before := by
  rw [String.Pos.Raw.isValid_iff_exists_append]
  constructor
  · rintro ⟨front, back, rfl, hoffset⟩
    refine ⟨front.toList, back.toList, String.toList_append, ?_⟩
    rw [Text.byteLength_toList]
    exact congrArg String.Pos.Raw.byteIdx hoffset
  · rintro ⟨before, after, htext, rfl⟩
    refine ⟨String.ofList before, String.ofList after, ?_, ?_⟩
    · rw [← String.ofList_append, ← htext, String.ofList_toList]
    · rw [String.Pos.Raw.ext_iff, String.byteIdx_rawEndPos, ← Text.byteLength_toList,
        String.toList_ofList]

theorem Selects.slices {span : Span} {piece : List Char} (h : Selects text.toList span piece)
    (hne : span.start < span.stop) : Slices text span := by
  obtain ⟨before, after, htext, hstart, hstop⟩ := h
  refine ⟨isValid_iff.2 ⟨before, piece ++ after, ?_, hstart⟩,
    isValid_iff.2 ⟨before ++ piece, after, htext, ?_⟩, hne⟩
  · rw [htext, List.append_assoc]
  · rw [hstop, Text.byteLength_append]

theorem not_isValid_within (h : text.toList = before ++ ch :: after) {offset : Nat}
    (hlt : Text.byteLength before < offset) (hlt' : offset < Text.byteLength before + ch.utf8Size) :
    ¬ String.Pos.Raw.IsValid text ⟨offset⟩ := by
  intro hvalid
  obtain ⟨front, back, hsplit, rfl⟩ := isValid_iff.1 hvalid
  rw [h, List.append_eq_append_iff] at hsplit
  rcases hsplit with ⟨mid, rfl, hmid⟩ | ⟨mid, rfl, -⟩
  · rw [Text.byteLength_append] at hlt hlt'
    cases mid with
    | nil => exact absurd hlt (Nat.lt_irrefl _)
    | cons d mid =>
      obtain ⟨rfl, -⟩ := List.cons.inj hmid
      rw [Text.byteLength_cons] at hlt'
      omega
  · rw [Text.byteLength_append] at hlt
    omega

theorem slices_first_iff (h : text.toList = before ++ ch :: after) :
    Slices text ⟨Text.byteLength before, Text.byteLength before + 1⟩ ↔ ch.utf8Size = 1 := by
  have hpos := ch.utf8Size_pos
  constructor
  · rintro ⟨-, hstop, -⟩
    by_contra hsize
    exact not_isValid_within h (Nat.lt_succ_self _) (by omega) hstop
  · intro hsize
    have hselects : Selects text.toList
        ⟨Text.byteLength before, Text.byteLength before + 1⟩ [ch] := by
      refine ⟨before, after, ?_, rfl, ?_⟩
      · rw [h, List.append_assoc, List.singleton_append]
      · rw [Text.byteLength_cons, hsize, Text.byteLength_nil]
    exact hselects.slices (Nat.lt_succ_self _)

theorem slices_last_iff (h : text.toList = before ++ [ch]) :
    Slices text ⟨text.utf8ByteSize - 1, text.utf8ByteSize⟩ ↔ ch.utf8Size = 1 := by
  have hpos := ch.utf8Size_pos
  have hlength : text.utf8ByteSize = Text.byteLength before + ch.utf8Size := by
    rw [← Text.byteLength_toList, h, Text.byteLength_append, Text.byteLength_cons,
      Text.byteLength_nil, Nat.add_zero]
  rw [hlength]
  constructor
  · rintro ⟨hstart, -, -⟩
    by_contra hsize
    refine not_isValid_within h ?_ ?_ hstart
    · exact Nat.lt_sub_of_add_lt (by omega)
    · exact Nat.sub_lt (by omega) Nat.one_pos
  · intro hsize
    rw [hsize, Nat.add_sub_cancel]
    exact (slices_first_iff h).2 hsize

theorem slices_spotAt_iff (h : text.toList = before ++ after) (hne : text ≠ "") :
    Slices text (spotAt (Text.byteLength before) text.utf8ByteSize) ↔
      ∀ ch ∈ shown? text (Text.byteLength before), ch.utf8Size = 1 := by
  have hlength := Text.byteLength_toList text
  rw [shown?, h, Text.dropBytes_byteLength_append]
  cases after with
  | cons ch after =>
    have hpos := ch.utf8Size_pos
    rw [h, Text.byteLength_append, Text.byteLength_cons] at hlength
    rw [spotAt_of_lt (by omega), slices_first_iff h]
    simp
  | nil =>
    rw [List.append_nil] at h ⊢
    rcases List.eq_nil_or_concat' before with rfl | ⟨front, ch, rfl⟩
    · exact absurd (String.toList_eq_nil_iff.1 h) hne
    · have hsize : 0 < text.utf8ByteSize := by
        rw [Nat.pos_iff_ne_zero, Ne, String.utf8ByteSize_eq_zero_iff]
        exact hne
      rw [spotAt_of_le hsize (h ▸ Nat.le_of_eq hlength.symm), slices_last_iff h]
      simp

theorem isSymbolHead_of_utf8Size (h : ch.utf8Size ≠ 1) : isSymbolHead ch = true := by
  rw [Ne, Char.utf8Size_eq_one_iff, UInt32.not_le] at h
  have other : ∀ d : Char, d.toNat ≤ 127 → ch ≠ d := by
    rintro d hd rfl
    exact Nat.not_lt_of_le hd (UInt32.lt_iff_toNat_lt.1 h)
  have hdigit : ch.isDigit = false := by
    rw [Char.isDigit, Bool.and_eq_false_iff]
    right
    rw [decide_eq_false_iff_not, UInt32.not_le]
    exact UInt32.lt_trans (by decide) h
  have hall : (delimiters ++ [':', '#', '\x27']).all (·.toNat ≤ 127) = true := by decide
  have hne : ∀ d ∈ delimiters ++ [':', '#', '\x27'], ch ≠ d := fun d hd =>
    other d (of_decide_eq_true (List.all_eq_true.1 hall d hd))
  have hdelimiters : ch ∉ delimiters := fun hmem => hne ch (List.mem_append_left _ hmem) rfl
  have hmarks : ∀ d ∈ [':', '#', '\x27'], ch ≠ d := fun d hd => hne d (List.mem_append_right _ hd)
  simp [isSymbolHead, isSymbolChar, hdigit, hdelimiters, hmarks]

theorem utf8Size_of_barren {cs : List Char} (h : Barren (ch :: cs)) : ch.utf8Size = 1 := by
  by_contra hsize
  have hsymbol : symbolText (ch :: cs) =
      some (ch :: cs.takeWhile isSymbolChar, cs.dropWhile isSymbolChar) := by
    simp [symbolText, Recogniser.inOrder, Recogniser.oneOf, Recogniser.run,
      isSymbolHead_of_utf8Size hsize]
  exact absurd (hsymbol.symm.trans (h .symbol)) (Option.some_ne_none _)

theorem slices_reached_iff {d : Cursor} (h : (Cursor.start text.toList).Reaches d)
    (hne : text ≠ "") : Slices text (spotAt d.offset text.utf8ByteSize) ↔
      ∀ ch ∈ shown? text d.offset, ch.utf8Size = 1 := by
  obtain ⟨before, htext, hoffset⟩ := h
  have hbefore : d.offset = Text.byteLength before := hoffset.trans (Nat.zero_add _)
  rw [hbefore]
  exact slices_spotAt_iff htext.symm hne

theorem slices_of_lex_error {frontier : Frontier Goal}
    (h : lex text = .error (.unexpected frontier)) :
    Slices text (spotAt frontier.offset text.utf8ByteSize) := by
  obtain ⟨d, hreach, hoffset, hbarren, hne⟩ := exists_barren_of_lex_error h
  rw [← hoffset, slices_reached_iff hreach (fits_of_lex_error h), shown?, hreach.dropBytes_eq]
  obtain ⟨ch, rest, hrest⟩ := List.exists_cons_of_ne_nil hne
  rw [hrest] at hbarren ⊢
  intro other hother
  obtain rfl := Option.some.inj hother
  exact utf8Size_of_barren hbarren

theorem exists_reached_of_parse_error {frontier : Frontier Goal}
    (h : parse text = .error (.unexpected frontier)) :
    ∃ d, (Cursor.start text.toList).Reaches d ∧ d.offset = frontier.offset := by
  rcases lex_or_derive_of_parse_error h with hlex | ⟨tokens, -, hderive⟩
  · obtain ⟨d, hreach, hoffset, -, -⟩ := exists_barren_of_lex_error hlex
    exact ⟨d, hreach, hoffset⟩
  · obtain ⟨d, hreach, hoffset, -⟩ := (lacks_of_derive_error hderive).place
    exact ⟨d, hreach, hoffset⟩

theorem slices_of_tooDeep {place : Span} (h : parse text = .error (.tooDeep place)) :
    Slices text place := by
  rcases bind_eq_error_iff.1 h with hlex | ⟨tokens, hlex, hrest⟩
  · obtain ⟨_, _, _, -, -, herror, -⟩ := exists_lexedUpTo_of_error hlex
    cases herror
  rcases bind_eq_error_iff.1 hrest with hdeep | ⟨_, -, hderive⟩
  · unfold checkNesting at hdeep
    split at hdeep
    · next token htoken =>
      obtain rfl := SyntaxError.tooDeep.inj (Except.error.inj hdeep)
      have hcovers := covers_of_lex hlex
      have hmem := Nesting.mem_of_firstTooDeep? htoken
      exact (hcovers.selected token hmem).slices (hcovers.nonempty token hmem)
    · cases hdeep
  · obtain ⟨frontier, herror⟩ := exists_unexpected_of_outcome hderive
    cases herror

/-- The span of an error can be cut out of its text exactly if the character that it is shown at
has one byte. The lexer shows no other one. -/
theorem span_slices_iff (source : Source) (error : SyntaxError) :
    (lex source.text = .error error → ∃ span, (error.diagnostic source).span? = some span ∧
      Slices source.text span) ∧
    (parse source.text = .error error → ∃ span, (error.diagnostic source).span? = some span ∧
      (Slices source.text span ↔ ∀ frontier, error = .unexpected frontier →
        ∀ ch ∈ shown? source.text frontier.offset, ch.utf8Size = 1)) := by
  refine ⟨fun hlex => ?_, fun hparse => ?_⟩
  · obtain ⟨-, -, frontier, -, -, rfl, -⟩ := exists_lexedUpTo_of_error hlex
    exact ⟨_, rfl, slices_of_lex_error hlex⟩
  · cases error with
    | unexpected frontier =>
      obtain ⟨d, hreach, hoffset⟩ := exists_reached_of_parse_error hparse
      have hiff := slices_reached_iff hreach (fits_of_parse_error hparse)
      rw [hoffset] at hiff
      refine ⟨_, rfl, fun hslices frontier' herror => ?_, fun hshown => hiff.2 (hshown _ rfl)⟩
      obtain rfl := SyntaxError.unexpected.inj herror
      exact hiff.1 hslices
    | tooDeep place =>
      have hslices := slices_of_tooDeep hparse
      exact ⟨place, rfl, fun _ _ herror => (nomatch herror), fun _ => hslices⟩

theorem span_slices_behind_symbol : ∃ lexed parsed, lex "é \"" = .error lexed ∧
    parse "é (" = .error parsed ∧
    (∃ span, (lexed.diagnostic ⟨"a", "é \""⟩).span? = some span ∧ Slices "é \"" span) ∧
    ∃ span, (parsed.diagnostic ⟨"a", "é ("⟩).span? = some span ∧
      (Slices "é (" span ↔ ∀ frontier, parsed = .unexpected frontier →
        ∀ ch ∈ shown? "é (" frontier.offset, ch.utf8Size = 1) := by
  have hlex : misfit? (lex "é \"") = some 3 := by decide +kernel
  have hparse : misfit? (parse "é (") = some 4 := by decide +kernel
  obtain ⟨lexed, hlexed, -⟩ := exists_unexpected_of_misfit? hlex
  obtain ⟨parsed, hparsed, -⟩ := exists_unexpected_of_misfit? hparse
  exact ⟨_, _, hlexed, hparsed, (span_slices_iff ⟨"a", "é \""⟩ _).1 hlexed,
    (span_slices_iff ⟨"a", "é ("⟩ _).2 hparsed⟩

/-- Behind a bracket that is not closed, a last letter of two bytes is cut in two. -/
theorem not_span_slices : ¬ ∀ (source : Source) (error : SyntaxError),
    lex source.text = .error error ∨ parse source.text = .error error →
      ∃ span, (error.diagnostic source).span? = some span ∧ Slices source.text span := by
  intro hslices
  have hplace : misfit? (parse "(é") = some 3 := by decide +kernel
  obtain ⟨frontier, hparse, hoffset⟩ := exists_unexpected_of_misfit? hplace
  obtain ⟨span, hspan, hstart, -, -⟩ := hslices ⟨"a", "(é"⟩ _ (.inr hparse)
  have hspot : spotAt frontier.offset "(é".utf8ByteSize = ⟨2, 3⟩ := by
    rw [hoffset]
    decide
  obtain rfl := Option.some.inj (hspan.symm.trans (congrArg some hspot))
  have hcut : ¬ String.Pos.Raw.IsValid "(é" ⟨2⟩ := by decide
  exact hcut hstart

end HiccupReader.Clojure
