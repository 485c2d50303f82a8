import HiccupReader.Yaml.Document
import HiccupReader.Yaml.Writing
import Mathlib.Data.List.Basic

/-! Reading back what was written on one line of a YAML text: a plain scalar or one in single
quotes, up to the end of its line. The next line begins with a token, so that no scalar goes on
there. -/

namespace HiccupReader.Yaml

def IsInline (c : Char) : Prop := isWritable c = true ∧ isBreak c = false

def StartsLine : List Char → Prop
  | [] => True
  | c :: _ => isBreak c = false ∧ isBlank c = false ∧ c ≠ '#' ∧ c ≠ byteOrderMark

section places

variable {flow fresh : Bool} {line column : Nat} {cs rest : List Char} {c : Char}

theorem isBreak_newline : isBreak '\n' = true := rfl

theorem inline_of_all (h : (cs.all fun c => isWritable c && !isBreak c) = true) :
    ∀ c ∈ cs, IsInline c := by
  simpa [IsInline] using h

theorem wordEnds_append_newline (cs rest : List Char) :
    wordEnds (cs ++ '\n' :: rest) = wordEnds cs := by
  cases cs <;> rfl

theorem IsInline.ne_tab (h : IsInline c) : c ≠ '\t' := by
  rintro rfl
  exact absurd h.1 (by decide)

theorem IsInline.ne_mark (h : IsInline c) : c ≠ byteOrderMark := by
  rintro rfl
  exact absurd h.1 (by decide)

theorem IsInline.isBlank_iff (h : IsInline c) : isBlank c = true ↔ c = ' ' := by
  simp [isBlank, h.ne_tab]

theorem skip_of_startsLine (h : StartsLine cs) :
    skip false false line column fresh cs = ⟨line, column, fresh, cs⟩ := by
  cases cs with
  | nil => rfl
  | cons c cs =>
    obtain ⟨hbreak, hblank, hcomment, hmark⟩ := h
    simp only [isBlank, Bool.or_eq_false_iff, beq_eq_false_iff_ne] at hblank
    simp [skip, hbreak, hblank, hcomment, hmark]

theorem skip_blank :
    skip flow false line column fresh (' ' :: cs) =
      skip flow false line (column + 1) fresh cs := by
  have hblank : isBreak ' ' = false ∧ ' ' ≠ byteOrderMark := ⟨rfl, by decide⟩
  simp [skip, hblank]

theorem skip_newline (h : StartsLine rest) :
    skip false false line column fresh ('\n' :: rest) = ⟨line + 1, 0, true, rest⟩ := by
  rw [skip, if_pos isBreak_newline, skip_of_startsLine h]

theorem lineDone_newline (h : StartsLine rest) :
    lineDone ⟨line, column, fresh, '\n' :: rest⟩ = some ⟨line + 1, 0, true, rest⟩ := by
  simp [lineDone, Place.next, skip_newline h]

end places

section plain

variable {indent line column : Nat} {text cs rest : List Char}

theorem plainFrom_newline (hindent : 0 < indent) (h : StartsLine rest) :
    plainFrom false indent line column .none text ('\n' :: rest) =
      some (⟨String.ofList text.reverse, true⟩, ⟨line + 1, 0, true, rest⟩) := by
  rw [plainFrom]
  cases rest with
  | nil => simp [plainFrom, isBreak_newline, Gap.none, Gap.addBreak, Gap.hasBreaks]
  | cons c rest =>
    obtain ⟨hbreak, hblank, -, -⟩ := h
    rw [plainFrom]
    simp [hbreak, hblank, hindent, isBreak_newline, Gap.none, Gap.addBreak, Gap.hasBreaks]

theorem plainFrom_line (line column : Nat) (previous : Char) (text blanks : List Char)
    (hindent : 0 < indent) (hrest : StartsLine rest) (hcolumn : 0 < column)
    (hinline : ∀ c ∈ cs, IsInline c) (hbreaks : breaksOff previous cs = false)
    (hprevious : blanks ≠ [] → isBlank previous = true) (hend : cs = [] → blanks = [])
    (hlast : cs.getLast? ≠ some ' ') :
    plainFrom false indent line column (.blanks blanks) text (cs ++ '\n' :: rest) =
      some (⟨String.ofList (text.reverse ++ blanks ++ cs), true⟩, ⟨line + 1, 0, true, rest⟩) := by
  induction cs generalizing column previous text blanks with
  | nil =>
    obtain rfl := hend rfl
    rw [List.append_nil, List.append_nil]
    exact plainFrom_newline hindent hrest
  | cons c cs ih =>
    obtain ⟨hc, hcs⟩ := List.forall_mem_cons.1 hinline
    rw [breaksOff, Bool.or_eq_false_iff, Bool.or_eq_false_iff] at hbreaks
    obtain ⟨⟨hcolon, hcomment⟩, hrestBreaks⟩ := hbreaks
    have hlast' : cs.getLast? ≠ some ' ' := by
      cases cs with
      | nil => simp
      | cons d cs => rwa [List.getLast?_cons_cons] at hlast
    rw [List.cons_append, plainFrom]
    by_cases hblank : isBlank c = true
    · obtain rfl := hc.isBlank_iff.1 hblank
      have hne : cs ≠ [] := by
        rintro rfl
        exact hlast rfl
      have hnext := ih (column + 1) ' ' text (blanks ++ [' ']) (Nat.succ_pos _) hcs hrestBreaks
        (fun _ => hblank) (fun h => absurd h hne) hlast'
      simpa [hc.2, hblank, Gap.addBlank] using hnext
    · have hnext := ih (column + 1) c (c :: (blanks.reverse ++ text)) [] (Nat.succ_pos _) hcs
        hrestBreaks (fun h => absurd rfl h) (fun _ => rfl) hlast'
      have hword : ¬ (c = ':' ∧ wordEnds cs = true) := by
        rintro ⟨rfl, hends⟩
        simp [hends] at hcolon
      have hsign : blanks ≠ [] → c ≠ '#' := by
        rintro hblanks rfl
        simp [hprevious hblanks] at hcomment
      have hgap : ¬ ((Gap.blanks blanks).isNone = false ∧ c = '#') := by
        cases blanks with
        | nil => simp [Gap.isNone]
        | cons b bs => simp [hsign]
      simpa [hc.2, hblank, hword, hgap, Gap.hasBreaks, wordEnds_append_newline,
        Nat.pos_iff_ne_zero.1 hcolumn, Gap.fold, Gap.none] using hnext

structure PlainFront (c : Char) (cs : List Char) : Prop where
  not_mark : c ∉ ['#', ',', '[', ']', '\x7b', '\x7d', '&', '*', '!', '|', '>', '\x27', '"', '%', '@',
    '\x60']
  begins_word : c = '?' ∨ c = ':' ∨ c = '-' → wordEnds cs = false
  unbroken : breaksOff c cs = false
  ne_blank : c ≠ ' '
  last_ne_blank : (c :: cs).getLast? ≠ some ' '

theorem plainFront_of_canBePlain {c : Char} (h : canBePlain (c :: cs) = true) :
    PlainFront c cs := by
  simp only [canBePlain, startsSpecial, Bool.not_eq_true', Bool.or_eq_false_iff,
    List.contains_eq_mem, decide_eq_false_iff_not, List.head?_cons, beq_eq_false_iff_ne, ne_eq,
    Option.some.injEq, Bool.and_eq_false_iff] at h
  obtain ⟨⟨⟨⟨⟨⟨⟨hmark, hword⟩, hunbroken⟩, -⟩, -⟩, -⟩, hblank⟩, hlast⟩ := h
  exact ⟨hmark, by tauto, hunbroken, hblank, hlast⟩

variable {c : Char}

theorem PlainFront.startsLine (h : PlainFront c cs) (hc : IsInline c) :
    StartsLine (c :: cs ++ '\n' :: rest) := by
  refine ⟨hc.2, ?_, fun heq => h.not_mark (by simp [heq]), hc.ne_mark⟩
  rw [← Bool.not_eq_true, hc.isBlank_iff]
  exact h.ne_blank

theorem PlainFront.startsPlain (h : PlainFront c cs) (hc : IsInline c) :
    startsPlain false (c :: cs ++ '\n' :: rest) = true := by
  have hblank : isBlank c = false := by
    rw [← Bool.not_eq_true, hc.isBlank_iff]
    exact h.ne_blank
  have hword := h.begins_word
  have hmark := h.not_mark
  rw [List.cons_append, Yaml.startsPlain, wordEnds_append_newline]
  split
  · next hdash => simp [hword (.inr (.inr hdash))]
  · next hdash =>
    split
    · next hsign =>
      rw [hword (hsign.elim .inl fun hcolon => .inr (.inl hcolon))]
      rfl
    · next hsign =>
      rw [not_or] at hsign
      simp only [List.mem_cons, not_or] at hmark
      simp [hblank, hc.2, indicators, hdash, hsign, hmark]

theorem scalarAt_plain {fresh : Bool} (hindent : 0 < indent) (hcolumn : 0 < column)
    (hinline : ∀ c ∈ cs, IsInline c) (hne : cs ≠ []) (hplain : canBePlain cs = true)
    (hrest : StartsLine rest) :
    scalarAt false indent ⟨line, column, fresh, cs ++ '\n' :: rest⟩ =
      some (⟨String.ofList cs, true⟩, ⟨line + 1, 0, true, rest⟩) := by
  cases cs with
  | nil => exact absurd rfl hne
  | cons c cs =>
    have hfront := plainFront_of_canBePlain hplain
    have hmark := hfront.not_mark
    have hbreaks : breaksOff ' ' (c :: cs) = false := by
      have hcolon : c = ':' → wordEnds cs = false := fun heq =>
        hfront.begins_word (.inr (.inl heq))
      simp only [List.mem_cons, not_or] at hmark
      simpa [breaksOff, hfront.unbroken, hmark.1] using hcolon
    have hscalar := plainFrom_line line column ' ' [] [] hindent hrest hcolumn hinline hbreaks
      (fun h => absurd rfl h) (fun _ => rfl) hfront.last_ne_blank
    rw [scalarAt, if_neg fun h => Nat.pos_iff_ne_zero.1 hcolumn h.1]
    split
    · next heq => exact absurd (List.cons.inj heq).1 fun h => hmark (by simp [h])
    · next heq => exact absurd (List.cons.inj heq).1 fun h => hmark (by simp [h])
    · rw [if_pos (hfront.startsPlain (hinline c (List.mem_cons_self ..)))]
      exact hscalar

end plain

section quoted

variable {column : Nat} {cs : List Char}

theorem quotedFrom_line (line column : Nat) (text blanks rest : List Char) (hcolumn : 0 < column)
    (hinline : ∀ c ∈ cs, IsInline c) :
    ∃ column', quotedFrom true .inside line column (.blanks blanks) text
        (singleQuotedFrom false cs ++ '\x27' :: '\n' :: rest) =
      some (⟨String.ofList (text.reverse ++ blanks ++ cs), false⟩,
        ⟨line, column', false, '\n' :: rest⟩) := by
  have hmark : isBreak '\x27' = false ∧ isBlank '\x27' = false := ⟨rfl, rfl⟩
  induction cs generalizing column text blanks with
  | nil =>
    refine ⟨column + 1, ?_⟩
    simp [singleQuotedFrom, quotedFrom, hmark, Nat.pos_iff_ne_zero.1 hcolumn, Gap.fold]
  | cons c cs ih =>
    obtain ⟨hc, hcs⟩ := List.forall_mem_cons.1 hinline
    by_cases hquote : c = '\x27'
    · subst hquote
      obtain ⟨column', hnext⟩ := ih (column + 2) ('\x27' :: (blanks.reverse ++ text)) []
        (Nat.succ_pos _) hcs
      refine ⟨column', ?_⟩
      simpa [singleQuotedFrom, quotedFrom, hmark, Nat.pos_iff_ne_zero.1 hcolumn, Gap.fold,
        Gap.none] using hnext
    · by_cases hblank : isBlank c = true
      · obtain ⟨column', hnext⟩ := ih (column + 1) text (blanks ++ [c]) (Nat.succ_pos _) hcs
        refine ⟨column', ?_⟩
        simpa [singleQuotedFrom, quotedFrom, hquote, hc.2, hblank, Gap.addBlank] using hnext
      · obtain ⟨column', hnext⟩ := ih (column + 1) (c :: (blanks.reverse ++ text)) []
          (Nat.succ_pos _) hcs
        refine ⟨column', ?_⟩
        simpa [singleQuotedFrom, quotedFrom, hquote, hc.2, hblank,
          Nat.pos_iff_ne_zero.1 hcolumn, Gap.fold, Gap.none] using hnext

theorem scalarAt_singleQuoted (indent line : Nat) (fresh : Bool) (rest : List Char)
    (hcolumn : 0 < column) (hinline : ∀ c ∈ cs, IsInline c) :
    ∃ column', scalarAt false indent ⟨line, column, fresh, singleQuoted cs ++ '\n' :: rest⟩ =
      some (⟨String.ofList cs, false⟩, ⟨line, column', false, '\n' :: rest⟩) := by
  obtain ⟨column', hquoted⟩ := quotedFrom_line line (column + 1) [] [] rest (Nat.succ_pos _) hinline
  refine ⟨column', ?_⟩
  rw [scalarAt, if_neg fun h => Nat.pos_iff_ne_zero.1 hcolumn h.1]
  simpa [singleQuoted, Gap.none] using hquoted

end quoted

section written

variable {text : String} {cs rest : List Char} {c : Char} {line column : Nat} {fresh : Bool}

theorem blankBeforeBreak_of_inline (h : ∀ c ∈ cs, IsInline c) : blankBeforeBreak cs = false := by
  fun_induction blankBeforeBreak cs <;> simp_all [IsInline]

theorem blankStartsLine_of_inline (h : ∀ c ∈ cs, IsInline c) : blankStartsLine cs = false := by
  fun_induction blankStartsLine cs <;> simp_all [IsInline]

theorem newline_not_mem_of_inline (h : ∀ c ∈ cs, IsInline c) : '\n' ∉ cs := fun hmem =>
  absurd (h _ hmem).2 (by decide)

theorem written_eq (h : ∀ c ∈ text.toList, IsInline c) :
    written text = if isPlainText text && canBePlain text.toList then text.toList
      else singleQuoted text.toList := by
  have hwritable : text.toList.all isWritable = true := List.all_eq_true.2 fun c hc => (h c hc).1
  simp [written, hwritable, newline_not_mem_of_inline h, blankBeforeBreak_of_inline h,
    blankStartsLine_of_inline h]

theorem startsLine_written (h : ∀ c ∈ text.toList, IsInline c) :
    StartsLine (written text ++ '\n' :: rest) := by
  rw [written_eq h]
  split
  · next hplain =>
    rw [Bool.and_eq_true] at hplain
    cases htext : text.toList with
    | nil => simp_all [isPlainText]
    | cons c cs =>
      rw [htext] at h hplain
      exact (plainFront_of_canBePlain hplain.2).startsLine (h c (List.mem_cons_self ..))
  · exact ⟨rfl, rfl, by decide, by decide⟩

theorem mem_singleQuotedFrom (h : ∀ c ∈ cs, IsInline c) (hc : c ∈ singleQuotedFrom false cs) :
    c ∈ cs ∨ c = '\x27' := by
  induction cs with
  | nil => cases hc
  | cons d cs ih =>
    obtain ⟨hd, hcs⟩ := List.forall_mem_cons.1 h
    rw [singleQuotedFrom, if_neg (by simp [hd.2]), List.append_assoc, List.mem_append] at hc
    rw [List.mem_cons]
    rcases hc with hc | hc
    · cases hc
    · rcases List.mem_append.1 hc with hfirst | hrest
      · split at hfirst <;> simp at hfirst <;> tauto
      · exact (ih hcs hrest).imp_left .inr

theorem inline_of_mem_written (h : ∀ c ∈ text.toList, IsInline c) (hc : c ∈ written text) :
    IsInline c := by
  have hquote : IsInline '\x27' := ⟨by decide, rfl⟩
  rw [written_eq h] at hc
  split at hc
  · exact h c hc
  · rw [singleQuoted, List.mem_cons, List.mem_append, List.mem_singleton] at hc
    rcases hc with rfl | hc | rfl
    · exact hquote
    · rcases mem_singleQuotedFrom h hc with hmem | rfl
      · exact h c hmem
      · exact hquote
    · exact hquote

theorem lineDone_startsLine (h : StartsLine rest) :
    lineDone ⟨line, 0, true, rest⟩ = some ⟨line, 0, true, rest⟩ := by
  simp [lineDone, Place.next, skip_of_startsLine h]

theorem blockNode_eq_some {p between later : Place} {s : Scalar} (hbar : p.startsBlock = false)
    (hscalar : scalarAt false (column + 1) p = some (s, between))
    (hdone : lineDone between = some later) : blockNode column p = some (s, later) := by
  rw [blockNode]
  split
  · next heq => simp [Place.startsBlock, heq] at hbar
  · next heq => simp [Place.startsBlock, heq] at hbar
  · simp [hscalar, hdone]

theorem blockNode_plain (line : Nat) (fresh : Bool) (hcolumn : 0 < column)
    (hinline : ∀ c ∈ cs, IsInline c) (hne : cs ≠ []) (hplain : canBePlain cs = true)
    (hrest : StartsLine rest) :
    blockNode 0 ⟨line, column, fresh, cs ++ '\n' :: rest⟩ =
      some (⟨String.ofList cs, true⟩, ⟨line + 1, 0, true, rest⟩) := by
  have hbar : Place.startsBlock ⟨line, column, fresh, cs ++ '\n' :: rest⟩ = false := by
    cases cs with
    | nil => exact absurd rfl hne
    | cons c cs =>
      have hmark := (plainFront_of_canBePlain hplain).not_mark
      simp only [List.mem_cons, not_or] at hmark
      simp [Place.startsBlock, hmark]
  exact blockNode_eq_some hbar (scalarAt_plain Nat.one_pos hcolumn hinline hne hplain hrest)
    (lineDone_startsLine hrest)

theorem blockNode_singleQuoted (line : Nat) (fresh : Bool) (hcolumn : 0 < column)
    (hinline : ∀ c ∈ cs, IsInline c) (hrest : StartsLine rest) :
    blockNode 0 ⟨line, column, fresh, singleQuoted cs ++ '\n' :: rest⟩ =
      some (⟨String.ofList cs, false⟩, ⟨line + 1, 0, true, rest⟩) := by
  obtain ⟨column', hscalar⟩ := scalarAt_singleQuoted 1 line fresh rest hcolumn hinline
  exact blockNode_eq_some rfl hscalar (lineDone_newline hrest)

theorem blockNode_written (line : Nat) (fresh : Bool) (hcolumn : 0 < column)
    (hinline : ∀ c ∈ text.toList, IsInline c) (hrest : StartsLine rest) :
    ∃ s, s.text = text ∧ blockNode 0 ⟨line, column, fresh, written text ++ '\n' :: rest⟩ =
      some (s, ⟨line + 1, 0, true, rest⟩) := by
  rw [written_eq hinline]
  split
  · next hplain =>
    rw [Bool.and_eq_true] at hplain
    have hne : text.toList ≠ [] := by
      intro hempty
      obtain rfl := String.toList_eq_nil_iff.1 hempty
      exact absurd hplain.1 (by decide)
    exact ⟨_, String.ofList_toList, blockNode_plain line fresh hcolumn hinline hne hplain.2
      hrest⟩
  · exact ⟨_, String.ofList_toList, blockNode_singleQuoted line fresh hcolumn hinline hrest⟩

end written

end HiccupReader.Yaml
