import HiccupReader.Proofs.Clojure.Forms
import HiccupReader.Proofs.Clojure.Moving
import HiccupReader.Proofs.Clojure.Stopping

/-! Texts one behind the other, each on lines of its own. Their tokens and their forms stand one
behind the other too, unless a tag hides a comment, which the end of a line would close. -/

namespace HiccupReader.Clojure

open Matching Text

variable {P : TokenKind → List Char → Prop} {cs : List Char} {ts : List Token} {stop : Cursor}

theorem skipTrivia_gap {gap : List Char} (h : Trivia False gap) (offset : Nat) (cs : List Char) :
    skipTrivia ⟨offset, gap ++ cs⟩ = skipTrivia ⟨offset + byteLength gap, cs⟩ := by
  have hrest := h.splitTrivia_append cs
  have hfirst : (splitTrivia false (gap ++ cs)).1 = gap ++ (splitTrivia false cs).1 := by
    have hwhole := splitTrivia_append false (gap ++ cs)
    have hpart := splitTrivia_append false cs
    rw [hrest] at hwhole
    refine List.append_cancel_right (hwhole.trans ?_)
    rw [List.append_assoc, hpart]
  simp only [skipTrivia, Cursor.advance, hrest, hfirst, byteLength_append, Nat.add_assoc]

theorem trivia_of_skip_eq_nil (h : (skipTrivia stop).rest = []) : Trivia True stop.rest := by
  have hrest : (splitTrivia false stop.rest).2 = [] := h
  have hwhole := splitTrivia_append false stop.rest
  have htrivia := trivia_splitTrivia stop.rest
  rw [hrest, List.append_nil] at hwhole
  rw [hwhole] at htrivia
  exact htrivia.mono fun _ => trivial

theorem skipTrivia_line (hreach : (Cursor.start cs).Reaches stop)
    (hend : (skipTrivia stop).rest = []) (more : List Char) :
    skipTrivia ⟨stop.offset, stop.rest ++ '\n' :: more⟩ =
      (skipTrivia (.start more)).shift (byteLength cs + 1) := by
  have hline := (trivia_of_skip_eq_nil hend).line (e := '\n') rfl
  have hsize : stop.offset + byteLength (stop.rest ++ ['\n']) = 0 + (byteLength cs + 1) := by
    have hbytes : stop.offset + byteLength stop.rest = 0 + byteLength cs := hreach.end_eq
    rw [byteLength_append, ← Nat.add_assoc, hbytes, Nat.add_assoc]
    rfl
  rw [List.append_cons, skipTrivia_gap hline, hsize, ← skipTrivia_shift]
  rfl

theorem parted_line (rest more : List Char) : Parted rest (rest ++ '\n' :: more) := by
  have hapart : Apart ('\n' :: more) := by
    intro c hc
    obtain rfl := Option.some.inj hc
    exact .inl rfl
  have hparted : Parted (rest ++ []) (rest ++ '\n' :: more) := (Parted.here hapart).append rest
  rwa [List.append_nil] at hparted

theorem exists_behind_line (h : Spells P (.start cs) ts stop) (hend : (skipTrivia stop).rest = [])
    (more : List Char) (hexchange : ∀ {w}, cs = w ++ stop.rest →
      Spells P ⟨0, w ++ (stop.rest ++ '\n' :: more)⟩ ts ⟨stop.offset, stop.rest ++ '\n' :: more⟩) :
    ∃ d, Spells P (.start (cs ++ '\n' :: more)) ts d ∧
      skipTrivia d = (skipTrivia (.start more)).shift (byteLength cs + 1) := by
  obtain ⟨w, hw, -⟩ := h.reaches
  obtain rfl : w ++ stop.rest = cs := hw
  have hspells := hexchange rfl
  rw [← List.append_assoc] at hspells
  exact ⟨_, hspells, skipTrivia_line h.reaches hend more⟩

def joinLines (s₁ s₂ : String) : String := s₁ ++ "\n" ++ s₂

theorem toList_joinLines (s₁ s₂ : String) :
    (joinLines s₁ s₂).toList = s₁.toList ++ '\n' :: s₂.toList := by
  simp [joinLines]

def behind (s₁ : String) : Nat := s₁.utf8ByteSize + 1

variable {s₁ s₂ : String} {ts₁ ts₂ : List Token}

theorem LexedUpTo.behind_line (h₂ : LexedUpTo (.start s₂.toList) ts₂ stop) (h₁ : lex s₁ = .ok ts₁) :
    ∃ d, LexedUpTo (.start (joinLines s₁ s₂).toList) (ts₁ ++ ts₂.map (Token.shift (behind s₁))) d ∧
      skipTrivia d = (skipTrivia stop).shift (behind s₁) := by
  obtain ⟨stop₁, hspells, hend⟩ := exists_spells_of_lex h₁
  obtain ⟨d, hfirst, hd⟩ := exists_behind_line hspells hend s₂.toList fun hw =>
    hspells.exchange_preferred (parted_line _ _) hw
  rw [byteLength_toList, ← skipTrivia_shift] at hd
  obtain ⟨e, hsecond, he⟩ := (h₂.spells.shift (behind s₁)).exists_of_skip_eq hd
  rw [skipTrivia_shift] at he
  rw [toList_joinLines]
  refine ⟨e, ⟨hfirst.append hsecond, ?_⟩, he⟩
  rw [he]
  exact h₂.barren

theorem lex_joinLines (h₁ : lex s₁ = .ok ts₁) (h₂ : lex s₂ = .ok ts₂) :
    lex (joinLines s₁ s₂) = .ok (ts₁ ++ ts₂.map (Token.shift (behind s₁))) := by
  obtain ⟨stop₂, hspells, hend⟩ := exists_spells_of_lex h₂
  obtain ⟨d, hlexed, hd⟩ := LexedUpTo.behind_line ⟨hspells, barren_of_nil hend⟩ h₁
  exact lex_of_spells hlexed.spells (by rw [hd]; exact hend)

theorem span?_of_lexedUpTo {text : String} {frontier : Frontier Goal}
    (h : LexedUpTo (.start text.toList) ts stop) (hne : (skipTrivia stop).rest ≠ [])
    (hoffset : frontier.offset = (skipTrivia stop).offset) (name : String) :
    ((SyntaxError.unexpected frontier).diagnostic ⟨name, text⟩).span? =
      some ⟨(skipTrivia stop).offset, (skipTrivia stop).offset + 1⟩ := by
  have hreach := h.spells.reaches.trans (reaches_skipTrivia stop)
  have hsize := hreach.end_eq
  have hrest := length_le_byteLength (skipTrivia stop).rest
  have hpos := List.length_pos_iff.2 hne
  have hstart : (skipTrivia stop).offset + byteLength (skipTrivia stop).rest =
      text.utf8ByteSize := by
    rw [hsize, ← byteLength_toList]
    exact Nat.zero_add _
  rw [SyntaxError.diagnostic, hoffset]
  exact congrArg some (spotAt_of_lt (by show _ < text.utf8ByteSize; omega))

theorem lex_joinLines_error {error : SyntaxError} (h₁ : lex s₁ = .ok ts₁)
    (h₂ : lex s₂ = .error error) :
    ∃ error', lex (joinLines s₁ s₂) = .error error' ∧ ∀ name, ∃ span,
      (error.diagnostic ⟨name, s₂⟩).span? = some span ∧
        (error'.diagnostic ⟨name, joinLines s₁ s₂⟩).span? =
          some (span.shift (behind s₁)) := by
  obtain ⟨ts₂, stop₂, frontier, hlexed₂, hne, rfl, hoffset⟩ := exists_lexedUpTo_of_error h₂
  obtain ⟨d, hlexed, hd⟩ := hlexed₂.behind_line h₁
  have hne' : (skipTrivia d).rest ≠ [] := by rwa [hd]
  obtain ⟨frontier', herror, hoffset'⟩ := hlexed.exists_error hne'
  refine ⟨_, herror, fun name => ⟨_, span?_of_lexedUpTo hlexed₂ hne hoffset name, ?_⟩⟩
  rw [span?_of_lexedUpTo hlexed hne' hoffset' name, hd, Span.shift, Cursor.shift]
  simp only [Nat.add_right_comm]

theorem levelsAfter_eq_nil_of_parse {text : String} {tree : Tree} (h : parse text = .ok tree)
    (hvisible : ∀ token ∈ tree.tokens, ¬ HidesComment token.text) (hlex : lex text = .ok ts) :
    Nesting.levelsAfter [] ts = [] := by
  obtain ⟨tokens, js, d, hlexed, -, hvalid, hroot, -, hkinds, hrecut⟩ :=
    exists_recut_of_parse h hvisible
  obtain rfl : ts = tokens := Except.ok.inj (hlex.symm.trans hlexed)
  rw [Nesting.levelsAfter_eq hkinds]
  exact Nesting.after_eq_nil_of_recut (Nesting.formed_of_valid hvalid (by rw [hroot]; rfl)) hrecut

theorem exists_formItems_of_parse {t₁ : Tree} (h : parse s₁ = .ok t₁)
    (hvisible : ∀ token ∈ t₁.tokens, ¬ HidesComment token.text) (s₂ : String) :
    ∃ mid, FormItems (skipTrivia (.start (joinLines s₁ s₂).toList)) t₁.topForms mid ∧
      skipTrivia mid = skipTrivia ((Cursor.start s₂.toList).shift (behind s₁)) := by
  obtain ⟨tokens, -, -, hderive⟩ := parse_eq_ok_iff.1 h
  obtain ⟨stop, hsettles, hend⟩ := exists_settles_of_parse h hvisible
  obtain ⟨c, hread⟩ := derive_eq_ok_iff.1 hderive
  obtain ⟨d, hvalid, hroot, hkinds, hshape⟩ := exists_code_of_derives (derives_of_reading hread)
  have hformed := Nesting.formed_of_valid hvalid (by rw [hroot]; rfl)
  obtain ⟨e, hspells, he⟩ := exists_behind_line hsettles hend s₂.toList fun hw =>
    hsettles.exchange_settles hkinds hformed.endsForm (parted_line _ _) hw
  rw [byteLength_toList, ← skipTrivia_shift] at he
  rw [toList_joinLines]
  obtain ⟨mid, hspells, hmid⟩ := hspells.exists_of_skip_eq (skipTrivia_skipTrivia _)
  cases d with
  | leaf k => cases hroot
  | node r ds =>
    obtain rfl := Symbol.rule.inj hroot
    obtain ⟨us, hitems, hmatches⟩ := exists_formItems_of_valid hvalid ⟨hspells, hkinds⟩
    obtain ⟨last, hforms, -, outer, inner, htree⟩ := exists_items_of_derive hderive
    have hmatches₁ : Matches ds t₁.topForms t₁.leaves :=
      ⟨(leaves_eq_of_topForms htree).symm, map_treeShape_topForms hshape⟩
    obtain rfl := hitems.eq_of_matches hforms hmatches hmatches₁
    exact ⟨mid, hitems, hmid.trans he⟩

theorem exists_parse_joinLines {t₁ t₂ : Tree} (h₁ : parse s₁ = .ok t₁)
    (hvisible : ∀ token ∈ t₁.tokens, ¬ HidesComment token.text) (h₂ : parse s₂ = .ok t₂) :
    ∃ t, parse (joinLines s₁ s₂) = .ok t ∧
      t.topForms = t₁.topForms ++ t₂.topForms.map (Tree.shift (behind s₁)) := by
  obtain ⟨ts₁, hlex₁, hdeep₁, -⟩ := parse_eq_ok_iff.1 h₁
  obtain ⟨ts₂, hlex₂, hdeep₂, hderive₂⟩ := parse_eq_ok_iff.1 h₂
  obtain ⟨mid, hfirst, hmid⟩ := exists_formItems_of_parse h₁ hvisible s₂
  obtain ⟨stop₂, hitems, hend, -⟩ := exists_items_of_derive hderive₂
  have hshifted := hitems.shift (behind s₁)
  rw [← skipTrivia_shift] at hshifted
  obtain ⟨last, hsecond, hlast⟩ := hshifted.exists_of_skip_eq
    (hmid.trans (skipTrivia_skipTrivia _).symm)
  have hend' : (skipTrivia last).rest = [] := by
    rw [hlast, skipTrivia_shift]
    exact hend
  obtain ⟨t, hderive, hforms⟩ := exists_derive_of_items (hfirst.append hsecond) hend'
  have hdeep : Nesting.firstTooDeep? (ts₁ ++ ts₂.map (Token.shift (behind s₁))) = none := by
    rw [Nesting.firstTooDeep?_eq_none_iff] at hdeep₁ hdeep₂ ⊢
    refine Nesting.shallow_append_iff.2 ⟨hdeep₁, ?_⟩
    rw [levelsAfter_eq_nil_of_parse h₁ hvisible hlex₁]
    exact hdeep₂.of_rules (by rw [List.map_map]; rfl)
  exact ⟨t, parse_eq_ok_iff.2 ⟨_, lex_joinLines hlex₁ hlex₂, hdeep, hderive⟩, hforms⟩

/-- Of two texts on lines of their own, the second one is read behind the first as it is read alone,
and where the lexer refuses it, it is refused at the same place. A parsed text in front must have no
tag that hides a comment. -/
theorem reads_lines_apart (s₁ s₂ : String) :
    (∀ t₁ t₂, parse s₁ = .ok t₁ → parse s₂ = .ok t₂ →
      (∀ token ∈ t₁.tokens, ¬ HidesComment token.text) → ∃ t, parse (s₁ ++ "\n" ++ s₂) = .ok t ∧
        t.topForms = t₁.topForms ++ t₂.topForms.map (Tree.shift (s₁.utf8ByteSize + 1))) ∧
    (∀ ts₁ ts₂, lex s₁ = .ok ts₁ → lex s₂ = .ok ts₂ → lex (s₁ ++ "\n" ++ s₂) =
      .ok (ts₁ ++ ts₂.map (Token.shift (s₁.utf8ByteSize + 1)))) ∧
    ∀ ts₁ error, lex s₁ = .ok ts₁ → lex s₂ = .error error →
      ∃ error', lex (s₁ ++ "\n" ++ s₂) = .error error' ∧ ∀ name, ∃ span,
        (error.diagnostic ⟨name, s₂⟩).span? = some span ∧
          (error'.diagnostic ⟨name, s₁ ++ "\n" ++ s₂⟩).span? =
            some (span.shift (s₁.utf8ByteSize + 1)) :=
  ⟨fun _ _ h₁ h₂ hvisible => exists_parse_joinLines h₁ hvisible h₂,
    fun _ _ h₁ h₂ => lex_joinLines h₁ h₂, fun _ _ h₁ h₂ => lex_joinLines_error h₁ h₂⟩

theorem reads_commented_line_apart :
    (∃ t₁ t₂ t, parse "'a ;b" = .ok t₁ ∧ parse "(c) d" = .ok t₂ ∧
      (∀ token ∈ t₁.tokens, ¬ HidesComment token.text) ∧
      parse ("'a ;b" ++ "\n" ++ "(c) d") = .ok t ∧
        t.topForms = t₁.topForms ++ t₂.topForms.map (Tree.shift 6)) ∧
    (∃ ts₁ ts₂, lex "'a ;b" = .ok ts₁ ∧ lex "(c) d" = .ok ts₂ ∧
      lex ("'a ;b" ++ "\n" ++ "(c) d") = .ok (ts₁ ++ ts₂.map (Token.shift 6))) ∧
    ∃ ts₁ error error', lex "'a ;b" = .ok ts₁ ∧ lex "c \"" = .error error ∧
      lex ("'a ;b" ++ "\n" ++ "c \"") = .error error' ∧ ∀ name, ∃ span,
        (error.diagnostic ⟨name, "c \""⟩).span? = some span ∧
          (error'.diagnostic ⟨name, "'a ;b" ++ "\n" ++ "c \""⟩).span? = some (span.shift 6) := by
  have hfound : (parse "'a ;b").toOption.map (fun tree =>
      decide (∀ token ∈ tree.tokens, ¬ HidesComment token.text)) = some true := by decide +kernel
  obtain ⟨t₁, htree, hvisible⟩ := Option.map_eq_some_iff.1 hfound
  have hparse₁ := eq_ok_of_toOption htree
  obtain ⟨t₂, hparse₂⟩ : ∃ t₂, parse "(c) d" = .ok t₂ := exists_eq_ok (by decide +kernel)
  obtain ⟨ts₁, hlex₁, -⟩ := parse_eq_ok_iff.1 hparse₁
  obtain ⟨ts₂, hlex₂, -⟩ := parse_eq_ok_iff.1 hparse₂
  obtain ⟨hparsed, hlexed, -⟩ := reads_lines_apart "'a ;b" "(c) d"
  obtain ⟨t, hparse, hforms⟩ := hparsed t₁ t₂ hparse₁ hparse₂ (of_decide_eq_true hvisible)
  refine ⟨⟨t₁, t₂, t, hparse₁, hparse₂, of_decide_eq_true hvisible, hparse, hforms⟩,
    ⟨ts₁, ts₂, hlex₁, hlex₂, hlexed ts₁ ts₂ hlex₁ hlex₂⟩, ?_⟩
  have hrefused : (lex "c \"").toOption.isSome = false := by decide +kernel
  cases hlex : lex "c \"" with
  | ok tokens =>
    rw [hlex] at hrefused
    cases hrefused
  | error error =>
    obtain ⟨-, -, herrors⟩ := reads_lines_apart "'a ;b" "c \""
    obtain ⟨error', herror', hspans⟩ := herrors ts₁ error hlex₁ hlex
    exact ⟨ts₁, error, error', hlex₁, rfl, herror', hspans⟩

/-- Behind a discard mark the end of the line closes a comment that hid in a tag, and the mark takes
the next form. -/
theorem not_reads_lines_apart :
    ¬ ∀ s₁ s₂ t₁ t₂, parse s₁ = .ok t₁ → parse s₂ = .ok t₂ → ∃ t, parse (s₁ ++ "\n" ++ s₂) = .ok t ∧
      t.topForms = t₁.topForms ++ t₂.topForms.map (Tree.shift (s₁.utf8ByteSize + 1)) := by
  intro hparsed
  have hcount : ∀ text, (parse text).toOption.map (fun t => t.topForms.length) = some 1 →
      ∃ t, parse text = .ok t ∧ t.topForms.length = 1 := by
    intro text hfound
    obtain ⟨t, htree, hlength⟩ := Option.map_eq_some_iff.1 hfound
    exact ⟨t, eq_ok_of_toOption htree, hlength⟩
  obtain ⟨t₁, hparse₁, hlength₁⟩ := hcount "#_#!a b" (by decide +kernel)
  obtain ⟨t₂, hparse₂, hlength₂⟩ := hcount "c" (by decide +kernel)
  obtain ⟨t, hparse, hlength⟩ := hcount ("#_#!a b" ++ "\n" ++ "c") (by decide +kernel)
  obtain ⟨t', hparse', hforms⟩ := hparsed _ _ t₁ t₂ hparse₁ hparse₂
  obtain rfl : t = t' := Except.ok.inj (hparse.symm.trans hparse')
  have htwo := congrArg List.length hforms
  rw [List.length_append, List.length_map, hlength, hlength₁, hlength₂] at htwo
  cases htwo

end HiccupReader.Clojure
