import HiccupReader.Proofs.Yaml.Lines

/-! Reading back what was written on several lines of a YAML text: the items of a list, one on each
line, and the fields of a mapping. -/

namespace HiccupReader.Yaml

section items

variable {text : String} {texts : List String} {rest : List Char} {line limit : Nat}

theorem itemLines_eq (h : ∀ c ∈ text.toList, IsInline c) :
    itemLines text = '-' :: ' ' :: (written text ++ ['\n']) := by
  simp [itemLines, newline_not_mem_of_inline h]

theorem outside_of_indented {p : Place} (hcolumn : 0 < p.column) (hrest : p.rest ≠ []) :
    outside 0 p = false := by
  simp [outside, Place.over, Place.atEnd, hrest, Nat.pos_iff_ne_zero.1 hcolumn]

theorem markedNode_written (line : Nat) (h : ∀ c ∈ text.toList, IsInline c)
    (hrest : StartsLine rest) :
    ∃ s, s.text = text ∧
      markedNode 0 ⟨line, 0, true, '-' :: ' ' :: (written text ++ '\n' :: rest)⟩ =
        some (s, ⟨line + 1, 0, true, rest⟩) := by
  obtain ⟨s, hs, hnode⟩ := blockNode_written line true Nat.two_pos h hrest
  have hnext : Place.next (Place.pastMark ⟨line, 0, true,
      '-' :: ' ' :: (written text ++ '\n' :: rest)⟩) false =
      ⟨line, 2, true, written text ++ '\n' :: rest⟩ := by
    rw [Place.next, Place.pastMark, List.tail_cons, skip_blank,
      skip_of_startsLine (startsLine_written h)]
  refine ⟨s, hs, ?_⟩
  rw [markedNode, hnext, outside_of_indented Nat.two_pos (by simp)]
  exact hnode

theorem startsLine_items (h : ∀ text ∈ texts, ∀ c ∈ text.toList, IsInline c)
    (hrest : StartsLine rest) : StartsLine (texts.flatMap itemLines ++ rest) := by
  cases texts with
  | nil => exact hrest
  | cons text texts =>
    rw [List.flatMap_cons, itemLines_eq (h text (List.mem_cons_self ..))]
    exact ⟨rfl, rfl, by decide, by decide⟩

theorem blockItems_lines (line : Nat) (h : ∀ text ∈ texts, ∀ c ∈ text.toList, IsInline c)
    (hrest : StartsLine rest) (hend : rest.head? ≠ some '-') (hlimit : texts.length < limit) :
    ∃ items, items.map Scalar.text = texts ∧
      blockItems 0 limit ⟨line, 0, true, texts.flatMap itemLines ++ rest⟩ =
        some (items, ⟨line + texts.length, 0, true, rest⟩) := by
  induction texts generalizing line limit with
  | nil =>
    obtain ⟨limit, rfl⟩ := Nat.exists_eq_add_one.2 hlimit
    refine ⟨[], rfl, ?_⟩
    have hmark : Place.startsWith ⟨line, 0, true, rest⟩ '-' = false := by
      cases rest with
      | nil => rfl
      | cons c rest => simp_all [Place.startsWith]
    simp [blockItems, hmark]
  | cons text texts ih =>
    obtain ⟨limit, rfl⟩ := Nat.exists_eq_add_one.2 (Nat.zero_lt_of_lt hlimit)
    obtain ⟨htext, htexts⟩ := List.forall_mem_cons.1 h
    obtain ⟨item, hitem, hmarked⟩ := markedNode_written line htext
      (startsLine_items htexts hrest)
    obtain ⟨items, hitems, hblock⟩ := ih (line + 1) htexts (Nat.lt_of_succ_lt_succ hlimit)
    refine ⟨item :: items, by rw [List.map_cons, hitem, hitems], ?_⟩
    have hlines : (text :: texts).flatMap itemLines ++ rest =
        '-' :: ' ' :: (written text ++ '\n' :: (texts.flatMap itemLines ++ rest)) := by
      simp [itemLines_eq htext]
    have hplace : (Place.over ⟨line, 0, true,
        '-' :: ' ' :: (written text ++ '\n' :: (texts.flatMap itemLines ++ rest))⟩ = false) ∧
        Place.startsWith ⟨line, 0, true,
          '-' :: ' ' :: (written text ++ '\n' :: (texts.flatMap itemLines ++ rest))⟩ '-' = true :=
      ⟨rfl, rfl⟩
    rw [hlines, blockItems]
    simp [hplace, hmarked, hblock, Nat.add_assoc, Nat.add_comm 1]

end items

structure IsFieldName (name : List Char) : Prop where
  ne_nil : name ≠ []
  lower : ∀ c ∈ name, c.isLower = true
  short : name.length ≤ 1024

section fields

variable {name cs rest : List Char} {line line' column limit : Nat}
  {value : Value} {p : Place}

theorem ordinary_of_isLower {c : Char} (h : c.isLower = true) :
    isBreak c = false ∧ isBlank c = false ∧ c ∉ indicators ∧ c ≠ '.' ∧ c ≠ byteOrderMark := by
  have hne {d : Char} (hd : d.isLower = false) : c ≠ d := by
    rintro rfl
    rw [h] at hd
    cases hd
  have hindicators : ∀ d ∈ indicators, d.isLower = false := by simp [indicators]
  refine ⟨?_, ?_, fun hmem => hne (hindicators c hmem) rfl, hne rfl, hne rfl⟩
  · rw [isBreak, beq_false_of_ne (hne rfl), beq_false_of_ne (hne rfl), beq_false_of_ne (hne rfl)]
    rfl
  · rw [isBlank, beq_false_of_ne (hne rfl), beq_false_of_ne (hne rfl)]
    rfl

theorem IsFieldName.exists_cons (h : IsFieldName name) :
    ∃ c others, name = c :: others ∧ isBreak c = false ∧ isBlank c = false ∧ c ∉ indicators ∧
      c ≠ '.' ∧ c ≠ byteOrderMark := by
  obtain ⟨c, others, rfl⟩ := List.exists_cons_of_ne_nil h.ne_nil
  exact ⟨c, others, rfl, ordinary_of_isLower (h.lower c (List.mem_cons_self ..))⟩

theorem IsFieldName.startsLine (h : IsFieldName name) (rest : List Char) :
    StartsLine (name ++ rest) := by
  obtain ⟨c, others, rfl, hbreak, hblank, hmark, -, hbom⟩ := h.exists_cons
  exact ⟨hbreak, hblank, fun heq => hmark (heq ▸ by decide), hbom⟩

theorem bounds_of_ne {c : Char} (hdash : c ≠ '-') (hdot : c ≠ '.') (cs : List Char) :
    bounds (c :: cs) = false := by
  have hstart : startsDocument (c :: cs) = false := by
    unfold startsDocument
    split <;> simp_all
  have hend : endsDocument (c :: cs) = false := by
    unfold endsDocument
    split <;> simp_all
  rw [bounds, hstart, hend]
  rfl

theorem IsFieldName.bounds_eq_false (h : IsFieldName name) (rest : List Char) :
    bounds (name ++ rest) = false := by
  obtain ⟨c, others, rfl, -, -, hmark, hdot, -⟩ := h.exists_cons
  have hdash : c ≠ '-' := fun heq => hmark (heq ▸ by decide)
  exact bounds_of_ne hdash hdot (others ++ rest)

theorem plainFrom_name (indent line column : Nat) (text : List Char)
    (h : ∀ c ∈ name, c.isLower = true) (hends : wordEnds cs = true) :
    plainFrom false indent line column .none text (name ++ ':' :: cs) =
      some (⟨String.ofList (text.reverse ++ name), true⟩,
        ⟨line, column + name.length, false, ':' :: cs⟩) := by
  induction name generalizing column text with
  | nil =>
    have hcolon : isBreak ':' = false ∧ isBlank ':' = false := ⟨rfl, rfl⟩
    have hbounds := bounds_of_ne (c := ':') (by decide) (by decide) cs
    simp [plainFrom, hcolon, hbounds, hends, Gap.none, Gap.hasBreaks, Gap.isNone]
  | cons c name ih =>
    obtain ⟨hc, hname⟩ := List.forall_mem_cons.1 h
    obtain ⟨hbreak, hblank, hmark, hdot, -⟩ := ordinary_of_isLower hc
    have hdash : c ≠ '-' := fun heq => hmark (by simp [heq, indicators])
    have hcolon : c ≠ ':' := fun heq => hmark (by simp [heq, indicators])
    have hbounds := bounds_of_ne hdash hdot (name ++ ':' :: cs)
    have hnext := ih (column + 1) (c :: text) hname
    rw [List.cons_append, plainFrom]
    simpa [hbreak, hblank, hcolon, hbounds, Gap.none, Gap.hasBreaks, Gap.isNone, Gap.fold,
      Nat.add_assoc, Nat.add_comm 1] using hnext

theorem scalarAt_name {indent : Nat} (h : IsFieldName name) (hends : wordEnds cs = true) :
    scalarAt false indent ⟨line, 0, true, name ++ ':' :: cs⟩ =
      some (⟨String.ofList name, true⟩, ⟨line, name.length, false, ':' :: cs⟩) := by
  have hplain := plainFrom_name indent line 0 [] h.lower hends
  have hbounds := h.bounds_eq_false (':' :: cs)
  obtain ⟨c, name, rfl, hbreak, hblank, hmark, -, -⟩ := h.exists_cons
  have hne {d : Char} (hd : d ∈ indicators) : c ≠ d := fun heq => hmark (heq ▸ hd)
  have hstarts : startsPlain false (c :: name ++ ':' :: cs) = true := by
    have hdash : c ≠ '-' := hne (by decide)
    have hsign : ¬ (c = '?' ∨ c = ':') := not_or.2 ⟨hne (by decide), hne (by decide)⟩
    simp [startsPlain, hbreak, hblank, hmark, hdash, hsign]
  rw [scalarAt, if_neg fun hfirst => Bool.false_ne_true (hbounds.symm.trans hfirst.2)]
  split
  · next heq => exact absurd (List.cons.inj heq).1 (hne (by decide))
  · next heq => exact absurd (List.cons.inj heq).1 (hne (by decide))
  · rw [if_pos hstarts]
    simpa using hplain

theorem blockName_name (h : IsFieldName name) (hends : wordEnds cs = true) :
    blockName 0 ⟨line, 0, true, name ++ ':' :: cs⟩ =
      some (⟨String.ofList name, true⟩, ⟨line, name.length + 1, false, cs⟩, true) := by
  have hmark : Place.startsWith ⟨line, 0, true, name ++ ':' :: cs⟩ '?' = false := by
    obtain ⟨c, name, rfl, -, -, hmark, -, -⟩ := h.exists_cons
    have hne : c ≠ '?' := fun heq => hmark (heq ▸ by decide)
    simp [Place.startsWith, hne]
  have hcolon : StartsLine (':' :: cs) := ⟨rfl, rfl, by decide, by decide⟩
  simp [blockName, hmark, scalarAt_name h hends, Place.next, skip_of_startsLine hcolon,
    Place.belongsTo, h.short, hends, Place.past]

theorem blockFields_field (h : IsFieldName name) (hends : wordEnds cs = true)
    (hvalue : blockValue 0 ⟨line, name.length + 1, false, cs⟩ =
      some (value, ⟨line', 0, true, rest⟩)) :
    blockFields 0 (limit + 1) ⟨line, 0, true, name ++ ':' :: cs⟩ =
      (blockFields 0 limit ⟨line', 0, true, rest⟩).map fun (fields, p) =>
        ((String.ofList name, value) :: fields, p) := by
  have hover : Place.over ⟨line, 0, true, name ++ ':' :: cs⟩ = false := by
    simp [Place.over, Place.atEnd, h.bounds_eq_false]
  rw [blockFields, hover, blockName_name h hends]
  simp only [Bool.false_eq_true, if_false, if_true, Option.bind_eq_bind, Option.bind_some, hvalue]
  cases blockFields 0 limit ⟨line', 0, true, rest⟩ <;> rfl

theorem blockFields_end : blockFields 0 (limit + 1) ⟨line, 0, true, []⟩ =
    some ([], ⟨line, 0, true, []⟩) := rfl

theorem blockValue_plain (line column : Nat) (hinline : ∀ c ∈ cs, IsInline c) (hne : cs ≠ [])
    (hplain : canBePlain cs = true) (hrest : StartsLine rest) :
    blockValue 0 ⟨line, column, false, ' ' :: (cs ++ '\n' :: rest)⟩ =
      some (.scalar ⟨String.ofList cs, true⟩, ⟨line + 1, 0, true, rest⟩) := by
  have hnode := blockNode_plain line false (Nat.succ_pos column) hinline hne hplain hrest
  obtain ⟨c, others, rfl⟩ := List.exists_cons_of_ne_nil hne
  have hfront := plainFront_of_canBePlain hplain
  have hbracket : c ≠ '[' := fun heq => hfront.not_mark (by simp [heq])
  have hnext : Place.next ⟨line, column, false, ' ' :: (c :: others ++ '\n' :: rest)⟩ false =
      ⟨line, column + 1, false, c :: others ++ '\n' :: rest⟩ := by
    rw [Place.next, skip_blank,
      skip_of_startsLine (hfront.startsLine (hinline c (List.mem_cons_self ..)))]
  have hinside : outside 0 ⟨line, column + 1, false, c :: others ++ '\n' :: rest⟩ = false :=
    outside_of_indented (Nat.succ_pos _) (by simp)
  rw [blockValue]
  simp only [hnext, hinside, hnode]
  simp [Place.startsWith, hbracket]

theorem blockValue_emptyList (line column : Nat) (hrest : StartsLine rest) :
    blockValue 0 ⟨line, column, false, ' ' :: '[' :: ']' :: '\n' :: rest⟩ =
      some (.list [], ⟨line + 1, 0, true, rest⟩) := by
  have hnext : Place.next ⟨line, column, false, ' ' :: '[' :: ']' :: '\n' :: rest⟩ false =
      ⟨line, column + 1, false, '[' :: ']' :: '\n' :: rest⟩ := by
    have hbracket : StartsLine ('[' :: ']' :: '\n' :: rest) := ⟨rfl, rfl, by decide, by decide⟩
    rw [Place.next, skip_blank, skip_of_startsLine hbracket]
  have hinside : outside 0 ⟨line, column + 1, false, '[' :: ']' :: '\n' :: rest⟩ = false :=
    outside_of_indented (Nat.succ_pos _) (by simp)
  have hflow : flowList 1 ⟨line, column + 1, false, '[' :: ']' :: '\n' :: rest⟩ =
      some ([], ⟨line, column + 3, false, '\n' :: rest⟩) := rfl
  rw [blockValue]
  simp [hnext, hinside, hflow, lineDone_newline hrest, Place.startsWith]

theorem length_le_length_flatMap_itemLines (texts : List String) :
    texts.length ≤ (texts.flatMap itemLines).length := by
  induction texts with
  | nil => exact Nat.le_refl 0
  | cons text texts ih =>
    have hline : 0 < (itemLines text).length := by
      unfold itemLines
      extract_lets lines
      split <;> simp [lines]
    rw [List.flatMap_cons, List.length_append, List.length_cons]
    omega

theorem blockValue_items {texts : List String} (line column : Nat) (hne : texts ≠ [])
    (h : ∀ text ∈ texts, ∀ c ∈ text.toList, IsInline c) (hrest : StartsLine rest)
    (hend : rest.head? ≠ some '-') :
    ∃ items, items.map Scalar.text = texts ∧
      blockValue 0 ⟨line, column, false, '\n' :: (texts.flatMap itemLines ++ rest)⟩ =
        some (.list items, ⟨line + 1 + texts.length, 0, true, rest⟩) := by
  have hlimit : texts.length < (texts.flatMap itemLines ++ rest).length + 1 := by
    rw [List.length_append]
    exact Nat.lt_succ_of_le
      (Nat.le_trans (length_le_length_flatMap_itemLines texts) (Nat.le_add_right _ _))
  obtain ⟨items, hitems, hblock⟩ := blockItems_lines (line + 1) h hrest hend hlimit
  refine ⟨items, hitems, ?_⟩
  have hnext : Place.next ⟨line, column, false, '\n' :: (texts.flatMap itemLines ++ rest)⟩ false =
      ⟨line + 1, 0, true, texts.flatMap itemLines ++ rest⟩ := by
    rw [Place.next, skip_newline (startsLine_items h hrest)]
  have hmark : Place.startsWith ⟨line + 1, 0, true, texts.flatMap itemLines ++ rest⟩ '-' = true ∧
      Place.over ⟨line + 1, 0, true, texts.flatMap itemLines ++ rest⟩ = false := by
    obtain ⟨text, others, rfl⟩ := List.exists_cons_of_ne_nil hne
    rw [List.flatMap_cons, itemLines_eq (h text (List.mem_cons_self ..))]
    exact ⟨rfl, rfl⟩
  rw [blockValue]
  simp only [hnext, hmark, hblock, Bool.not_false, Bool.and_self, Nat.le_refl, decide_true, if_true,
    Option.bind_eq_bind, Option.bind_some, Option.pure_def]

theorem documentOf_eq_some {fields : Fields} (line : Nat) (h : IsFieldName name)
    (hfields : blockFields 0 ((name ++ cs).length + 1) ⟨0, 0, true, name ++ cs⟩ =
      some (fields, ⟨line, 0, true, []⟩)) : documentOf (name ++ cs) = some fields := by
  have hfirst : (Place.start (name ++ cs)).next false = ⟨0, 0, true, name ++ cs⟩ := by
    rw [Place.start, Place.next, skip_of_startsLine (h.startsLine cs)]
  have hbounds := h.bounds_eq_false cs
  have hbegins := hbounds
  rw [bounds, Bool.or_eq_false_iff] at hbegins
  have hover : Place.over ⟨0, 0, true, name ++ cs⟩ = false := by
    simp [Place.over, Place.atEnd, h.ne_nil, hbounds]
  have hmapping : mapping ⟨0, 0, true, name ++ cs⟩ = some (fields, ⟨line, 0, true, []⟩) := by
    obtain ⟨c, others, rfl, -, -, hmark, -, -⟩ := h.exists_cons
    rw [mapping]
    split
    · next heq => exact absurd (List.cons.inj heq).1 fun h => hmark (h ▸ by decide)
    · exact hfields
  have hdone : nothingLeft 1 ⟨line, 0, true, []⟩ = true := rfl
  simp [documentOf, hfirst, hbegins, hover, hmapping, hdone]

end fields

section document

variable {cs : List Char}

theorem unifyBreaks_eq_self (h : ∀ c ∈ cs, c ≠ '\r' ∧ c ≠ '\u0085') : unifyBreaks cs = cs := by
  fun_induction unifyBreaks cs <;> simp_all

theorem document_eq (h : ∀ c ∈ cs, IsInline c ∨ c = '\n') :
    document (String.ofList cs) = documentOf cs := by
  have hwritable : ∀ c ∈ cs, isAllowed c = true ∧ c ≠ '\r' ∧ c ≠ '\u0085' := by
    intro c hc
    rcases h c hc with hinline | rfl
    · have hwritable := hinline.1
      simp only [isWritable, Bool.and_eq_true, bne_iff_ne] at hwritable
      tauto
    · decide
  have hallowed : cs.all isAllowed = true := List.all_eq_true.2 fun c hc => (hwritable c hc).1
  rw [document, String.toList_ofList, if_pos hallowed,
    unifyBreaks_eq_self fun c hc => (hwritable c hc).2]

end document

end HiccupReader.Yaml
