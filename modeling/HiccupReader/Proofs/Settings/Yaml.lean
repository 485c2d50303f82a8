import HiccupReader.Proofs.Outcome
import HiccupReader.Proofs.Yaml.Blocks
import HiccupReader.Settings.Yaml

/-! Settings come back from the YAML document in which they are written. -/

namespace HiccupReader.Settings

open Yaml

variable {settings : Settings}

def spliceLines : List String → List Char
  | [] => " []\n".toList
  | names => '\n' :: names.flatMap itemLines

def truthName (truth : Bool) : List Char := (if truth then "true" else "false").toList

theorem writeYaml_eq (settings : Settings) :
    settings.writeYaml = "flatten".toList ++ ':' :: ' ' :: (settings.flatten.name.toList ++
      '\n' :: ("splice".toList ++ ':' :: (spliceLines settings.splice ++
        ("pretty".toList ++ ':' :: ' ' :: (truthName settings.pretty ++ ['\n']))))) := by
  have hflatten : "flatten: ".toList = "flatten".toList ++ [':', ' '] := by simp
  have hpretty : "pretty: ".toList = "pretty".toList ++ [':', ' '] := by simp
  have htruth : (if settings.pretty then "true\n" else "false\n").toList =
      truthName settings.pretty ++ ['\n'] := by
    cases settings.pretty <;> simp [truthName]
  have hlines : (if settings.splice.isEmpty then "splice: []\n".toList
      else "splice:\n".toList ++ settings.splice.flatMap itemLines) =
      "splice".toList ++ ':' :: spliceLines settings.splice := by
    cases settings.splice <;> simp [spliceLines]
  unfold writeYaml
  rw [hlines, hflatten, hpretty, htruth]
  simp only [List.append_assoc, List.cons_append, List.nil_append]

theorem isFieldName_names : IsFieldName "flatten".toList ∧ IsFieldName "splice".toList ∧
    IsFieldName "pretty".toList := by
  have of_all {name : List Char} (hall : name.all Char.isLower = true) (hne : name ≠ [])
      (hshort : name.length ≤ 1024) : IsFieldName name :=
    ⟨hne, List.all_eq_true.1 hall, hshort⟩
  refine ⟨of_all ?_ ?_ ?_, of_all ?_ ?_ ?_, of_all ?_ ?_ ?_⟩ <;> decide

theorem inline_name (policy : Layout.Policy) : ∀ c ∈ policy.name.toList, IsInline c :=
  inline_of_all (by cases policy <;> decide)

theorem canBePlain_name (policy : Layout.Policy) :
    policy.name.toList ≠ [] ∧ canBePlain policy.name.toList = true := by
  cases policy <;> decide

theorem inline_truthName (truth : Bool) : ∀ c ∈ truthName truth, IsInline c :=
  inline_of_all (by cases truth <;> decide)

theorem canBePlain_truthName (truth : Bool) :
    truthName truth ≠ [] ∧ canBePlain (truthName truth) = true := by
  cases truth <;> decide

theorem blockValue_spliceLines (line column : Nat) {rest : List Char} {names : List String}
    (h : ∀ name ∈ names, ∀ c ∈ name.toList, IsInline c) (hrest : StartsLine rest)
    (hend : rest.head? ≠ some '-') :
    ∃ items line', items.map Scalar.text = names ∧
      blockValue 0 ⟨line, column, false, spliceLines names ++ rest⟩ =
        some (.list items, ⟨line', 0, true, rest⟩) := by
  cases names with
  | nil => exact ⟨[], line + 1, rfl, blockValue_emptyList line column hrest⟩
  | cons name names =>
    obtain ⟨items, hitems, hvalue⟩ := blockValue_items line column (List.cons_ne_nil name names) h
      hrest hend
    exact ⟨items, _, hitems, hvalue⟩

theorem documentOf_writeYaml (h : ∀ name ∈ settings.splice, ∀ c ∈ name.toList, IsInline c) :
    ∃ items, items.map Scalar.text = settings.splice ∧
      documentOf settings.writeYaml =
        some [("flatten", .scalar ⟨settings.flatten.name, true⟩), ("splice", .list items),
          ("pretty", .scalar ⟨String.ofList (truthName settings.pretty), true⟩)] := by
  obtain ⟨hflatten, hsplice, hpretty⟩ := isFieldName_names
  generalize hlast : "pretty".toList ++ ':' :: ' ' :: (truthName settings.pretty ++ ['\n']) = last
  generalize hmiddle : "splice".toList ++ ':' :: (spliceLines settings.splice ++ last) = middle
  have hlastStarts : StartsLine last := hlast ▸ hpretty.startsLine _
  have hmiddleStarts : StartsLine middle := hmiddle ▸ hsplice.startsLine _
  have hnoItem : last.head? ≠ some '-' := by
    rw [← hlast]
    simp
  have hpolicy := blockValue_plain 0 ("flatten".toList.length + 1)
    (inline_name settings.flatten) (canBePlain_name settings.flatten).1
    (canBePlain_name settings.flatten).2 hmiddleStarts
  obtain ⟨items, line, hitems, hlist⟩ := blockValue_spliceLines 1 ("splice".toList.length + 1) h
    hlastStarts hnoItem
  have htruth := blockValue_plain line ("pretty".toList.length + 1)
    (inline_truthName settings.pretty) (canBePlain_truthName settings.pretty).1
    (canBePlain_truthName settings.pretty).2 (show StartsLine [] from trivial)
  have hends : wordEnds (spliceLines settings.splice ++ last) = true := by
    cases settings.splice with
    | nil => rfl
    | cons name names => rfl
  have hthird (limit : Nat) : blockFields 0 (limit + 2) ⟨line, 0, true, last⟩ =
      some ([("pretty", .scalar ⟨String.ofList (truthName settings.pretty), true⟩)],
        ⟨line + 1, 0, true, []⟩) := by
    rw [← hlast, blockFields_field hpretty rfl htruth, blockFields_end, String.ofList_toList]
    rfl
  have hsecond (limit : Nat) : blockFields 0 (limit + 3) ⟨1, 0, true, middle⟩ =
      some ([("splice", .list items),
        ("pretty", .scalar ⟨String.ofList (truthName settings.pretty), true⟩)],
        ⟨line + 1, 0, true, []⟩) := by
    rw [← hmiddle, blockFields_field hsplice hends hlist, hthird, String.ofList_toList]
    rfl
  refine ⟨items, hitems, ?_⟩
  rw [writeYaml_eq, hlast, hmiddle]
  refine documentOf_eq_some (line + 1) hflatten ?_
  obtain ⟨limit, hlimit⟩ : ∃ limit, ("flatten".toList ++
      ':' :: ' ' :: (settings.flatten.name.toList ++ '\n' :: middle)).length = limit + 3 :=
    Nat.exists_eq_add_of_le' (by simp)
  rw [hlimit, blockFields_field hflatten rfl hpolicy, hsecond, String.ofList_toList,
    String.ofList_toList]
  rfl

theorem inline_of_mem_spliceLines {names : List String}
    (h : ∀ name ∈ names, ∀ c ∈ name.toList, IsInline c) :
    ∀ c ∈ spliceLines names, IsInline c ∨ c = '\n' := by
  cases names with
  | nil =>
    have hmarks : ∀ c ∈ [' ', '[', ']'], IsInline c := inline_of_all (by decide)
    change ∀ c ∈ [' ', '[', ']'] ++ ['\n'], IsInline c ∨ c = '\n'
    exact List.forall_mem_append.2
      ⟨fun c hc => .inl (hmarks c hc), fun c hc => .inr (List.mem_singleton.1 hc)⟩
  | cons name names =>
    refine List.forall_mem_cons.2 ⟨.inr rfl, fun c hc => ?_⟩
    obtain ⟨text, htext, hmem⟩ := List.mem_flatMap.1 hc
    rw [itemLines_eq (h text htext)] at hmem
    simp only [List.mem_cons, List.mem_append, List.not_mem_nil, or_false] at hmem
    rcases hmem with rfl | rfl | hmem | rfl
    · exact .inl ⟨by decide, rfl⟩
    · exact .inl ⟨by decide, rfl⟩
    · exact .inl (inline_of_mem_written (h text htext) hmem)
    · exact .inr rfl

theorem inline_of_mem_writeYaml (h : ∀ name ∈ settings.splice, ∀ c ∈ name.toList, IsInline c) :
    ∀ c ∈ settings.writeYaml, IsInline c ∨ c = '\n' := by
  have hmark : IsInline ':' ∧ IsInline ' ' := ⟨⟨by decide, rfl⟩, by decide, rfl⟩
  have hflatten : ∀ c ∈ "flatten".toList, IsInline c := inline_of_all (by decide)
  have hsplice : ∀ c ∈ "splice".toList, IsInline c := inline_of_all (by decide)
  have hpretty : ∀ c ∈ "pretty".toList, IsInline c := inline_of_all (by decide)
  rw [writeYaml_eq]
  simp only [List.forall_mem_append, List.forall_mem_cons, List.not_mem_nil, false_imp_iff,
    implies_true, and_true, true_and, or_true]
  exact ⟨fun c hc => .inl (hflatten c hc), .inl hmark.1, .inl hmark.2,
    fun c hc => .inl (inline_name settings.flatten c hc), fun c hc => .inl (hsplice c hc),
    .inl hmark.1, inline_of_mem_spliceLines h, fun c hc => .inl (hpretty c hc), .inl hmark.1,
    .inl hmark.2, fun c hc => .inl (inline_truthName settings.pretty c hc)⟩

theorem setAll_fields {items : List Scalar} (policy : Layout.Policy) (truth : Bool) :
    setAll {} [] [("flatten", .scalar ⟨policy.name, true⟩), ("splice", .list items),
        ("pretty", .scalar ⟨String.ofList (truthName truth), true⟩)] =
      .ok ⟨policy, items.map Scalar.text, truth⟩ := by
  have htruth : Yaml.truth? (String.ofList (truthName truth)) = some truth := by
    cases truth <;> decide
  simp [setAll, set, policyOf, namesOf, truthOf, htruth, Layout.Policy.ofName?_name]

def IsPrintable (c : Char) : Prop := 0x20 ≤ c.toNat ∧ c.toNat ≤ 0x7e

instance (c : Char) : Decidable (IsPrintable c) := inferInstanceAs (Decidable (_ ∧ _))

theorem inline_of_isPrintable {c : Char} (h : IsPrintable c) : IsInline c := by
  have hne {d : Char} (hd : ¬ IsPrintable d) : c ≠ d := fun heq => hd (heq ▸ h)
  have hallowed : isAllowed c = true := by
    simp only [isAllowed, Bool.or_eq_true, Bool.and_eq_true, decide_eq_true_eq]
    exact .inl (.inl (.inl (.inr h)))
  constructor
  · simp only [isWritable, hallowed, Bool.and_eq_true, bne_iff_ne]
    exact ⟨⟨⟨⟨trivial, hne (by decide)⟩, hne (by decide)⟩, hne (by decide)⟩, hne (by decide)⟩
  · simp only [isBreak, Bool.or_eq_false_iff, beq_eq_false_iff_ne]
    exact ⟨⟨hne (by decide), hne (by decide)⟩, hne (by decide)⟩

/-- Settings come back from their document, whatever printable characters the names of rules are
made of. -/
theorem settings_survive_yaml (settings : Settings)
    (hsplice : ∀ name ∈ settings.splice, ∀ c ∈ name.toList, IsPrintable c) :
    ofYaml settings.toYaml = .ok settings := by
  have hinline : ∀ name ∈ settings.splice, ∀ c ∈ name.toList, IsInline c := fun name hname c hc =>
    inline_of_isPrintable (hsplice name hname c hc)
  have hblank : Text.isBlankText settings.toYaml.toList = false := by
    rw [toYaml, String.toList_ofList, writeYaml_eq]
    rfl
  obtain ⟨items, hitems, hdocument⟩ := documentOf_writeYaml hinline
  rw [ofYaml, if_neg (by simp [hblank]), toYaml,
    document_eq (inline_of_mem_writeYaml hinline), hdocument]
  exact (setAll_fields settings.flatten settings.pretty).trans (by rw [hitems])

def awkwardSettings : Settings where
  flatten := .flat
  splice := ["", "true", "~", "1.5", "0x1F", "a: b", "- x", "#c", "x #c", "it's", "'q'", "\"q\"",
    "[a]", " x ", "---", "no"]
  pretty := false

theorem awkwardSettings_survive_yaml :
    (∀ name ∈ awkwardSettings.splice, ∀ c ∈ name.toList, IsPrintable c) ∧
      ofYaml awkwardSettings.toYaml = .ok awkwardSettings := by
  have hall : (awkwardSettings.splice.all fun name =>
      name.toList.all fun c => decide (IsPrintable c)) = true := by decide
  have hprintable : ∀ name ∈ awkwardSettings.splice, ∀ c ∈ name.toList, IsPrintable c := by
    simpa only [List.all_eq_true, decide_eq_true_eq] using hall
  exact ⟨hprintable, settings_survive_yaml awkwardSettings hprintable⟩

end HiccupReader.Settings
