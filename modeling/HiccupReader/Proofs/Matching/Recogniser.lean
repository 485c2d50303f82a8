import HiccupReader.Matching.Recogniser

/-! When the recognisers accept, and with what. -/

namespace HiccupReader.Matching.Recogniser

theorem word_eq_some_iff {w cs taken left : List Char} :
    word w cs = some (taken, left) ↔ taken = w ∧ cs = w ++ left := by
  constructor
  · intro h
    have hcuts : taken ++ left = cs := word_cuts w cs taken left h
    simp only [word] at h
    split at h
    · obtain ⟨rfl, -⟩ := Prod.mk.inj (Option.some.inj h)
      exact ⟨rfl, hcuts.symm⟩
    · cases h
  · rintro ⟨rfl, rfl⟩
    simp [word]

theorem oneOf_eq_some_iff {p : Char → Bool} {cs taken left : List Char} :
    oneOf p cs = some (taken, left) ↔ ∃ c, p c = true ∧ taken = [c] ∧ cs = c :: left := by
  cases cs with
  | nil => simp [oneOf]
  | cons d ds =>
    simp only [oneOf, Option.ite_none_right_eq_some, Option.some.injEq, Prod.mk.injEq,
      List.cons.injEq]
    constructor
    · rintro ⟨hp, rfl, rfl⟩
      exact ⟨d, hp, rfl, rfl, rfl⟩
    · rintro ⟨c, hp, rfl, rfl, rfl⟩
      exact ⟨hp, rfl, rfl⟩

theorem run_eq_some_iff {p : Char → Bool} {taken left : List Char} :
    run p (taken ++ left) = some (taken, left) ↔
      (∀ c ∈ taken, p c = true) ∧ left.head?.any p = false := by
  induction taken with
  | nil =>
    cases left with
    | nil => simp [run]
    | cons c cs => cases h : p c <;> simp [run, h]
  | cons c taken ih =>
    rw [List.forall_mem_cons, and_assoc, ← ih, List.cons_append]
    cases h : p c <;> simp [run, h]

theorem run_unique {p : Char → Bool} {xs ys left left' : List Char} (hxs : ∀ c ∈ xs, p c = true)
    (hys : ∀ c ∈ ys, p c = true) (hleft : left.head?.any p = false)
    (hleft' : left'.head?.any p = false) (h : xs ++ left = ys ++ left') :
    xs = ys ∧ left = left' := by
  have hrun := run_eq_some_iff.2 ⟨hxs, hleft⟩
  rw [h, run_eq_some_iff.2 ⟨hys, hleft'⟩] at hrun
  obtain ⟨rfl, rfl⟩ := Prod.mk.inj (Option.some.inj hrun)
  exact ⟨rfl, rfl⟩

theorem firstOf_cons_eq_some_iff {r : Recogniser} {rs : List Recogniser} {cs : List Char}
    {found : List Char × List Char} :
    firstOf (r :: rs) cs = some found ↔
      r cs = some found ∨ r cs = none ∧ firstOf rs cs = some found := by
  rw [firstOf]
  split
  · next h => simp [h]
  · next h => simp [h]

theorem optional_eq_some_iff {r : Recogniser} {cs : List Char}
    {found : List Char × List Char} :
    r.optional cs = some found ↔ r cs = some found ∨ r cs = none ∧ found = ([], cs) := by
  rw [optional, firstOf_cons_eq_some_iff, firstOf_cons_eq_some_iff]
  simp [firstOf, inOrder, eq_comm]

theorem inOrder_cons_eq_some_iff {r : Recogniser} {rs : List Recogniser}
    {cs taken left : List Char} :
    inOrder (r :: rs) cs = some (taken, left) ↔
      ∃ first mid more, r cs = some (first, mid) ∧ inOrder rs mid = some (more, left) ∧
        taken = first ++ more := by
  constructor
  · intro h
    simp only [inOrder] at h
    split at h
    · cases h
    · next first mid hr =>
      split at h
      · cases h
      · next more _ hm =>
        obtain ⟨rfl, rfl⟩ := Prod.mk.inj (Option.some.inj h)
        exact ⟨first, mid, more, hr, hm, rfl⟩
  · rintro ⟨first, mid, more, hr, hm, rfl⟩
    simp only [inOrder, hr, hm]

theorem notBefore_eq_some_iff {r : Recogniser} {p : Char → Bool} {cs taken left : List Char} :
    r.notBefore p cs = some (taken, left) ↔
      r cs = some (taken, left) ∧ left.head?.any p = false := by
  rw [notBefore]
  split
  · next t l h =>
    split
    · next hp =>
      simp only [reduceCtorEq, false_iff, h, Option.some.injEq, Prod.mk.injEq]
      rintro ⟨⟨rfl, rfl⟩, hn⟩
      simp [hn] at hp
    · next hp =>
      simp only [h, Option.some.injEq, Prod.mk.injEq]
      constructor
      · rintro ⟨rfl, rfl⟩
        exact ⟨⟨rfl, rfl⟩, by simpa using hp⟩
      · exact And.left
  · next h => simp [h]

theorem begins_of_word {w cs : List Char} {found : List Char × List Char}
    (h : word w cs = some found) : ∃ rest, cs = w ++ rest :=
  ⟨found.2, (word_eq_some_iff.1 h).2⟩

theorem begins_of_inOrder {r : Recogniser} {rs : List Recogniser} {cs : List Char}
    {found : List Char × List Char} (h : inOrder (r :: rs) cs = some found) :
    ∃ first, r cs = some first := by
  obtain ⟨first, mid, more, hr, -⟩ := inOrder_cons_eq_some_iff.1 h
  exact ⟨_, hr⟩

def Takes (r : Recogniser) : Prop :=
  ∀ cs taken left, r cs = some (taken, left) → taken ≠ []

theorem word_takes {w : List Char} (h : w ≠ []) : (word w).Takes := by
  intro cs taken left hw
  rw [(word_eq_some_iff.1 hw).1]
  exact h

theorem oneOf_takes (p : Char → Bool) : (oneOf p).Takes := by
  intro cs taken left h
  obtain ⟨c, -, rfl, -⟩ := oneOf_eq_some_iff.1 h
  exact List.cons_ne_nil c []

theorem firstOf_takes {rs : List Recogniser} (h : ∀ r ∈ rs, r.Takes) : (firstOf rs).Takes := by
  induction rs with
  | nil => intro cs taken left hf; cases hf
  | cons r rs ih =>
    intro cs taken left hf
    rcases firstOf_cons_eq_some_iff.1 hf with hr | ⟨-, hrest⟩
    · exact h r (List.mem_cons_self ..) cs taken left hr
    · exact ih (fun s hs => h s (List.mem_cons_of_mem _ hs)) cs taken left hrest

theorem inOrder_takes {rs : List Recogniser} (h : ∃ r ∈ rs, r.Takes) : (inOrder rs).Takes := by
  induction rs with
  | nil =>
    obtain ⟨r, hr, -⟩ := h
    cases hr
  | cons s rs ih =>
    intro cs taken left hf
    obtain ⟨first, mid, more, hs, hm, rfl⟩ := inOrder_cons_eq_some_iff.1 hf
    obtain ⟨r, hr, htakes⟩ := h
    rcases List.mem_cons.1 hr with rfl | hr
    · exact List.append_ne_nil_of_left_ne_nil (htakes cs first mid hs) more
    · exact List.append_ne_nil_of_right_ne_nil first (ih ⟨r, hr, htakes⟩ mid more left hm)

theorem notBefore_takes {r : Recogniser} (h : r.Takes) (p : Char → Bool) :
    (r.notBefore p).Takes := fun cs taken left hf =>
  h cs taken left (notBefore_eq_some_iff.1 hf).1

end HiccupReader.Matching.Recogniser
