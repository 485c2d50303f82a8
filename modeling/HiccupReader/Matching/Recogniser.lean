/-! Recognisers cut one piece of text off the front of a text, or refuse. They commit as they go:
a choice takes the first option that accepts, and nothing that was taken is given back. Whatever
a recogniser built here accepts is a beginning of the text, followed by what it leaves. -/

namespace HiccupReader.Matching

abbrev Recogniser := List Char → Option (List Char × List Char)

namespace Recogniser

def word (w : List Char) : Recogniser := fun cs =>
  if w.isPrefixOf cs then some (w, cs.drop w.length) else none

def oneOf (p : Char → Bool) : Recogniser
  | [] => none
  | c :: cs => if p c then some ([c], cs) else none

def run (p : Char → Bool) : Recogniser := fun cs => some (cs.takeWhile p, cs.dropWhile p)

def firstOf : List Recogniser → Recogniser
  | [], _ => none
  | r :: rs, cs =>
    match r cs with
    | some found => some found
    | none => firstOf rs cs

def inOrder : List Recogniser → Recogniser
  | [], cs => some ([], cs)
  | r :: rs, cs =>
    match r cs with
    | none => none
    | some (taken, left) =>
      match inOrder rs left with
      | none => none
      | some (more, left) => some (taken ++ more, left)

def optional (r : Recogniser) : Recogniser := firstOf [r, inOrder []]

def notBefore (r : Recogniser) (p : Char → Bool) : Recogniser := fun cs =>
  match r cs with
  | some (taken, left) => if left.head?.any p then none else some (taken, left)
  | none => none

def Cuts (r : Recogniser) : Prop :=
  ∀ cs taken left, r cs = some (taken, left) → taken ++ left = cs

theorem word_cuts (w : List Char) : (word w).Cuts := by
  intro cs taken left h
  simp only [word] at h
  split at h
  · next hw =>
    obtain ⟨rfl, rfl⟩ := Prod.mk.inj (Option.some.inj h)
    obtain ⟨t, rfl⟩ := List.isPrefixOf_iff_prefix.1 hw
    simp
  · cases h

theorem oneOf_cuts (p : Char → Bool) : (oneOf p).Cuts := by
  rintro (_ | ⟨c, cs⟩) taken left h
  · cases h
  · simp only [oneOf] at h
    split at h
    · obtain ⟨rfl, rfl⟩ := Prod.mk.inj (Option.some.inj h)
      rfl
    · cases h

theorem run_cuts (p : Char → Bool) : (run p).Cuts := by
  intro cs taken left h
  obtain ⟨rfl, rfl⟩ := Prod.mk.inj (Option.some.inj h)
  exact List.takeWhile_append_dropWhile

theorem firstOf_cuts {rs : List Recogniser} (h : ∀ r ∈ rs, r.Cuts) : (firstOf rs).Cuts := by
  induction rs with
  | nil => intro cs taken left hf; cases hf
  | cons r rs ih =>
    intro cs taken left hf
    simp only [firstOf] at hf
    split at hf
    · next found hr =>
      exact h r (List.mem_cons_self ..) cs taken left (hr.trans hf)
    · exact ih (fun s hs => h s (List.mem_cons_of_mem _ hs)) cs taken left hf

theorem inOrder_cuts {rs : List Recogniser} (h : ∀ r ∈ rs, r.Cuts) : (inOrder rs).Cuts := by
  induction rs with
  | nil =>
    intro cs taken left hf
    obtain ⟨rfl, rfl⟩ := Prod.mk.inj (Option.some.inj hf)
    rfl
  | cons r rs ih =>
    intro cs taken left hf
    simp only [inOrder] at hf
    split at hf
    · cases hf
    · next taken₁ left₁ hr =>
      split at hf
      · cases hf
      · next more left₂ hm =>
        obtain ⟨rfl, rfl⟩ := Prod.mk.inj (Option.some.inj hf)
        rw [List.append_assoc,
          ih (fun s hs => h s (List.mem_cons_of_mem _ hs)) left₁ more left₂ hm]
        exact h r (List.mem_cons_self ..) cs taken₁ left₁ hr

theorem optional_cuts {r : Recogniser} (h : r.Cuts) : r.optional.Cuts :=
  firstOf_cuts (by simpa using ⟨h, inOrder_cuts (by simp)⟩)

theorem notBefore_cuts {r : Recogniser} (h : r.Cuts) (p : Char → Bool) :
    (r.notBefore p).Cuts := by
  intro cs taken left hf
  simp only [notBefore] at hf
  split at hf
  · next taken₁ left₁ hr =>
    split at hf
    · cases hf
    · obtain ⟨rfl, rfl⟩ := Prod.mk.inj (Option.some.inj hf)
      exact h cs _ _ hr
  · cases hf

end Recogniser
end HiccupReader.Matching
