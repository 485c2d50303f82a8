import HiccupReader.Proofs.Clojure.Lexeme
import HiccupReader.Proofs.Clojure.Trivia

/-! A token is the same whatever stands behind it, as long as that is put apart. What the lexer
prefers at a token stays the same too. -/

namespace HiccupReader.Clojure

open Matching Recogniser

/-- A separator keeps apart what stands on its two sides. It is trivia that does not run on behind
its end, and it does not begin with a mark that a token could hold. -/
structure Separator (gap : List Char) : Prop where
  trivia : Trivia False gap
  begins : ∃ c cs, gap = c :: cs ∧ (isBlank c = true ∨ c = ';')

def Apart (cs : List Char) : Prop := ∀ c ∈ cs.head?, isBlank c = true ∨ c = ';'

def separators : List Char := ['\n', '\r', ' ', '\t', ',', ';']

theorem mem_separators {c : Char} (h : isBlank c = true ∨ c = ';') : c ∈ separators := by
  rcases h with h | rfl
  · simp only [isBlank, isLineEnd, Bool.or_eq_true, beq_iff_eq] at h
    rcases h with (((rfl | rfl) | rfl) | rfl) | rfl <;> decide
  · decide

def Spares (p : Char → Bool) : Prop := ∀ c ∈ separators, p c = false

instance (p : Char → Bool) : Decidable (Spares p) :=
  List.decidableBAll (fun c => p c = false) separators

def Solid (w : List Char) : Prop := ∀ c ∈ separators, c ∉ w

instance (w : List Char) : Decidable (Solid w) :=
  List.decidableBAll (fun c => c ∉ w) separators

theorem Apart.any_eq_false {cs : List Char} (h : Apart cs) {p : Char → Bool} (hp : Spares p) :
    cs.head?.any p = false := by
  cases cs with
  | nil => rfl
  | cons c cs => exact hp c (mem_separators (h c rfl))

/-- The second text is the first one up to some place, and is put apart there. -/
inductive Parted : List Char → List Char → Prop
  | here {cs cs' : List Char} : Apart cs' → Parted cs cs'
  | later {c : Char} {cs cs' : List Char} : Parted cs cs' → Parted (c :: cs) (c :: cs')

namespace Parted

variable {cs cs' left left' : List Char}

theorem append (h : Parted left left') (taken : List Char) :
    Parted (taken ++ left) (taken ++ left') := by
  induction taken with
  | nil => exact h
  | cons c taken ih => exact .later ih

theorem any_eq_false (h : Parted cs cs') {p : Char → Bool} (hp : Spares p)
    (hcs : cs.head?.any p = false) : cs'.head?.any p = false := by
  cases h with
  | here hapart => exact hapart.any_eq_false hp
  | later _ => exact hcs

theorem of_append {w : List Char} (hw : Solid w) (h : Parted cs (w ++ left')) :
    ∃ left, cs = w ++ left ∧ Parted left left' := by
  induction w generalizing cs with
  | nil => exact ⟨cs, rfl, h⟩
  | cons d w ih =>
    cases h with
    | here hapart => exact absurd (List.mem_cons_self ..) (hw d (mem_separators (hapart d rfl)))
    | @later _ ds _ hrest =>
      have hw' : Solid w := fun c hc hmem => hw c hc (List.mem_cons_of_mem _ hmem)
      obtain ⟨left, rfl, hleft⟩ := ih hw' hrest
      exact ⟨left, rfl, hleft⟩

end Parted
end HiccupReader.Clojure

namespace HiccupReader.Matching.Recogniser

open Clojure

def Stable (r : Recogniser) : Prop :=
  ∀ taken left left', r (taken ++ left) = some (taken, left) → Parted left left' →
    r (taken ++ left') = some (taken, left')

def Exact (r : Recogniser) : Prop :=
  ∀ cs cs' taken left', Parted cs cs' → r cs' = some (taken, left') →
    ∃ left, r cs = some (taken, left) ∧ Parted left left'

def Firm (r : Recogniser) : Prop :=
  ∀ cs cs', Parted cs cs' → (r cs').isSome → (r cs).isSome

theorem Exact.firm {r : Recogniser} (h : r.Exact) : r.Firm := by
  intro cs cs' hparted hsome
  obtain ⟨⟨taken, left'⟩, htaken⟩ := Option.isSome_iff_exists.1 hsome
  obtain ⟨left, hleft, -⟩ := h cs cs' taken left' hparted htaken
  rw [hleft]
  rfl

theorem word_exact {w : List Char} (hw : Solid w) : (word w).Exact := by
  intro cs cs' taken left' hparted h
  obtain ⟨rfl, rfl⟩ := word_eq_some_iff.1 h
  obtain ⟨left, rfl, hleft⟩ := hparted.of_append hw
  exact ⟨left, word_eq_some_iff.2 ⟨rfl, rfl⟩, hleft⟩

theorem oneOf_exact {p : Char → Bool} (hp : Spares p) : (oneOf p).Exact := by
  intro cs cs' taken left' hparted h
  obtain ⟨c, hc, rfl, rfl⟩ := oneOf_eq_some_iff.1 h
  have hnone : Solid [c] := by
    intro d hd hmem
    obtain rfl := List.mem_singleton.1 hmem
    rw [hp d hd] at hc
    cases hc
  obtain ⟨left, rfl, hleft⟩ := Parted.of_append (w := [c]) hnone hparted
  exact ⟨left, oneOf_eq_some_iff.2 ⟨c, hc, rfl, rfl⟩, hleft⟩

theorem word_firm {w : List Char} (hw : Solid w) : (word w).Firm :=
  (word_exact hw).firm

theorem firstOf_firm {rs : List Recogniser} (h : ∀ r ∈ rs, r.Firm) : (firstOf rs).Firm := by
  intro cs cs' hparted hsome
  induction rs with
  | nil => cases hsome
  | cons r rs ih =>
    obtain ⟨hr, hrs⟩ := List.forall_mem_cons.1 h
    obtain ⟨found, hfound⟩ := Option.isSome_iff_exists.1 hsome
    rw [firstOf]
    split
    · rfl
    · next hnone =>
      rcases firstOf_cons_eq_some_iff.1 hfound with hfirst | ⟨-, hrest⟩
      · have hcs := hr cs cs' hparted (by rw [hfirst]; rfl)
        rw [hnone] at hcs
        cases hcs
      · exact ih hrs (by rw [hrest]; rfl)

theorem inOrder_firm (rs rest : List Recogniser) (hrs : ∀ r ∈ rs, r.Exact)
    (hrest : (inOrder rest).Firm) : (inOrder (rs ++ rest)).Firm := by
  induction rs with
  | nil => exact hrest
  | cons r rs ih =>
    obtain ⟨hr, hrs⟩ := List.forall_mem_cons.1 hrs
    intro cs cs' hparted hsome
    obtain ⟨⟨taken, left'⟩, htaken⟩ := Option.isSome_iff_exists.1 hsome
    rw [List.cons_append] at htaken
    obtain ⟨first, mid', more, hfirst, hmore, -⟩ := inOrder_cons_eq_some_iff.1 htaken
    obtain ⟨mid, hmid, hparts⟩ := hr cs cs' first mid' hparted hfirst
    have hagain := ih hrs mid mid' hparts (by rw [hmore]; rfl)
    obtain ⟨found, hfound⟩ := Option.isSome_iff_exists.1 hagain
    rw [List.cons_append, inOrder_cons_eq_some_iff.2 ⟨first, mid, found.1, hmid, hfound, rfl⟩]
    rfl

def Total (r : Recogniser) : Prop := ∀ cs, (r cs).isSome

theorem Total.firm {r : Recogniser} (h : r.Total) : r.Firm := fun cs _ _ _ => h cs

theorem optional_total (r : Recogniser) : r.optional.Total := by
  intro cs
  cases h : r cs with
  | none => rw [optional_eq_some_iff.2 (.inr ⟨h, rfl⟩)]; rfl
  | some found => rw [optional_eq_some_iff.2 (.inl h)]; rfl

theorem inOrder_total {rs : List Recogniser} (h : ∀ r ∈ rs, r.Total) : (inOrder rs).Total := by
  induction rs with
  | nil => exact fun _ => rfl
  | cons r rs ih =>
    obtain ⟨hr, hrs⟩ := List.forall_mem_cons.1 h
    intro cs
    obtain ⟨⟨first, mid⟩, hfirst⟩ := Option.isSome_iff_exists.1 (hr cs)
    obtain ⟨⟨more, left⟩, hmore⟩ := Option.isSome_iff_exists.1 (ih hrs mid)
    rw [inOrder_cons_eq_some_iff.2 ⟨first, mid, more, hfirst, hmore, rfl⟩]
    rfl

theorem word_stable (w : List Char) : (word w).Stable := by
  intro taken left left' h _
  obtain ⟨rfl, -⟩ := word_eq_some_iff.1 h
  exact word_eq_some_iff.2 ⟨rfl, rfl⟩

theorem oneOf_stable (p : Char → Bool) : (oneOf p).Stable := by
  intro taken left left' h _
  obtain ⟨c, hc, rfl, -⟩ := oneOf_eq_some_iff.1 h
  exact oneOf_eq_some_iff.2 ⟨c, hc, rfl, rfl⟩

theorem run_stable {p : Char → Bool} (hp : Spares p) : (run p).Stable := by
  intro taken left left' h hparted
  rw [run_eq_some_iff] at h ⊢
  exact ⟨h.1, hparted.any_eq_false hp h.2⟩

theorem inOrder_stable {rs : List Recogniser} (h : ∀ r ∈ rs, r.Cuts ∧ r.Stable) :
    (inOrder rs).Stable := by
  intro taken left left' hf hparted
  induction rs generalizing taken with
  | nil =>
    obtain ⟨rfl, -⟩ := Prod.mk.inj (Option.some.inj hf)
    rfl
  | cons r rs ih =>
    obtain ⟨⟨-, hr⟩, hrs⟩ := List.forall_mem_cons.1 h
    obtain ⟨first, mid, more, hfirst, hmore, rfl⟩ := inOrder_cons_eq_some_iff.1 hf
    have hcuts : (inOrder rs).Cuts := inOrder_cuts fun r hr => (hrs r hr).1
    obtain rfl : more ++ left = mid := hcuts mid more left hmore
    rw [List.append_assoc] at hfirst
    rw [List.append_assoc]
    exact inOrder_cons_eq_some_iff.2 ⟨first, more ++ left', more,
      hr first _ _ hfirst (hparted.append more), ih hrs more hmore, rfl⟩

theorem firstOf_stable {rs : List Recogniser} (h : ∀ r ∈ rs, r.Stable)
    (hfirm : ∀ r ∈ rs.dropLast, r.Firm) : (firstOf rs).Stable := by
  intro taken left left' hf hparted
  induction rs with
  | nil => cases hf
  | cons r rs ih =>
    obtain ⟨hr, hrs⟩ := List.forall_mem_cons.1 h
    rcases firstOf_cons_eq_some_iff.1 hf with hfirst | ⟨hnone, hrest⟩
    · exact firstOf_cons_eq_some_iff.2 (.inl (hr taken left left' hfirst hparted))
    · cases rs with
      | nil => cases hrest
      | cons s rs =>
        obtain ⟨hfirst, hothers⟩ := List.forall_mem_cons.1 hfirm
        refine firstOf_cons_eq_some_iff.2 (.inr ⟨?_, ih hrs hothers hrest⟩)
        rw [← Option.not_isSome_iff_eq_none]
        intro hsome
        have hbefore := hfirst _ _ (hparted.append taken) hsome
        rw [hnone] at hbefore
        cases hbefore

theorem optional_stable {r : Recogniser} (hr : r.Stable) (hfirm : r.Firm) : r.optional.Stable :=
  firstOf_stable (by simp [hr, inOrder_stable]) (by simpa using hfirm)

theorem notBefore_stable {r : Recogniser} {p : Char → Bool} (hp : Spares p) (hr : r.Stable) :
    (r.notBefore p).Stable := by
  intro taken left left' h hparted
  rw [notBefore_eq_some_iff] at h ⊢
  exact ⟨hr taken left left' h.1 hparted, hparted.any_eq_false hp h.2⟩

end HiccupReader.Matching.Recogniser
