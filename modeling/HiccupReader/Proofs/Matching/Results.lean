import HiccupReader.Matching.Attempt

/-! What the ways to combine attempts yield, apart from the frontier. -/

namespace HiccupReader.Matching

variable {γ α β : Type}

theorem exists_first_of_findSome? {σ τ : Type} [DecidableEq σ] {f : σ → Option τ}
    {options : List σ} {found : τ} (h : options.findSome? f = some found) :
    ∃ s ∈ options, f s = some found ∧ ∀ x ∈ options.takeWhile (· ≠ s), f x = none := by
  obtain ⟨earlier, s, later, rfl, hs, hnone⟩ := List.findSome?_eq_some_iff.1 h
  refine ⟨s, by simp, hs, ?_⟩
  intro x hx
  -- Either an option before `s` stops the run, or it goes on up to `s` itself.
  rw [List.takeWhile_append] at hx
  split at hx
  · rw [List.takeWhile_cons_of_neg (by simp), List.append_nil] at hx
    exact hnone x hx
  · exact hnone x (List.takeWhile_subset _ hx)

theorem findSome?_of_first {σ τ : Type} [DecidableEq σ] {f : σ → Option τ} {options : List σ}
    {s : σ} {found : τ} (hs : s ∈ options) (hfound : f s = some found)
    (hnone : ∀ x ∈ options.takeWhile (· ≠ s), f x = none) :
    options.findSome? f = some found := by
  induction options with
  | nil => cases hs
  | cons x options ih =>
    by_cases hx : x = s
    · rw [List.findSome?_cons, hx, hfound]
    · rw [List.takeWhile_cons_of_pos (by simpa using hx)] at hnone
      have hrest : options.findSome? f = some found :=
        ih ((List.mem_cons.1 hs).resolve_left (Ne.symm hx)) fun y hy =>
          hnone y (List.mem_cons_of_mem _ hy)
      rw [List.findSome?_cons, hnone x (List.mem_cons_self ..), hrest]

namespace Attempt

@[simp] theorem result_after (a : Attempt γ α) (earlier : Frontier γ) :
    (a.after earlier).result = a.result := rfl

@[simp] theorem result_aimedAt (a : Attempt γ α) (goal : γ) (offset : Nat) :
    (a.aimedAt goal offset).result = a.result := by
  unfold aimedAt
  split
  · rfl
  · next h => exact h.symm

@[simp] theorem result_andThen (a : Attempt γ α) (next : α → Matcher γ β) :
    (a.andThen next).result = a.result.bind fun found => (next found.1 found.2).result := by
  unfold andThen
  split
  · next h => rw [h]; rfl
  · next h => rw [h]; rfl

end Attempt

namespace Matcher

theorem result_firstOf {σ : Type} (f : σ → Matcher γ α) (options : List σ) (c : Cursor) :
    (firstOf (options.map f) c).result = options.findSome? fun s => (f s c).result := by
  induction options with
  | nil => rfl
  | cons s options ih =>
    rw [List.map_cons, firstOf, List.findSome?_cons]
    split
    · next h => rw [h]
    · next h => rw [h, Attempt.result_after, ih]

theorem result_inOrder_nil (skip : Cursor → Cursor) (c : Cursor) :
    (inOrder skip ([] : List (Matcher γ (List α))) c).result = some ([], c) := rfl

theorem result_inOrder_cons (skip : Cursor → Cursor) (m : Matcher γ (List α))
    (ms : List (Matcher γ (List α))) (c : Cursor) :
    (inOrder skip (m :: ms) c).result =
      (m (skip c)).result.bind fun found =>
        (inOrder skip ms found.2).result.map fun more => (found.1 ++ more.1, more.2) := by
  rw [inOrder, Attempt.result_andThen]
  congr 1
  funext found
  rw [Attempt.result_andThen, Option.map_eq_bind]
  rfl

theorem result_repeated_succ (skip : Cursor → Cursor) (m : Matcher γ α) (limit : Nat)
    (c : Cursor) :
    (repeated skip m (limit + 1) c).result =
      match (m (skip c)).result with
      | none => some ([], c)
      | some (value, c) =>
        (repeated skip m limit c).result.map fun more => (value :: more.1, more.2) := by
  cases h : (m (skip c)).result with
  | none => simp only [repeated, h]
  | some found =>
    simp only [repeated, h, Attempt.result_after, Attempt.result_andThen, Option.map_eq_bind]
    rfl

inductive Repeats (skip : Cursor → Cursor) (item : Cursor → Option (α × Cursor)) :
    Cursor → List α → Cursor → Prop
  | stop {c : Cursor} : item (skip c) = none → Repeats skip item c [] c
  | next {c c₁ c₂ : Cursor} {value : α} {values : List α} :
    item (skip c) = some (value, c₁) → Repeats skip item c₁ values c₂ →
      Repeats skip item c (value :: values) c₂

/-- The limit plays no part when it exceeds what is left and every item takes a character. -/
theorem result_repeated_of_repeats {skip : Cursor → Cursor} {m : Matcher γ α}
    (shrinks : ∀ {c value c₁}, (m (skip c)).result = some (value, c₁) →
      c₁.rest.length < c.rest.length)
    {c c' : Cursor} {values : List α} (h : Repeats skip (fun c => (m c).result) c values c')
    {limit : Nat} (hl : c.rest.length < limit) :
    (repeated skip m limit c).result = some (values, c') := by
  induction h generalizing limit with
  | @stop c hs =>
    obtain ⟨limit, rfl⟩ := Nat.exists_eq_succ_of_ne_zero (Nat.ne_zero_of_lt hl)
    simp only [result_repeated_succ, hs]
  | @next c c₁ c₂ value values hs _ ih =>
    obtain ⟨limit, rfl⟩ := Nat.exists_eq_succ_of_ne_zero (Nat.ne_zero_of_lt hl)
    -- The item shortens what is left, so that the limit stays above it.
    have hlt : c₁.rest.length < c.rest.length := shrinks hs
    have hrest : (repeated skip m limit c₁).result = some (values, c₂) := ih (by omega)
    simp only [result_repeated_succ, hs, hrest, Option.map_some]

end Matcher
end HiccupReader.Matching
