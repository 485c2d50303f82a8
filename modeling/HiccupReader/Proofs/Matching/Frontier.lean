import HiccupReader.Matching.Attempt

/-! How far the frontier of a combined attempt reaches: as far as that of any part that was tried.
-/

namespace HiccupReader.Matching

variable {γ α β : Type}

namespace Frontier

theorem offset_join (f g : Frontier γ) : (f.join g).offset = max f.offset g.offset := by
  grind [join]

theorem join_of_lt {f g : Frontier γ} (h : f.offset < g.offset) : f.join g = g := if_pos h

theorem join_of_gt {f g : Frontier γ} (h : g.offset < f.offset) : f.join g = f := by
  rw [join, if_neg (Nat.lt_asymm h), if_pos h]

theorem join_of_eq {f g : Frontier γ} (h : f.offset = g.offset) :
    f.join g = ⟨f.offset, f.goals ++ g.goals⟩ := by
  rw [join, if_neg (by omega), if_neg (by omega)]

theorem offset_settle (inside : Frontier γ) (goal : γ) (offset : Nat) :
    (inside.settle goal offset).offset = max offset inside.offset := by
  grind [settle, failure]

end Frontier

namespace Attempt

theorem andThen_of_some {a : Attempt γ α} {next : α → Matcher γ β} {value : α} {c : Cursor}
    (h : a.result = some (value, c)) : a.andThen next = (next value c).after a.frontier := by
  rw [andThen, h]

theorem andThen_of_none {a : Attempt γ α} {next : α → Matcher γ β} (h : a.result = none) :
    a.andThen next = ⟨none, a.frontier⟩ := by
  rw [andThen, h]

theorem success_andThen (value : α) (c : Cursor) (next : α → Matcher γ β) :
    (success value c).andThen next = next value c := by
  rw [andThen_of_some rfl, after, success, Frontier.start_join]

theorem andThen_success_andThen {δ : Type} (a : Attempt γ α) (f : α → β)
    (next : β → Matcher γ δ) :
    (a.andThen fun value c => .success (f value) c).andThen next =
      a.andThen fun value c => next (f value) c := by
  cases h : a.result with
  | none => rw [andThen_of_none h, andThen_of_none h, andThen_of_none rfl]
  | some found =>
    rw [andThen_of_some h, andThen_of_some h, after, success, andThen_of_some rfl,
      Frontier.join_start]

theorem offset_after (a : Attempt γ α) (earlier : Frontier γ) :
    (a.after earlier).frontier.offset = max earlier.offset a.frontier.offset :=
  Frontier.offset_join ..

theorem offset_andThen_of_some {a : Attempt γ α} {next : α → Matcher γ β} {value : α} {c : Cursor}
    (h : a.result = some (value, c)) :
    (a.andThen next).frontier.offset = max a.frontier.offset (next value c).frontier.offset := by
  rw [andThen_of_some h]
  exact offset_after ..

theorem offset_andThen_of_none {a : Attempt γ α} {next : α → Matcher γ β} (h : a.result = none) :
    (a.andThen next).frontier.offset = a.frontier.offset := by
  rw [andThen_of_none h]

theorem offset_andThen_success (a : Attempt γ α) (f : α → Cursor → β) :
    (a.andThen fun value c => .success (f value c) c).frontier.offset = a.frontier.offset := by
  cases h : a.result with
  | none => exact offset_andThen_of_none h
  | some found => exact (offset_andThen_of_some h).trans (Nat.max_zero _)

theorem offset_aimedAt_of_some {a : Attempt γ α} {goal : γ} {offset : Nat} {found : α × Cursor}
    (h : a.result = some found) : (a.aimedAt goal offset).frontier.offset = a.frontier.offset := by
  rw [aimedAt, h]

theorem offset_aimedAt_of_none {a : Attempt γ α} {goal : γ} {offset : Nat} (h : a.result = none) :
    (a.aimedAt goal offset).frontier.offset = max offset a.frontier.offset := by
  rw [aimedAt, h]
  exact Frontier.offset_settle ..

end Attempt

theorem Matcher.firstOf_singleton (m : Matcher γ α) (c : Cursor) : firstOf [m] c = m c := by
  rw [firstOf, firstOf]
  split
  · rfl
  · next h => rw [Attempt.after, Frontier.join_start, ← h]

end HiccupReader.Matching
