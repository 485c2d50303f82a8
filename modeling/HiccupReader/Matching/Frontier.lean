/-! The frontier of a match: the furthest place at which something that was looked for was not
there, and what that was. Failures of branches that were given up count as well. -/

namespace HiccupReader.Matching

/-- `goals` are listed in the order in which they failed at `offset`. Without any failure the
frontier is the start of the text. -/
structure Frontier (γ : Type) where
  offset : Nat
  goals : List γ

namespace Frontier

variable {γ : Type}

def start : Frontier γ := ⟨0, []⟩

def failure (goal : γ) (offset : Nat) : Frontier γ := ⟨offset, [goal]⟩

def join (f g : Frontier γ) : Frontier γ :=
  if f.offset < g.offset then g
  else if g.offset < f.offset then f
  else ⟨f.offset, f.goals ++ g.goals⟩

/-- What is left of the failures inside a goal that was tried at `offset` and failed. Failures
further on stand. Failures at the same place give way to the goal, unless there was just one,
which then explains the failure better. -/
def settle (inside : Frontier γ) (goal : γ) (offset : Nat) : Frontier γ :=
  if offset < inside.offset then inside
  else if inside.offset = offset ∧ inside.goals.length = 1 then inside
  else failure goal offset

theorem start_join (f : Frontier γ) : start.join f = f := by
  obtain ⟨i, xs⟩ := f
  grind [join, start]

theorem join_start (f : Frontier γ) : f.join start = f := by
  obtain ⟨i, xs⟩ := f
  grind [join, start]

theorem goals_settle_ne_nil (f : Frontier γ) (goal : γ) {offset : Nat}
    (h : offset < f.offset → f.goals ≠ []) : (f.settle goal offset).goals ≠ [] := by
  grind [settle, failure]

end Frontier
end HiccupReader.Matching
