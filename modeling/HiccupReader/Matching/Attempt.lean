import HiccupReader.Matching.Cursor
import HiccupReader.Matching.Frontier

/-! Attempts to match at a cursor, and the ways to combine them: ordered choice, sequence and
greedy repetition. A choice that was made and an item that was taken are never reconsidered. -/

namespace HiccupReader.Matching

structure Attempt (γ α : Type) where
  result : Option (α × Cursor)
  frontier : Frontier γ

abbrev Matcher (γ α : Type) := Cursor → Attempt γ α

variable {γ α β : Type}

namespace Attempt

def success (value : α) (c : Cursor) : Attempt γ α := ⟨some (value, c), .start⟩

def failure (goal : γ) (offset : Nat) : Attempt γ α := ⟨none, .failure goal offset⟩

def after (a : Attempt γ α) (earlier : Frontier γ) : Attempt γ α :=
  ⟨a.result, earlier.join a.frontier⟩

def andThen (a : Attempt γ α) (next : α → Matcher γ β) : Attempt γ β :=
  match a.result with
  | some (value, c) => (next value c).after a.frontier
  | none => ⟨none, a.frontier⟩

def aimedAt (a : Attempt γ α) (goal : γ) (offset : Nat) : Attempt γ α :=
  match a.result with
  | some _ => a
  | none => ⟨none, a.frontier.settle goal offset⟩

end Attempt

namespace Matcher

def firstOf : List (Matcher γ α) → Matcher γ α
  | [], _ => ⟨none, .start⟩
  | m :: ms, c =>
    let a := m c
    match a.result with
    | some _ => a
    | none => (firstOf ms c).after a.frontier

def inOrder (skip : Cursor → Cursor) : List (Matcher γ (List α)) → Matcher γ (List α)
  | [], c => .success [] c
  | m :: ms, c =>
    (m (skip c)).andThen fun values c =>
      (inOrder skip ms c).andThen fun more c => .success (values ++ more) c

def repeated (skip : Cursor → Cursor) (m : Matcher γ α) : (limit : Nat) → Matcher γ (List α)
  | 0, c => .success [] c
  | limit + 1, c =>
    let a := m (skip c)
    match a.result with
    | none => ⟨some ([], c), a.frontier⟩
    | some (value, c) =>
      ((repeated skip m limit c).andThen fun more c => .success (value :: more) c).after a.frontier

end Matcher
end HiccupReader.Matching
