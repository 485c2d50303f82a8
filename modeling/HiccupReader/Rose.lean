/-! Ordered trees with labelled inner nodes and values at the leaves. The leaves are listed in
two ways, by recursion and by a walk that keeps the trees still to visit on a stack; the two
agree from every state of the walk. -/

namespace HiccupReader

universe u v

inductive Rose (ν : Type u) (α : Type v) : Type (max u v)
  | leaf (value : α)
  | node (label : ν) (children : List (Rose ν α))

namespace Rose

variable {ν : Type u} {α : Type v}

mutual

def count : Rose ν α → Nat
  | leaf _ => 1
  | node _ children => 1 + countAll children

def countAll : List (Rose ν α) → Nat
  | [] => 0
  | t :: ts => count t + countAll ts

end

@[simp] theorem countAll_append (xs ys : List (Rose ν α)) :
    countAll (xs ++ ys) = countAll xs + countAll ys := by
  induction xs with
  | nil => simp [countAll]
  | cons t ts ih => simp [countAll, ih, Nat.add_assoc]

mutual

def leaves : Rose ν α → List α
  | leaf value => [value]
  | node _ children => leavesAll children

def leavesAll : List (Rose ν α) → List α
  | [] => []
  | t :: ts => leaves t ++ leavesAll ts

end

@[simp] theorem leavesAll_append (xs ys : List (Rose ν α)) :
    leavesAll (xs ++ ys) = leavesAll xs ++ leavesAll ys := by
  induction xs with
  | nil => simp [leavesAll]
  | cons t ts ih => simp [leavesAll, ih]

/-- The next leaf and the trees to visit after it. The stack has the tree to visit next on top. -/
def next? : List (Rose ν α) → Option (α × List (Rose ν α))
  | [] => none
  | leaf value :: stack => some (value, stack)
  | node _ children :: stack => next? (children ++ stack)
termination_by stack => countAll stack
decreasing_by simp only [countAll_append, countAll, count]; omega

theorem next?_eq_none {stack : List (Rose ν α)} (h : next? stack = none) :
    leavesAll stack = [] := by
  fun_induction next? stack with
  | case1 => rfl
  | case2 => cases h
  | case3 label children stack ih =>
    simpa [leavesAll, leaves] using ih h

theorem leavesAll_of_next? {stack rest : List (Rose ν α)} {value : α}
    (h : next? stack = some (value, rest)) : leavesAll stack = value :: leavesAll rest := by
  fun_induction next? stack with
  | case1 => cases h
  | case2 value stack =>
    obtain ⟨rfl, rfl⟩ := Prod.mk.inj (Option.some.inj h)
    rfl
  | case3 label children stack ih =>
    simpa [leavesAll, leaves] using ih h

theorem countAll_lt_of_next? {stack rest : List (Rose ν α)} {value : α}
    (h : next? stack = some (value, rest)) : countAll rest < countAll stack := by
  fun_induction next? stack with
  | case1 => cases h
  | case2 value stack =>
    obtain ⟨rfl, rfl⟩ := Prod.mk.inj (Option.some.inj h)
    simp only [countAll, count]
    omega
  | case3 label children stack ih =>
    have := ih h
    simp only [countAll_append, countAll, count] at this ⊢
    omega

def walk (stack : List (Rose ν α)) : List α :=
  match _h : next? stack with
  | none => []
  | some (value, rest) => value :: walk rest
termination_by countAll stack
decreasing_by exact countAll_lt_of_next? _h

theorem walk_eq_leavesAll (stack : List (Rose ν α)) : walk stack = leavesAll stack := by
  fun_induction walk stack with
  | case1 stack h => exact (next?_eq_none h).symm
  | case2 stack value rest h ih => rw [ih, leavesAll_of_next? h]

end Rose
end HiccupReader
