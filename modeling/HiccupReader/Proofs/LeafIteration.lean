import HiccupReader.Hiccup
import HiccupReader.Tree
import HiccupReader.Proofs.Rose

/-! Asking for the leaves of trees one at a time. From every state of the walk there remain the
leaves of the trees on its stack, from the top of the stack down; the walk gives them and ends. It
makes no difference whether the top is the head of a list or the end of an array. -/

namespace HiccupReader

section iteration

variable {σ ω : Type} {next : σ → Option (ω × σ)} {pending : σ → List ω} {state later : σ}
  {items : List ω}

inductive Yields (next : σ → Option (ω × σ)) : σ → List ω → σ → Prop
  | refl (state : σ) : Yields next state [] state
  | cons {state between later : σ} {item : ω} {items : List ω} :
    next state = some (item, between) → Yields next between items later →
      Yields next state (item :: items) later

/-- From every state the iterator gives what is pending there, each item in its turn, and ends. -/
structure Enumerates (next : σ → Option (ω × σ)) (pending : σ → List ω) : Prop where
  ends_iff : ∀ state items,
    (∃ last, Yields next state items last ∧ next last = none) ↔ items = pending state
  splits : ∀ state items later, Yields next state items later →
    pending state = items ++ pending later

theorem pending_eq_append
    (hnext : ∀ state item later, next state = some (item, later) →
      pending state = item :: pending later)
    (h : Yields next state items later) : pending state = items ++ pending later := by
  induction h with
  | refl state => rfl
  | cons hfirst _ ih => rw [hnext _ _ _ hfirst, ih, List.cons_append]

theorem exists_yields_pending (hnone : ∀ state, next state = none → pending state = [])
    (hnext : ∀ state item later, next state = some (item, later) →
      pending state = item :: pending later) (state : σ) :
    ∃ last, Yields next state (pending state) last ∧ next last = none := by
  -- Each request takes one item away from what is pending.
  induction hitems : pending state generalizing state with
  | nil =>
    cases hfirst : next state with
    | none => exact ⟨state, .refl state, hfirst⟩
    | some found =>
      rw [hnext state found.1 found.2 hfirst] at hitems
      cases hitems
  | cons item items ih =>
    cases hfirst : next state with
    | none =>
      rw [hnone state hfirst] at hitems
      cases hitems
    | some found =>
      obtain ⟨first, later⟩ := found
      rw [hnext state first later hfirst] at hitems
      obtain ⟨rfl, hlater⟩ := List.cons.inj hitems
      obtain ⟨last, hyields, hlast⟩ := ih later hlater
      exact ⟨last, .cons hfirst hyields, hlast⟩

theorem Enumerates.of_next (hnone : ∀ state, next state = none → pending state = [])
    (hnext : ∀ state item later, next state = some (item, later) →
      pending state = item :: pending later) : Enumerates next pending := by
  refine ⟨fun state items => ⟨?_, ?_⟩, fun state items later => pending_eq_append hnext⟩
  · rintro ⟨last, hyields, hlast⟩
    rw [pending_eq_append hnext hyields, hnone last hlast, List.append_nil]
  · rintro rfl
    exact exists_yields_pending hnone hnext state

end iteration

namespace Rose

variable {ν α : Type}

theorem enumerates_next? :
    Enumerates (next? : List (Rose ν α) → _) fun stack => stack.flatMap leaves := by
  simp only [← leavesAll_eq_flatMap]
  exact .of_next (fun stack => next?_eq_none) fun stack value rest => leavesAll_of_next?

@[simp] theorem countAll_reverse (ts : List (Rose ν α)) : countAll ts.reverse = countAll ts := by
  induction ts with
  | nil => rfl
  | cons t ts ih => simp [countAll, ih, Nat.add_comm]

/-- The next leaf and the trees to visit after it, where the tree to visit next is at the end. The
children of a node are added last one first. -/
def nextAtEnd? (stack : Array (Rose ν α)) : Option (α × Array (Rose ν α)) :=
  match _h : stack.back? with
  | none => none
  | some (leaf value) => some (value, stack.pop)
  | some (node _ children) => nextAtEnd? (stack.pop ++ children.reverse)
termination_by countAll stack.toList
decreasing_by
  obtain ⟨others, rfl⟩ := Array.back?_eq_some_iff.1 _h
  simp [countAll, count]

theorem nextAtEnd?_eq (stack : Array (Rose ν α)) :
    nextAtEnd? stack =
      (next? stack.toList.reverse).map fun (value, rest) => (value, rest.reverse.toArray) := by
  fun_induction nextAtEnd? stack with
  | case1 stack h =>
    obtain rfl := Array.back?_eq_none_iff.1 h
    simp [next?]
  | case2 stack value h =>
    obtain ⟨others, rfl⟩ := Array.back?_eq_some_iff.1 h
    simp [next?]
  | case3 stack label children h ih =>
    obtain ⟨others, rfl⟩ := Array.back?_eq_some_iff.1 h
    rw [ih]
    simp [next?]

theorem enumerates_nextAtEnd? :
    Enumerates (nextAtEnd? : Array (Rose ν α) → _)
      fun stack => stack.toList.reverse.flatMap leaves := by
  simp only [← leavesAll_eq_flatMap]
  refine .of_next (fun stack h => ?_) fun stack value rest h => ?_
  · rw [nextAtEnd?_eq, Option.map_eq_none_iff] at h
    exact next?_eq_none h
  · rw [nextAtEnd?_eq, Option.map_eq_some_iff] at h
    obtain ⟨⟨value, others⟩, hnext, ⟨⟩⟩ := h
    simpa using leavesAll_of_next? hnext

end Rose

/-- The leaves of a tree are listed one by one, each in its turn, and then no more. The same holds
from every state of the walk for the trees on its stack, from the top down. -/
theorem leaves_listed_one_by_one :
    (∀ ν α : Type,
      (Enumerates (Rose.next? : List (Rose ν α) → _) fun stack => stack.flatMap Rose.leaves) ∧
      Enumerates (Rose.nextAtEnd? : Array (Rose ν α) → _)
        fun stack => stack.toList.reverse.flatMap Rose.leaves) ∧
    (∀ tree : Tree, tree.tokens = tree.leaves) ∧
    ∀ h : Hiccup, h.leafTexts = h.leaves ∧ h.text = String.join h.leaves := by
  refine ⟨fun ν α => ⟨Rose.enumerates_next?, Rose.enumerates_nextAtEnd?⟩, Tree.tokens_eq_leaves,
    fun h => ⟨h.leafTexts_eq_leaves, ?_⟩⟩
  rw [Hiccup.text, h.leafTexts_eq_leaves]

end HiccupReader
