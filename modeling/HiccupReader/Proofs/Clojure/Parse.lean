import HiccupReader.Clojure.Parse
import HiccupReader.Proofs.Clojure.Depth

/-! The entry points of reading in terms of matching a rule at the start of the text. -/

namespace HiccupReader.Clojure

open Matching

theorem eq_ok_of_toOption {ε α : Type} {result : Except ε α} {value : α}
    (h : result.toOption = some value) : result = .ok value := by
  cases result with
  | error e => cases h
  | ok found => exact congrArg Except.ok (Option.some.inj h)

theorem exists_eq_ok {ε α : Type} {result : Except ε α} (h : result.toOption.isSome = true) :
    ∃ value, result = .ok value := by
  obtain ⟨value, hvalue⟩ := Option.isSome_iff_exists.1 h
  exact ⟨value, eq_ok_of_toOption hvalue⟩

theorem outcome_eq_ok_iff {α : Type} {a : Attempt Goal α} {value : α} :
    outcome a = .ok value ↔ ∃ c, a.result = some (value, c) := by
  unfold outcome
  split
  · next found c h => simp [h]
  · next h => simp [h]

theorem derive_eq_ok_iff {text : String} {tree : Tree} :
    derive text = .ok tree ↔
      ∃ c, readingOf matchAt (.rule .code) (.start text.toList) tree c := by
  rw [derive, outcome_eq_ok_iff, matchText_eq_matchAt]
  rfl

theorem lex_eq_ok_iff {text : String} {tokens : List Token} :
    lex text = .ok tokens ↔
      ∃ tree c, readingOf matchAt (.rule .tokens) (.start text.toList) tree c ∧
        tokens = tree.leaves := by
  have houtcome : ∀ tree, outcome (matchText .tokens text.toList) = .ok tree ↔
      ∃ c, readingOf matchAt (.rule .tokens) (.start text.toList) tree c := by
    intro tree
    rw [outcome_eq_ok_iff, matchText_eq_matchAt]
    rfl
  rw [lex]
  constructor
  · intro h
    cases ho : outcome (matchText .tokens text.toList) with
    | error e =>
      rw [ho] at h
      cases h
    | ok tree =>
      rw [ho] at h
      obtain ⟨c, hread⟩ := (houtcome tree).1 ho
      exact ⟨tree, c, hread, (Except.ok.inj h).symm⟩
  · rintro ⟨tree, c, hread, rfl⟩
    rw [(houtcome tree).2 ⟨c, hread⟩]
    rfl

theorem parse_eq_ok_iff {text : String} {tree : Tree} :
    parse text = .ok tree ↔
      ∃ tokens, lex text = .ok tokens ∧ Nesting.firstTooDeep? tokens = none ∧
        derive text = .ok tree := by
  rw [parse]
  cases hlex : lex text with
  | error e => simp [bind, Except.bind]
  | ok tokens =>
    cases hdeep : Nesting.firstTooDeep? tokens with
    | some token => simp [bind, Except.bind, checkNesting, hdeep]
    | none => simp [bind, Except.bind, checkNesting, hdeep]

end HiccupReader.Clojure
