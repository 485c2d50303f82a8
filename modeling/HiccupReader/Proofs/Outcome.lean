/-! Steps that may fail, done one after the other. -/

namespace HiccupReader

variable {ε ε' α β : Type}

@[simp] theorem ok_bind (value : α) (next : α → Except ε β) :
    (Except.ok value >>= next) = next value := rfl

@[simp] theorem error_bind (fault : ε) (next : α → Except ε β) :
    (Except.error fault >>= next) = .error fault := rfl

theorem bind_eq_ok_iff {step : Except ε α} {next : α → Except ε β} {result : β} :
    (step >>= next) = .ok result ↔ ∃ value, step = .ok value ∧ next value = .ok result := by
  cases step with
  | error fault => simp
  | ok value => simp

theorem bind_eq_error_iff {step : Except ε α} {next : α → Except ε β} {fault : ε} :
    (step >>= next) = .error fault ↔
      step = .error fault ∨ ∃ value, step = .ok value ∧ next value = .error fault := by
  cases step with
  | error other => simp
  | ok value => simp

@[simp] theorem mapError_ok (value : α) (f : ε → ε') :
    (Except.ok value).mapError f = .ok value := rfl

@[simp] theorem mapError_error (fault : ε) (f : ε → ε') :
    (Except.error fault : Except ε α).mapError f = .error (f fault) := rfl

theorem mapError_eq_ok_iff {step : Except ε α} {f : ε → ε'} {value : α} :
    step.mapError f = .ok value ↔ step = .ok value := by
  cases step with
  | error fault =>
    rw [mapError_error]
    simp
  | ok other => simp

def fault? : Except ε α → Option ε
  | .error fault => some fault
  | .ok _ => none

theorem fault?_eq_some_iff {step : Except ε α} {fault : ε} :
    fault? step = some fault ↔ step = .error fault := by
  cases step with
  | error other => simp [fault?]
  | ok value => simp [fault?]

theorem fault?_eq_none_iff {step : Except ε α} :
    fault? step = none ↔ ∃ value, step = .ok value := by
  cases step with
  | error fault => simp [fault?]
  | ok value => simp [fault?]

theorem fault?_bind {step : Except ε α} {next : α → Except ε β} {later : Option ε}
    (h : ∀ value, fault? (next value) = later) :
    fault? (step >>= next) = (fault? step).or later := by
  cases step with
  | error fault => rfl
  | ok value => simpa [fault?] using h value

@[simp] theorem fault?_bind_pure {step : Except ε α} {f : α → β} :
    fault? (step >>= fun value => pure (f value)) = fault? step := by
  cases step with
  | error fault => rfl
  | ok value => rfl

end HiccupReader
