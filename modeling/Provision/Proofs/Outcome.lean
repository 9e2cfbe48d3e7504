/-! Chains of steps that may fail. A chain succeeds exactly if each of its steps does, and fails
with the first of them that fails. -/
namespace Provision

variable {ε φ α β : Type}

@[simp] theorem bind_eq_ok_iff {step : Except ε α} {rest : α → Except ε β} {result : β} :
    (step >>= rest) = .ok result ↔ ∃ value, step = .ok value ∧ rest value = .ok result := by
  cases step with
  | error e => exact ⟨fun h => (nomatch h), fun ⟨_, h, _⟩ => (nomatch h)⟩
  | ok value =>
    constructor
    · exact fun h => ⟨value, rfl, h⟩
    · rintro ⟨_, ⟨⟩, h⟩
      exact h

theorem map_eq_ok_iff {step : Except ε α} {f : α → β} {result : β} :
    step.map f = .ok result ↔ ∃ value, step = .ok value ∧ f value = result := by
  cases step <;> simp [Except.map]

theorem map_eq_error_iff {step : Except ε α} {f : α → β} {e : ε} :
    step.map f = .error e ↔ step = .error e := by
  cases step <;> simp [Except.map]

theorem mapError_map (step : Except ε α) (f : α → β) (g : ε → φ) :
    (step.map f).mapError g = (step.mapError g).map f := by
  cases step <;> rfl

theorem bind_eq_error_iff {step : Except ε α} {rest : α → Except ε β} {e : ε} :
    (step >>= rest) = .error e ↔
      step = .error e ∨ ∃ value, step = .ok value ∧ rest value = .error e := by
  cases step with
  | error other =>
    constructor
    · exact fun h => .inl (by cases h; rfl)
    · rintro (h | ⟨_, h, _⟩)
      · cases h
        rfl
      · cases h
  | ok value =>
    constructor
    · exact fun h => .inr ⟨value, rfl, h⟩
    · rintro (h | ⟨_, ⟨⟩, h⟩)
      · cases h
      · exact h

theorem exists_ok_of_isOk {result : Except ε α} (h : result.isOk = true) :
    ∃ value, result = .ok value := by
  cases result with
  | error e => cases h
  | ok value => exact ⟨value, rfl⟩

theorem eq_ok_of_toOption {result : Except ε α} {value : α}
    (h : result.toOption = some value) : result = .ok value := by
  cases result with
  | error e => cases h
  | ok other =>
    cases h
    rfl

end Provision
