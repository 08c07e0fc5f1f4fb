/-!
# Checked steps

Computations that may be refused, taken one after the other. A bind succeeds exactly if both of its
steps do (`Checked.bind_eq_ok_iff`), and a loop if each of its steps does (`Checked.foldlM_eq_ok`).
-/

namespace LexGen.Checked

variable {ε ε' α β γ : Type}

theorem bind_eq_ok_iff {step : Except ε α} {next : α → Except ε β} {value : β} :
    (step >>= next) = .ok value ↔ ∃ first, step = .ok first ∧ next first = .ok value := by
  cases step with
  | error cause => simp [bind, Except.bind]
  | ok first => simp [bind, Except.bind]

theorem map_eq_ok_iff {step : Except ε α} {f : α → β} {value : β} :
    step.map f = .ok value ↔ ∃ first, step = .ok first ∧ f first = value := by
  cases step <;> simp [Except.map]

theorem map_eq_error_iff {step : Except ε α} {f : α → β} {cause : ε} :
    step.map f = .error cause ↔ step = .error cause := by
  cases step <;> simp [Except.map]

theorem exists_map_eq_ok_iff {step : Except ε α} {f : α → β} :
    (∃ value, step.map f = .ok value) ↔ ∃ first, step = .ok first := by
  cases step <;> simp [Except.map]

@[simp]
theorem map_map (step : Except ε α) (f : α → β) (g : β → γ) :
    (step.map f).map g = step.map fun value => g (f value) := by
  cases step <;> rfl

@[simp]
theorem map_ok (value : α) (f : α → β) : (Except.ok value : Except ε α).map f = .ok (f value) := rfl

theorem toOption_eq_some_iff {step : Except ε α} {value : α} :
    step.toOption = some value ↔ step = .ok value := by
  cases step <;> simp [Except.toOption]

theorem exists_eq_ok_iff {step : Except ε α} :
    (∃ value, step = .ok value) ↔ step.toOption.isSome = true := by
  cases step <;> simp [Except.toOption]

/-- Where each step succeeds, so does the whole way. -/
theorem foldlM_eq_ok {step : β → α → Except ε β} {next : γ → α → γ} {value : γ → β}
    (h : ∀ state a, step (value state) a = .ok (value (next state a))) (list : List α) (state : γ) :
    list.foldlM step (value state) = .ok (value (list.foldl next state)) := by
  induction list generalizing state with
  | nil => rfl
  | cons first rest ih =>
    rw [List.foldlM_cons, h]
    exact ih (next state first)

/-- Where each test succeeds, so does the search for an element that passes it. -/
theorem anyM_eq_ok {check : α → Except ε Bool} {test : α → Bool} (h : ∀ a, check a = .ok (test a))
    (list : List α) : list.anyM check = .ok (list.any test) := by
  induction list with
  | nil => rfl
  | cons first rest ih =>
    rw [List.anyM, h, List.any_cons]
    cases test first with
    | true => rfl
    | false => exact ih

end LexGen.Checked
