import LexGen.Checked
import Mathlib.Data.List.Forall2

/-!
# Checks of lists

A check of every element of a list succeeds exactly if each element passes
(`Checked.mapM_eq_ok_iff`), and otherwise the first one that does not gives the error
(`Checked.mapM_eq_error_iff`). An error may be given another form, which changes nothing else.
-/

namespace LexGen.Checked

variable {ε ε' α β : Type}

theorem mapError_eq_error_iff {step : Except ε α} {f : ε → ε'} {cause : ε'} :
    step.mapError f = .error cause ↔ ∃ inner, step = .error inner ∧ f inner = cause := by
  cases step <;> simp [Except.mapError]

theorem mapError_eq_ok_iff {step : Except ε α} {f : ε → ε'} {value : α} :
    step.mapError f = .ok value ↔ step = .ok value := by
  cases step <;> simp [Except.mapError]

/-- All elements pass a check exactly if each of them does. -/
theorem mapM_eq_ok_iff {check : α → Except ε β} {list : List α} {values : List β} :
    list.mapM check = .ok values ↔ List.Forall₂ (fun a b => check a = .ok b) list values := by
  induction list generalizing values with
  | nil => cases values <;> simp [pure, Except.pure]
  | cons first rest ih =>
    rw [List.mapM_cons]
    simp only [bind_eq_ok_iff, ih]
    constructor
    · rintro ⟨value, hf, others, hr, h⟩
      cases h
      exact .cons hf hr
    · intro h
      cases h with
      | cons hf hr => exact ⟨_, hf, _, hr, rfl⟩

theorem exists_mapM_eq_ok_iff {check : α → Except ε β} {list : List α} :
    (∃ values, list.mapM check = .ok values) ↔ ∀ a ∈ list, ∃ value, check a = .ok value := by
  induction list with
  | nil => simp [pure, Except.pure]
  | cons first rest ih =>
    rw [List.forall_mem_cons, ← ih, List.mapM_cons]
    simp only [bind_eq_ok_iff]
    constructor
    · rintro ⟨_, value, hfirst, others, hrest, _⟩
      exact ⟨⟨value, hfirst⟩, others, hrest⟩
    · rintro ⟨⟨value, hfirst⟩, others, hrest⟩
      exact ⟨_, value, hfirst, others, hrest, rfl⟩

theorem mapM_cons_eq_error_iff {check : α → Except ε β} {first : α} {rest : List α} {cause : ε} :
    (first :: rest).mapM check = .error cause ↔ check first = .error cause ∨
      (∃ value, check first = .ok value) ∧ rest.mapM check = .error cause := by
  rw [List.mapM_cons]
  cases check first with
  | error other => simp [bind, Except.bind]
  | ok value => cases rest.mapM check <;> simp [bind, Except.bind, pure, Except.pure]

/-- A list fails a check with the error of its first element that does not pass. -/
theorem mapM_eq_error_iff {check : α → Except ε β} {list : List α} {cause : ε} :
    list.mapM check = .error cause ↔ ∃ front element back, list = front ++ element :: back ∧
      check element = .error cause ∧ ∀ earlier ∈ front, ∃ value, check earlier = .ok value := by
  induction list with
  | nil => simp [pure, Except.pure]
  | cons first rest ih =>
    rw [mapM_cons_eq_error_iff]
    constructor
    · rintro (hfirst | ⟨hfirst, hrest⟩)
      · exact ⟨[], first, rest, rfl, hfirst, by simp⟩
      · obtain ⟨front, element, back, rfl, helement, hfront⟩ := ih.1 hrest
        exact ⟨first :: front, element, back, rfl, helement,
          List.forall_mem_cons.2 ⟨hfirst, hfront⟩⟩
    · rintro ⟨front, element, back, hlist, helement, hfront⟩
      cases front with
      | nil =>
        cases hlist
        exact .inl helement
      | cons head front =>
        cases hlist
        obtain ⟨hfirst, hfront⟩ := List.forall_mem_cons.1 hfront
        exact .inr ⟨hfirst, ih.2 ⟨front, element, back, rfl, helement, hfront⟩⟩

end LexGen.Checked
