import Mathlib

/-!
# Results and faults

What it means for a computation in steps to give a result, or to fail.
-/

namespace RhythmTiles.Outcome

variable {F G A B : Type}

/-- The fault of a computation that fails. -/
def fault? : Except F A → Option F
  | .ok _ => none
  | .error fault => some fault

theorem fault?_eq_some {x : Except F A} {fault : F} : fault? x = some fault ↔ x = .error fault := by
  cases x <;> simp [fault?]

/-- A step and what follows give a result just when both do. -/
theorem bind_eq_ok {first : Except F A} {next : A → Except F B} {b : B} :
    (first >>= next) = .ok b ↔ ∃ a, first = .ok a ∧ next a = .ok b := by
  cases first with
  | error fault =>
    constructor
    · intro h; cases h
    · rintro ⟨a, h, -⟩; cases h
  | ok a =>
    constructor
    · intro h; exact ⟨a, rfl, h⟩
    · rintro ⟨a', h, hnext⟩; cases h; exact hnext

/-- A step and what follows fail when the step fails, or when it gives a result and what follows
fails. -/
theorem bind_eq_error {first : Except F A} {next : A → Except F B} {fault : F} :
    (first >>= next) = .error fault ↔
      first = .error fault ∨ ∃ a, first = .ok a ∧ next a = .error fault := by
  cases first with
  | error fault' =>
    constructor
    · intro h; cases h; exact Or.inl rfl
    · rintro (h | ⟨a, h, -⟩)
      · cases h; rfl
      · cases h
  | ok a =>
    constructor
    · intro h; exact Or.inr ⟨a, rfl, h⟩
    · rintro (h | ⟨a', h, hnext⟩)
      · cases h
      · cases h; exact hnext

/-- A check passes when it does not fail. -/
theorem eq_ok_unit {check : Except F Unit} : check = .ok () ↔ ∀ fault, check ≠ .error fault := by
  cases check <;> simp

theorem mapError_eq_ok {x : Except F A} {f : F → G} {a : A} :
    x.mapError f = .ok a ↔ x = .ok a := by
  cases x <;> simp [Except.mapError]

theorem mapError_eq_error {x : Except F A} {f : F → G} {fault : G} :
    x.mapError f = .error fault ↔ ∃ cause, x = .error cause ∧ f cause = fault := by
  cases x <;> simp [Except.mapError]

end RhythmTiles.Outcome
