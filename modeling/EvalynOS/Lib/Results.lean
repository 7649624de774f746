import Mathlib

/-! Computations that may stop with an error. -/
namespace Lib

/-- A sequence returns when both parts do. -/
theorem bind_eq_ok {ε α β : Type} {first : Except ε α} {next : α → Except ε β} {b : β} :
    (first >>= next) = .ok b ↔ ∃ a, first = .ok a ∧ next a = .ok b := by
  cases first with
  | error e =>
    constructor
    · intro done
      cases done
    · rintro ⟨a, stopped, -⟩
      cases stopped
  | ok a =>
    constructor
    · exact fun done => ⟨a, rfl, done⟩
    · rintro ⟨a', same, done⟩
      cases same
      exact done

/-- Renaming the errors changes no result. -/
theorem mapError_eq_ok {ε ε' α : Type} {rename : ε → ε'} {result : Except ε α} {a : α} :
    result.mapError rename = .ok a ↔ result = .ok a := by
  cases result with
  | error e =>
    constructor
    · intro done
      cases done
    · intro done
      cases done
  | ok b => exact ⟨fun done => congrArg Except.ok (Except.ok.inj done), fun done => congrArg Except.ok (Except.ok.inj done)⟩

end Lib
