import Mathlib

/-! A loop that polls. It takes one step at each reading, until its state says that it is done. -/
namespace Lib

variable {σ : Type}

/- The state after the readings 1 to `k`. -/
def afterReads (step : Nat → σ → σ) (s : σ) : Nat → σ
  | 0 => s
  | k + 1 => step (k + 1) (afterReads step s k)

/- The loop, which has made `k` readings. -/
def poll (busy : σ → Bool) (step : Nat → σ → σ) : Nat → Nat → σ → Option (Nat × σ)
  | 0, _, _ => none
  | fuel + 1, k, s => if busy s then poll busy step fuel (k + 1) (step (k + 1) s) else some (k, s)

/- The loop makes the reading `k`. -/
def Polled (busy : σ → Bool) (step : Nat → σ → σ) (s : σ) (k : Nat) : Prop :=
  ∀ j < k, busy (afterReads step s j) = true

section Poll

variable {busy : σ → Bool} {step : Nat → σ → σ} {s t : σ} {fuel k n : Nat}

/-- The invariant rule: what holds at first, and is kept while the loop is busy, holds at each reading. -/
theorem poll_invariant {Inv : Nat → σ → Prop} (initial : Inv 0 s)
    (kept : ∀ k t, Inv k t → busy t = true → Inv (k + 1) (step (k + 1) t)) (polled : Polled busy step s k) :
    Inv k (afterReads step s k) := by
  induction k with
  | zero => exact initial
  | succ k ih => exact kept k _ (ih (fun j before => polled j (Nat.lt_succ_of_lt before))) (polled k (Nat.lt_succ_self k))

/-- The readings that are made, where each that is made tells whether there is a next one. -/
theorem polled_iff {P : Nat → Prop}
    (tells : ∀ k, Polled busy step s k → (busy (afterReads step s k) = true ↔ P k)) :
    Polled busy step s n ↔ ∀ j < n, P j := by
  induction n with
  | zero => exact ⟨fun _ j before => absurd before (Nat.not_lt_zero j), fun _ j before => absurd before (Nat.not_lt_zero j)⟩
  | succ n ih =>
    rw [Polled, Nat.forall_lt_succ_right, Nat.forall_lt_succ_right]
    constructor
    · rintro ⟨polled, busy⟩
      exact ⟨ih.mp polled, (tells n polled).mp busy⟩
    · rintro ⟨earlier, now⟩
      have polled := ih.mpr earlier
      exact ⟨polled, (tells n polled).mpr now⟩

theorem poll_from (polled : Polled busy step s k) :
    poll busy step fuel k (afterReads step s k) = some (n, t) ↔
      k ≤ n ∧ n < k + fuel ∧ Polled busy step s n ∧ busy t = false ∧ t = afterReads step s n := by
  induction fuel generalizing k with
  | zero =>
    constructor
    · intro none
      cases none
    · omega
  | succ fuel ih =>
    unfold poll
    cases here : busy (afterReads step s k) with
    | true =>
      have next : Polled busy step s (k + 1) := by
        intro j before
        rcases Nat.lt_succ_iff_lt_or_eq.mp before with earlier | rfl
        · exact polled j earlier
        · exact here
      rw [if_pos rfl]
      refine (ih next).trans ⟨?_, ?_⟩
      · rintro ⟨low, high, rest⟩
        exact ⟨by omega, by omega, rest⟩
      · rintro ⟨low, high, reached, done, rfl⟩
        have later : k ≠ n := by
          rintro rfl
          rw [here] at done
          cases done
        exact ⟨by omega, by omega, reached, done, rfl⟩
    | false =>
      rw [if_neg (by decide), Option.some.injEq, Prod.mk.injEq]
      constructor
      · rintro ⟨rfl, rfl⟩
        exact ⟨Nat.le_refl _, by omega, polled, here, rfl⟩
      · rintro ⟨low, high, reached, done, rfl⟩
        have same : k = n := by
          by_contra differ
          have busyHere := reached k (by omega)
          rw [here] at busyHere
          cases busyHere
        exact ⟨same, by rw [same]⟩

/-- The loop ends at the first reading after which it is not busy. -/
theorem poll_eq_some : poll busy step fuel 0 s = some (n, t) ↔
    n < fuel ∧ Polled busy step s n ∧ busy t = false ∧ t = afterReads step s n := by
  have start := @poll_from σ busy step s t fuel 0 n (fun j before => absurd before (Nat.not_lt_zero j))
  rw [Nat.zero_add] at start
  refine start.trans ⟨fun both => both.2, fun rest => ⟨Nat.zero_le n, rest⟩⟩

end Poll

end Lib
