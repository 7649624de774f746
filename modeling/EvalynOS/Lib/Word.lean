import Mathlib

/-! Unsigned 64-bit arithmetic carried by natural numbers.
Every operation reduces its result modulo 2^64, as the hardware does; the lemmas
say when the reduction does nothing. Masks are genuine bitwise operations. -/
namespace Lib.Word

def wadd (a b : Nat) : Nat := (a + b) % 2 ^ 64
def wsub (a b : Nat) : Nat := (a + (2 ^ 64 - b % 2 ^ 64)) % 2 ^ 64

theorem wadd_eq {a b : Nat} (bound : a + b < 2 ^ 64) : wadd a b = a + b :=
  Nat.mod_eq_of_lt bound

theorem wsub_eq {a b : Nat} (small : a < 2 ^ 64) (order : b ≤ a) : wsub a b = a - b := by
  unfold wsub
  omega

/-- Subtraction below zero wraps around. -/
theorem wsub_below {a b : Nat} (small : b < 2 ^ 64) (order : a < b) :
    wsub a b = a + 2 ^ 64 - b := by
  unfold wsub
  omega

theorem wadd_lt (a b : Nat) : wadd a b < 2 ^ 64 := Nat.mod_lt _ (by decide)
theorem wsub_lt (a b : Nat) : wsub a b < 2 ^ 64 := Nat.mod_lt _ (by decide)

/-- The mask of the bits from position `lo` up to `hi`. -/
theorem testBit_field {lo hi : Nat} (order : lo ≤ hi) (i : Nat) :
    (2 ^ hi - 2 ^ lo).testBit i = (decide (lo ≤ i) && decide (i < hi)) := by
  have split : 2 ^ hi - 2 ^ lo = 2 ^ lo * (2 ^ (hi - lo) - 1) := by
    rw [Nat.mul_sub, ← Nat.pow_add, Nat.mul_one]
    congr 2
    omega
  rw [split, Nat.testBit_two_pow_mul, Nat.testBit_two_pow_sub_one]
  by_cases low : lo ≤ i
  · simp only [low, decide_true, Bool.true_and]
    exact decide_eq_decide.mpr (by omega)
  · simp [low]

/-- A value whose bits all lie in the field. -/
theorem testBit_inside {lo hi x i : Nat} (aligned : 2 ^ lo ∣ x) (bound : x < 2 ^ hi)
    (bit : x.testBit i = true) : lo ≤ i ∧ i < hi := by
  obtain ⟨k, rfl⟩ := aligned
  constructor
  · rw [Nat.testBit_two_pow_mul] at bit
    simp only [Bool.and_eq_true, decide_eq_true_eq] at bit
    exact bit.1
  · by_contra high
    have above : 2 ^ lo * k < 2 ^ i :=
      Nat.lt_of_lt_of_le bound (Nat.pow_le_pow_right (by decide) (Nat.le_of_not_lt high))
    rw [Nat.testBit_lt_two_pow above] at bit
    cases bit

/-- Flags outside the field do not disturb what is stored in it. -/
theorem field_lor {lo hi x f : Nat} (order : lo ≤ hi) (aligned : 2 ^ lo ∣ x) (bound : x < 2 ^ hi)
    (flags : f &&& (2 ^ hi - 2 ^ lo) = 0) : (x ||| f) &&& (2 ^ hi - 2 ^ lo) = x := by
  rw [Nat.and_or_distrib_right, flags, Nat.or_zero]
  apply Nat.eq_of_testBit_eq
  intro i
  rw [Nat.testBit_and, testBit_field order]
  cases bit : x.testBit i with
  | false => rfl
  | true =>
    obtain ⟨low, high⟩ := testBit_inside aligned bound bit
    simp [low, high]

theorem land_high_mask {k y : Nat} (small : k ≤ 64) (bound : y < 2 ^ 64) :
    y &&& (2 ^ 64 - 2 ^ k) = y / 2 ^ k * 2 ^ k := by
  apply Nat.eq_of_testBit_eq
  intro i
  rw [Nat.testBit_and, testBit_field small, Nat.testBit_mul_two_pow, Nat.testBit_div_two_pow]
  by_cases low : k ≤ i
  · rw [Nat.sub_add_cancel low]
    by_cases high : i < 64
    · simp [low, high]
    · have above : y < 2 ^ i := Nat.lt_of_lt_of_le bound (Nat.pow_le_pow_right (by decide) (by omega))
      simp [Nat.testBit_lt_two_pow above]
  · simp [low]

/-- Round down to a multiple of `align`: the and with the complement of `align - 1`. -/
def alignDown (x align : Nat) : Nat := x &&& (2 ^ 64 - align)

/-- Round up to a multiple of `align`; the addition wraps. -/
def alignUp (x align : Nat) : Nat := wadd x (align - 1) &&& (2 ^ 64 - align)

def isAligned (x align : Nat) : Bool := x &&& (align - 1) == 0

theorem alignDown_pow {x k : Nat} (small : k ≤ 64) (bound : x < 2 ^ 64) :
    alignDown x (2 ^ k) = x / 2 ^ k * 2 ^ k := land_high_mask small bound

theorem alignUp_pow {x k : Nat} (small : k ≤ 64) :
    alignUp x (2 ^ k) = wadd x (2 ^ k - 1) / 2 ^ k * 2 ^ k :=
  land_high_mask small (wadd_lt _ _)

theorem isAligned_pow (x k : Nat) : isAligned x (2 ^ k) = true ↔ 2 ^ k ∣ x := by
  simp [isAligned, Nat.and_two_pow_sub_one_eq_mod, Nat.dvd_iff_mod_eq_zero]

end Lib.Word
