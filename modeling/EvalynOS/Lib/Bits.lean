import Mathlib

/-! Lists of bits, least significant first, as numbers and as the bits of a list of bytes. -/
namespace Lib

def number : List Bool → Nat
  | [] => 0
  | b :: rest => b.toNat + 2 * number rest

def bits (n : Nat) : Nat → List Bool
  | 0 => []
  | width + 1 => n.testBit 0 :: bits (n / 2) width

def byteBits (b : UInt8) : List Bool := bits b.toNat 8

def bitsOf (data : List UInt8) : List Bool := data.flatMap byteBits

section Numbers

variable {left right l : List Bool} {n m width : Nat}

theorem number_lt (l : List Bool) : number l < 2 ^ l.length := by
  induction l with
  | nil => exact Nat.one_pos
  | cons b l ih =>
    simp only [number, List.length_cons, Nat.pow_succ]
    cases b with
    | false => simp only [Bool.toNat_false]; omega
    | true => simp only [Bool.toNat_true]; omega

theorem number_append (left right : List Bool) :
    number (left ++ right) = number left + 2 ^ left.length * number right := by
  induction left with
  | nil => simp [number]
  | cons b left ih =>
    simp only [List.cons_append, number, ih, List.length_cons, Nat.pow_succ]
    ring

theorem number_take (l : List Bool) (n : Nat) : number (l.take n) = number l % 2 ^ n := by
  by_cases long : n ≤ l.length
  · have whole := number_append (l.take n) (l.drop n)
    have size := number_lt (l.take n)
    rw [List.take_append_drop, List.length_take_of_le long] at whole
    rw [List.length_take_of_le long] at size
    rw [whole, Nat.add_mul_mod_self_left, Nat.mod_eq_of_lt size]
  · have short : l.length ≤ n := by omega
    rw [List.take_of_length_le short, Nat.mod_eq_of_lt]
    exact Nat.lt_of_lt_of_le (number_lt l) (Nat.pow_le_pow_right (by decide) short)

theorem number_drop (l : List Bool) (n : Nat) : number (l.drop n) = number l / 2 ^ n := by
  by_cases long : n ≤ l.length
  · have whole := number_append (l.take n) (l.drop n)
    have size := number_lt (l.take n)
    rw [List.take_append_drop, List.length_take_of_le long] at whole
    rw [List.length_take_of_le long] at size
    rw [whole, Nat.add_mul_div_left _ _ (Nat.two_pow_pos n), Nat.div_eq_of_lt size, Nat.zero_add]
  · have short : l.length ≤ n := by omega
    rw [List.drop_eq_nil_of_le short, Nat.div_eq_of_lt, number]
    exact Nat.lt_of_lt_of_le (number_lt l) (Nat.pow_le_pow_right (by decide) short)

theorem number_testBit (l : List Bool) (i : Nat) : (number l).testBit i = l.getD i false := by
  induction l generalizing i with
  | nil => simp [number]
  | cons b l ih =>
    cases i with
    | zero => cases b <;> simp [number, Nat.testBit_zero, Nat.add_mod]
    | succ i =>
      have half : (b.toNat + 2 * number l) / 2 = number l := by
        cases b <;> simp only [Bool.toNat_false, Bool.toNat_true] <;> omega
      rw [number, Nat.testBit_succ, half, ih, List.getD_cons_succ]

@[simp] theorem bits_length (n width : Nat) : (bits n width).length = width := by
  induction width generalizing n with
  | zero => rfl
  | succ width ih => rw [bits, List.length_cons, ih]

theorem number_bits (n width : Nat) : number (bits n width) = n % 2 ^ width := by
  induction width generalizing n with
  | zero => simp [bits, number, Nat.mod_one]
  | succ width ih =>
    rw [bits, number, ih, Nat.toNat_testBit, Nat.pow_zero, Nat.div_one, Nat.pow_succ, Nat.mul_comm (2 ^ width),
      Nat.mod_mul]

theorem number_bits_of_lt (small : n < 2 ^ width) : number (bits n width) = n := by
  rw [number_bits, Nat.mod_eq_of_lt small]

theorem number_inj (same : left.length = right.length) (equal : number left = number right) : left = right := by
  apply List.ext_getElem same
  intro i low high
  have bit := congrArg (fun n => n.testBit i) equal
  simp only [number_testBit] at bit
  rwa [List.getD_eq_getElem _ _ low, List.getD_eq_getElem _ _ high] at bit

theorem bits_number (l : List Bool) : bits (number l) l.length = l := by
  apply number_inj (bits_length _ _)
  exact number_bits_of_lt (number_lt l)

theorem number_zeros (n : Nat) : number (List.replicate n false) = 0 := by
  induction n with
  | zero => rfl
  | succ n ih => rw [List.replicate_succ, number, ih]; rfl

/-- Cut off before its end, a number has zeros there. -/
theorem bits_number_pad (short : l.length ≤ width) :
    bits (number l) width = l ++ List.replicate (width - l.length) false := by
  have size : (l ++ List.replicate (width - l.length) false).length = width := by
    rw [List.length_append, List.length_replicate, Nat.add_sub_cancel' short]
  have padded := bits_number (l ++ List.replicate (width - l.length) false)
  rwa [size, number_append, number_zeros, Nat.mul_zero, Nat.add_zero] at padded

theorem bits_take (n width k : Nat) (inside : k ≤ width) : (bits n width).take k = bits (n % 2 ^ k) k := by
  have size : ((bits n width).take k).length = (bits (n % 2 ^ k) k).length := by
    rw [List.length_take_of_le (by rw [bits_length]; exact inside), bits_length]
  apply number_inj size
  rw [number_take, number_bits, number_bits, Nat.mod_mod, Nat.mod_mod_of_dvd _ (Nat.pow_dvd_pow 2 inside)]

theorem bits_getD (n width i : Nat) : (bits n width).getD i false = (decide (i < width) && n.testBit i) := by
  rw [← number_testBit, number_bits, Nat.testBit_mod_two_pow]

theorem bits_drop (n width k : Nat) : (bits n width).drop k = bits (n / 2 ^ k) (width - k) := by
  induction k generalizing n width with
  | zero => rw [List.drop_zero, Nat.pow_zero, Nat.div_one, Nat.sub_zero]
  | succ k ih =>
    cases width with
    | zero => rw [Nat.zero_sub]; rfl
    | succ width => rw [bits, List.drop_succ_cons, ih, Nat.div_div_eq_div_mul, ← Nat.pow_succ', Nat.succ_sub_succ]

theorem bits_inj (small : n < 2 ^ width) (small' : m < 2 ^ width) (same : bits n width = bits m width) : n = m := by
  rw [← number_bits_of_lt small, ← number_bits_of_lt small', same]

/-- Where the low part ends, an or is a sum. -/
theorem or_shift (small : n < 2 ^ width) (m : Nat) : n ||| (m <<< width) = n + 2 ^ width * m := by
  rw [Nat.or_comm, ← Nat.shiftLeft_add_eq_or_of_lt small, Nat.shiftLeft_eq, Nat.add_comm, Nat.mul_comm]

theorem land_mask (n width : Nat) : n &&& (2 ^ width - 1) = n % 2 ^ width := Nat.and_two_pow_sub_one_eq_mod n width

end Numbers

section Bytes

variable {data : List UInt8}

@[simp] theorem byteBits_length (b : UInt8) : (byteBits b).length = 8 := bits_length _ _

theorem number_byteBits (b : UInt8) : number (byteBits b) = b.toNat := number_bits_of_lt b.toNat_lt

@[simp] theorem bitsOf_length (data : List UInt8) : (bitsOf data).length = 8 * data.length := by
  induction data with
  | nil => rfl
  | cons b data ih =>
    simp only [bitsOf, List.flatMap_cons, List.length_append, byteBits_length, List.length_cons] at ih ⊢
    rw [ih]
    omega

theorem bitsOf_append (left right : List UInt8) : bitsOf (left ++ right) = bitsOf left ++ bitsOf right :=
  List.flatMap_append

/-- Whole bytes in front are left out with all their bits. -/
theorem bitsOf_drop (data : List UInt8) (k : Nat) : (bitsOf data).drop (8 * k) = bitsOf (data.drop k) := by
  by_cases inside : k ≤ data.length
  · have size : (bitsOf (data.take k)).length = 8 * k := by
      rw [bitsOf_length, List.length_take_of_le inside]
    have split := bitsOf_append (data.take k) (data.drop k)
    rw [List.take_append_drop] at split
    rw [split, ← size, List.drop_left]
  · rw [List.drop_eq_nil_of_le (by rw [bitsOf_length]; omega), List.drop_eq_nil_of_le (by omega)]
    rfl

theorem bitsOf_take (data : List UInt8) (k : Nat) : (bitsOf data).take (8 * k) = bitsOf (data.take k) := by
  by_cases inside : k ≤ data.length
  · have size : (bitsOf (data.take k)).length = 8 * k := by
      rw [bitsOf_length, List.length_take_of_le inside]
    have split := bitsOf_append (data.take k) (data.drop k)
    rw [List.take_append_drop] at split
    rw [split, ← size, List.take_left]
  · rw [List.take_of_length_le (by rw [bitsOf_length]; omega), List.take_of_length_le (by omega)]

/-- The bits of the byte at an index. -/
theorem bitsOf_byte {k : Nat} {b : UInt8} (here : data[k]? = some b) :
    (bitsOf data).drop (8 * k) = byteBits b ++ (bitsOf data).drop (8 * (k + 1)) := by
  obtain ⟨inside, rfl⟩ := List.getElem?_eq_some_iff.mp here
  rw [bitsOf_drop, bitsOf_drop, List.drop_eq_getElem_cons inside]
  rfl

theorem byteBits_inj {a b : UInt8} (same : byteBits a = byteBits b) : a = b := by
  apply UInt8.toNat_inj.mp
  rw [← number_byteBits a, ← number_byteBits b, same]

end Bytes

end Lib
