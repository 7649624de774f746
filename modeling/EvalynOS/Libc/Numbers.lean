import EvalynOS.Libc.Strings

/-! Numbers as text: int_to_hex of memory/debug.c, what strtoull reads of it, and strtoll with the
range of its type. The kernel is built with -fsanitize=undefined; the handlers of
utils/ubsan.c panic. -/
namespace EvalynOS.Strings

abbrev Bytes := Nat → UInt8

namespace Bytes

def set (m : Bytes) (a : Nat) (c : UInt8) : Bytes := fun b => if b = a then c else m b

/- The bytes from an address on. -/
def read (m : Bytes) (a n : Nat) : List UInt8 := (List.range n).map (fun j => m (a + j))

end Bytes

def hexDigits : List UInt8 := text "0123456789ABCDEF"

/- The loop, with the index that is left. -/
def hexLoop (out : Nat) : (i : Nat) → (num : Nat) → Bytes → Bytes × Nat
  | 0, _, m => (m, 0)
  | i + 1, num, m =>
    if num = 0 then (m, i + 1)
    else hexLoop out i (num >>> 4) (m.set (out + i) (hexDigits.getD (num &&& 0xF) 0))

/- int_to_hex with its buffer at `out`: the memory afterwards and the pointer. -/
def intToHex (out num : Nat) (m : Bytes) : Bytes × Nat :=
  let m := m.set (out + 16) 0
  if num = 0 then (m.set (out + 15) '0'.toUInt8, out + 15)
  else
    let (m, i) := hexLoop out 16 num m
    (m, out + i)

/- The handlers of the overflows of signed sums and products. -/
inductive Overflow where
  | multiply
  | add
  deriving DecidableEq, Repr

def llongMax : Nat := 2 ^ 63 - 1

/- The loop of strtoll. -/
def signedDigits (base : Nat) : List UInt8 → Nat → Option (Except Overflow Nat)
  | [], _ => none
  | c :: rest, value =>
    if c = 0 then some (.ok value)
    else match digitOf c with
      | none => some (.ok value)
      | some digit =>
        if base ≤ digit then some (.ok value)
        else if llongMax < value * base then some (.error .multiply)
        else if llongMax < value * base + digit then some (.error .add)
        else signedDigits base rest (value * base + digit)

/- strtoll; the number is not negative before its sign, so the negation is in range. -/
def signedStrtoll (str : List UInt8) (base : Nat) : Option (Except Overflow Int) :=
  let (neg, str) := match str with
    | c :: rest =>
      if c = '-'.toUInt8 then (true, rest) else if c = '+'.toUInt8 then (false, rest) else (false, str)
    | [] => (false, str)
  let (base, str) := detectBase str base
  (signedDigits base str 0).map (fun result => result.map (fun value : Nat => if neg then -(value : Int) else value))

def strcmp : List UInt8 → List UInt8 → Option Int
  | a :: s1, b :: s2 => if a ≠ 0 ∧ a = b then strcmp s1 s2 else some (a.toNat - b.toNat)
  | _, _ => none

/-! The value of a string of digits. -/

def digitsValue (base : Nat) (digits : List UInt8) : Nat :=
  digits.foldl (fun value c => value * base + (digitOf c).getD 0) 0

/- The sign of a number in base 0, and what follows it. -/
def signOf : List UInt8 → Bool × List UInt8
  | c :: rest =>
    if c = '-'.toUInt8 then (true, rest) else if c = '+'.toUInt8 then (false, rest) else (false, c :: rest)
  | [] => (false, [])

/- The digits up to the first byte that is none. -/
def magnitude (number : List UInt8) : Nat :=
  let (base, digits) := detectBase (signOf number).2 0
  digitsValue base (digits.takeWhile (isDigit base))

def numberValue (number : List UInt8) : Int :=
  if (signOf number).1 then -(magnitude number : Int) else magnitude number

def isalnum (c : UInt8) : Bool :=
  ('0'.toUInt8 ≤ c && c ≤ '9'.toUInt8) || ('a'.toUInt8 ≤ c && c ≤ 'z'.toUInt8) || ('A'.toUInt8 ≤ c && c ≤ 'Z'.toUInt8)

section Values

variable {digits l : List UInt8} {base value : Nat} {c : UInt8}

theorem digitsValue_append (base : Nat) (digits : List UInt8) (c : UInt8) :
    digitsValue base (digits ++ [c]) = digitsValue base digits * base + (digitOf c).getD 0 := by
  simp only [digitsValue, List.foldl_append, List.foldl_cons, List.foldl_nil]

/-- Leading zeros make no difference. -/
theorem digitsValue_zeros (base k : Nat) (digits : List UInt8) :
    digitsValue base (List.replicate k '0'.toUInt8 ++ digits) = digitsValue base digits := by
  unfold digitsValue
  rw [List.foldl_append]
  congr 1
  induction k with
  | zero => rfl
  | succ k ih =>
    rw [List.replicate_succ, List.foldl_cons]
    have zero : 0 * base + (digitOf '0'.toUInt8).getD 0 = 0 := by
      rw [Nat.zero_mul]
      rfl
    rw [zero, ih]

theorem isDigit_of_not_alnum (other : isalnum c = false) : isDigit base c = false := by
  simp only [isalnum, Bool.or_eq_false_iff, Bool.and_eq_false_iff, decide_eq_false_iff_not] at other
  unfold isDigit digitOf
  rw [if_neg (by tauto), if_neg (by tauto), if_neg (by tauto)]
  rfl

theorem digit_of_isDigit (here : isDigit base c = true) : ∃ digit, digitOf c = some digit ∧ digit < base := by
  obtain ⟨digit, found, small⟩ := (Option.any_eq_true _ _).mp here
  exact ⟨digit, found, by simpa using small⟩

/-- The loop of strtoull computes the value modulo the size of the type. -/
theorem parseDigits_foldl {n : Nat} (all : ∀ d ∈ digits, isDigit base d = true) (stop : isDigit base c = false)
    (value : Nat) :
    parseDigits (· % n) base (digits ++ c :: l) (value % n) =
      some (digits.foldl (fun value c => value * base + (digitOf c).getD 0) value % n) := by
  induction digits generalizing value with
  | nil => exact parseDigits_stop stop
  | cons d digits ih =>
    obtain ⟨digit, here, small⟩ := digit_of_isDigit (all d List.mem_cons_self)
    have wrapped : (value % n * base + digit) % n = (value * base + digit) % n := by
      rw [Nat.add_mod, Nat.mod_mul_mod, ← Nat.add_mod]
    rw [List.cons_append, parseDigits_digit here small, wrapped,
      ih (fun d' member => all d' (List.mem_cons_of_mem _ member)), List.foldl_cons, here, Option.getD_some]

theorem strtoull_value (all : ∀ d ∈ digits, isDigit 16 d = true) (stop : isDigit 16 c = false) :
    strtoull (digits ++ c :: l) 16 = some (digitsValue 16 digits % 2 ^ 64) :=
  parseDigits_foldl all stop 0

/-- The value grows with each digit. -/
theorem foldl_le (positive : 0 < base) (digits : List UInt8) (value : Nat) :
    value ≤ digits.foldl (fun value c => value * base + (digitOf c).getD 0) value := by
  induction digits generalizing value with
  | nil => exact Nat.le_refl value
  | cons d digits ih =>
    rw [List.foldl_cons]
    have scaled : value ≤ value * base := Nat.le_mul_of_pos_right value positive
    exact Nat.le_trans (by omega) (ih (value * base + (digitOf d).getD 0))

/-- The loop of strtoll computes the value when that is in range. -/
theorem signedDigits_foldl (positive : 0 < base) (all : ∀ d ∈ digits, isDigit base d = true)
    (stop : isDigit base c = false) (value : Nat)
    (fits : digits.foldl (fun value c => value * base + (digitOf c).getD 0) value ≤ llongMax) :
    signedDigits base (digits ++ c :: l) value =
      some (.ok (digits.foldl (fun value c => value * base + (digitOf c).getD 0) value)) := by
  induction digits generalizing value with
  | nil =>
    rw [List.nil_append, List.foldl_nil, signedDigits]
    split
    · rfl
    · split
      · rfl
      · rename_i digit here
        rw [if_pos]
        simpa [isDigit, here] using stop
  | cons d digits ih =>
    obtain ⟨digit, here, small⟩ := digit_of_isDigit (all d List.mem_cons_self)
    have nonzero : d ≠ 0 := by
      rintro rfl
      cases here
    rw [List.foldl_cons, here, Option.getD_some] at fits ⊢
    have grows := foldl_le positive digits (value * base + digit)
    rw [List.cons_append, signedDigits, if_neg nonzero]
    simp only [here]
    rw [if_neg (Nat.not_le_of_lt small), if_neg (by omega), if_neg (by omega)]
    exact ih (fun d' member => all d' (List.mem_cons_of_mem _ member)) _ fits

/-- The loop of strtoll on any text: it is stopped by the first digit that takes the value out of
range. -/
theorem signedDigits_outcome (positive : 0 < base) (str : List UInt8) (value : Nat) (small : value ≤ llongMax) :
    let total := (str.takeWhile (isDigit base)).foldl (fun value c => value * base + (digitOf c).getD 0) value
    (total ≤ llongMax → ∀ r, signedDigits base (str ++ 0 :: r) value = some (.ok total)) ∧
    (llongMax < total → ∃ e, ∀ r, signedDigits base (str ++ 0 :: r) value = some (.error e)) := by
  induction str generalizing value with
  | nil => exact ⟨fun _ r => rfl, fun large => absurd small (Nat.not_le_of_lt large)⟩
  | cons d str ih =>
    intro total
    cases here : isDigit base d with
    | false =>
      have same : total = value := by
        simp only [total, List.takeWhile_cons, here, Bool.false_eq_true, ↓reduceIte, List.foldl_nil]
      rw [same]
      refine ⟨fun _ r => ?_, fun large => absurd small (Nat.not_le_of_lt large)⟩
      rw [List.cons_append, signedDigits]
      split
      · rfl
      · split
        · rfl
        · rename_i digit found
          rw [if_pos]
          simpa [isDigit, found] using here
    | true =>
      obtain ⟨digit, found, below⟩ := digit_of_isDigit here
      have nonzero : d ≠ 0 := by
        rintro rfl
        cases found
      have next : total = (str.takeWhile (isDigit base)).foldl (fun value c => value * base + (digitOf c).getD 0)
          (value * base + digit) := by
        simp only [total, List.takeWhile_cons, here, ↓reduceIte, List.foldl_cons, found, Option.getD_some]
      have grows := foldl_le positive (str.takeWhile (isDigit base)) (value * base + digit)
      rw [← next] at grows
      have unfolded : ∀ r, signedDigits base (d :: str ++ 0 :: r) value =
          if llongMax < value * base then some (.error .multiply)
          else if llongMax < value * base + digit then some (.error .add)
          else signedDigits base (str ++ 0 :: r) (value * base + digit) := by
        intro r
        rw [List.cons_append, signedDigits, if_neg nonzero]
        simp only [found]
        rw [if_neg (Nat.not_le_of_lt below)]
      constructor
      · intro fits r
        rw [unfolded, if_neg (by omega), if_neg (by omega), next]
        exact (ih _ (by omega)).1 (next ▸ fits) r
      · intro large
        by_cases product : llongMax < value * base
        · exact ⟨.multiply, fun r => by rw [unfolded, if_pos product]⟩
        · by_cases sum : llongMax < value * base + digit
          · exact ⟨.add, fun r => by rw [unfolded, if_neg product, if_pos sum]⟩
          · obtain ⟨e, stops⟩ := (ih _ (Nat.not_lt.mp sum)).2 (next ▸ large)
            exact ⟨e, fun r => by rw [unfolded, if_neg product, if_neg sum, stops]⟩

theorem detectBase_terminated (str r : List UInt8) :
    detectBase (str ++ 0 :: r) 0 = ((detectBase str 0).1, (detectBase str 0).2 ++ 0 :: r) ∧
      0 < (detectBase str 0).1 := by
  match str with
  | [] =>
    cases r with
    | nil => exact ⟨rfl, Nat.succ_pos _⟩
    | cons c r => exact ⟨rfl, Nat.succ_pos _⟩
  | [z] =>
    simp only [detectBase, List.cons_append, List.nil_append]
    split
    · contradiction
    · split
      · exact ⟨rfl, Nat.succ_pos _⟩
      · exact ⟨rfl, Nat.succ_pos _⟩
  | z :: c :: rest =>
    simp only [detectBase, List.cons_append]
    split
    · contradiction
    · split
      · exact ⟨rfl, Nat.succ_pos _⟩
      · split
        · exact ⟨rfl, Nat.succ_pos _⟩
        · split
          · exact ⟨rfl, Nat.succ_pos _⟩
          · split
            · exact ⟨rfl, Nat.succ_pos _⟩
            · exact ⟨rfl, Nat.succ_pos _⟩

theorem signedStrtoll_eq (number r : List UInt8) :
    signedStrtoll (number ++ 0 :: r) 0 =
      (signedDigits (detectBase (signOf number).2 0).1 ((detectBase (signOf number).2 0).2 ++ 0 :: r) 0).map
        (fun result => result.map (fun value : Nat => if (signOf number).1 then -(value : Int) else value)) := by
  unfold signedStrtoll
  cases number with
  | nil =>
    have notMinus : ¬ (0 : UInt8) = '-'.toUInt8 := by decide
    have notPlus : ¬ (0 : UInt8) = '+'.toUInt8 := by decide
    have base := (detectBase_terminated [] r).1
    rw [List.nil_append] at base
    simp only [List.nil_append, signOf, if_neg notMinus, if_neg notPlus, base]
    rfl
  | cons c number =>
    simp only [List.cons_append, signOf]
    split
    · simp only [(detectBase_terminated number r).1]
    · split
      · simp only [(detectBase_terminated number r).1]
      · rw [← List.cons_append]
        simp only [(detectBase_terminated (c :: number) r).1]

/-- strtoll with base 0, on any text. -/
theorem signedStrtoll_outcome (number : List UInt8) :
    (magnitude number ≤ llongMax → ∀ r, signedStrtoll (number ++ 0 :: r) 0 = some (.ok (numberValue number))) ∧
    (llongMax < magnitude number → ∃ e, ∀ r, signedStrtoll (number ++ 0 :: r) 0 = some (.error e)) := by
  have positive := (detectBase_terminated (signOf number).2 []).2
  obtain ⟨fits, overflows⟩ := signedDigits_outcome positive (detectBase (signOf number).2 0).2 0 (Nat.zero_le _)
  constructor
  · intro small r
    rw [signedStrtoll_eq, fits small]
    rfl
  · intro large
    obtain ⟨e, stops⟩ := overflows large
    refine ⟨e, fun r => ?_⟩
    rw [signedStrtoll_eq, stops]
    rfl

theorem signedStrtoll_value (all : ∀ d ∈ digits, isDigit 16 d = true) (stop : isDigit 16 c = false)
    (plain : digits ≠ [] ∨ (c ≠ '-'.toUInt8 ∧ c ≠ '+'.toUInt8)) (fits : digitsValue 16 digits < 2 ^ 63) :
    signedStrtoll (digits ++ c :: l) 16 = some (.ok (digitsValue 16 digits : Int)) := by
  have parsed := signedDigits_foldl (l := l) (by decide) all stop 0 (Nat.le_sub_one_of_lt fits)
  -- the first byte is no sign
  have first : ∀ d rest, digits ++ c :: l = d :: rest → d ≠ '-'.toUInt8 ∧ d ≠ '+'.toUInt8 := by
    intro d rest same
    cases digits with
    | nil =>
      cases same
      exact plain.resolve_left (fun some => some rfl)
    | cons d' digits =>
      cases same
      have here := all d List.mem_cons_self
      constructor
      · rintro rfl
        cases here
      · rintro rfl
        cases here
  unfold signedStrtoll
  generalize digits ++ c :: l = str at parsed first
  cases str with
  | nil => cases parsed
  | cons d rest =>
    obtain ⟨notMinus, notPlus⟩ := first d rest rfl
    simp only [if_neg notMinus, if_neg notPlus, detectBase, ne_eq, OfNat.ofNat_ne_zero, not_false_eq_true, ↓reduceIte,
      parsed, Option.map_some, Except.map, Bool.false_eq_true]
    rfl

end Values

/-! int_to_hex. -/

section Printing

variable {m : Bytes} {out a n i num : Nat} {c : UInt8}

theorem Bytes.read_succ (m : Bytes) (a n : Nat) : m.read a (n + 1) = m.read a n ++ [m (a + n)] := by
  simp only [Bytes.read, List.range_succ, List.map_append, List.map_cons, List.map_nil]

theorem Bytes.set_same (m : Bytes) (a : Nat) (c : UInt8) : m.set a c a = c := if_pos rfl

theorem Bytes.set_other {b : Nat} (c : UInt8) (other : b ≠ a) : m.set a c b = m b := if_neg other

theorem hexDigit_value : ∀ d < 16, digitOf (hexDigits.getD d 0) = some d := by decide

theorem hexDigit_leading : ∀ d < 16, d ≠ 0 → hexDigits.getD d 0 ≠ '0'.toUInt8 := by decide

/-- The loop writes the digits of the number in front of the index. -/
structure Printed (out num i : Nat) (m m' : Bytes) (i' : Nat) : Prop where
  low : i' ≤ i
  outside : ∀ a, ¬ (out + i' ≤ a ∧ a < out + i) → m' a = m a
  digits : ∀ d ∈ m'.read (out + i') (i - i'), isDigit 16 d = true
  value : digitsValue 16 (m'.read (out + i') (i - i')) = num
  none : num = 0 → i' = i
  leading : num ≠ 0 → i' < i ∧ m' (out + i') ≠ '0'.toUInt8

theorem hexLoop_printed (bound : num < 16 ^ i) :
    Printed out num i m (hexLoop out i num m).1 (hexLoop out i num m).2 := by
  induction i generalizing num m with
  | zero =>
    have zero : num = 0 := by
      rw [Nat.pow_zero] at bound
      omega
    subst zero
    refine ⟨Nat.le_refl 0, fun _ _ => rfl, ?_, rfl, fun _ => rfl, fun nonzero => absurd rfl nonzero⟩
    intro d member
    cases member
  | succ i ih =>
    unfold hexLoop
    by_cases zero : num = 0
    · rw [if_pos zero]
      refine ⟨Nat.le_refl _, fun _ _ => rfl, ?_, ?_, fun _ => rfl, fun nonzero => absurd zero nonzero⟩
      · rw [Nat.sub_self]
        intro d member
        cases member
      · rw [Nat.sub_self, zero]
        rfl
    · rw [if_neg zero]
      have digit : num &&& 0xF = num % 16 := Nat.and_two_pow_sub_one_eq_mod num 4
      have rest : num >>> 4 = num / 16 := Nat.shiftRight_eq_div_pow num 4
      have small : num % 16 < 16 := Nat.mod_lt num (by decide)
      rw [digit, rest]
      generalize stored : m.set (out + i) (hexDigits.getD (num % 16) 0) = m₁
      have printed : Printed out (num / 16) i m₁ _ _ := ih (by
        rw [Nat.pow_succ] at bound
        omega)
      generalize hexLoop out i (num / 16) m₁ = result at printed
      obtain ⟨m', i'⟩ := result
      have low := printed.low
      simp only at low printed ⊢
      -- the digit that was stored first is the last one
      have last : m' (out + i) = hexDigits.getD (num % 16) 0 := by
        rw [printed.outside (out + i) (by omega), ← stored]
        exact Bytes.set_same _ _ _
      have split : m'.read (out + i') (i + 1 - i') = m'.read (out + i') (i - i') ++ [hexDigits.getD (num % 16) 0] := by
        rw [Nat.succ_sub low, Bytes.read_succ, Nat.add_assoc, Nat.add_sub_cancel' low, last]
      refine ⟨by omega, ?_, ?_, ?_, fun none => absurd none zero, ?_⟩
      · intro a outside
        rw [printed.outside a (by omega), ← stored]
        exact Bytes.set_other _ (by omega)
      · rw [split]
        intro d member
        rcases List.mem_append.mp member with early | late
        · exact printed.digits d early
        · cases List.mem_singleton.mp late
          simp only [isDigit, hexDigit_value _ small, Option.any_some, decide_eq_true_eq]
          exact small
      · rw [split, digitsValue_append, printed.value, hexDigit_value _ small, Option.getD_some]
        omega
      · intro _
        by_cases more : num / 16 = 0
        · have here : i' = i := printed.none more
          rw [here, last]
          exact ⟨Nat.lt_succ_self i, hexDigit_leading _ small (by omega)⟩
        · obtain ⟨before, nonzero⟩ := printed.leading more
          exact ⟨by omega, nonzero⟩

/-- What int_to_hex has written: the text ends with the buffer's last byte. -/
theorem intToHex_printed (bound : num < 2 ^ 64) :
    ∃ i, i ≤ 15 ∧ (intToHex out num m).2 = out + i ∧
      (∀ a, ¬ (out ≤ a ∧ a < out + 17) → (intToHex out num m).1 a = m a) ∧
      (intToHex out num m).1 (out + 16) = 0 ∧
      (∀ d ∈ (intToHex out num m).1.read (out + i) (16 - i), isDigit 16 d = true) ∧
      digitsValue 16 ((intToHex out num m).1.read (out + i) (16 - i)) = num ∧
      (num ≠ 0 → (intToHex out num m).1 (out + i) ≠ '0'.toUInt8) := by
  unfold intToHex
  by_cases zero : num = 0
  · subst zero
    simp only [↓reduceIte]
    have first : ((m.set (out + 16) 0).set (out + 15) '0'.toUInt8).read (out + 15) (16 - 15) = ['0'.toUInt8] := by
      rw [show 16 - 15 = 0 + 1 from rfl, Bytes.read_succ, Nat.add_zero, Bytes.set_same]
      rfl
    refine ⟨15, Nat.le_refl 15, rfl, ?_, ?_, ?_, ?_, fun nonzero => absurd rfl nonzero⟩
    · intro a outside
      rw [Bytes.set_other _ (by omega), Bytes.set_other _ (by omega)]
    · rw [Bytes.set_other _ (by omega), Bytes.set_same]
    · intro d member
      rw [first] at member
      rw [List.mem_singleton.mp member]
      rfl
    · rw [first]
      rfl
  · rw [if_neg zero]
    have printed := @hexLoop_printed (m.set (out + 16) 0) out 16 num bound
    generalize hexLoop out 16 num (m.set (out + 16) 0) = result at printed
    obtain ⟨m', i⟩ := result
    obtain ⟨before, nonzero⟩ := printed.leading zero
    refine ⟨i, by omega, rfl, ?_, ?_, printed.digits, printed.value, fun _ => nonzero⟩
    · intro a outside
      rw [printed.outside a (by simp only; omega), Bytes.set_other _ (by omega)]
    · rw [printed.outside _ (by simp only; omega), Bytes.set_same]

/-- What int_to_hex prints is read back, has no leading zero, and lies in its buffer of 17 bytes;
strtoull reads each string of hex digits modulo the size of its type, with any number of leading
zeros, and strtoll as long as the value is in range. -/
theorem hex_text_inverse :
    (∀ (out : Nat) (m : Bytes) (n : UInt64), ∃ i, i ≤ 15 ∧ (intToHex out n.toNat m).2 = out + i ∧
      strtoull ((intToHex out n.toNat m).1.read (intToHex out n.toNat m).2 (17 - i)) 16 = some n.toNat ∧
      (0 < n → (intToHex out n.toNat m).1 (intToHex out n.toNat m).2 ≠ '0'.toUInt8) ∧
      ∀ a, ¬ (out ≤ a ∧ a < out + 17) → (intToHex out n.toNat m).1 a = m a) ∧
    (∀ (digits rest : List UInt8) (stop : UInt8), (∀ d ∈ digits, isDigit 16 d = true) →
      stop = 0 ∨ isalnum stop = false →
      (∀ zeros, strtoull (List.replicate zeros '0'.toUInt8 ++ digits ++ stop :: rest) 16 =
        some (digitsValue 16 digits % 2 ^ 64)) ∧
      (digitsValue 16 digits < 2 ^ 63 → ∀ zeros,
        List.replicate zeros '0'.toUInt8 ++ digits ≠ [] ∨ (stop ≠ '-'.toUInt8 ∧ stop ≠ '+'.toUInt8) →
        signedStrtoll (List.replicate zeros '0'.toUInt8 ++ digits ++ stop :: rest) 16 =
          some (.ok (digitsValue 16 digits : Int)))) := by
  constructor
  · intro out m n
    obtain ⟨i, low, pointer, outside, ended, digits, value, leading⟩ := @intToHex_printed m out n.toNat n.toNat_lt
    refine ⟨i, low, pointer, ?_, ?_, outside⟩
    · have whole : (intToHex out n.toNat m).1.read (out + i) (17 - i) =
          (intToHex out n.toNat m).1.read (out + i) (16 - i) ++ 0 :: [] := by
        rw [show 17 - i = (16 - i) + 1 by omega, Bytes.read_succ, show out + i + (16 - i) = out + 16 by omega, ended]
      rw [pointer, whole, strtoull_value digits isDigit_zero, value, Nat.mod_eq_of_lt n.toNat_lt]
    · intro positive
      rw [pointer]
      apply leading
      intro zero
      have none : n = 0 := UInt64.toNat_inj.mp zero
      rw [none] at positive
      exact absurd positive (by decide)
  · intro digits rest stop all stops
    have ends : isDigit 16 stop = false := by
      rcases stops with rfl | other
      · rfl
      · exact isDigit_of_not_alnum other
    have allZeros : ∀ zeros, ∀ d ∈ List.replicate zeros '0'.toUInt8 ++ digits, isDigit 16 d = true := by
      intro zeros d member
      rcases List.mem_append.mp member with zero | digit
      · rw [(List.mem_replicate.mp zero).2]
        rfl
      · exact all d digit
    constructor
    · intro zeros
      rw [strtoull_value (allZeros zeros) ends, digitsValue_zeros]
    · intro fits zeros plain
      rw [← digitsValue_zeros 16 zeros digits] at fits ⊢
      exact signedStrtoll_value (allZeros zeros) ends plain fits

theorem hex_text_inverse_dead :
    strtoull ((intToHex 0x1000 0xDEAD (fun _ => 0)).1.read 0x100C 5) 16 = some 0xDEAD ∧
    signedStrtoll (text "00dEaD" ++ [0]) 16 = some (.ok 0xDEAD) := by
  constructor
  · obtain ⟨i, low, pointer, read, -⟩ := hex_text_inverse.1 0x1000 (fun _ => 0) 0xDEAD
    have place : (intToHex 0x1000 (0xDEAD : UInt64).toNat (fun _ => 0)).2 = 0x100C := rfl
    have index : i = 12 := by omega
    rw [place, index] at read
    exact read
  · have parsed := (hex_text_inverse.2 (text "dEaD") [] 0 (by decide +kernel) (.inl rfl)).2
      (by decide +kernel) 2 (.inl (by decide))
    exact parsed

end Printing

end EvalynOS.Strings
