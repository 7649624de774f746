import EvalynOS.Lib.Word

/-! The copies between kernel and user memory of utils/safe_user_funcs.c and the two
assembly loops under them. An access that faults ends its loop, as the fault handler
moves the instruction pointer to the loop's failure label. -/
namespace EvalynOS.SafeUser
open Lib.Word

def userTop : Nat := 0x0000800000000000
def kernelBase : Nat := 0xFFFF800000000000

/- What the running thread's pagemap lets the kernel read and write, and the bytes
there; `ac` is the flag that suspends the protection of user pages. -/
structure Machine where
  readable : Nat → Bool
  writable : Nat → Bool
  byte : Nat → UInt8
  ac : Bool

inductive Access where
  | read (address : Nat)
  | write (address : Nat)
  deriving DecidableEq, Repr

def Machine.store (m : Machine) (address : Nat) (value : UInt8) : Machine :=
  { m with byte := fun a => if a = address then value else m.byte a }

def isKernelRange (a len : Nat) : Bool :=
  let wrap := decide (len > 2 ^ 64 - 1 - a)
  !wrap && (a &&& wadd a len &&& kernelBase) == kernelBase

def isUserRange (a len : Nat) : Bool := !isKernelRange a len

/-- rep movsb: false when an access faulted. Also the accesses in order, the faulting
one included. -/
def safeMemcpyAsm (m : Machine) (dst src : Nat) : Nat → Bool × Machine × List Access
  | 0 => (true, m, [])
  | len + 1 =>
    if ¬ m.readable src then (false, m, [.read src])
    else if ¬ m.writable dst then (false, m, [.read src, .write dst])
    else
      let (ok, m', rest) := safeMemcpyAsm (m.store dst (m.byte src)) (wadd dst 1) (wadd src 1) len
      (ok, m', .read src :: .write dst :: rest)

/- The loop of safe_strlen_asm from the counter value `eax`; `none` is its failure label. -/
def strlenLoop (m : Machine) (string eax : Nat) : Nat → Option Nat × List Access
  | 0 => (none, [])
  | left + 1 =>
    let address := wadd string eax
    if ¬ m.readable address then (none, [.read address])
    else if m.byte address = 0 then (some eax, [.read address])
    else
      let (result, rest) := strlenLoop m string (eax + 1) left
      (result, .read address :: rest)

def safeStrlenAsm (m : Machine) (string : Nat) : Option Nat × List Access :=
  strlenLoop m string 0 4096

def copyToUser (m : Machine) (udst ksrc len : Nat) : Int × Machine × List Access :=
  if ¬ isUserRange udst len ∨ ¬ isKernelRange ksrc len then (-1, m, [])
  else
    let (ok, m', accesses) := safeMemcpyAsm { m with ac := true } udst ksrc len
    (if ok then 0 else -1, { m' with ac := false }, accesses)

def copyFromUser (m : Machine) (kdst usrc len : Nat) : Int × Machine × List Access :=
  if ¬ isKernelRange kdst len ∨ ¬ isUserRange usrc len then (-1, m, [])
  else
    let (ok, m', accesses) := safeMemcpyAsm { m with ac := true } kdst usrc len
    (if ok then 0 else -1, { m' with ac := false }, accesses)

def strlenUser (m : Machine) (string : Nat) : Int × Machine × List Access :=
  if ¬ isUserRange string 4096 then (-1, m, [])
  else
    match safeStrlenAsm { m with ac := true } string with
    | (some len, accesses) => (len, { m with ac := false }, accesses)
    | (none, accesses) => (-1, { m with ac := false }, accesses)

/-! The accesses of the two loops stay in the ranges they were started on. -/

theorem wadd_zero {a : Nat} (small : a < 2 ^ 64) : wadd a 0 = a := Nat.mod_eq_of_lt small

theorem wadd_wadd (a b c : Nat) : wadd (wadd a b) c = wadd a (b + c) := by
  unfold wadd
  omega

theorem memcpy_accesses (len : Nat) (m : Machine) {dst src : Nat} (dstSmall : dst < 2 ^ 64)
    (srcSmall : src < 2 ^ 64) :
    ∀ x ∈ (safeMemcpyAsm m dst src len).2.2,
      ∃ i < len, x = .read (wadd src i) ∨ x = .write (wadd dst i) := by
  induction len generalizing m dst src with
  | zero => exact fun x none => absurd none List.not_mem_nil
  | succ len ih =>
    have srcHere : src = wadd src 0 := (wadd_zero srcSmall).symm
    have dstHere : dst = wadd dst 0 := (wadd_zero dstSmall).symm
    have first : ∀ x : Access, x = .read src ∨ x = .write dst →
        ∃ i < len + 1, x = .read (wadd src i) ∨ x = .write (wadd dst i) := by
      intro x here
      refine ⟨0, Nat.succ_pos _, ?_⟩
      rwa [← srcHere, ← dstHere]
    intro x member
    unfold safeMemcpyAsm at member
    split at member
    · exact first x (.inl (List.mem_singleton.mp member))
    · split at member
      · rcases List.mem_cons.mp member with read | rest
        · exact first x (.inl read)
        · exact first x (.inr (List.mem_singleton.mp rest))
      · rcases List.mem_cons.mp member with read | rest
        · exact first x (.inl read)
        · rcases List.mem_cons.mp rest with write | later
          · exact first x (.inr write)
          · obtain ⟨i, small, shape⟩ := ih _ (wadd_lt dst 1) (wadd_lt src 1) x later
            refine ⟨1 + i, by omega, ?_⟩
            rwa [wadd_wadd, wadd_wadd] at shape

theorem strlen_accesses (m : Machine) (string : Nat) (left eax : Nat) :
    ∀ x ∈ (strlenLoop m string eax left).2, ∃ i < eax + left, x = .read (wadd string i) := by
  induction left generalizing eax with
  | zero => exact fun x none => absurd none List.not_mem_nil
  | succ left ih =>
    intro x member
    unfold strlenLoop at member
    simp only at member
    split at member
    · exact ⟨eax, by omega, List.mem_singleton.mp member⟩
    · split at member
      · exact ⟨eax, by omega, List.mem_singleton.mp member⟩
      · rcases List.mem_cons.mp member with here | later
        · exact ⟨eax, by omega, here⟩
        · obtain ⟨i, small, shape⟩ := ih (eax + 1) x later
          exact ⟨i, by omega, shape⟩

/-! What the bit masks of the range check mean. -/

theorem masked_iff {a : Nat} (small : a < 2 ^ 64) : a &&& kernelBase = kernelBase ↔ kernelBase ≤ a := by
  have mask : kernelBase = 2 ^ 64 - 2 ^ 47 := by decide
  rw [mask, land_high_mask (by decide) small]
  omega

theorem isKernelRange_iff {a len : Nat} (small : a < 2 ^ 64) :
    isKernelRange a len = true ↔ kernelBase ≤ a ∧ a + len < 2 ^ 64 := by
  unfold isKernelRange
  simp only [Bool.and_eq_true, Bool.not_eq_true', decide_eq_false_iff_not, beq_iff_eq]
  have noWrap : ¬ len > 2 ^ 64 - 1 - a ↔ a + len < 2 ^ 64 := by omega
  rw [noWrap, and_comm, Nat.and_assoc]
  constructor
  · rintro ⟨masked, bound⟩
    rw [wadd_eq bound] at masked
    refine ⟨?_, bound⟩
    have low : a &&& ((a + len) &&& kernelBase) ≤ a := Nat.and_le_left
    rwa [masked] at low
  · rintro ⟨high, bound⟩
    refine ⟨?_, bound⟩
    rw [wadd_eq bound, (masked_iff bound).mpr (by omega), (masked_iff small).mpr high]

/-! Isolation, and the user ranges for which the checks give it. -/

/-- Once both checks have passed, no byte of the user range is a kernel address and
every byte of the kernel range is one. -/
def CopyIsolated (u k len : Nat) : Prop :=
  isUserRange u len = true → isKernelRange k len = true →
    (∀ i < len, ¬ kernelBase ≤ wadd u i) ∧ ∀ i < len, kernelBase ≤ wadd k i

def ScanIsolated (u : Nat) : Prop :=
  isUserRange u 4096 = true → ∀ i < 4096, ¬ kernelBase ≤ wadd u i

/-- The range ends below the kernel half, or it lies in it and ends before 2^64. -/
def OneSided (u len : Nat) : Prop := u + len ≤ kernelBase ∨ (kernelBase ≤ u ∧ u + len < 2 ^ 64)

theorem below_iff {u len : Nat} (small : u < 2 ^ 64) (some_bytes : 0 < len) :
    (∀ i < len, ¬ kernelBase ≤ wadd u i) ↔ u + len ≤ kernelBase := by
  have base : kernelBase < 2 ^ 64 := by decide
  constructor
  · intro outside
    by_contra beyond
    by_cases low : u < kernelBase
    · have reached := outside (kernelBase - u) (by omega)
      rw [wadd_eq (by omega)] at reached
      omega
    · have start := outside 0 some_bytes
      rw [wadd_zero small] at start
      omega
  · intro ends i inside
    rw [wadd_eq (by omega)]
    omega

theorem isUserRange_iff {u len : Nat} (small : u < 2 ^ 64) :
    isUserRange u len = true ↔ ¬ (kernelBase ≤ u ∧ u + len < 2 ^ 64) := by
  rw [← isKernelRange_iff small, isUserRange, Bool.not_eq_true', Bool.not_eq_true]

theorem copyIsolated_iff {u k len : Nat} (userSmall : u < 2 ^ 64) (kernelSmall : k < 2 ^ 64) :
    CopyIsolated u k len ↔ len = 0 ∨ OneSided u len ∨ isKernelRange k len = false := by
  have kernelSide : isKernelRange k len = true → ∀ i < len, kernelBase ≤ wadd k i := by
    intro inside i below
    obtain ⟨high, bound⟩ := (isKernelRange_iff kernelSmall).mp inside
    rw [wadd_eq (by omega)]
    omega
  constructor
  · intro isolated
    by_cases empty : len = 0
    · exact .inl empty
    · right
      cases inside : isKernelRange k len with
      | false => exact .inr rfl
      | true =>
        left
        by_cases user : isUserRange u len = true
        · exact .inl ((below_iff userSmall (by omega)).mp (isolated user inside).1)
        · rw [isUserRange_iff userSmall, not_not] at user
          exact .inr user
  · intro fits user inside
    refine ⟨?_, kernelSide inside⟩
    rcases fits with rfl | oneSided | outside
    · exact fun i none => absurd none (Nat.not_lt_zero i)
    · rcases oneSided with low | high
      · intro i below
        exact (below_iff userSmall (by omega)).mpr low i below
      · exact absurd high ((isUserRange_iff userSmall).mp user)
    · rw [outside] at inside
      cases inside

theorem scanIsolated_iff {u : Nat} (small : u < 2 ^ 64) : ScanIsolated u ↔ OneSided u 4096 := by
  constructor
  · intro isolated
    by_cases user : isUserRange u 4096 = true
    · exact .inl ((below_iff small (by decide)).mp (isolated user))
    · rw [isUserRange_iff small, not_not] at user
      exact .inr user
  · rintro (low | high) user
    · exact (below_iff small (by decide)).mpr low
    · exact absurd high ((isUserRange_iff small).mp user)

section Calls

variable (m : Machine) {u k len : Nat}

theorem copyToUser_refused (refused : ¬ (isUserRange u len = true ∧ isKernelRange k len = true)) :
    copyToUser m u k len = (-1, m, []) :=
  if_pos (not_and_or.mp refused)

theorem copyFromUser_refused (refused : ¬ (isUserRange u len = true ∧ isKernelRange k len = true)) :
    copyFromUser m k u len = (-1, m, []) :=
  if_pos (not_and_or.mp (fun both => refused both.symm))

theorem strlenUser_refused (refused : isUserRange u 4096 ≠ true) : strlenUser m u = (-1, m, []) :=
  if_pos refused

theorem copyToUser_accesses (userSmall : u < 2 ^ 64) (kernelSmall : k < 2 ^ 64) :
    ∀ x ∈ (copyToUser m u k len).2.2, ∃ i < len, x = .read (wadd k i) ∨ x = .write (wadd u i) := by
  unfold copyToUser
  split
  · exact fun x none => absurd none List.not_mem_nil
  · exact memcpy_accesses len _ userSmall kernelSmall

theorem copyFromUser_accesses (userSmall : u < 2 ^ 64) (kernelSmall : k < 2 ^ 64) :
    ∀ x ∈ (copyFromUser m k u len).2.2, ∃ i < len, x = .read (wadd u i) ∨ x = .write (wadd k i) := by
  unfold copyFromUser
  split
  · exact fun x none => absurd none List.not_mem_nil
  · exact memcpy_accesses len _ kernelSmall userSmall

theorem strlenUser_accesses : ∀ x ∈ (strlenUser m u).2.2, ∃ i < 4096, x = .read (wadd u i) := by
  unfold strlenUser
  split
  · exact fun x none => absurd none List.not_mem_nil
  · have scanned := strlen_accesses { m with ac := true } u 4096 0
    rw [Nat.zero_add] at scanned
    split
    · rename_i shape
      unfold safeStrlenAsm at shape
      rwa [shape] at scanned
    · rename_i shape
      unfold safeStrlenAsm at shape
      rwa [shape] at scanned

end Calls

/- Memory in which every address can be read and written. -/
def allMapped : Machine where
  readable := fun _ => true
  writable := fun _ => true
  byte := fun _ => 0
  ac := false

end EvalynOS.SafeUser
