import EvalynOS.Syscalls.Files

/-! The positions that sys_seek can reach, for offsets of the full 64 bits. -/
namespace EvalynOS.Files
open EvalynOS.Tarfs

/- An open descriptor on a file of `size` bytes, with its position inside. -/
structure OpenOn (v : Volume) (t : Thread) (fd : Nat) (size : Int) : Prop where
  named : ∃ path, (t.fds fd).fileName = some path ∧ tarfsGetFize v.memory v.archive v.fuel path = .ok size
  positive : 0 < size
  small : size < 2 ^ 31
  inside : (t.fds fd).seekPos ≤ size

/- What the offset is counted from. -/
def seekBase (whence size : Int) (pos : Nat) : Int :=
  if whence = 0 then 0 else if whence = 1 then pos else size

def clamp (size target : Int) : Int := min (max target 0) size

def SeeksExactly (v : Volume) (t : Thread) (fd : Nat) (size offset whence : Int) : Prop :=
  let pos := clamp size (seekBase whence size (t.fds fd).seekPos + offset)
  sysSeek v fd offset whence t = .ok (pos, t.set fd { t.fds fd with seekPos := pos.toNat })

theorem clamp_mono {size a b : Int} (order : a ≤ b) : clamp size a ≤ clamp size b := by
  unfold clamp
  omega

theorem clamp_inside {size target : Int} (positive : 0 < size) :
    0 ≤ clamp size target ∧ clamp size target ≤ size := by
  unfold clamp
  omega

section Seek

variable {v : Volume} {t : Thread} {fd : Nat} {size offset whence : Int}

theorem seekTo_eq (positive : 0 < size) (small : size < 2 ^ 31) (target : Int) :
    seekTo fd size target t =
      (clamp size target, t.set fd { t.fds fd with seekPos := (clamp size target).toNat }) := by
  have brought : (if size < (if target < 0 then 0 else target) then size
      else if target < 0 then 0 else target) = clamp size target := by
    unfold clamp
    omega
  have stored : clamp size target % 2 ^ 64 = clamp size target := by
    obtain ⟨low, high⟩ := @clamp_inside size target positive
    exact Int.emod_eq_of_lt low (by omega)
  simp only [seekTo, brought, stored]

theorem sysSeek_set (isOpen : OpenOn v t fd size) (offset : Int) :
    sysSeek v fd offset 0 t = .ok (seekTo fd size offset t) := by
  obtain ⟨path, name, found⟩ := isOpen.named
  simp [sysSeek, name, found, ok_bind]

theorem sysSeek_cur (isOpen : OpenOn v t fd size) (offset : Int) :
    sysSeek v fd offset 1 t = .ok (seekTo fd size (((t.fds fd).seekPos + offset).bmod (2 ^ 64)) t) := by
  obtain ⟨path, name, found⟩ := isOpen.named
  simp [sysSeek, name, found, ok_bind]

theorem sysSeek_end (isOpen : OpenOn v t fd size) (offset : Int) :
    sysSeek v fd offset 2 t =
      if -2 ^ 63 ≤ size + offset ∧ size + offset < 2 ^ 63 then .ok (seekTo fd size (size + offset) t)
      else .error .overflow := by
  obtain ⟨path, name, found⟩ := isOpen.named
  simp [sysSeek, name, found, ok_bind]

/- The sum wraps to a negative target, and the file's start is taken for its end. -/
theorem clamp_wrapped {pos : Nat} (inside : pos ≤ size) (small : size < 2 ^ 31) (high : offset < 2 ^ 63)
    (wraps : 2 ^ 63 ≤ pos + offset) : clamp size ((pos + offset).bmod (2 ^ 64)) = min 0 size := by
  have value : ((pos : Int) + offset).bmod (2 ^ 64) = pos + offset - 2 ^ 64 := by
    rw [← Int.sub_bmod_right]
    exact Int.bmod_eq_of_le (by omega) (by omega)
  rw [value]
  unfold clamp
  omega

theorem seeksExactly_iff (isOpen : OpenOn v t fd size) (low : -2 ^ 63 ≤ offset) (high : offset < 2 ^ 63)
    (valid : whence = 0 ∨ whence = 1 ∨ whence = 2) :
    SeeksExactly v t fd size offset whence ↔ seekBase whence size (t.fds fd).seekPos + offset < 2 ^ 63 := by
  have positive := isOpen.positive
  have small := isOpen.small
  have inside := isOpen.inside
  unfold SeeksExactly
  rcases valid with rfl | rfl | rfl
  · rw [sysSeek_set isOpen, seekTo_eq positive small]
    simp only [seekBase, if_true, Int.zero_add, true_iff]
    exact high
  · rw [sysSeek_cur isOpen, seekTo_eq positive small]
    simp only [seekBase, one_ne_zero, if_false, if_true]
    constructor
    · intro same
      by_contra wraps
      have moved := congrArg Prod.fst (Except.ok.inj same)
      simp only [clamp_wrapped inside small high (Int.not_lt.mp wraps)] at moved
      unfold clamp at moved
      omega
    · intro fits
      rw [Int.bmod_eq_of_le (by omega) (by omega)]
  · rw [sysSeek_end isOpen]
    simp only [seekBase, OfNat.ofNat_ne_zero, if_false, OfNat.ofNat_ne_one]
    constructor
    · intro same
      by_contra overflows
      rw [if_neg (fun range => overflows range.2)] at same
      cases same
    · intro fits
      rw [if_pos ⟨by omega, fits⟩, seekTo_eq positive small]

/-- sys_seek goes to the exact target, brought back into the file, exactly when the target
is below 2^63; up to there a larger offset leads no less far. -/
theorem seek_exact_iff (isOpen : OpenOn v t fd size) (low : -2 ^ 63 ≤ offset) (high : offset < 2 ^ 63)
    (valid : whence = 0 ∨ whence = 1 ∨ whence = 2) :
    (SeeksExactly v t fd size offset whence ↔ seekBase whence size (t.fds fd).seekPos + offset < 2 ^ 63) ∧
      ∀ later, offset ≤ later → seekBase whence size (t.fds fd).seekPos + later < 2 ^ 63 → later < 2 ^ 63 →
        ∃ pos pos' t₁ t₂, sysSeek v fd offset whence t = .ok (pos, t₁) ∧
          sysSeek v fd later whence t = .ok (pos', t₂) ∧ pos ≤ pos' := by
  refine ⟨seeksExactly_iff isOpen low high valid, ?_⟩
  intro later order fits small
  have one := (seeksExactly_iff isOpen low high valid).mpr (by omega)
  have two := (seeksExactly_iff isOpen (by omega) small valid).mpr fits
  exact ⟨_, _, _, _, one, two, clamp_mono (by omega)⟩

end Seek

theorem greeting_isOpen : OpenOn greetingVolume greetingOpened 11 2 where
  named := ⟨greetingPath, rfl, by decide +kernel⟩
  positive := by decide
  small := by decide
  inside := by decide

theorem seek_exact_greeting : SeeksExactly greetingVolume greetingOpened 11 2 (-1) 2 :=
  (seek_exact_iff greeting_isOpen (by decide) (by decide) (.inr (.inr rfl))).1.mpr (by decide)

/- The greeting, read up to its last byte. -/
def greetingSecond : Thread := greetingOpened.set 11 ⟨some greetingPath, .block [104, 105], 1⟩

/-- The largest offset from the second byte leads to the first one. -/
theorem seek_wraps : OpenOn greetingVolume greetingSecond 11 2 ∧
    sysSeek greetingVolume 11 (2 ^ 63 - 1) 1 greetingSecond =
      .ok (0, greetingSecond.set 11 { greetingSecond.fds 11 with seekPos := 0 }) ∧
    ¬ SeeksExactly greetingVolume greetingSecond 11 2 (2 ^ 63 - 1) 1 ∧
    sysSeek greetingVolume 11 (2 ^ 63 - 1) 2 greetingSecond = .error .overflow := by
  have second : OpenOn greetingVolume greetingSecond 11 2 :=
    ⟨⟨greetingPath, rfl, by decide +kernel⟩, by decide, by decide, by decide⟩
  have moved : sysSeek greetingVolume 11 (2 ^ 63 - 1) 1 greetingSecond =
      .ok (0, greetingSecond.set 11 { greetingSecond.fds 11 with seekPos := 0 }) := by
    have first : clamp 2 ((((greetingSecond.fds 11).seekPos : Int) + (2 ^ 63 - 1)).bmod (2 ^ 64)) = 0 := by
      decide
    rw [sysSeek_cur second, seekTo_eq second.positive second.small, first]
    rfl
  refine ⟨second, moved, ?_, ?_⟩
  · intro exactly
    have same := congrArg Prod.fst (Except.ok.inj (moved.symm.trans exactly))
    exact absurd same (by decide)
  · rw [sysSeek_end second]
    rfl

end EvalynOS.Files
