import EvalynOS.Filesystem.Progress
import EvalynOS.Utils.SafeUserFuncs

/-! The two copies of a path into a buffer of 256 bytes: the one that tarfsGetFize makes
for sys_open, and the one that init_tarfs makes of a header's name. -/
namespace EvalynOS.Tarfs
open EvalynOS.SafeUser Lib.Word

/- What strcpy has written after a number of turns, by index in the buffer. -/
def strcpyWrites (m : Memory) (src : Int) (dst : Nat) : (turns : Nat) → List (Nat × UInt8)
  | 0 => []
  | turns + 1 => (dst, m src) :: if m src = 0 then [] else strcpyWrites m (src + 1) (dst + 1) turns

/-- However far the copy gets, it has written the buffer only. -/
def CopyStays (m : Memory) (src : Int) (dst room : Nat) : Prop :=
  ∀ turns, ∀ w ∈ strcpyWrites m src dst turns, w.1 < room

/- The copy of tarfsGetFize: behind the dot in tarPath. -/
def TarPathStays (m : Memory) (path : Int) : Prop := CopyStays m path 1 256

/- The copy of init_tarfs: the name without its first byte, into the path of struct file. -/
def FilePathStays (m : Memory) (ptr : Int) : Prop := CopyStays m (ptr + 1) 0 256

/- The string at a user address, where strlen_user accepts it. -/
structure Accepted (m : Machine) (u : Nat) (path : CString) : Prop where
  length : (strlenUser m u).1 = path.bytes.length
  bytes : ∀ (i : Nat) (inside : i < path.bytes.length), path.bytes[i] = m.byte (wadd u i)

theorem copyStays_iff {m : Memory} {room : Nat} (left : Nat) {src : Int} {dst : Nat}
    (remains : dst + left = room) : CopyStays m src dst room ↔ ∃ i : Nat, i < left ∧ m (src + i) = 0 := by
  induction left generalizing src dst with
  | zero =>
    constructor
    · intro stays
      have first := stays 1 (dst, m src) List.mem_cons_self
      simp only at first
      omega
    · rintro ⟨i, none, -⟩
      omega
  | succ left ih =>
    by_cases last : m src = 0
    · refine iff_of_true ?_ ⟨0, Nat.succ_pos left, by simpa using last⟩
      intro turns w member
      cases turns with
      | zero => cases member
      | succ turns =>
        simp only [strcpyWrites, if_pos last, List.mem_singleton] at member
        rw [member]
        simp only
        omega
    · have place : ∀ i : Nat, src + ((i + 1 : Nat) : Int) = src + 1 + (i : Int) := by
        intro i
        push_cast
        omega
      have tail : CopyStays m src dst room ↔ CopyStays m (src + 1) (dst + 1) room := by
        constructor
        · intro stays turns w member
          apply stays (turns + 1) w
          rw [strcpyWrites, if_neg last]
          exact List.mem_cons_of_mem _ member
        · intro stays turns w member
          cases turns with
          | zero => cases member
          | succ turns =>
            rw [strcpyWrites, if_neg last] at member
            rcases List.mem_cons.mp member with rfl | later
            · simp only
              omega
            · exact stays turns w later
      rw [tail, ih (by omega)]
      constructor
      · rintro ⟨i, inside, ends⟩
        exact ⟨i + 1, by omega, by rwa [place i]⟩
      · rintro ⟨i, inside, ends⟩
        cases i with
        | zero => exact absurd (by simpa using ends) last
        | succ i => exact ⟨i, by omega, by rwa [← place i]⟩

/- The first 0 behind the start of a string is its end. -/
theorem Holds.ends_at {m : Memory} {src : Int} {path : CString} (holds : Holds m src (path.bytes ++ [0]))
    {i : Nat} (blank : m (src + i) = 0) : path.bytes.length ≤ i := by
  by_contra inside
  rw [Nat.not_le] at inside
  have letter := holds.append.1.getElem inside
  rw [blank] at letter
  exact path.terminated (letter ▸ List.getElem_mem inside)

theorem tarPathStays_iff {m : Memory} {src : Int} {path : CString} (holds : Holds m src (path.bytes ++ [0])) :
    TarPathStays m src ↔ path.bytes.length ≤ 254 := by
  rw [TarPathStays, copyStays_iff 255 (by decide)]
  constructor
  · rintro ⟨i, inside, blank⟩
    have ends := holds.ends_at blank
    omega
  · intro fits
    have last := holds.append.2.getElem (show 0 < [(0 : UInt8)].length by decide)
    exact ⟨path.bytes.length, by omega, by simpa using last⟩

theorem filePathStays_iff {m : Memory} {ptr : Int} : FilePathStays m ptr ↔ NameEnds m (ptr + 1) :=
  copyStays_iff 256 (by decide)

/- Where the copies leave their buffers the two functions are stuck. -/
theorem tarfsGetFize_overflows {m k : Memory} {src archive : Int} {fuel : Nat} {path : CString}
    (holds : Holds k src (path.bytes ++ [0])) (leaves : ¬ TarPathStays k src) :
    tarfsGetFize m archive fuel path = .error .overflow := by
  rw [tarPathStays_iff holds, Nat.not_le] at leaves
  rw [tarfsGetFize, sizeHeader, if_pos leaves]
  rfl

theorem mountFile_stays_iff {m : Memory} {ptr filesize : Int} {files : List File} (positive : 0 < filesize) :
    (∃ added, mountFile m ptr filesize files = .ok added) ↔ FilePathStays m ptr := by
  rw [filePathStays_iff, mountFile_iff]
  exact ⟨fun named => named positive, fun named _ => named⟩

/-! The strings that strlen_user accepts. -/

theorem strlenLoop_some {m : Machine} {u n : Nat} (left eax : Nat)
    (found : (strlenLoop m u eax left).1 = some n) :
    n < eax + left ∧ m.byte (wadd u n) = 0 ∧ ∀ i, eax ≤ i → i < n → m.byte (wadd u i) ≠ 0 := by
  induction left generalizing eax with
  | zero => cases found
  | succ left ih =>
    unfold strlenLoop at found
    simp only at found
    split at found
    · cases found
    · split at found
      · rename_i last
        cases found
        exact ⟨by omega, last, fun i low high => by omega⟩
      · rename_i letter
        obtain ⟨inside, last, letters⟩ := ih (eax + 1) found
        refine ⟨by omega, last, ?_⟩
        intro i low high
        by_cases here : i = eax
        · rwa [here]
        · exact letters i (by omega) high

theorem strlenUser_some {m : Machine} {u n : Nat} (accepted : (strlenUser m u).1 = n) :
    n ≤ 4095 ∧ m.byte (wadd u n) = 0 ∧ ∀ i < n, m.byte (wadd u i) ≠ 0 := by
  unfold strlenUser at accepted
  split at accepted
  · simp only at accepted
    omega
  · split at accepted
    · rename_i len accesses scanned
      cases Int.ofNat.inj accepted
      obtain ⟨inside, last, letters⟩ := strlenLoop_some 4096 0 (congrArg Prod.fst scanned)
      exact ⟨by omega, last, fun i high => letters i (Nat.zero_le i) high⟩
    · simp only at accepted
      omega

/- Every accepted string is one of these. -/
theorem accepted_string {m : Machine} {u n : Nat} (accepted : (strlenUser m u).1 = n) :
    ∃ path, Accepted m u path ∧ path.bytes.length = n := by
  obtain ⟨-, -, letters⟩ := strlenUser_some accepted
  refine ⟨⟨(List.range n).map fun i => m.byte (wadd u i), ?_⟩, ⟨?_, ?_⟩, ?_⟩
  · intro zero
    obtain ⟨i, inside, blank⟩ := List.mem_map.mp zero
    exact letters i (List.mem_range.mp inside) blank
  · simpa using accepted
  · intro i inside
    simp
  · simp

/- The headers whose names init_tarfs copies. -/
def MountCopies (m : Memory) (archive p : Int) : Prop :=
  Visits m never archive p ∧ isUstar m p = true ∧ ∃ filesize, fileSize m p = .ok filesize ∧ 0 < filesize

/-- The copy of an accepted path stays in tarPath exactly when the path has at most 254
bytes; the copies of init_tarfs stay in their buffers exactly when every name ends. -/
theorem path_copies_stay_iff {user : Machine} {u : Nat} {path : CString} (accepted : Accepted user u path)
    {kernel : Memory} {fileName : Int} (copied : Holds kernel fileName (path.bytes ++ [0])) (m : Memory)
    (archive : Int) :
    path.bytes.length ≤ 4095 ∧ (TarPathStays kernel fileName ↔ path.bytes.length ≤ 254) ∧
      ((∀ p, MountCopies m archive p → FilePathStays m p) ↔
        ∀ p, MountCopies m archive p → ∃ i : Nat, i < 256 ∧ m (p + 1 + i) = 0) := by
  refine ⟨(strlenUser_some accepted.length).1, tarPathStays_iff copied, ?_⟩
  constructor
  · exact fun stays p copies => filePathStays_iff.mp (stays p copies)
  · exact fun named p copies => filePathStays_iff.mpr (named p copies)

/- A path of the letter a, in user memory at the usual address of a program. -/
def letters (n : Nat) : CString := ⟨List.replicate n 97, by simp⟩

def lettersUser (n : Nat) : Machine := { allMapped with byte := fun a => if a < 0x400000 + n then 97 else 0 }

theorem letters_accepted (n : Nat) (length : (strlenUser (lettersUser n) 0x400000).1 = n) :
    Accepted (lettersUser n) 0x400000 (letters n) := by
  obtain ⟨short, -⟩ := strlenUser_some length
  refine ⟨by simpa [letters] using length, ?_⟩
  intro i inside
  have small : i < n := by simpa [letters] using inside
  simp [letters, lettersUser, wadd]
  omega

theorem path_copies_stay_short : TarPathStays (image ((letters 4).bytes ++ [0])) 0 :=
  (path_copies_stay_iff (letters_accepted 4 (by decide +kernel)) (holds_image _) (image []) 0).2.1.mpr
    (by decide)

/- A header whose first 0 is behind the mark. -/
def unnamed : Memory :=
  image (List.replicate 0x7c 97 ++ [48, 48, 48, 48, 48, 48, 48, 48, 48, 48, 49] ++
    List.replicate (257 - 0x87) 97 ++ [117, 115, 116, 97, 114])

/-- A path of 255 bytes is accepted and is one too long; this archive's name is one as well. -/
theorem path_copies_leave : Accepted (lettersUser 255) 0x400000 (letters 255) ∧
    ¬ TarPathStays (image ((letters 255).bytes ++ [0])) 0 ∧
    MountCopies unnamed 0 0 ∧ ¬ FilePathStays unnamed 0 := by
  refine ⟨letters_accepted 255 (by decide +kernel), ?_, ?_, ?_⟩
  · intro stays
    have fits := (tarPathStays_iff (holds_image _)).mp stays
    rw [letters, List.length_replicate] at fits
    omega
  · exact ⟨.start, by decide +kernel, 1, by decide +kernel, by decide⟩
  · intro stays
    obtain ⟨i, inside, blank⟩ := filePathStays_iff.mp stays
    have letters : ∀ i : Nat, i < 256 → unnamed (0 + 1 + i) ≠ 0 := by decide +kernel
    exact letters i inside blank

end EvalynOS.Tarfs
