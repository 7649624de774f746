import EvalynOS.Syscalls.Files
import EvalynOS.Utils.SafeUserFuncs

/-! sys_read and sys_seek with the registers as a thread leaves them: any descriptor
number, any buffer, any count, and user memory that may fault. -/
namespace EvalynOS.Files
open EvalynOS.Tarfs EvalynOS.SafeUser Lib.Word

/- What a read leaves behind; `copied` is the result of copy_to_user where it was called. -/
structure Outcome where
  rax : Int
  copied : Option Int
  machine : Machine
  accesses : List Access
  thread : Thread

/- sys_read; `block` has the address of each descriptor's file_data. The table ends
behind entry 255, and the index is not compared with it. -/
def sysReadInto (v : Volume) (m : Machine) (block : Nat → Nat) (rbx rsi rdx : Nat) (t : Thread) :
    Except Stuck Outcome :=
  if 256 ≤ rbx then .error .overflow
  else
    let file := t.fds rbx
    match file.fileName with
    | none => .ok ⟨-1, none, m, [], t⟩
    | some fileName => do
      let size ← tarfsGetFize v.memory v.archive v.fuel fileName
      let size := (size % 2 ^ 64).toNat
      match file.fileData with
      | .null => .ok ⟨-1, none, m, [], t⟩
      | .freed => .error .overflow
      | .block _ =>
        if size ≤ file.seekPos then .ok ⟨0, none, m, [], t⟩
        else
          let maxBytes := size - file.seekPos
          let bytes := if maxBytes < rdx then maxBytes else rdx
          let (copied, m', accesses) := copyToUser m rsi (wadd (block rbx) file.seekPos) bytes
          .ok ⟨bytes, some copied, m', accesses, t.set rbx { file with seekPos := wadd file.seekPos bytes }⟩

/- The registers as long and int. -/
def sysSeekFrame (v : Volume) (rbx rsi rdx : Nat) (t : Thread) : Except Stuck (Int × Thread) :=
  if 256 ≤ rbx then .error .overflow
  else sysSeek v rbx ((rdx : Int).bmod (2 ^ 64)) ((rsi : Int).bmod (2 ^ 32)) t

/- A thread after any calls, and the descriptors that sys_open has returned to it. -/
inductive History (v : Volume) : List Nat → Thread → Prop
  | start : History v [] newThread
  | opens {opened : List Nat} {t t' : Thread} {forName forData forCopy : Allocator} {path : Option CString}
      {rax : Int} (before : History v opened t)
      (result : sysOpen v forName forData forCopy path t = .ok (rax, t')) :
      History v (if rax < 0 then opened else rax.toNat :: opened) t'
  | reads {opened : List Nat} {t : Thread} {m : Machine} {block : Nat → Nat} {rbx rsi rdx : Nat}
      {outcome : Outcome} (before : History v opened t)
      (result : sysReadInto v m block rbx rsi rdx t = .ok outcome) : History v opened outcome.thread
  | seeks {opened : List Nat} {t t' : Thread} {rbx rsi rdx : Nat} {rax : Int} (before : History v opened t)
      (result : sysSeekFrame v rbx rsi rdx t = .ok (rax, t')) : History v opened t'

section Calls

variable (v : Volume) (m : Machine) (block : Nat → Nat) (rbx rsi rdx : Nat)

/-- A number that is no descriptor is refused with nothing touched, and a copy that fails
makes the read fail where it stood. -/
structure FailsCleanly (opened : List Nat) (t : Thread) : Prop where
  refused : rbx ∉ opened → sysReadInto v m block rbx rsi rdx t = .ok ⟨-1, none, m, [], t⟩ ∧
    sysSeekFrame v rbx rsi rdx t = .ok (-1, t)
  undelivered : ∀ outcome, sysReadInto v m block rbx rsi rdx t = .ok outcome →
    ∀ copied ∈ outcome.copied, copied ≠ 0 →
      outcome.rax < 0 ∧ (outcome.thread.fds rbx).seekPos = (t.fds rbx).seekPos
  delivered : ∀ outcome, sysReadInto v m block rbx rsi rdx t = .ok outcome → 0 < outcome.rax →
    outcome.copied = some 0

/- The range checks pass and no byte faults. -/
def Accessible (u k len : Nat) : Prop :=
  isUserRange u len = true ∧ isKernelRange k len = true ∧
    ∀ i < len, m.readable (wadd k i) = true ∧ m.writable (wadd u i) = true

/- Where a file has bytes left, those that are asked for can be copied to the buffer. -/
def Deliverable (t : Thread) : Prop :=
  ∀ path data size, (t.fds rbx).fileName = some path → (t.fds rbx).fileData = .block data →
    tarfsGetFize v.memory v.archive v.fuel path = .ok size → (t.fds rbx).seekPos < (size % 2 ^ 64).toNat →
      Accessible m rsi (wadd (block rbx) (t.fds rbx).seekPos)
        (min rdx ((size % 2 ^ 64).toNat - (t.fds rbx).seekPos))

end Calls

/-! Copies that succeed. -/

theorem safeMemcpyAsm_iff (len : Nat) (m : Machine) {dst src : Nat} (dstSmall : dst < 2 ^ 64)
    (srcSmall : src < 2 ^ 64) : (safeMemcpyAsm m dst src len).1 = true ↔
      ∀ i < len, m.readable (wadd src i) = true ∧ m.writable (wadd dst i) = true := by
  induction len generalizing m dst src with
  | zero => simp [safeMemcpyAsm]
  | succ len ih =>
    have split : (∀ i < len + 1, m.readable (wadd src i) = true ∧ m.writable (wadd dst i) = true) ↔
        (m.readable src = true ∧ m.writable dst = true) ∧
          ∀ i < len, m.readable (wadd (wadd src 1) i) = true ∧ m.writable (wadd (wadd dst 1) i) = true := by
      simp only [wadd_wadd]
      constructor
      · intro all
        refine ⟨?_, fun i below => all (1 + i) (by omega)⟩
        have first := all 0 (Nat.succ_pos len)
        rwa [wadd_zero srcSmall, wadd_zero dstSmall] at first
      · rintro ⟨first, later⟩ i below
        cases i with
        | zero => rwa [wadd_zero srcSmall, wadd_zero dstSmall]
        | succ i =>
          rw [Nat.add_comm i 1]
          exact later i (by omega)
    rw [split]
    unfold safeMemcpyAsm
    by_cases readable : m.readable src = true
    · by_cases writable : m.writable dst = true
      · simp only [readable, writable, not_true_eq_false, if_false, true_and]
        exact ih (m.store dst (m.byte src)) (wadd_lt dst 1) (wadd_lt src 1)
      · simp [readable, writable]
    · simp [readable]

theorem copyToUser_iff {m : Machine} {u k len : Nat} (userSmall : u < 2 ^ 64) (kernelSmall : k < 2 ^ 64) :
    (copyToUser m u k len).1 = 0 ↔ Accessible m u k len := by
  unfold copyToUser Accessible
  by_cases ranges : isUserRange u len = true ∧ isKernelRange k len = true
  · obtain ⟨user, kernel⟩ := ranges
    have copies := safeMemcpyAsm_iff len { m with ac := true } userSmall kernelSmall
    simp only [user, kernel, not_true_eq_false, or_self, if_false, true_and]
    rw [← copies]
    cases (safeMemcpyAsm { m with ac := true } u k len).1 <;> simp
  · rw [if_pos (not_and_or.mp ranges)]
    constructor
    · intro refused
      cases refused
    · intro accessible
      exact absurd ⟨accessible.1, accessible.2.1⟩ ranges

/-! The names in the table are those of the descriptors returned. -/

structure Listed (opened : List Nat) (t : Thread) : Prop where
  named : ∀ fd, (t.fds fd).fileName.isSome ↔ fd ∈ opened
  below : ∀ fd ∈ opened, fd < t.nextFd
  room : t.nextFd ≤ 256

section Steps

variable {v : Volume} {opened : List Nat} {t t' : Thread}

theorem Thread.fds_set (t : Thread) (fd : Nat) (file : Fd) (i : Nat) :
    (t.set fd file).fds i = if i = fd then file else t.fds i := rfl

/- An update that leaves the name as it was. -/
theorem Listed.set {fd : Nat} {file : Fd} (listed : Listed opened t)
    (same : file.fileName.isSome = (t.fds fd).fileName.isSome) : Listed opened (t.set fd file) := by
  refine ⟨?_, listed.below, listed.room⟩
  intro i
  rw [t.fds_set, ← listed.named i]
  split
  case isTrue here => rw [here, same]
  case isFalse => rfl

theorem Listed.unopened (listed : Listed opened t) : (t.fds t.nextFd).fileName = none := by
  rw [← Option.not_isSome_iff_eq_none, listed.named]
  exact fun member => Nat.lt_irrefl _ (listed.below _ member)

theorem sysOpen_listed {forName forData forCopy : Allocator} {path : Option CString} {rax : Int}
    (listed : Listed opened t) (result : sysOpen v forName forData forCopy path t = .ok (rax, t')) :
    Listed (if rax < 0 then opened else rax.toNat :: opened) t' := by
  have failed : ∀ {t' : Thread}, Listed opened t' →
      Listed (if (-1 : Int) < 0 then opened else (-1 : Int).toNat :: opened) t' := fun kept => by
    rwa [if_pos (by decide)]
  have unopened := listed.unopened
  cases path with
  | none =>
    cases result
    exact failed listed
  | some fileName =>
    simp only [sysOpen] at result
    split at result
    · cases result
      exact failed listed
    · obtain ⟨size, -, result⟩ := bind_ok result
      split at result
      · cases result
        exact failed listed
      · split at result
        · cases result
          exact failed listed
        · rename_i room
          split at result
          · cases result
            exact failed (listed.set rfl)
          · obtain ⟨⟨count, bytes⟩, -, result⟩ := bind_ok result
            simp only at result
            split at result
            · cases result
              exact failed (listed.set rfl)
            · split at result
              · cases result
                exact failed (listed.set (by rw [unopened]))
              · cases result
                rw [if_neg (by omega), Int.toNat_natCast]
                refine ⟨?_, ?_, by simp only; omega⟩
                · intro i
                  simp only [t.fds_set, List.mem_cons]
                  split
                  case isTrue here => simp [here]
                  case isFalse other => simp [listed.named i, other]
                · intro i member
                  rcases List.mem_cons.mp member with rfl | early
                  · exact Nat.lt_succ_self _
                  · exact Nat.lt_succ_of_lt (listed.below i early)

theorem sysReadInto_listed {m : Machine} {block : Nat → Nat} {rbx rsi rdx : Nat} {outcome : Outcome}
    (listed : Listed opened t) (result : sysReadInto v m block rbx rsi rdx t = .ok outcome) :
    Listed opened outcome.thread := by
  simp only [sysReadInto] at result
  split at result
  · cases result
  · split at result
    · cases result
      exact listed
    · obtain ⟨size, -, result⟩ := bind_ok result
      split at result
      · cases result
        exact listed
      · cases result
      · split at result
        · cases result
          exact listed
        · cases result
          exact listed.set rfl

/- The value read and the descriptors are those of sys_read without faults. -/
theorem sysReadInto_sysRead {m : Machine} {block : Nat → Nat} {rbx rsi rdx : Nat} {outcome : Outcome}
    (result : sysReadInto v m block rbx rsi rdx t = .ok outcome) :
    ∃ stored, sysRead v rbx rdx t = .ok (outcome.rax, stored, outcome.thread) := by
  simp only [sysReadInto] at result
  split at result
  · cases result
  · split at result
    · rename_i unnamed
      cases result
      exact ⟨[], by simp only [sysRead, unnamed]⟩
    · rename_i path name
      obtain ⟨size, found, result⟩ := bind_ok result
      split at result
      · rename_i empty
        cases result
        exact ⟨[], by simp only [sysRead, name, found, ok_bind, empty]⟩
      · cases result
      · rename_i data filled
        split at result
        · rename_i atEnd
          cases result
          exact ⟨[], by simp only [sysRead, name, found, ok_bind, filled, if_pos atEnd]⟩
        · rename_i left
          cases result
          exact ⟨_, by simp only [sysRead, name, found, ok_bind, filled, if_neg left]; rfl⟩

theorem sysSeekFrame_listed {rbx rsi rdx : Nat} {rax : Int} (listed : Listed opened t)
    (result : sysSeekFrame v rbx rsi rdx t = .ok (rax, t')) : Listed opened t' := by
  have sought : ∀ size target, seekTo rbx size target t = (rax, t') → Listed opened t' := by
    intro size target moved
    cases moved
    exact listed.set rfl
  simp only [sysSeekFrame, sysSeek] at result
  split at result
  · cases result
  · split at result
    · cases result
      exact listed
    · obtain ⟨size, -, result⟩ := bind_ok result
      split at result
      · exact sought _ _ (Except.ok.inj result)
      · split at result
        · exact sought _ _ (Except.ok.inj result)
        · split at result
          · split at result
            · exact sought _ _ (Except.ok.inj result)
            · cases result
          · cases result
            exact listed

theorem History.listed (history : History v opened t) : Listed opened t := by
  induction history with
  | start => exact ⟨fun fd => by simp [newThread], by simp, by decide⟩
  | opens _ result ih => exact sysOpen_listed ih result
  | reads _ result ih => exact sysReadInto_listed ih result
  | seeks _ result ih => exact sysSeekFrame_listed ih result

end Steps

section Clean

variable {v : Volume} {m : Machine} {block : Nat → Nat} {rbx rsi rdx : Nat} {opened : List Nat} {t : Thread}

theorem unnamed_refused (inTable : rbx < 256) (unnamed : (t.fds rbx).fileName = none) :
    sysReadInto v m block rbx rsi rdx t = .ok ⟨-1, none, m, [], t⟩ ∧
      sysSeekFrame v rbx rsi rdx t = .ok (-1, t) := by
  constructor
  · simp only [sysReadInto, if_neg (Nat.not_le.mpr inTable), unnamed]
  · simp only [sysSeekFrame, if_neg (Nat.not_le.mpr inTable), sysSeek, unnamed]

variable (m block rsi rdx) in
/- A read that gets as far as the copy. -/
theorem sysReadInto_copies {path : CString} {data : List UInt8} {size : Int} (inTable : rbx < 256)
    (name : (t.fds rbx).fileName = some path) (filled : (t.fds rbx).fileData = .block data)
    (found : tarfsGetFize v.memory v.archive v.fuel path = .ok size)
    (left : (t.fds rbx).seekPos < (size % 2 ^ 64).toNat) :
    let bytes := min rdx ((size % 2 ^ 64).toNat - (t.fds rbx).seekPos)
    let copy := copyToUser m rsi (wadd (block rbx) (t.fds rbx).seekPos) bytes
    sysReadInto v m block rbx rsi rdx t = .ok ⟨bytes, some copy.1, copy.2.1, copy.2.2,
      t.set rbx { t.fds rbx with seekPos := wadd (t.fds rbx).seekPos bytes }⟩ := by
  have count : (if (size % 2 ^ 64).toNat - (t.fds rbx).seekPos < rdx then
      (size % 2 ^ 64).toNat - (t.fds rbx).seekPos else rdx) =
        min rdx ((size % 2 ^ 64).toNat - (t.fds rbx).seekPos) := by
    split <;> omega
  simp only [sysReadInto, if_neg (Nat.not_le.mpr inTable), name, filled, found, ok_bind,
    if_neg (Nat.not_le.mpr left), count]

/- Only such a read returns more than 0 or copies anything. -/
theorem sysReadInto_shape {outcome : Outcome} (result : sysReadInto v m block rbx rsi rdx t = .ok outcome) :
    rbx < 256 ∧ ((outcome.rax ≤ 0 ∧ outcome.copied = none) ∨
      ∃ path data size, (t.fds rbx).fileName = some path ∧ (t.fds rbx).fileData = .block data ∧
        tarfsGetFize v.memory v.archive v.fuel path = .ok size ∧
          (t.fds rbx).seekPos < (size % 2 ^ 64).toNat) := by
  simp only [sysReadInto] at result
  split at result
  · cases result
  · rename_i inTable
    refine ⟨Nat.not_le.mp inTable, ?_⟩
    split at result
    · cases result
      exact .inl ⟨by simp, rfl⟩
    · rename_i path name
      obtain ⟨size, found, result⟩ := bind_ok result
      split at result
      · cases result
        exact .inl ⟨by simp, rfl⟩
      · cases result
      · rename_i data filled
        split at result
        · cases result
          exact .inl ⟨by simp, rfl⟩
        · rename_i left
          exact .inr ⟨path, data, size, name, filled, found, Nat.not_le.mp left⟩

end Clean

theorem greeting_history : History greetingVolume [11] greetingOpened := by
  have size : tarfsGetFize greetingVolume.memory greetingVolume.archive greetingVolume.fuel greetingPath =
      .ok 2 := by decide +kernel
  have read : fsRead greetingVolume.memory greetingVolume.archive greetingVolume.fuel greetingVolume.files
      greetingPath 2 = .ok (2, [104, 105]) := by decide +kernel
  have opens : sysOpen greetingVolume zeroed zeroed zeroed (some greetingPath) newThread =
      .ok (11, greetingOpened) := by
    simp [sysOpen, size, read, ok_bind, zeroed, newThread, greetingOpened]
  exact .opens .start opens

def kernelBlock (_ : Nat) : Nat := kernelBase

/- Memory in which the user has no page. -/
def kernelOnly : Machine := { allMapped with writable := fun address => decide (kernelBase ≤ address) }

end EvalynOS.Files
