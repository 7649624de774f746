import Mathlib

/-! The two keyboard queues: /dev/kbd of drivers/keyboard.c, filled by kbdDevicePush, and
/dev/ps2/kbd of drivers/x86_64/ps2.c, filled with raw scancodes by ps2_isr. Both are rings of
256 bytes between two uint8_t indices. -/
namespace EvalynOS.Keyboard

structure Ring where
  write : UInt8
  read : UInt8
  buffer : UInt8 → UInt8

namespace Ring

def push (c : UInt8) (r : Ring) : Ring :=
  let next := r.write + 1
  if next = r.read then r
  else { r with buffer := fun i => if i = r.write then c else r.buffer i, write := next }

/- The loop of the read functions, for as many rounds as bytes are asked for. -/
def pull : Nat → Ring → List UInt8 × Ring
  | 0, r => ([], r)
  | n + 1, r =>
    if r.read = r.write then ([], r)
    else
      let (bytes, r') := pull n { r with read := r.read + 1 }
      (r.buffer r.read :: bytes, r')

def queued (r : Ring) : List UInt8 :=
  (List.range (r.write - r.read).toNat).map (fun i => r.buffer (r.read + UInt8.ofNat i))

end Ring

def kbdDevicePush (c : UInt8) (r : Ring) : Ring := r.push c
def kbdDeviceRead (readLength : Int) (r : Ring) : List UInt8 × Ring := r.pull readLength.toNat

/- The end of ps2_isr: head is the write index and tail the read index. -/
def ps2Enqueue (scancode : UInt8) (r : Ring) : Ring := r.push scancode
def ps2KbdDeviceRead (readLength : Int) (r : Ring) : List UInt8 × Ring := r.pull readLength.toNat

structure Driver where
  push : UInt8 → Ring → Ring
  read : Int → Ring → List UInt8 × Ring

def kbd : Driver := ⟨kbdDevicePush, kbdDeviceRead⟩
def ps2Kbd : Driver := ⟨ps2Enqueue, ps2KbdDeviceRead⟩

inductive Call where
  | push (c : UInt8)
  | read (n : Int)

/- The ring, the bytes that pushes have put into it, and the bytes that reads have returned. -/
structure Log where
  ring : Ring
  accepted : List UInt8
  returned : List UInt8

/- A push that is dropped moves no index. -/
def Driver.accepts (d : Driver) (c : UInt8) (r : Ring) : Bool := (d.push c r).write ≠ r.write

def Driver.step (d : Driver) (log : Log) : Call → Log
  | .push c => { log with
      ring := d.push c log.ring
      accepted := if d.accepts c log.ring then log.accepted ++ [c] else log.accepted }
  | .read n => { log with
      ring := (d.read n log.ring).2
      returned := log.returned ++ (d.read n log.ring).1 }

def Driver.run (d : Driver) (buffer : UInt8 → UInt8) (calls : List Call) : Log :=
  calls.foldl d.step ⟨⟨0, 0, buffer⟩, [], []⟩

namespace Ring

variable {r : Ring} {c : UInt8}

theorem length_queued (r : Ring) : r.queued.length = (r.write - r.read).toNat := by simp [queued]

/-- One slot stays empty. -/
theorem full_iff : r.write + 1 = r.read ↔ r.queued.length = 255 := by
  rw [length_queued, ← UInt8.toNat_inj, UInt8.toNat_add, UInt8.toNat_sub]
  have small := UInt8.toNat_lt r.write
  have small' := UInt8.toNat_lt r.read
  simp only [UInt8.toNat_one]
  omega

theorem empty_iff : r.read = r.write ↔ r.queued.length = 0 := by
  rw [length_queued, ← UInt8.toNat_inj, UInt8.toNat_sub]
  have small := UInt8.toNat_lt r.write
  have small' := UInt8.toNat_lt r.read
  omega

theorem push_full (full : r.queued.length = 255) : r.push c = r := if_pos (full_iff.mpr full)

theorem queued_push (room : r.queued.length ≠ 255) :
    (r.push c).queued = r.queued ++ [c] ∧ (r.push c).write ≠ r.write := by
  have next : ¬ r.write + 1 = r.read := fun full => room (full_iff.mp full)
  have small := UInt8.toNat_lt r.write
  have small' := UInt8.toNat_lt r.read
  have longer : (r.write + 1 - r.read).toNat = (r.write - r.read).toNat + 1 := by
    rw [length_queued, UInt8.toNat_sub] at room
    rw [UInt8.toNat_sub, UInt8.toNat_sub, UInt8.toNat_add]
    simp only [UInt8.toNat_one]
    omega
  have last : r.read + UInt8.ofNat (r.write - r.read).toNat = r.write := by
    rw [UInt8.ofNat_toNat, UInt8.add_comm, UInt8.sub_add_cancel]
  have pushed : r.push c =
      ⟨r.write + 1, r.read, fun i => if i = r.write then c else r.buffer i⟩ := if_neg next
  refine ⟨?_, ?_⟩
  · rw [pushed]
    simp only [queued, longer, List.range_succ, List.map_append, List.map_singleton, last, ↓reduceIte]
    congr 1
    apply List.map_congr_left
    intro i member
    have position : i < (r.write - r.read).toNat := List.mem_range.mp member
    -- the slot that is written is behind the queued bytes
    rw [if_neg]
    intro same
    have distance : UInt8.ofNat i = r.write - r.read := by
      rw [← same, UInt8.add_comm, UInt8.add_sub_cancel]
    have index := congrArg UInt8.toNat distance
    rw [UInt8.toNat_ofNat'] at index
    have bound := UInt8.toNat_lt (r.write - r.read)
    omega
  · rw [pushed]
    intro same
    have step := congrArg UInt8.toNat same
    rw [UInt8.toNat_add] at step
    simp only [UInt8.toNat_one] at step
    omega

theorem queued_cons (nonempty : ¬ r.read = r.write) :
    r.queued = r.buffer r.read :: ({ r with read := r.read + 1 } : Ring).queued := by
  have small := UInt8.toNat_lt r.write
  have small' := UInt8.toNat_lt r.read
  have longer : (r.write - r.read).toNat = (r.write - (r.read + 1)).toNat + 1 := by
    have different : ¬ r.read.toNat = r.write.toNat := fun same => nonempty (UInt8.toNat_inj.mp same)
    rw [UInt8.toNat_sub, UInt8.toNat_sub, UInt8.toNat_add]
    simp only [UInt8.toNat_one]
    omega
  simp only [queued, longer, List.range_succ_eq_map, List.map_cons, List.map_map]
  congr 1
  · simp
  · apply List.map_congr_left
    intro i _
    simp only [Function.comp, Nat.succ_eq_add_one, UInt8.ofNat_add]
    congr 1
    have one : UInt8.ofNat 1 = 1 := rfl
    rw [one, UInt8.add_assoc, UInt8.add_comm 1]

/-- A read takes the bytes in the order in which they were queued. -/
theorem pull_eq (n : Nat) : (r.pull n).1 = r.queued.take n ∧ (r.pull n).2.queued = r.queued.drop n := by
  induction n generalizing r with
  | zero => exact ⟨rfl, rfl⟩
  | succ n ih =>
    unfold pull
    split
    · rename_i empty
      have nothing : r.queued = [] := List.length_eq_zero_iff.mp (empty_iff.mp empty)
      simp [nothing]
    · rename_i nonempty
      obtain ⟨bytes, rest⟩ := @ih { r with read := r.read + 1 }
      rw [queued_cons nonempty]
      exact ⟨congrArg (List.cons _) bytes, rest⟩

end Ring

/-- What the two drivers have in common. -/
structure Fifo (d : Driver) : Prop where
  dropped : ∀ c r, d.accepts c r = false ↔ r.queued.length = 255
  kept : ∀ c r, d.accepts c r = false → d.push c r = r
  pushed : ∀ c r, d.accepts c r = true → (d.push c r).queued = r.queued ++ [c]
  bytes : ∀ n r, (d.read n r).1 = r.queued.take n.toNat
  rest : ∀ n r, (d.read n r).2.queued = r.queued.drop n.toNat

theorem fifo_ring : Fifo ⟨fun c r => r.push c, fun n r => r.pull n.toNat⟩ := by
  have dropped : ∀ c (r : Ring), Driver.accepts ⟨fun c r => r.push c, fun n r => r.pull n.toNat⟩ c r = false ↔
      r.queued.length = 255 := by
    intro c r
    simp only [Driver.accepts, ne_eq, decide_not, Bool.not_eq_false', decide_eq_true_eq]
    constructor
    · intro stays
      by_contra room
      exact (Ring.queued_push room).2 stays
    · intro full
      rw [Ring.push_full full]
  refine ⟨dropped, ?_, ?_, fun n r => (Ring.pull_eq n.toNat).1, fun n r => (Ring.pull_eq n.toNat).2⟩
  · intro c r refused
    exact Ring.push_full ((dropped c r).mp refused)
  · intro c r accepted
    apply (Ring.queued_push _).1
    intro full
    rw [(dropped c r).mpr full] at accepted
    cases accepted

theorem fifo_kbd : Fifo kbd := fifo_ring
theorem fifo_ps2Kbd : Fifo ps2Kbd := fifo_ring

theorem Fifo.step {d : Driver} (fifo : Fifo d) {log : Log} (call : Call)
    (before : log.returned ++ log.ring.queued = log.accepted) :
    (d.step log call).returned ++ (d.step log call).ring.queued = (d.step log call).accepted := by
  cases call with
  | push c =>
    simp only [Driver.step]
    split
    · rename_i accepted
      rw [fifo.pushed c log.ring accepted, ← List.append_assoc, before]
    · rename_i refused
      rw [fifo.kept c log.ring (Bool.eq_false_of_not_eq_true refused), before]
  | read n =>
    simp only [Driver.step]
    rw [fifo.bytes, fifo.rest, List.append_assoc, List.take_append_drop, before]

theorem Fifo.run {d : Driver} (fifo : Fifo d) (buffer : UInt8 → UInt8) (calls : List Call) :
    (d.run buffer calls).returned ++ (d.run buffer calls).ring.queued = (d.run buffer calls).accepted := by
  have keeps : ∀ (calls : List Call) (log : Log), log.returned ++ log.ring.queued = log.accepted →
      (calls.foldl d.step log).returned ++ (calls.foldl d.step log).ring.queued =
        (calls.foldl d.step log).accepted := by
    intro calls
    induction calls with
    | nil => exact fun log before => before
    | cons call calls ih => exact fun log before => ih _ (fifo.step call before)
  apply keeps calls
  have nothing : (⟨0, 0, buffer⟩ : Ring).queued = [] := List.length_eq_zero_iff.mp (Ring.empty_iff.mp rfl)
  rw [nothing]
  rfl

/-- Both keyboard queues are first in, first out, and hold up to 255 bytes: after any calls,
what was read and what is queued are the bytes accepted, the next push is dropped exactly if
255 bytes are queued, and the next read takes as many as it can. -/
theorem keyboard_fifo (d : Driver) (isDriver : d = kbd ∨ d = ps2Kbd) (buffer : UInt8 → UInt8) (calls : List Call) :
    let log := d.run buffer calls
    log.returned ++ log.ring.queued = log.accepted ∧
    (∀ c, (d.accepts c log.ring = false ↔ log.ring.queued.length = 255) ∧
      (d.accepts c log.ring = false → d.push c log.ring = log.ring)) ∧
    ∀ n, (d.read n log.ring).1 = log.ring.queued.take n.toNat ∧
      (d.read n log.ring).1.length = min n.toNat log.ring.queued.length := by
  have fifo : Fifo d := by
    rcases isDriver with rfl | rfl
    · exact fifo_kbd
    · exact fifo_ps2Kbd
  refine ⟨fifo.run buffer calls, ?_, ?_⟩
  · intro c
    exact ⟨fifo.dropped c _, fifo.kept c _⟩
  · intro n
    rw [fifo.bytes]
    exact ⟨rfl, List.length_take⟩

theorem keyboard_fifo_keys :
    let calls : List Call := [.push 104, .push 105, .read 1, .push 10]
    (kbd.run (fun _ => 0) calls).returned ++ (kbd.run (fun _ => 0) calls).ring.queued =
      (kbd.run (fun _ => 0) calls).accepted :=
  (keyboard_fifo kbd (.inl rfl) (fun _ => 0) [.push 104, .push 105, .read 1, .push 10]).1

end EvalynOS.Keyboard
