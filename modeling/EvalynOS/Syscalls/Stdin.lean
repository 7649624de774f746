import EvalynOS.Drivers.Keyboard

/-! Console input: sys_do_hacky_stdin of syscalls/misc/stdin.c over the keyboard queue. A call
polls the queue, edits one line in a static buffer and returns it; keys are pressed while it
waits. -/
namespace EvalynOS.Stdin
open Keyboard

def lineBufSize : Nat := 256

def isBackspace (c : UInt8) : Bool := c = 8 || c = 0x7F
def isPrintable (c : UInt8) : Bool := 0x20 ≤ c && c ≤ 0x7E
def isNewline (c : UInt8) : Bool := c = 10 || c = 13

/- The keyboard, the first line_len bytes of line_buffer, and the count of the call that is
waiting; then all keys that were pressed and what each call has returned. -/
structure Console where
  ring : Ring
  line : List UInt8
  count : Option Nat
  typed : List UInt8
  returned : List (List UInt8)

namespace Console

/- The end of the call: the line is gone, copied or not. -/
def finish (c : Console) (count : Nat) (line : List UInt8) : Console :=
  let toCopy := if line.length < count then line.length else count
  { c with line := [], count := none, returned := c.returned ++ [line.take toCopy] }

/- One round of the loop. -/
def poll (c : Console) (count : Nat) : Console :=
  let (bytes, ring) := kbdDeviceRead 1 c.ring
  let c := { c with ring := ring }
  let keyPressed := bytes.headD 0
  -- the thread sleeps for a millisecond
  if keyPressed = 0 then c
  else if isNewline keyPressed then c.finish count (c.line ++ [10])
  else if isBackspace keyPressed then { c with line := c.line.dropLast }
  else if ¬ isPrintable keyPressed then c
  else
    let line := c.line ++ [keyPressed]
    if lineBufSize - 1 ≤ line.length then c.finish count (line ++ [10])
    else { c with line := line }

end Console

inductive Event where
  | press (c : UInt8)
  | call (count : Nat)
  | poll

def Event.exec (c : Console) : Event → Option Console
  | .press key => some { c with ring := kbdDevicePush key c.ring, typed := c.typed ++ [key] }
  | .call count => if c.count = none ∧ 1 ≤ count then some { c with count := some count } else none
  | .poll => c.count.map c.poll

def start (buffer : UInt8 → UInt8) : Console := ⟨⟨0, 0, buffer⟩, [], none, [], []⟩

inductive Run (allowed : Console → Event → Prop) (buffer : UInt8 → UInt8) : Console → Prop
  | start : Run allowed buffer (start buffer)
  | step {c c' : Console} {e : Event} (before : Run allowed buffer c) (fits : allowed c e)
      (result : e.exec c = some c') : Run allowed buffer c'

/-! What was typed, by itself: lines with their backspaces applied. -/

structure Typing where
  done : List (List UInt8)
  line : List UInt8

def Typing.key (t : Typing) (c : UInt8) : Typing :=
  if isNewline c then ⟨t.done ++ [t.line ++ [10]], []⟩
  else if isBackspace c then { t with line := t.line.dropLast }
  else if isPrintable c then { t with line := t.line ++ [c] }
  else t

def typing (keys : List UInt8) : Typing := keys.foldl Typing.key ⟨[], []⟩

def editedLines (keys : List UInt8) : List (List UInt8) := (typing keys).done

/-- There is room for the key, in the queue and in the line, and for the line in the count. -/
def Fits (c : Console) : Event → Prop
  | .press _ => c.ring.queued.length < 255
  | .call _ => True
  | .poll => ∀ key ∈ c.ring.queued.head?,
      (isNewline key = true → ∀ count ∈ c.count, c.line.length + 1 ≤ count) ∧
      (isPrintable key = true → c.line.length + 1 < lineBufSize - 1)

section Lines

variable {c c' : Console} {key : UInt8} {keys more : List UInt8}

theorem done_prefix (t : Typing) (keys : List UInt8) : t.done <+: (keys.foldl Typing.key t).done := by
  induction keys generalizing t with
  | nil => exact List.prefix_rfl
  | cons key keys ih =>
    refine List.IsPrefix.trans ?_ (ih (t.key key))
    unfold Typing.key
    split
    · exact List.prefix_append _ _
    · split
      · exact List.prefix_rfl
      · split
        · exact List.prefix_rfl
        · exact List.prefix_rfl

theorem editedLines_prefix (keys more : List UInt8) : editedLines keys <+: editedLines (keys ++ more) := by
  unfold editedLines typing
  rw [List.foldl_append]
  exact done_prefix _ more

theorem typing_concat (keys : List UInt8) (key : UInt8) : typing (keys ++ [key]) = (typing keys).key key := by
  unfold typing
  rw [List.foldl_append]
  rfl

/-- The calls have returned the lines of the keys read so far, and the rest is in the buffer
and in the queue. -/
def Kept (c : Console) : Prop :=
  ∃ keys, c.typed = keys ++ c.ring.queued ∧ (typing keys).done = c.returned ∧ (typing keys).line = c.line

theorem Kept.press (kept : Kept c) (room : c.ring.queued.length < 255) :
    Kept { c with ring := kbdDevicePush key c.ring, typed := c.typed ++ [key] } := by
  obtain ⟨keys, typed, done, line⟩ := kept
  refine ⟨keys, ?_, done, line⟩
  have queued : (kbdDevicePush key c.ring).queued = c.ring.queued ++ [key] := (Ring.queued_push (by omega)).1
  simp only [queued, typed, List.append_assoc]

/-- One key is read and edited into the line. -/
theorem poll_key {count : Nat} {rest : List UInt8} (next : c.ring.queued = key :: rest)
    (newline : isNewline key = true → c.line.length + 1 ≤ count)
    (printable : isPrintable key = true → c.line.length + 1 < lineBufSize - 1) :
    (c.poll count).ring.queued = rest ∧ (c.poll count).typed = c.typed ∧
    (c.poll count).returned = ((⟨c.returned, c.line⟩ : Typing).key key).done ∧
    (c.poll count).line = ((⟨c.returned, c.line⟩ : Typing).key key).line := by
  obtain ⟨bytes, ring⟩ := @Ring.pull_eq c.ring 1
  rw [next] at bytes ring
  have read : (kbdDeviceRead 1 c.ring).1.headD 0 = key := by
    change (c.ring.pull 1).1.headD 0 = key
    rw [bytes]
    rfl
  have left : (kbdDeviceRead 1 c.ring).2.queued = rest := ring
  unfold Console.poll
  simp only [read]
  by_cases zero : key = 0
  · subst zero
    exact ⟨left, rfl, rfl, rfl⟩
  · rw [if_neg zero]
    unfold Typing.key
    by_cases isNew : isNewline key = true
    · have whole := newline isNew
      rw [if_pos isNew, if_pos isNew]
      refine ⟨left, rfl, ?_, rfl⟩
      have all : (c.line ++ [10]).take (if (c.line ++ [10]).length < count then (c.line ++ [10]).length else count) =
          c.line ++ [10] := by
        apply List.take_of_length_le
        rw [List.length_append, List.length_singleton]
        split
        · exact Nat.le_refl _
        · exact whole
      simp only [Console.finish, all]
    · rw [if_neg isNew, if_neg isNew]
      by_cases back : isBackspace key = true
      · rw [if_pos back, if_pos back]
        exact ⟨left, rfl, rfl, rfl⟩
      · rw [if_neg back, if_neg back]
        by_cases prints : isPrintable key = true
        · have short := printable prints
          rw [if_neg (not_not_intro prints), if_pos prints, if_neg]
          · exact ⟨left, rfl, rfl, rfl⟩
          · rw [List.length_append, List.length_singleton]
            omega
        · rw [if_pos prints, if_neg prints]
          exact ⟨left, rfl, rfl, rfl⟩

/-- Without a key the call goes on waiting. -/
theorem poll_nothing {count : Nat} (none : c.ring.queued = []) :
    (c.poll count).ring.queued = [] ∧ (c.poll count).typed = c.typed ∧
    (c.poll count).returned = c.returned ∧ (c.poll count).line = c.line := by
  obtain ⟨bytes, ring⟩ := @Ring.pull_eq c.ring 1
  rw [none] at bytes ring
  have read : (kbdDeviceRead 1 c.ring).1.headD 0 = 0 := by
    change (c.ring.pull 1).1.headD 0 = 0
    rw [bytes]
    rfl
  unfold Console.poll
  simp only [read, ↓reduceIte, and_true]
  exact ring

theorem Kept.poll (kept : Kept c) {count : Nat} (waiting : c.count = some count) (fits : Fits c .poll) :
    Kept (c.poll count) := by
  obtain ⟨keys, typed, done, line⟩ := kept
  cases next : c.ring.queued with
  | nil =>
    obtain ⟨queued, sameTyped, returned, sameLine⟩ := @poll_nothing c count next
    rw [next] at typed
    exact ⟨keys, by rw [sameTyped, queued, typed], done.trans returned.symm, line.trans sameLine.symm⟩
  | cons key rest =>
    obtain ⟨newline, printable⟩ := fits key (by rw [next]; rfl)
    obtain ⟨queued, sameTyped, returned, sameLine⟩ :=
      poll_key next (fun isNew => newline isNew count waiting) printable
    have before : typing keys = ⟨c.returned, c.line⟩ := by rw [← done, ← line]
    refine ⟨keys ++ [key], ?_, ?_, ?_⟩
    · rw [sameTyped, queued, typed, next, List.append_assoc, List.singleton_append]
    · rw [typing_concat, before, returned]
    · rw [typing_concat, before, sameLine]

theorem Kept.step (kept : Kept c) {e : Event} (fits : Fits c e) (result : e.exec c = some c') : Kept c' := by
  cases e with
  | press key =>
    cases Option.some.inj result
    exact kept.press fits
  | call count =>
    simp only [Event.exec] at result
    split at result
    · cases Option.some.inj result
      exact kept
    · cases result
  | poll =>
    obtain ⟨count, waiting, rfl⟩ := Option.map_eq_some_iff.mp result
    exact kept.poll waiting fits

theorem Kept.run {buffer : UInt8 → UInt8} (run : Run Fits buffer c) : Kept c := by
  induction run with
  | start =>
    have nothing : (⟨0, 0, buffer⟩ : Ring).queued = [] := List.length_eq_zero_iff.mp (Ring.empty_iff.mp rfl)
    exact ⟨[], by simp [start, nothing], rfl, rfl⟩
  | step _ fits result ih => exact ih.step fits result

end Lines

/-- In every run in which each key finds room in the queue and in the line buffer, and each
line fits the count of the call that returns it, what the calls return is the beginning of
what was typed. -/
theorem input_kept {buffer : UInt8 → UInt8} {c : Console} (run : Run Fits buffer c) :
    c.returned.flatten <+: (editedLines c.typed).flatten := by
  obtain ⟨keys, typed, done, -⟩ := Kept.run run
  rw [typed, ← done]
  obtain ⟨later, whole⟩ := editedLines_prefix keys c.ring.queued
  rw [← whole, List.flatten_append]
  exact List.prefix_append _ _

instance (c : Console) (e : Event) : Decidable (Fits c e) :=
  match e with
  | .press _ => inferInstanceAs (Decidable (_ < _))
  | .call _ => isTrue trivial
  | .poll => inferInstanceAs (Decidable (∀ key ∈ c.ring.queued.head?, _))

def replay (allowed : Console → Event → Prop) [∀ c e, Decidable (allowed c e)] : List Event → Console → Option Console
  | [], c => some c
  | e :: events, c => if allowed c e then (e.exec c).bind (replay allowed events) else none

theorem run_of_replay {allowed : Console → Event → Prop} [∀ c e, Decidable (allowed c e)] {buffer : UInt8 → UInt8}
    {events : List Event} {c c' : Console} (run : Run allowed buffer c)
    (result : replay allowed events c = some c') : Run allowed buffer c' := by
  induction events generalizing c with
  | nil =>
    cases Option.some.inj result
    exact run
  | cons e events ih =>
    unfold replay at result
    split at result
    · rename_i fits
      obtain ⟨next, done, rest⟩ := Option.bind_eq_some_iff.mp result
      exact ih (run.step fits done) rest
    · cases result

/-- "hi" with a slip, read with a count of 80. -/
theorem input_kept_line : ∃ c, Run Fits (fun _ => 0) c ∧ c.returned = [[104, 105, 10]] ∧
    c.returned.flatten <+: (editedLines c.typed).flatten := by
  have shows : (replay Fits [.press 104, .press 120, .call 80, .poll, .press 8, .poll, .poll, .press 105, .press 13,
      .poll, .poll] (start (fun _ => 0))).map Console.returned = some [[104, 105, 10]] := by decide +kernel
  obtain ⟨c, result, returned⟩ := Option.map_eq_some_iff.mp shows
  have run : Run Fits (fun _ => 0) c := run_of_replay .start result
  exact ⟨c, run, returned, input_kept run⟩

/-- "ab" and then "c" are typed, and read with counts of 1: the calls return "a" and "c". -/
theorem input_lost : ∃ c, Run (fun _ _ => True) (fun _ => 0) c ∧ c.typed = [97, 98, 10, 99, 10] ∧
    c.returned = [[97], [99]] ∧ ¬ c.returned.flatten <+: (editedLines c.typed).flatten := by
  have shows : (replay (fun _ _ => True) [.press 97, .press 98, .press 10, .call 1, .poll, .poll, .poll, .press 99,
      .press 10, .call 1, .poll, .poll] (start (fun _ => 0))).map (fun c => (c.typed, c.returned)) =
      some ([97, 98, 10, 99, 10], [[97], [99]]) := by decide +kernel
  obtain ⟨c, result, outcome⟩ := Option.map_eq_some_iff.mp shows
  simp only [Prod.mk.injEq] at outcome
  obtain ⟨typed, returned⟩ := outcome
  refine ⟨c, run_of_replay .start result, typed, returned, ?_⟩
  rw [typed, returned]
  decide

end EvalynOS.Stdin
