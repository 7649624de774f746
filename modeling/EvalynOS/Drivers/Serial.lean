import EvalynOS.Drivers.Keyboard

/-! The serial terminal device: serial_isr of interupts/serial.c stores what the port receives,
and serialDeviceRead of drivers/x86_64/serial.c reads it back. Both move the one index of the
buffer. -/
namespace EvalynOS.Serial
open Keyboard

/- serial_buffer and serial_buffer_index; the keyboard queue gets each byte too. -/
structure Device where
  index : UInt8
  buffer : UInt8 → UInt8
  kbd : Ring

/- One round of the loop in serial_isr, with the debug stub disabled. -/
def receive (s : Device) (c : UInt8) : Device :=
  if c ≠ 0 then
    { buffer := Function.update s.buffer s.index c
      index := s.index + 1
      kbd := kbdDevicePush c s.kbd }
  else s

/- The bytes are those that the port gives until it has no more. -/
def serialIsr (bytes : List UInt8) (s : Device) : Device := bytes.foldl receive s

/- The loop of serialDeviceRead. -/
def take : Nat → Device → List UInt8 × Device
  | 0, s => ([], s)
  | n + 1, s =>
    let c := s.buffer s.index
    let (rest, s') := take n { s with
      buffer := Function.update s.buffer s.index 0
      index := s.index - 1 }
    (c :: rest, s')

def serialDeviceRead (readLength : Int) (s : Device) : List UInt8 × Device := take readLength.toNat s

def nonzero (bytes : List UInt8) : List UInt8 := bytes.filter (· ≠ 0)

inductive Event where
  | interrupt (bytes : List UInt8)
  | read (readLength : Int)

/- The device, the bytes it has stored and the nonzero bytes it has returned; and what a queue
would still hold after the same events. -/
structure Log where
  serial : Device
  received : List UInt8
  returned : List UInt8
  pending : List UInt8

def step (log : Log) : Event → Log
  | .interrupt bytes =>
    { log with
      serial := serialIsr bytes log.serial
      received := log.received ++ nonzero bytes
      pending := log.pending ++ nonzero bytes }
  | .read n =>
    { log with
      serial := (serialDeviceRead n log.serial).2
      returned := log.returned ++ nonzero (serialDeviceRead n log.serial).1
      pending := log.pending.drop n.toNat }

def run (events : List Event) (log : Log) : Log := events.foldl step log

/- The buffer and the index are static. -/
def start (kbd : Ring) : Log := ⟨⟨0, fun _ => 0, kbd⟩, [], [], []⟩

def Meets (allowed : Log → Event → Prop) : Log → List Event → Prop
  | _, [] => True
  | log, e :: events => allowed log e ∧ Meets allowed (step log e) events

/-- Reads ask for something, and at most 255 bytes are pending. -/
def Permitted (log : Log) : Event → Prop
  | .interrupt bytes => (log.pending ++ nonzero bytes).length ≤ 255
  | .read n => 0 < n

/-- What was returned was received before, in this order, and nothing is missing when as many
bytes have been read as received. -/
def Delivered (log : Log) : Prop :=
  log.returned.Sublist log.received ∧ (log.pending = [] → log.returned = log.received)

/-- A read of pending bytes asks for at least one more than are pending, and these are the same
in both directions. -/
def Fits (log : Log) (e : Event) : Prop :=
  Permitted log e ∧ ∀ n, e = .read n → log.pending = [] ∨
    (log.pending.length < n.toNat ∧ log.pending.reverse = log.pending)

/-- A read returns what a queue would return. -/
def InOrder (log : Log) (e : Event) : Prop :=
  ∀ n, e = .read n → nonzero (serialDeviceRead n log.serial).1 = log.pending.take n.toNat

section Buffer

variable {s : Device} {log : Log} {e : Event} {c : UInt8} {top bytes : List UInt8} {n : Nat}

theorem sub_succ (i : UInt8) (k : Nat) : i + 1 - UInt8.ofNat (k + 1) = i - UInt8.ofNat k := by
  rw [UInt8.ofNat_add]
  grind

theorem pred_sub (i : UInt8) (k : Nat) : i - 1 - UInt8.ofNat k = i - UInt8.ofNat (k + 1) := by
  rw [UInt8.ofNat_add]
  grind

theorem sub_zero (i : UInt8) : i - UInt8.ofNat 0 = i := UInt8.sub_zero i

theorem sub_ne (i : UInt8) {k : Nat} (pos : 0 < k) (below : k < 256) : i - UInt8.ofNat k ≠ i := by
  intro same
  have value := congrArg UInt8.toNat same
  rw [UInt8.toNat_sub, UInt8.toNat_ofNat'] at value
  have small := UInt8.toNat_lt i
  omega

/-- From the index down, the buffer holds the bytes `top` and then zeros. -/
def Holds (s : Device) (top : List UInt8) : Prop :=
  top.length ≤ 256 ∧ ∀ k < 256, s.buffer (s.index - UInt8.ofNat k) = top.getD k 0

theorem holds_zero : Holds s [0] ↔ Holds s [] := by
  unfold Holds
  refine and_congr (by decide) (forall₂_congr ?_)
  intro k _
  cases k with
  | zero => exact Iff.rfl
  | succ k => exact Iff.rfl

theorem receive_holds (holds : Holds s (0 :: top)) (room : top.length < 255) (some : c ≠ 0) :
    Holds (receive s c) (0 :: c :: top) := by
  obtain ⟨-, slots⟩ := holds
  rw [receive, if_pos some]
  refine ⟨by simp only [List.length_cons]; omega, ?_⟩
  intro k below
  change Function.update s.buffer s.index c (s.index + 1 - UInt8.ofNat k) = _
  match k with
  | 0 =>
    -- the slot above the index is the last one that is read
    have above : s.index + 1 - UInt8.ofNat 0 = s.index - UInt8.ofNat 255 := by
      have wraps : UInt8.ofNat 255 = 255 := rfl
      have zero : UInt8.ofNat 0 = 0 := rfl
      grind
    rw [above, Function.update_of_ne (sub_ne s.index (by decide) (by decide)), slots 255 (by decide),
      List.getD_eq_default _ _ (by simp only [List.length_cons]; omega)]
    rfl
  | 1 =>
    rw [sub_succ, sub_zero, Function.update_self]
    rfl
  | k + 2 =>
    rw [sub_succ, Function.update_of_ne (sub_ne s.index (Nat.succ_pos k) (by omega)), slots (k + 1) (by omega)]
    rfl

theorem nonzero_cons : nonzero (c :: bytes) = if c ≠ 0 then c :: nonzero bytes else nonzero bytes := by
  unfold nonzero
  rw [List.filter_cons]
  simp only [decide_eq_true_eq]

theorem serialIsr_holds (holds : Holds s (0 :: top)) (room : top.length + (nonzero bytes).length ≤ 255) :
    Holds (serialIsr bytes s) (0 :: ((nonzero bytes).reverse ++ top)) := by
  induction bytes generalizing s top with
  | nil => exact holds
  | cons c bytes ih =>
    rw [nonzero_cons] at room ⊢
    change Holds (serialIsr bytes (receive s c)) _
    by_cases some : c ≠ 0
    · rw [if_pos some] at room ⊢
      rw [List.length_cons] at room
      have first := receive_holds holds (by omega) some
      rw [List.reverse_cons, List.append_assoc, List.singleton_append]
      exact ih first (by rw [List.length_cons]; omega)
    · rw [if_neg some] at room ⊢
      have ignored : receive s c = s := if_neg some
      rw [ignored]
      exact ih holds room

/-- One round of a read: the byte at the index is taken, and the index moves down. -/
theorem take_one (holds : Holds s top) :
    s.buffer s.index = top.headD 0 ∧
      Holds { s with buffer := Function.update s.buffer s.index 0, index := s.index - 1 } top.tail := by
  obtain ⟨short, slots⟩ := holds
  have length : top.tail.length ≤ 255 := by
    rw [List.length_tail]
    omega
  refine ⟨?_, Nat.le_trans length (by decide), ?_⟩
  · have first := slots 0 (by decide)
    rw [sub_zero] at first
    rw [first]
    cases top with
    | nil => rfl
    | cons c top => rfl
  · intro k below
    change Function.update s.buffer s.index 0 (s.index - 1 - UInt8.ofNat k) = _
    have shifted : top.tail.getD k 0 = top.getD (k + 1) 0 := by
      cases top with
      | nil => rfl
      | cons c top => rfl
    rw [pred_sub]
    by_cases last : k = 255
    · subst last
      have whole : s.index - UInt8.ofNat (255 + 1) = s.index := sub_zero s.index
      rw [whole, Function.update_self, List.getD_eq_default _ _ length]
    · rw [Function.update_of_ne (sub_ne s.index (Nat.succ_pos k) (by omega)), slots (k + 1) (by omega), shifted]

theorem take_holds (holds : Holds s top) :
    nonzero (take n s).1 = nonzero (top.take n) ∧ Holds (take n s).2 (top.drop n) := by
  induction n generalizing s top with
  | zero => exact ⟨by rw [List.take_zero]; rfl, holds⟩
  | succ n ih =>
    obtain ⟨byte, rest⟩ := take_one holds
    obtain ⟨bytes, after⟩ := ih rest
    unfold take
    simp only
    rw [byte, nonzero_cons, bytes]
    cases top with
    | nil =>
      rw [List.tail_nil, List.drop_nil] at after
      rw [List.tail_nil, List.take_nil, List.take_nil, List.drop_nil]
      exact ⟨rfl, after⟩
    | cons c top =>
      rw [List.take_succ_cons, nonzero_cons]
      exact ⟨rfl, after⟩

/-- The bytes that are pending are on top of the buffer, the newest first. -/
structure Stacked (log : Log) : Prop where
  holds : Holds log.serial (0 :: log.pending.reverse)
  some : nonzero log.pending = log.pending
  whole : log.received = log.returned ++ log.pending

theorem Stacked.delivered (stacked : Stacked log) : Delivered log := by
  refine ⟨?_, ?_⟩
  · rw [stacked.whole]
    exact List.sublist_append_left _ _
  · intro empty
    rw [stacked.whole, empty, List.append_nil]

theorem Stacked.interrupt (stacked : Stacked log) (room : (log.pending ++ nonzero bytes).length ≤ 255) :
    Stacked (step log (.interrupt bytes)) := by
  refine ⟨?_, ?_, ?_⟩
  · change Holds (serialIsr bytes log.serial) (0 :: (log.pending ++ nonzero bytes).reverse)
    rw [List.reverse_append]
    apply serialIsr_holds stacked.holds
    rw [List.length_append] at room
    rw [List.length_reverse]
    exact room
  · change nonzero (log.pending ++ nonzero bytes) = _
    unfold nonzero
    rw [List.filter_append, List.filter_filter]
    have same := stacked.some
    unfold nonzero at same
    simp only [same, Bool.and_self]
    rfl
  · change log.received ++ nonzero bytes = log.returned ++ (log.pending ++ nonzero bytes)
    rw [stacked.whole, List.append_assoc]

/-- A read gives what it finds above the pending bytes, and these from the newest down. -/
theorem Stacked.read_bytes (stacked : Stacked log) :
    nonzero (serialDeviceRead (n + 1 : Nat) log.serial).1 = log.pending.reverse.take n ∧
      Holds (serialDeviceRead (n + 1 : Nat) log.serial).2 (log.pending.reverse.drop n) := by
  obtain ⟨bytes, after⟩ := @take_holds log.serial _ (n + 1) stacked.holds
  refine ⟨bytes.trans ?_, after⟩
  rw [List.take_succ_cons, nonzero_cons, if_neg (not_not_intro rfl)]
  apply List.filter_eq_self.mpr
  intro c member
  have every := List.filter_eq_self.mp stacked.some
  exact every c (List.mem_reverse.mp (List.mem_of_mem_take member))

/-- The reads that return what a queue returns. -/
theorem Stacked.in_order_iff (stacked : Stacked log) :
    nonzero (serialDeviceRead (n + 1 : Nat) log.serial).1 = log.pending.take (n + 1) ↔
      log.pending = [] ∨ (log.pending.length < n + 1 ∧ log.pending.reverse = log.pending) := by
  rw [stacked.read_bytes.1]
  constructor
  · intro same
    have lengths := congrArg List.length same
    rw [List.length_take, List.length_take, List.length_reverse] at lengths
    have enough : log.pending.length ≤ n := by omega
    rw [List.take_of_length_le (by rw [List.length_reverse]; exact enough),
      List.take_of_length_le (by omega)] at same
    exact Or.inr ⟨Nat.lt_succ_of_le enough, same⟩
  · rintro (empty | ⟨enough, same⟩)
    · rw [empty, List.reverse_nil, List.take_nil, List.take_nil]
    · rw [same, List.take_of_length_le (Nat.le_of_lt_succ enough), List.take_of_length_le (Nat.le_of_lt enough)]

theorem Stacked.fits_iff (stacked : Stacked log) (permitted : Permitted log e) : Fits log e ↔ InOrder log e := by
  unfold Fits InOrder
  cases e with
  | interrupt bytes => simp only [permitted, reduceCtorEq, IsEmpty.forall_iff, implies_true, and_self]
  | read n =>
    have positive : 0 < n := permitted
    obtain ⟨k, rfl⟩ : ∃ k : Nat, n = (k + 1 : Nat) := ⟨n.toNat - 1, by omega⟩
    simp only [permitted, true_and, Event.read.injEq, forall_eq']
    exact stacked.in_order_iff.symm

/-- Where a read returns what a queue would return, it leaves the pending bytes as a queue would. -/
theorem Stacked.step (stacked : Stacked log) (fits : Fits log e) : Stacked (step log e) := by
  obtain ⟨permitted, reads⟩ := fits
  cases e with
  | interrupt bytes => exact stacked.interrupt permitted
  | read n =>
    have positive : 0 < n := permitted
    obtain ⟨k, rfl⟩ : ∃ k : Nat, n = (k + 1 : Nat) := ⟨n.toNat - 1, by omega⟩
    have inOrder := (stacked.fits_iff permitted).mp ⟨permitted, reads⟩ _ rfl
    have everything : log.pending.length ≤ k := by
      rcases reads _ rfl with empty | ⟨enough, -⟩
      · rw [empty]
        exact Nat.zero_le k
      · exact Nat.le_of_lt_succ enough
    have left : log.pending.drop (k + 1) = [] := List.drop_of_length_le (Nat.le_succ_of_le everything)
    have after := (@Stacked.read_bytes _ k stacked).2
    rw [List.drop_of_length_le (by rw [List.length_reverse]; exact everything)] at after
    refine ⟨?_, ?_, ?_⟩
    · change Holds (serialDeviceRead (k + 1 : Nat) log.serial).2 (0 :: (log.pending.drop (k + 1)).reverse)
      rw [left]
      exact holds_zero.mpr after
    · change nonzero (log.pending.drop (k + 1)) = log.pending.drop (k + 1)
      rw [left]
      rfl
    · change log.received = log.returned ++ nonzero (serialDeviceRead (k + 1 : Nat) log.serial).1 ++
        log.pending.drop (k + 1)
      rw [inOrder, left, List.append_nil, Int.toNat_natCast, List.take_of_length_le (Nat.le_succ_of_le everything)]
      exact stacked.whole

theorem start_stacked (kbd : Ring) : Stacked (start kbd) := by
  refine ⟨holds_zero.mpr ⟨Nat.zero_le _, fun k _ => rfl⟩, rfl, rfl⟩

theorem Stacked.run {rest : List Event} {reached : List Event} (stacked : Stacked log)
    (meets : Meets Fits log (reached ++ rest)) : Stacked (run reached log) := by
  induction reached generalizing log with
  | nil => exact stacked
  | cons e reached ih => exact ih (stacked.step meets.1) meets.2

end Buffer

/-- Along a run, the reads return what a queue would return as long as they fit. -/
theorem in_order_runs {kbd : Ring} {events : List Event} :
    Meets Fits (start kbd) events ↔ Meets (fun log e => Permitted log e ∧ InOrder log e) (start kbd) events := by
  suffices general : ∀ log, Stacked log →
      (Meets Fits log events ↔ Meets (fun log e => Permitted log e ∧ InOrder log e) log events) from
    general _ (start_stacked kbd)
  induction events with
  | nil => exact fun log stacked => Iff.rfl
  | cons e events ih =>
    intro log stacked
    have here : Fits log e ↔ Permitted log e ∧ InOrder log e := by
      constructor
      · intro fits
        exact ⟨fits.1, (stacked.fits_iff fits.1).mp fits⟩
      · rintro ⟨permitted, inOrder⟩
        exact (stacked.fits_iff permitted).mpr inOrder
    constructor
    · rintro ⟨fits, later⟩
      exact ⟨here.mp fits, (ih _ (stacked.step fits)).mp later⟩
    · rintro ⟨both, later⟩
      have fits := here.mpr both
      exact ⟨fits, (ih _ (stacked.step fits)).mpr later⟩

/-- In every run in which each read of pending bytes asks for more than are pending, and finds
them the same in both directions, what was received is delivered in every state. -/
theorem serial_delivered {kbd : Ring} {events reached : List Event} (meets : Meets Fits (start kbd) events)
    (part : reached <+: events) : Delivered (run reached (start kbd)) := by
  obtain ⟨rest, rfl⟩ := part
  exact ((start_stacked kbd).run meets).delivered

instance (log : Log) (e : Event) : Decidable (Permitted log e) :=
  match e with
  | .interrupt _ => inferInstanceAs (Decidable (_ ≤ _))
  | .read _ => inferInstanceAs (Decidable (_ < _))

instance decidableMeets {allowed : Log → Event → Prop} [∀ log e, Decidable (allowed log e)] :
    ∀ (log : Log) (events : List Event), Decidable (Meets allowed log events)
  | _, [] => isTrue trivial
  | log, e :: events =>
    have := @decidableMeets allowed _ (step log e) events
    inferInstanceAs (Decidable (_ ∧ _))

def emptyRing : Ring := ⟨0, 0, fun _ => 0⟩

/-- A byte and then another are each read with a length of 2. -/
theorem serial_delivered_pairs :
    Delivered (run [.interrupt [97], .read 2, .interrupt [98], .read 2] (start emptyRing)) := by
  refine serial_delivered ?_ List.prefix_rfl
  refine ⟨⟨by decide +kernel, ?_⟩, ⟨by decide +kernel, ?_⟩, ⟨by decide +kernel, ?_⟩, ⟨by decide +kernel, ?_⟩, trivial⟩
  · rintro _ ⟨⟩
  · rintro _ ⟨⟩
    exact Or.inr (by decide +kernel)
  · rintro _ ⟨⟩
  · rintro _ ⟨⟩
    exact Or.inr (by decide +kernel)

/-- "ab" is received, and a read of three bytes returns "ba". -/
theorem serial_reversed : Meets Permitted (start emptyRing) [.interrupt [97, 98], .read 3] ∧
    ¬ Delivered (run [.interrupt [97, 98], .read 3] (start emptyRing)) := by
  refine ⟨by decide +kernel, ?_⟩
  rintro ⟨ordered, -⟩
  revert ordered
  decide +kernel

end EvalynOS.Serial
