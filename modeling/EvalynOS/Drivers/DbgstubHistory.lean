import EvalynOS.Drivers.DbgstubCommands

/-! What the answer to a packet depends on. The terminator stands one byte too far behind the
packet, so a command that scans to the end of the packet can come upon a byte of an older
packet. -/
namespace EvalynOS.Dbgstub
open Strings DrX

/- What the host sees of one packet, and the target after it. -/
def answer (s : Stub) (bytes : List UInt8) : Except Fault (List UInt8 × Target) :=
  (feed { s with output := [] } bytes).map Stub.view

/-! The packets that are answered from their own bytes. -/

/- An address and a length are separated, or the text ends in the packet. -/
def ReadStays (args : List UInt8) : Prop := ','.toUInt8 ∈ args ∨ (0 : UInt8) ∈ args

/- The last register begins in the packet, or at the terminator. -/
def RegistersStay (args : List UInt8) : Prop := 288 ≤ args.length ∨ args.length = 284

/- The colon is in the packet, and the data is not one digit too short for the length or
counted with a product that wraps. -/
def WriteStays (args : List UInt8) : Prop :=
  ((0 : UInt8) ∉ args → ','.toUInt8 ∈ args → ':'.toUInt8 ∈ args) ∧
  ∀ address count data n, args = address ++ ','.toUInt8 :: count ++ ':'.toUInt8 :: data →
    ','.toUInt8 ∉ address → ':'.toUInt8 ∉ address ++ count → (0 : UInt8) ∉ address ++ count →
    strtoull (count ++ [0]) 16 = some n →
    n = 0 ∨ (n < 2 ^ 63 ∧ ((0 : UInt8) ∈ data ∨ 2 * n ≠ data.length + 4)) ∨ data.length + 4 < 2 * n % 2 ^ 64

def Stays (t : List UInt8) : Prop :=
  (∀ args, t = 'm'.toUInt8 :: args → ReadStays args) ∧
  (∀ args, t = 'M'.toUInt8 :: args → WriteStays args) ∧
  (∀ args, t = 'G'.toUInt8 :: args → RegistersStay args) ∧
  t ≠ text "z1" ∧ t ≠ text "Z1"

/-! The commands on one buffer. -/

section One

variable {s : Stub} {args p r rest : List UInt8} {h0 h1 stale : UInt8}

/- The reply to a command on the breakpoint at `addr`. -/
def breakpointReply (change : Address → Debug → Bool × Debug) (refusal : String) (view : List UInt8 × Target)
    (addr : Nat) : List UInt8 × Target :=
  let (done, debug) := change (BitVec.ofNat 64 addr) view.2.debug
  (view.1 ++ framed (text (if done then "OK" else refusal)), { view.2 with debug := debug })

theorem changeBreakpoint_view {change : Address → Debug → Bool × Debug} {refusal : String} {c d e : UInt8} {addr : Nat}
    (bytes : s.recv.bytes = frame (c :: d :: e :: args) h0 h1 ++ rest) (isAddr : strtoull (args ++ [0]) 16 = some addr)
    (sendable : Sendable refusal) :
    (changeBreakpoint change refusal s).map Stub.view = .ok (breakpointReply change refusal s.view addr) := by
  have read : strtoull (s.recv.bytes.drop 4) 16 = some addr := by
    have behind : s.recv.bytes.drop 4 = args ++ '#'.toUInt8 :: h0 :: h1 :: rest := by
      rw [bytes]
      simp [frame]
    rw [behind]
    exact (strtoull_terminated args rfl).trans isAddr
  unfold changeBreakpoint breakpointReply
  rw [read]
  refine (map_bind rfl).trans ?_
  rcases same : change (BitVec.ofNat 64 addr) s.target.debug with ⟨done, debug⟩
  have view : change (BitVec.ofNat 64 addr) s.view.2.debug = (done, debug) := same
  rw [view]
  cases done with
  | false => exact reply_view sendable
  | true => exact reply_view sendable_texts.2.2.2.1

/-! Registers: a field that begins in the packet, or at the terminator, is known. -/

theorem field_inside {q r : List UInt8} {ptr : Nat} (inside : ptr ≤ q.length) (width : Nat) :
    strtoull (((q ++ '#'.toUInt8 :: r).drop ptr).take width ++ [0]) 16 = strtoull ((q.drop ptr).take width ++ [0]) 16 := by
  rw [List.drop_append_of_le_length inside]
  by_cases short : width ≤ (q.drop ptr).length
  · rw [List.take_append_of_le_length short]
  · have long : (q.drop ptr).length ≤ width := by omega
    obtain ⟨more, isMore⟩ : ∃ more, width - (q.drop ptr).length = more + 1 := ⟨width - (q.drop ptr).length - 1, by omega⟩
    rw [List.take_append, List.take_of_length_le long, isMore, List.take_succ_cons, List.append_assoc, List.cons_append]
    exact strtoull_terminated _ rfl

theorem field_terminator {q r : List UInt8} (width : Nat) :
    strtoull (((q ++ stale :: 0 :: r).drop (q.length + 1)).take width ++ [0]) 16 = some 0 := by
  have behind : (q ++ stale :: 0 :: r).drop (q.length + 1) = 0 :: r := by
    rw [List.drop_append]
    simp
  rw [behind]
  cases width with
  | zero => rfl
  | succ width => rfl

/- Where the fields of a register packet begin. -/
def fieldStarts : List (Register × Nat) → Nat → List Nat
  | [], _ => []
  | (_, width) :: rest, ptr => ptr :: fieldStarts rest (ptr + width)

theorem unpackRegs_congr {one two : Buffer} {fields : List (Register × Nat)} {ptr : Nat}
    (same : ∀ start ∈ fieldStarts fields ptr, ∀ width,
      strtoull ((one.bytes.drop start).take width ++ [0]) 16 = strtoull ((two.bytes.drop start).take width ++ [0]) 16)
    (frame : Frame) : unpackRegs one fields ptr frame = unpackRegs two fields ptr frame := by
  induction fields generalizing ptr frame with
  | nil => rfl
  | cons field fields ih =>
    obtain ⟨reg, width⟩ := field
    have later := fun value => ih (fun start member => same start (List.mem_cons_of_mem _ member)) (Frame.set frame reg value)
    simp only [unpackRegs, same ptr List.mem_cons_self width, later]

theorem starts_packed : ∀ start ∈ fieldStarts packedRegisters 2, start ≤ 282 ∨ start = 290 := by decide

/-! Writing memory. -/

theorem writeMemory_refused {comma colon : Option Nat}
    (isComma : strchr ','.toUInt8 (s.recv.bytes.drop 2) = some comma)
    (isColon : strchr ':'.toUInt8 (s.recv.bytes.drop 2) = some colon)
    (bad : ∀ i j, comma = some i → colon = some j → j < i) :
    (writeMemory s).map Stub.view = .ok (s.output ++ framed (text "E00"), s.target) := by
  unfold writeMemory
  rw [isComma, isColon]
  refine (map_bind rfl).trans ?_
  refine (map_bind rfl).trans ?_
  have refuses := @reply_view s "E00" sendable_texts.2.2.2.2.1
  cases comma with
  | none => exact refuses
  | some i =>
    cases colon with
    | none => exact refuses
    | some j =>
      simp only
      rw [if_pos (bad i j rfl rfl)]
      exact refuses

/- The buffer up to the data, after the separators are overwritten. -/
def writeStart (address count : List UInt8) : List UInt8 :=
  ['$'.toUInt8, 'M'.toUInt8] ++ address ++ 0 :: count ++ [0]

/-- The parts of the request are in the packet: what is left is to store the data. -/
theorem writeMemory_parsed {address count data : List UInt8} {addr n : Nat}
    (bytes : s.recv.bytes = frame ('M'.toUInt8 :: (address ++ ','.toUInt8 :: count ++ ':'.toUInt8 :: data)) h0 h1 ++ rest)
    (first : ','.toUInt8 ∉ address) (noColon : ':'.toUInt8 ∉ address ++ count) (clean : (0 : UInt8) ∉ address ++ count)
    (isAddr : strtoull (address ++ [0]) 16 = some addr) (isLength : strtoull (count ++ [0]) 16 = some n) :
    ∃ recv : Buffer, recv.bytes = writeStart address count ++ (data ++ '#'.toUInt8 :: h0 :: h1 :: rest) ∧
      writeMemory s = storeMemory { s with recv := recv } addr n (writeStart address count).length := by
  let tail := '#'.toUInt8 :: h0 :: h1 :: rest
  let start := ['$'.toUInt8, 'M'.toUInt8] ++ address
  have noColonAddress : ':'.toUInt8 ∉ address := fun member => noColon (List.mem_append_left _ member)
  have noColonCount : ':'.toUInt8 ∉ count := fun member => noColon (List.mem_append_right _ member)
  have cleanAddress : (0 : UInt8) ∉ address := fun member => clean (List.mem_append_left _ member)
  have cleanCount : (0 : UInt8) ∉ count := fun member => clean (List.mem_append_right _ member)
  have behind : s.recv.bytes.drop 2 = address ++ ','.toUInt8 :: (count ++ ':'.toUInt8 :: (data ++ tail)) := by
    rw [drop_args bytes]
    simp [tail]
  have comma : strchr ','.toUInt8 (s.recv.bytes.drop 2) = some (some address.length) := by
    rw [behind]
    exact strchr_found first cleanAddress (by decide) _
  have colon : strchr ':'.toUInt8 (s.recv.bytes.drop 2) = some (some (address ++ ','.toUInt8 :: count).length) := by
    have split : s.recv.bytes.drop 2 = (address ++ ','.toUInt8 :: count) ++ ':'.toUInt8 :: (data ++ tail) := by
      rw [behind]
      simp
    rw [split]
    apply strchr_found _ _ (by decide)
    · simp [noColonAddress, noColonCount]
      decide
    · simp [cleanAddress, cleanCount]
      decide
  have shape : s.recv.bytes = start ++ ','.toUInt8 :: (count ++ ':'.toUInt8 :: (data ++ tail)) := by
    rw [bytes]
    simp [frame, start, tail]
  have place : start.length = 2 + address.length := by simp [start]; omega
  have one : (s.recv.put start.length 0).bytes = (start ++ 0 :: count) ++ ':'.toUInt8 :: (data ++ tail) := by
    rw [Buffer.put_at shape]
    simp
  have place' : (start ++ 0 :: count).length = 2 + (address ++ ','.toUInt8 :: count).length := by
    simp [start]
    omega
  have two := @Buffer.put_at _ _ _ _ 0 one
  have written : s.recv.write (2 + address.length) 0 = .ok (s.recv.put start.length 0) := by
    rw [← place]
    exact Buffer.write_eq _ (Buffer.at_lt shape)
  have written' : (s.recv.put start.length 0).write (2 + (address ++ ','.toUInt8 :: count).length) 0 =
      .ok ((s.recv.put start.length 0).put (start ++ 0 :: count).length 0) := by
    rw [← place']
    exact Buffer.write_eq _ (Buffer.at_lt one)
  have addrRead : strtoull (((s.recv.put start.length 0).put (start ++ 0 :: count).length 0).bytes.drop 2) 16 =
      some addr := by
    have text : (start ++ 0 :: count ++ 0 :: (data ++ tail)).drop 2 = address ++ 0 :: (count ++ 0 :: (data ++ tail)) := by
      simp [start]
    rw [two, text, strtoull_terminated address isDigit_zero, isAddr]
  have lengthRead : strtoull (((s.recv.put start.length 0).put (start ++ 0 :: count).length 0).bytes.drop
      (2 + address.length + 1)) 16 = some n := by
    have text : (start ++ 0 :: count ++ 0 :: (data ++ tail)).drop (start.length + 1) = count ++ 0 :: (data ++ tail) := by
      rw [List.append_assoc, List.drop_append]
      simp
    rw [two, ← place, text, strtoull_terminated count isDigit_zero, isLength]
  have order : ¬ (address ++ ','.toUInt8 :: count).length < address.length := by simp
  have dataAt : 2 + (address ++ ','.toUInt8 :: count).length + 1 = (writeStart address count).length := by
    simp [writeStart]
    omega
  refine ⟨(s.recv.put start.length 0).put (start ++ 0 :: count).length 0, ?_, ?_⟩
  · rw [two]
    simp [writeStart, start, tail]
  · unfold writeMemory
    simp only [comma, colon, orOverread, bind, Except.bind, if_neg order, written, written', addrRead, lengthRead, dataAt]

end One

/-! Two states that agree from outside, with the same packet in their buffers. -/

section Two

variable {a b : Stub} {t args start data r r' : List UInt8} {h0 h1 x y : UInt8} {addr n : Nat}

theorem writeBytes_congr {one two : Buffer} {at_ k : Nat} (same : ∀ i < at_ + (k + n) * 2, one.read i = two.read i)
    (target : Target) : writeBytes one addr at_ n k target = writeBytes two addr at_ n k target := by
  induction n generalizing k target with
  | zero => rfl
  | succ n ih =>
    have later := fun target => @ih (k + 1) (fun i bound => same i (by omega)) target
    simp only [writeBytes, same (at_ + k * 2) (by omega), same (at_ + k * 2 + 1) (by omega), later]

theorem read_common {one two : Buffer} {q : List UInt8} (left : one.bytes = q ++ r) (right : two.bytes = q ++ r')
    {i : Nat} (inside : i < q.length) : one.read i = two.read i := by
  rw [Buffer.read, Buffer.read, left, right, List.getElem?_append_left inside, List.getElem?_append_left inside]

theorem reply_congr (view : a.view = b.view) {answer : String} (sendable : Sendable answer) :
    (a.reply answer).map Stub.view = (b.reply answer).map Stub.view := by
  rw [reply_view sendable, reply_view sendable]
  obtain ⟨output, target⟩ := Prod.mk.inj view
  rw [output, target]

theorem bind_view_congr {α : Type} {outcome : Except Fault α} {f g : α → Except Fault Stub}
    (same : ∀ v, (f v).map Stub.view = (g v).map Stub.view) :
    (outcome >>= f).map Stub.view = (outcome >>= g).map Stub.view := by
  cases outcome with
  | error fault => rfl
  | ok v => exact same v

/-- The length of the data is known up to the stale byte. -/
theorem strlen_data (clean : (0 : UInt8) ∉ data) (hex0 : h0 ≠ 0) (hex1 : h1 ≠ 0) :
    ∃ m, strlen (data ++ '#'.toUInt8 :: h0 :: h1 :: x :: 0 :: r) = some m ∧
      data.length + 3 ≤ m ∧ m ≤ data.length + 4 := by
  by_cases isNul : x = 0
  · subst isNul
    have shape : data ++ '#'.toUInt8 :: h0 :: h1 :: 0 :: 0 :: r = (data ++ ['#'.toUInt8, h0, h1]) ++ 0 :: 0 :: r := by simp
    have cleanAll : (0 : UInt8) ∉ data ++ ['#'.toUInt8, h0, h1] := by
      simp [clean, hex0.symm, hex1.symm]
      decide
    refine ⟨_, by rw [shape]; exact strlen_eq cleanAll _, ?_, ?_⟩
    · simp
    · simp
  · have shape : data ++ '#'.toUInt8 :: h0 :: h1 :: x :: 0 :: r = (data ++ ['#'.toUInt8, h0, h1, x]) ++ 0 :: r := by simp
    have cleanAll : (0 : UInt8) ∉ data ++ ['#'.toUInt8, h0, h1, x] := by
      simp [clean, hex0.symm, hex1.symm, Ne.symm isNul]
      decide
    refine ⟨_, by rw [shape]; exact strlen_eq cleanAll _, ?_, ?_⟩
    · simp
    · simp

theorem storeMemory_short {s : Stub} {at_ available : Nat} (isLength : strlen (s.recv.bytes.drop at_) = some available)
    (short : available < n * 2 % 2 ^ 64) : storeMemory s addr n at_ = s.reply "E01" := by
  unfold storeMemory
  split
  · rfl
  · simp only [isLength, orOverread, bind, Except.bind, if_pos short]

theorem storeMemory_enough {s : Stub} {at_ available : Nat} (isLength : strlen (s.recv.bytes.drop at_) = some available)
    (enough : n * 2 % 2 ^ 64 ≤ available) (nonzero : n ≠ 0) : storeMemory s addr n at_ =
      writeBytes s.recv addr at_ n 0 s.target >>= fun outcome =>
        Stub.reply { s with target := outcome.2 } (if outcome.1 then "OK" else "E03") := by
  unfold storeMemory
  simp only [if_neg nonzero, isLength, orOverread, bind, Except.bind, if_neg (Nat.not_lt_of_le enough)]
  cases writeBytes s.recv addr at_ n 0 s.target with
  | error fault => rfl
  | ok outcome =>
    obtain ⟨done, stored⟩ := outcome
    cases done with
    | false => rfl
    | true => rfl

/-- The data is stored alike where its length decides alike and no read passes the packet. -/
theorem storeMemory_decided (view : a.view = b.view)
    (left : a.recv.bytes = start ++ (data ++ '#'.toUInt8 :: h0 :: h1 :: x :: 0 :: r))
    (right : b.recv.bytes = start ++ (data ++ '#'.toUInt8 :: h0 :: h1 :: y :: 0 :: r')) {availableA availableB : Nat}
    (isA : strlen (data ++ '#'.toUInt8 :: h0 :: h1 :: x :: 0 :: r) = some availableA)
    (isB : strlen (data ++ '#'.toUInt8 :: h0 :: h1 :: y :: 0 :: r') = some availableB)
    (alike : (availableA < n * 2 % 2 ^ 64 ∧ availableB < n * 2 % 2 ^ 64) ∨
      (n * 2 % 2 ^ 64 ≤ availableA ∧ n * 2 % 2 ^ 64 ≤ availableB ∧ n * 2 ≤ data.length + 3)) :
    (storeMemory a addr n start.length).map Stub.view = (storeMemory b addr n start.length).map Stub.view := by
  have fromA : strlen (a.recv.bytes.drop start.length) = some availableA := by rw [left, List.drop_left, isA]
  have fromB : strlen (b.recv.bytes.drop start.length) = some availableB := by rw [right, List.drop_left, isB]
  obtain ⟨output, target⟩ := Prod.mk.inj view
  rcases alike with ⟨shortA, shortB⟩ | ⟨enoughA, enoughB, inside⟩
  · rw [storeMemory_short fromA shortA, storeMemory_short fromB shortB]
    exact reply_congr view sendable_texts.2.2.2.2.2.1
  by_cases none : n = 0
  · unfold storeMemory
    rw [if_pos none, if_pos none]
    exact reply_congr view sendable_texts.2.2.2.2.2.1
  have shapeA : a.recv.bytes = (start ++ (data ++ ['#'.toUInt8, h0, h1])) ++ x :: 0 :: r := by
    rw [left]
    simp
  have shapeB : b.recv.bytes = (start ++ (data ++ ['#'.toUInt8, h0, h1])) ++ y :: 0 :: r' := by
    rw [right]
    simp
  have same : writeBytes a.recv addr start.length n 0 a.target = writeBytes b.recv addr start.length n 0 b.target := by
    rw [target]
    apply writeBytes_congr
    intro i bound
    exact read_common shapeA shapeB (by simp; omega)
  rw [storeMemory_enough fromA enoughA none, storeMemory_enough fromB enoughB none, same]
  apply bind_view_congr
  intro outcome
  have views : Stub.view { a with target := outcome.2 } = Stub.view { b with target := outcome.2 } := by
    simp only [Stub.view, output]
  apply reply_congr views
  split
  · exact sendable_texts.2.2.2.1
  · exact sendable_texts.2.2.2.2.2.2.2.1

theorem storeMemory_congr (view : a.view = b.view)
    (left : a.recv.bytes = start ++ (data ++ '#'.toUInt8 :: h0 :: h1 :: x :: 0 :: r))
    (right : b.recv.bytes = start ++ (data ++ '#'.toUInt8 :: h0 :: h1 :: y :: 0 :: r')) (hex0 : h0 ≠ 0) (hex1 : h1 ≠ 0)
    (stays : n = 0 ∨ (n < 2 ^ 63 ∧ ((0 : UInt8) ∈ data ∨ 2 * n ≠ data.length + 4)) ∨ data.length + 4 < 2 * n % 2 ^ 64) :
    (storeMemory a addr n start.length).map Stub.view = (storeMemory b addr n start.length).map Stub.view := by
  by_cases ends : (0 : UInt8) ∈ data
  · obtain ⟨m, length⟩ := strlen_total ends
    have bound := strlen_lt length
    apply storeMemory_decided view left right (by rw [strlen_append ends, length]) (by rw [strlen_append ends, length])
    omega
  · obtain ⟨mA, isA, lowA, highA⟩ := @strlen_data data r h0 h1 x ends hex0 hex1
    obtain ⟨mB, isB, lowB, highB⟩ := @strlen_data data r' h0 h1 y ends hex0 hex1
    apply storeMemory_decided view left right isA isB
    have open_ : n < 2 ^ 63 → 2 * n ≠ data.length + 4 ∨ n = 0 ∨ data.length + 4 < 2 * n % 2 ^ 64 := by
      intro small
      rcases stays with isZero | ⟨_, inData | differ⟩ | far
      · exact .inr (.inl isZero)
      · exact absurd inData ends
      · exact .inl differ
      · exact .inr (.inr far)
    omega

/- A write request without its two separators in order. -/
def Refused (args tail : List UInt8) : Prop :=
  ∃ comma colon, strchr ','.toUInt8 (args ++ tail) = some comma ∧ strchr ':'.toUInt8 (args ++ tail) = some colon ∧
    ∀ i j, comma = some i → colon = some j → j < i

theorem refused_colon {p q tail : List UInt8} (noComma : ','.toUInt8 ∉ p) (noColon : ':'.toUInt8 ∉ p)
    (clean : (0 : UInt8) ∉ p) (ends : (0 : UInt8) ∈ q ++ tail) : Refused (p ++ ':'.toUInt8 :: q) tail := by
  obtain ⟨found, later⟩ := strchr_total ends ','.toUInt8
  have skip : strchr ','.toUInt8 (p ++ ':'.toUInt8 :: q ++ tail) =
      some (found.map (· + (p ++ [':'.toUInt8]).length)) := by
    have shape : p ++ ':'.toUInt8 :: q ++ tail = (p ++ [':'.toUInt8]) ++ (q ++ tail) := by simp
    rw [shape, strchr_skip, later]
    · rfl
    · simp [noComma]
      decide
    · simp [clean]
      decide
  refine ⟨_, some p.length, skip, ?_, ?_⟩
  · rw [List.append_assoc]
    exact strchr_found noColon clean (by decide) _
  · intro i j isI isJ
    obtain ⟨k, _, rfl⟩ := Option.map_eq_some_iff.mp isI
    cases isJ
    rw [List.length_append, List.length_singleton]
    omega

theorem refused_open (plain : ∀ c ∈ args, ¬ (c = ','.toUInt8 ∨ c = ':'.toUInt8 ∨ c = 0)) (hex0 : isDigit 16 h0 = true)
    (hex1 : isDigit 16 h1 = true) : Refused args ('#'.toUInt8 :: h0 :: h1 :: x :: 0 :: r) := by
  have other : ∀ d h, isDigit 16 h = true → isDigit 16 d = false → d ≠ h := by
    rintro d h hex special rfl
    rw [special] at hex
    cases hex
  have absent : ∀ d, d = ','.toUInt8 ∨ d = ':'.toUInt8 ∨ d = 0 → d ∉ args ++ ['#'.toUInt8, h0, h1] := by
    intro d isSpecial member
    have noDigit : isDigit 16 d = false := by
      rcases isSpecial with rfl | rfl | rfl
      · rfl
      · rfl
      · rfl
    have notEnd : d ≠ '#'.toUInt8 := by
      rcases isSpecial with rfl | rfl | rfl
      · decide
      · decide
      · decide
    simp only [List.mem_append, List.mem_cons, List.not_mem_nil, or_false] at member
    rcases member with inArgs | same | same | same
    · exact plain d inArgs isSpecial
    · exact notEnd same
    · exact other d h0 hex0 noDigit same
    · exact other d h1 hex1 noDigit same
  have shape : args ++ '#'.toUInt8 :: h0 :: h1 :: x :: 0 :: r = (args ++ ['#'.toUInt8, h0, h1]) ++ x :: 0 :: r := by simp
  unfold Refused
  rw [shape, strchr_skip (absent _ (.inl rfl)) (absent _ (.inr (.inr rfl))),
    strchr_skip (absent _ (.inr (.inl rfl))) (absent _ (.inr (.inr rfl)))]
  obtain ⟨comma, isComma⟩ := @strchr_total (x :: 0 :: r) (by simp) ','.toUInt8
  obtain ⟨colon, isColon⟩ := @strchr_total (x :: 0 :: r) (by simp) ':'.toUInt8
  refine ⟨_, _, by rw [isComma]; rfl, by rw [isColon]; rfl, ?_⟩
  -- one stale byte is not both separators
  intro i j isI isJ
  obtain ⟨k, foundI, _⟩ := Option.map_eq_some_iff.mp isI
  obtain ⟨l, foundJ, _⟩ := Option.map_eq_some_iff.mp isJ
  subst foundI foundJ
  by_cases isComma' : x = ','.toUInt8
  · subst isComma'
    cases isColon
  · have none : strchr ','.toUInt8 (x :: 0 :: r) = some none := by
      by_cases isNul : x = 0
      · simp [strchr, isNul]
        decide
      · simp [strchr, isNul, isComma']
        decide
    rw [none] at isComma
    cases isComma

/-- A write request has all its parts in the packet, or it is refused. -/
theorem write_cases (closed : (0 : UInt8) ∉ args → ','.toUInt8 ∈ args → ':'.toUInt8 ∈ args)
    (hex0 : isDigit 16 h0 = true) (hex1 : isDigit 16 h1 = true) :
    (∃ address count data, args = address ++ ','.toUInt8 :: count ++ ':'.toUInt8 :: data ∧ ','.toUInt8 ∉ address ∧
      ':'.toUInt8 ∉ address ++ count ∧ (0 : UInt8) ∉ address ++ count) ∨
    ∀ x r, Refused args ('#'.toUInt8 :: h0 :: h1 :: x :: 0 :: r) := by
  by_cases special : ∃ c ∈ args, c = ','.toUInt8 ∨ c = ':'.toUInt8 ∨ c = 0
  · obtain ⟨p, c, q, rfl, kind, before⟩ := split_first special
    have noComma : ','.toUInt8 ∉ p := fun member => before _ member (.inl rfl)
    have noColon : ':'.toUInt8 ∉ p := fun member => before _ member (.inr (.inl rfl))
    have clean : (0 : UInt8) ∉ p := fun member => before _ member (.inr (.inr rfl))
    rcases kind with rfl | rfl | rfl
    · by_cases later : ∃ c ∈ q, c = ':'.toUInt8 ∨ c = 0
      · obtain ⟨count, d, data, rfl, kind, between⟩ := split_first later
        have noColonCount : ':'.toUInt8 ∉ count := fun member => between _ member (.inl rfl)
        have cleanCount : (0 : UInt8) ∉ count := fun member => between _ member (.inr rfl)
        rcases kind with rfl | rfl
        · refine .inl ⟨p, count, data, by simp, noComma, ?_, ?_⟩
          · simp [noColon, noColonCount]
          · simp [clean, cleanCount]
        · right
          intro x r
          have shape : ∀ tail, p ++ ','.toUInt8 :: (count ++ 0 :: data) ++ tail =
              (p ++ ','.toUInt8 :: count) ++ 0 :: (data ++ tail) := by simp
          refine ⟨some p.length, none, ?_, ?_, fun i j _ none => by cases none⟩
          · rw [List.append_assoc]
            exact strchr_found noComma clean (by decide) _
          · rw [shape]
            apply strchr_none _ _ (by decide)
            · simp [noColon, noColonCount]
              decide
            · simp [clean, cleanCount]
              decide
      · have inside := closed (by
          intro member
          rcases List.mem_append.mp member with inP | inRest
          · exact clean inP
          · rcases List.mem_cons.mp inRest with same | inQ
            · cases same
            · exact later ⟨0, inQ, .inr rfl⟩) (by simp)
        rcases List.mem_append.mp inside with inP | inRest
        · exact absurd inP noColon
        · rcases List.mem_cons.mp inRest with same | inQ
          · cases same
          · exact absurd ⟨_, inQ, .inl rfl⟩ later
    · exact .inr (fun x r => refused_colon noComma noColon clean (by simp))
    · right
      intro x r
      refine ⟨none, none, ?_, ?_, fun i j none => by cases none⟩
      · rw [List.append_assoc]
        exact strchr_none noComma clean (by decide) _
      · rw [List.append_assoc]
        exact strchr_none noColon clean (by decide) _
  · right
    intro x r
    exact refused_open (fun c member isSpecial => special ⟨c, member, isSpecial⟩) hex0 hex1

theorem view_eq (view : a.view = b.view) : a.output = b.output ∧ a.target = b.target := Prod.mk.inj view

theorem readMemory_congr (view : a.view = b.view) (left : a.recv.bytes = frame ('m'.toUInt8 :: args) h0 h1 ++ r)
    (right : b.recv.bytes = frame ('m'.toUInt8 :: args) h0 h1 ++ r') (stays : ReadStays args) :
    (readMemory a).map Stub.view = (readMemory b).map Stub.view := by
  have stop : ∃ c ∈ args, c = ','.toUInt8 ∨ c = 0 := by
    rcases stays with comma | nul
    · exact ⟨_, comma, .inl rfl⟩
    · exact ⟨_, nul, .inr rfl⟩
  obtain ⟨p, c, q, rfl, kind, before⟩ := split_first stop
  have noComma : ','.toUInt8 ∉ p := fun member => before _ member (.inl rfl)
  have clean : (0 : UInt8) ∉ p := fun member => before _ member (.inr rfl)
  rcases kind with rfl | rfl
  · obtain ⟨addr, isAddr⟩ := strtoull_total p
    obtain ⟨length, isLength⟩ := strtoull_total q
    rw [readMemory_view left noComma clean isAddr isLength, readMemory_view right noComma clean isAddr isLength, view]
  · obtain ⟨output, target⟩ := view_eq view
    rw [readMemory_refused left noComma clean, readMemory_refused right noComma clean, output, target]

theorem writeMemory_congr (view : a.view = b.view)
    (left : a.recv.bytes = frame ('M'.toUInt8 :: args) h0 h1 ++ x :: 0 :: r)
    (right : b.recv.bytes = frame ('M'.toUInt8 :: args) h0 h1 ++ y :: 0 :: r') (hex0 : isDigit 16 h0 = true)
    (hex1 : isDigit 16 h1 = true) (stays : WriteStays args) :
    (writeMemory a).map Stub.view = (writeMemory b).map Stub.view := by
  have nonzero : ∀ h, isDigit 16 h = true → h ≠ 0 := by
    rintro h hex rfl
    cases hex
  rcases write_cases stays.1 hex0 hex1 with ⟨address, count, data, rfl, noComma, noColon, clean⟩ | refused
  · obtain ⟨addr, isAddr⟩ := strtoull_total address
    obtain ⟨n, isLength⟩ := strtoull_total count
    obtain ⟨recvA, bytesA, ranA⟩ := writeMemory_parsed left noComma noColon clean isAddr isLength
    obtain ⟨recvB, bytesB, ranB⟩ := writeMemory_parsed right noComma noColon clean isAddr isLength
    rw [ranA, ranB]
    exact @storeMemory_congr { a with recv := recvA } { b with recv := recvB } _ data r r' h0 h1 x y addr n view bytesA
      bytesB (nonzero h0 hex0) (nonzero h1 hex1) (stays.2 address count data n rfl noComma noColon clean isLength)
  · obtain ⟨commaA, colonA, isCommaA, isColonA, badA⟩ := refused x r
    obtain ⟨commaB, colonB, isCommaB, isColonB, badB⟩ := refused y r'
    rw [← drop_args left] at isCommaA isColonA
    rw [← drop_args right] at isCommaB isColonB
    obtain ⟨output, target⟩ := view_eq view
    rw [writeMemory_refused isCommaA isColonA badA, writeMemory_refused isCommaB isColonB badB, output, target]

theorem writeRegisters_congr (view : a.view = b.view)
    (left : a.recv.bytes = frame ('G'.toUInt8 :: args) h0 h1 ++ x :: 0 :: r)
    (right : b.recv.bytes = frame ('G'.toUInt8 :: args) h0 h1 ++ y :: 0 :: r') (stays : RegistersStay args) :
    (writeRegisters a).map Stub.view = (writeRegisters b).map Stub.view := by
  obtain ⟨output, target⟩ := view_eq view
  let packet := ['$'.toUInt8, 'G'.toUInt8] ++ args
  have long : packet.length = args.length + 2 := by simp [packet]
  have frameLength : (frame ('G'.toUInt8 :: args) h0 h1).length = args.length + 5 := by simp [frame]
  have shapeA : a.recv.bytes = packet ++ '#'.toUInt8 :: (h0 :: h1 :: x :: 0 :: r) := by
    rw [left]
    simp [frame, packet]
  have shapeB : b.recv.bytes = packet ++ '#'.toUInt8 :: (h0 :: h1 :: y :: 0 :: r') := by
    rw [right]
    simp [frame, packet]
  have inside : ∀ start ≤ args.length + 2, ∀ width,
      strtoull ((a.recv.bytes.drop start).take width ++ [0]) 16 = strtoull ((b.recv.bytes.drop start).take width ++ [0]) 16 := by
    intro start bound width
    rw [shapeA, shapeB, field_inside (by omega), field_inside (by omega)]
  have same : unpackRegs a.recv packedRegisters 2 a.target.lastFrame =
      unpackRegs b.recv packedRegisters 2 b.target.lastFrame := by
    rw [target]
    apply unpackRegs_congr
    intro start member width
    rcases starts_packed start member with early | last
    · apply inside start
      rcases stays with whole | cut
      · omega
      · omega
    · rcases stays with whole | cut
      · exact inside start (by omega) width
      · have place : start = (frame ('G'.toUInt8 :: args) h0 h1).length + 1 := by omega
        rw [left, right, place, field_terminator, field_terminator]
  unfold writeRegisters
  rw [same]
  apply bind_view_congr
  intro frame
  apply reply_congr _ sendable_texts.2.2.2.1
  simp only [Stub.view, output, target]

theorem changeBreakpoint_congr {change : Address → Debug → Bool × Debug} {refusal : String} {c d : UInt8}
    (view : a.view = b.view) (left : a.recv.bytes = frame (c :: d :: args) h0 h1 ++ r)
    (right : b.recv.bytes = frame (c :: d :: args) h0 h1 ++ r') (stays : args ≠ []) (sendable : Sendable refusal) :
    (changeBreakpoint change refusal a).map Stub.view = (changeBreakpoint change refusal b).map Stub.view := by
  cases args with
  | nil => exact absurd rfl stays
  | cons e args =>
    obtain ⟨addr, isAddr⟩ := strtoull_total args
    rw [changeBreakpoint_view left isAddr sendable, changeBreakpoint_view right isAddr sendable, view]

theorem resume_congr (view : a.view = b.view) : (resumeTarget a).view = (resumeTarget b).view := by
  obtain ⟨output, target⟩ := view_eq view
  simp only [Stub.view, resumeTarget, output, target]

theorem step_congr (view : a.view = b.view) : (stepTarget a).view = (stepTarget b).view := by
  obtain ⟨output, target⟩ := view_eq view
  simp only [Stub.view, stepTarget, output, target]

/-- The command that the packet names does the same in both states. -/
theorem command_congr (view : a.view = b.view) (left : a.recv.bytes = frame t h0 h1 ++ x :: 0 :: r)
    (right : b.recv.bytes = frame t h0 h1 ++ y :: 0 :: r') (hex0 : isDigit 16 h0 = true) (hex1 : isDigit 16 h1 = true)
    (stays : Stays t) : ∀ command ∈ commands, text command.1 <+: '$'.toUInt8 :: t →
      (command.2 a).map Stub.view = (command.2 b).map Stub.view := by
  obtain ⟨read, write, registers, notRemove, notInsert⟩ := stays
  have named : ∀ c, ['$'.toUInt8, c] <+: '$'.toUInt8 :: t → ∃ args, t = c :: args := by
    intro c here
    obtain ⟨args, rest⟩ := (List.cons_prefix_cons.mp here).2
    exact ⟨args, rest.symm⟩
  have breakpoint : ∀ c d, ['$'.toUInt8, c, d] <+: '$'.toUInt8 :: t → t ≠ [c, d] →
      ∃ args, t = c :: d :: args ∧ args ≠ [] := by
    intro c d here other
    obtain ⟨args, rest⟩ := (List.cons_prefix_cons.mp here).2
    refine ⟨args, rest.symm, ?_⟩
    rintro rfl
    exact other rest.symm
  obtain ⟨supported, one, stopped, ok, _, _, _, _, removeRefusal, insertRefusal, _⟩ := sendable_texts
  simp only [commands, List.forall_mem_cons]
  refine ⟨fun _ => reply_congr view supported, fun _ => reply_congr view one, fun _ => reply_congr view stopped,
    ?_, ?_, ?_, ?_, ?_, ?_, ?_, ?_, ?_, fun _ none => absurd none List.not_mem_nil⟩
  · intro _
    obtain ⟨output, target⟩ := view_eq view
    rw [readRegisters_view, readRegisters_view, output, target]
  · intro here
    obtain ⟨args, rfl⟩ := named _ here
    exact writeRegisters_congr view left right (registers args rfl)
  · intro here
    obtain ⟨args, rfl⟩ := named _ here
    exact readMemory_congr view left right (read args rfl)
  · intro here
    obtain ⟨args, rfl⟩ := named _ here
    exact writeMemory_congr view left right hex0 hex1 (write args rfl)
  · intro here
    obtain ⟨args, rfl, nonempty⟩ := breakpoint _ _ here notRemove
    exact changeBreakpoint_congr view left right nonempty removeRefusal
  · intro here
    obtain ⟨args, rfl, nonempty⟩ := breakpoint _ _ here notInsert
    exact changeBreakpoint_congr view left right nonempty insertRefusal
  · exact fun _ => congrArg Except.ok (resume_congr view)
  · exact fun _ => congrArg Except.ok (resume_congr view)
  · exact fun _ => congrArg Except.ok (step_congr view)

theorem runCommand_congr (view : a.view = b.view) (left : a.recv.bytes = frame t h0 h1 ++ x :: 0 :: r)
    (right : b.recv.bytes = frame t h0 h1 ++ y :: 0 :: r') (hex0 : isDigit 16 h0 = true) (hex1 : isDigit 16 h1 = true)
    (stays : Stays t) : (runCommand a).map Stub.view = (runCommand b).map Stub.view := by
  have names : ∀ command ∈ commands, a.isCommand command.1 = b.isCommand command.1 := by
    intro command member
    obtain ⟨clean, plain⟩ := names_plain command member
    rw [Bool.eq_iff_iff, isCommand_iff clean, isCommand_iff clean, left, right, prefix_frame plain, prefix_frame plain]
  have same : commands.find? (fun command => a.isCommand command.1) =
      commands.find? (fun command => b.isCommand command.1) := List.find?_congr names
  unfold runCommand
  rw [same]
  cases found : commands.find? (fun command => b.isCommand command.1) with
  | none => exact reply_congr view sendable_texts.2.2.2.2.2.2.2.2.2.2
  | some command =>
    have member := List.mem_of_find?_eq_some found
    obtain ⟨clean, plain⟩ := names_plain command member
    have named : text command.1 <+: '$'.toUInt8 :: t := by
      rw [← @prefix_frame t (y :: 0 :: r') h0 h1 _ plain, ← right, ← isCommand_iff clean]
      simpa using List.find?_some found
    exact command_congr view left right hex0 hex1 stays command member named

theorem processPacket_congr (view : a.view = b.view) (left : a.recv.bytes = frame t h0 h1 ++ x :: 0 :: r)
    (right : b.recv.bytes = frame t h0 h1 ++ y :: 0 :: r') (plain : '#'.toUInt8 ∉ t) (hex0 : isDigit 16 h0 = true)
    (hex1 : isDigit 16 h1 = true) (stays : Stays t) :
    (dbgstubProcessPacket a).map Stub.view = (dbgstubProcessPacket b).map Stub.view := by
  obtain ⟨output, target⟩ := view_eq view
  have views : ∀ c, (a.serialSend c).view = (b.serialSend c).view := by
    intro c
    simp only [Stub.view, Stub.serialSend, output, target]
  unfold dbgstubProcessPacket
  rw [validate_frame left plain hex0 hex1, validate_frame right plain hex0 hex1]
  split
  · exact runCommand_congr (views _) left right hex0 hex1 stays
  · exact congrArg Except.ok (views _)

end Two

/-- Two stubs that agree on the target answer a packet alike whatever they received before, if
the commands find in the packet what they look for. -/
theorem packet_history_free {a b : Stub} (reachableA : Reachable a) (reachableB : Reachable b)
    (roomA : a.index < packetBufferSize) (roomB : b.index < packetBufferSize) (same : a.target = b.target)
    {payload : List UInt8} {h0 h1 : UInt8} (plain : ∀ c ∈ payload, Plain c) (hex0 : isDigit 16 h0 = true)
    (hex1 : isDigit 16 h1 = true) (stays : Stays (stored payload)) :
    answer a (frame payload h0 h1) = answer b (frame payload h0 h1) := by
  have countA := reachableA.bounded.1
  have countB := reachableB.bounded.1
  unfold answer
  by_cases short : (stored payload).length + 4 ≤ packetBufferSize
  · obtain ⟨_, recvA, x, r, quietA, lastA, bytesA⟩ := @quiet_frame { a with output := [] } payload h0 h1 roomA countA plain
      short hex0 hex1
    obtain ⟨_, recvB, y, r', quietB, lastB, bytesB⟩ := @quiet_frame { b with output := [] } payload h0 h1 roomB countB plain
      short hex0 hex1
    have split : frame payload h0 h1 = ('$'.toUInt8 :: payload ++ ['#'.toUInt8, h0]) ++ [h1] := by simp [frame]
    rw [split, feed_frame quietA lastA, feed_frame quietB lastB]
    have noEnd : '#'.toUInt8 ∉ stored payload := fun member => (plain _ (List.mem_of_mem_filter member)).2.1 rfl
    apply processPacket_congr _ bytesA bytesB noEnd hex0 hex1 stays
    simp only [Stub.view, Stub.idle, same]
  · have long : packetBufferSize < (stored payload).length + 4 := Nat.lt_of_not_le short
    rw [@feed_overlong { a with output := [] } payload h0 h1 roomA countA plain long hex0,
      @feed_overlong { b with output := [] } payload h0 h1 roomB countB plain long hex0]

/-! A stub that has received nothing, and one that has received a packet it does not know. -/

theorem Reachable.feed {s s' : Stub} {bytes : List UInt8} (reachable : Reachable s) (ran : feed s bytes = .ok s') :
    Reachable s' := by
  induction bytes generalizing s with
  | nil =>
    cases ran
    exact reachable
  | cons c bytes ih =>
    obtain ⟨s₁, first, rest⟩ := bind_ok.mp ran
    exact ih (.rx reachable first) rest

def freshStub : Stub := dbgstubInit (fun _ => none) (fun _ => false)

def commas : List UInt8 := frame (text ",,,,,") 'd'.toUInt8 'c'.toUInt8

theorem freshStub_commas : ∃ s, feed freshStub commas = .ok s ∧ s.index = 0 ∧ s.target = freshStub.target := by
  cases ran : feed freshStub commas with
  | error fault =>
    have fine : (feed freshStub commas).isOk = true := by decide +kernel
    rw [ran] at fine
    cases fine
  | ok s =>
    have index : ((feed freshStub commas).toOption.getD freshStub).index = 0 := rfl
    have target : ((feed freshStub commas).toOption.getD freshStub).target = freshStub.target := rfl
    rw [ran] at index target
    exact ⟨s, rfl, index, target⟩

theorem packet_history_free_query : ∃ b, feed freshStub commas = .ok b ∧
    answer freshStub (frame (text "?") '3'.toUInt8 'f'.toUInt8) = answer b (frame (text "?") '3'.toUInt8 'f'.toUInt8) := by
  obtain ⟨b, ran, index, target⟩ := freshStub_commas
  have room : 0 < packetBufferSize := by decide
  have plain : ∀ c ∈ ['?'.toUInt8], Plain c := by
    intro c member
    cases List.mem_singleton.mp member
    exact ⟨by decide, by decide, by decide⟩
  have stays : Stays ['?'.toUInt8] := by
    refine ⟨?_, ?_, ?_, by decide, by decide⟩
    all_goals
      intro args same
      cases same
  exact ⟨b, ran, packet_history_free (.init _ _) (Reachable.feed (.init _ _) ran) room (index ▸ room) target.symm
    plain rfl rfl stays⟩

/-- A request without a comma. The byte behind it is a comma of the packet before. -/
theorem stale_comma : ∃ a b : Stub, ∃ payload h0 h1, Reachable a ∧ Reachable b ∧ a.index < packetBufferSize ∧
    b.index < packetBufferSize ∧ a.target = b.target ∧ (∀ c ∈ payload, Plain c) ∧ isDigit 16 h0 = true ∧
    isDigit 16 h1 = true ∧ hexByte h0 h1 = byteSum payload ∧
    answer a (frame payload h0 h1) ≠ answer b (frame payload h0 h1) := by
  obtain ⟨b, ran, index, target⟩ := freshStub_commas
  have room : 0 < packetBufferSize := by decide
  have plain : ∀ c ∈ ['m'.toUInt8], Plain c := by
    intro c member
    cases List.mem_singleton.mp member
    exact ⟨by decide, by decide, by decide⟩
  refine ⟨freshStub, b, ['m'.toUInt8], '6'.toUInt8, 'd'.toUInt8, .init _ _, Reachable.feed (.init _ _) ran, room,
    index ▸ room, target.symm, plain, rfl, rfl, rfl, ?_⟩
  intro same
  have refused : (answer freshStub (frame ['m'.toUInt8] '6'.toUInt8 'd'.toUInt8)).toOption.map Prod.fst =
      some (text "+$E00#a5") := by decide +kernel
  have accepted : (answer ((feed freshStub commas).toOption.getD freshStub)
      (frame ['m'.toUInt8] '6'.toUInt8 'd'.toUInt8)).toOption.map Prod.fst = some (text "+$E01#a6") := by decide +kernel
  rw [ran] at accepted
  have equal := refused.symm.trans (same ▸ accepted)
  exact absurd equal (by decide)

end EvalynOS.Dbgstub
