import EvalynOS.Drivers.DbgstubFraming

/-! What a command does to what is seen from outside: the bytes on the line, and the target. -/
namespace EvalynOS.Dbgstub
open Strings DrX

def Stub.view (s : Stub) : List UInt8 × Target := (s.output, s.target)

/- A string as dbgstub_send transmits it. -/
def framed (l : List UInt8) : List UInt8 := frame l (hexOf (byteSum l / 16)) (hexOf (byteSum l % 16))

section Replies

variable {s : Stub} {source : Source} {l : List UInt8}

theorem view_ok {result : Except Fault Stub} {output : List UInt8} {target : Target}
    (view : result.map Stub.view = .ok (output, target)) :
    ∃ s', result = .ok s' ∧ s'.output = output ∧ s'.target = target := by
  cases result with
  | error fault => cases view
  | ok s' =>
    obtain ⟨same, same'⟩ := Prod.mk.inj (Except.ok.inj view)
    exact ⟨s', rfl, same, same'⟩

theorem dbgstubSend_view (reads : Reads source s l) (clean : (0 : UInt8) ∉ l) :
    (dbgstubSend s source).map Stub.view =
      if l.length + 5 ≤ bufferSize then .ok (s.output ++ framed l, s.target) else .error .overflow := by
  split
  · rename_i room
    obtain ⟨buffer, sent⟩ := dbgstubSend_sent reads clean room
    rw [sent]
    rfl
  · rename_i full
    rw [dbgstubSend_overflow reads clean (Nat.lt_of_not_le full)]
    rfl

theorem sendBuffer_view {buffer : Buffer} {rest : List UInt8} (bytes : buffer.bytes = l ++ 0 :: rest)
    (clean : (0 : UInt8) ∉ l) :
    (dbgstubSend { s with sendBuffer := buffer } .sendBuffer).map Stub.view =
      if l.length + 5 ≤ bufferSize then .ok (s.output ++ framed l, s.target) else .error .overflow :=
  @dbgstubSend_view { s with sendBuffer := buffer } _ _ (reads_sendBuffer bytes) clean

/- An answer that can be sent. -/
def Sendable (answer : String) : Prop := (0 : UInt8) ∉ text answer ∧ (text answer).length + 5 ≤ bufferSize

theorem reply_view {answer : String} (sendable : Sendable answer) :
    (s.reply answer).map Stub.view = .ok (s.output ++ framed (text answer), s.target) := by
  rw [Stub.reply, dbgstubSend_view (reads_text s (text answer)) sendable.1, if_pos sendable.2]

theorem reply_ok {answer : String} (sendable : Sendable answer) : ∃ s', s.reply answer = .ok s' := by
  obtain ⟨buffer, sent⟩ := dbgstubSend_sent (reads_text s (text answer)) sendable.1 sendable.2
  exact ⟨_, sent⟩

theorem sendable_texts : Sendable "PacketSize=4000;hwbreak+;swbreak-;multiprocess-;multi-wp-addr-" ∧ Sendable "1" ∧
    Sendable "S05" ∧ Sendable "OK" ∧ Sendable "E00" ∧ Sendable "E01" ∧ Sendable "E02" ∧ Sendable "E03" ∧
    Sendable "E.INVALID_BREAKPOINT" ∧ Sendable "E.OUT_OF_HARDWARE_BREAKPOINTS" ∧ Sendable "" := by
  unfold Sendable
  decide

end Replies

/-! The name of a command. -/

section Commands

variable {s : Stub} {t rest : List UInt8} {h0 h1 : UInt8}

theorem isCommand_iff {name : String} (clean : (0 : UInt8) ∉ text name) :
    s.isCommand name = true ↔ text name <+: s.recv.bytes := by
  rw [Stub.isCommand, decide_eq_true_iff, strncmp_eq_zero clean]

/-- A name without '#' is read from the packet only. -/
theorem prefix_frame {name : List UInt8} (plain : '#'.toUInt8 ∉ name) :
    name <+: frame t h0 h1 ++ rest ↔ name <+: '$'.toUInt8 :: t := by
  have shape : frame t h0 h1 ++ rest = ('$'.toUInt8 :: t) ++ '#'.toUInt8 :: (h0 :: h1 :: rest) := by simp [frame]
  rw [shape]
  constructor
  · intro here
    rcases List.prefix_or_prefix_of_prefix here (List.prefix_append ('$'.toUInt8 :: t) _) with inside | ⟨more, longer⟩
    · exact inside
    · cases more with
      | nil => exact ⟨[], by simpa using longer.symm⟩
      | cons c more =>
        rw [← longer] at here plain
        have first := (List.prefix_append_right_inj ('$'.toUInt8 :: t)).mp here
        obtain ⟨same, _⟩ := List.cons_prefix_cons.mp first
        exact absurd (by simp [same]) plain
  · intro inside
    exact inside.trans (List.prefix_append _ _)

theorem names_plain : ∀ command ∈ commands, (0 : UInt8) ∉ text command.1 ∧ '#'.toUInt8 ∉ text command.1 := by
  have names : ∀ name ∈ commands.map Prod.fst, (0 : UInt8) ∉ text name ∧ '#'.toUInt8 ∉ text name := by decide
  exact fun command member => names _ (List.mem_map_of_mem member)

/-- The letter of a packet names its command, when no other name begins with it. -/
theorem runCommand_letter {c : UInt8} {command : String × (Stub → Except Fault Stub)}
    (bytes : s.recv.bytes = frame (c :: t) h0 h1 ++ rest)
    (alone : ∀ name ∈ commands.map Prod.fst, (text name)[1]? = some c → text name = ['$'.toUInt8, c])
    (listed : commands.find? (fun command => text command.1 = ['$'.toUInt8, c]) = some command) :
    runCommand s = command.2 s := by
  have shape : ∀ name ∈ commands.map Prod.fst, (text name)[0]? = some '$'.toUInt8 := by decide
  have names : ∀ other ∈ commands, s.isCommand other.1 = decide (text other.1 = ['$'.toUInt8, c]) := by
    intro other member
    obtain ⟨clean, plain⟩ := names_plain other member
    rw [Bool.eq_iff_iff, isCommand_iff clean, bytes, prefix_frame plain, decide_eq_true_iff]
    have opens := shape _ (List.mem_map_of_mem member)
    have single := alone _ (List.mem_map_of_mem member)
    constructor
    · intro here
      match named : text other.1, here with
      | [], _ =>
        rw [named] at opens
        cases opens
      | [d], _ =>
        -- no command is named by the '$' alone
        have long : ∀ name ∈ commands.map Prod.fst, (text name).length ≠ 1 := by decide
        exact absurd (by rw [named]; rfl) (long _ (List.mem_map_of_mem member))
      | d :: e :: more, here =>
        have second := (List.cons_prefix_cons.mp (List.cons_prefix_cons.mp here).2).1
        have isLetter : (text other.1)[1]? = some c := by
          rw [named, ← second]
          rfl
        rw [← named]
        exact single isLetter
    · intro named
      rw [named]
      exact ⟨t, rfl⟩
  unfold runCommand
  rw [List.find?_congr names, listed]

end Commands

/-! Writing into a buffer from its start. -/

section Filled

variable {b : Buffer} {p l : List UInt8}

theorem Buffer.writeAll_behind (here : p <+: b.bytes) (room : p.length + l.length ≤ bufferSize) :
    ∃ b', b.writeAll p.length l = .ok b' ∧ p ++ l <+: b'.bytes := by
  induction l generalizing p b with
  | nil => exact ⟨b, rfl, by rwa [List.append_nil]⟩
  | cons c l ih =>
    rw [List.length_cons] at room
    have bound : p.length < bufferSize := by omega
    obtain ⟨b', ran, after⟩ := @ih (b.put p.length c) (p ++ [c]) (Buffer.put_behind here bound) (by simp; omega)
    refine ⟨b', ?_, by simpa using after⟩
    rw [List.length_append, List.length_singleton] at ran
    simp only [Buffer.writeAll, Buffer.write_eq _ bound, bind, Except.bind, ran]

theorem Buffer.writeAll_start (b : Buffer) {l : List UInt8} (room : l.length ≤ bufferSize) :
    ∃ b' rest, b.writeAll 0 l = .ok b' ∧ b'.bytes = l ++ rest := by
  obtain ⟨b', filled, ⟨rest, bytes⟩⟩ := @Buffer.writeAll_behind b [] l List.nil_prefix (by simpa using room)
  exact ⟨b', rest, filled, bytes.symm⟩

theorem hexOf_ne_zero : ∀ n < 16, hexOf n ≠ 0 := by decide

theorem length_hexField (width v : Nat) (digits : List UInt8) :
    (hexField width v digits).length = width + digits.length := by
  induction width generalizing v digits with
  | zero => simp [hexField]
  | succ width ih =>
    rw [hexField, ih, List.length_cons]
    omega

theorem hexField_clean (width v : Nat) {digits : List UInt8} (clean : (0 : UInt8) ∉ digits) :
    (0 : UInt8) ∉ hexField width v digits := by
  induction width generalizing v digits with
  | zero => exact clean
  | succ width ih =>
    apply ih
    intro member
    rcases List.mem_cons.mp member with same | old
    · exact hexOf_ne_zero _ (Nat.mod_lt _ (by decide)) same.symm
    · exact clean old

def packedFrame (frame : Frame) : List UInt8 := packedRegisters.flatMap (packReg frame)

theorem length_packedFrame (frame : Frame) : (packedFrame frame).length = 296 := by
  simp [packedFrame, packedRegisters, packReg, length_hexField]

theorem packedFrame_clean (frame : Frame) : (0 : UInt8) ∉ packedFrame frame := by
  intro member
  obtain ⟨field, _, digit⟩ := List.mem_flatMap.mp member
  exact hexField_clean _ _ List.not_mem_nil digit

/-- The registers fit the buffers. -/
theorem readRegisters_view (s : Stub) :
    (readRegisters s).map Stub.view = .ok (s.output ++ framed (packedFrame s.target.lastFrame), s.target) := by
  have room : (packedFrame s.target.lastFrame).length + 5 ≤ bufferSize := by
    rw [length_packedFrame]
    decide
  obtain ⟨buffer, rest, filled, bytes⟩ := @Buffer.writeAll_start s.sendBuffer (packedFrame s.target.lastFrame ++ [0])
    (by rw [List.length_append]; exact Nat.le_trans (Nat.add_le_add_left (by decide) _) room)
  rw [List.append_assoc] at bytes
  have ran : readRegisters s = dbgstubSend { s with sendBuffer := buffer } .sendBuffer := by
    unfold readRegisters
    rw [← packedFrame, filled]
    rfl
  rw [ran, sendBuffer_view bytes (packedFrame_clean _), if_pos room]

end Filled

/-! Reading memory. -/

def byteDigits (byte : UInt8) : List UInt8 := [hexOf (byte.toNat / 16), hexOf (byte.toNat % 16)]

/- The text of the bytes behind the first `k`, where they can be read and have room. -/
def dump (t : Target) (addr : Nat) : Nat → Nat → Except Fault (Option (List UInt8))
  | 0, _ => .ok (some [])
  | n + 1, k =>
    match safeReadByte t (BitVec.ofNat 64 (addr + k)) with
    | none => .ok none
    | some byte =>
      if k * 2 + 1 < bufferSize then (dump t addr n (k + 1)).map (Option.map (byteDigits byte ++ ·))
      else .error .overflow

section Dump

variable {t : Target} {addr n k : Nat} {b : Buffer} {p : List UInt8}

/- The outcome of the loop, of which the buffer before it is no part but its beginning. -/
def Dumped (p : List UInt8) : Except Fault (Option (List UInt8)) → Except Fault (Bool × Buffer) → Prop
  | .error fault, result => result = .error fault
  | .ok none, result => ∃ b, result = .ok (false, b)
  | .ok (some l), result => ∃ b, result = .ok (true, b) ∧ p ++ l <+: b.bytes

theorem readBytes_dumped (here : p <+: b.bytes) (at_ : p.length = k * 2) :
    Dumped p (dump t addr n k) (readBytes t addr n k b) := by
  induction n generalizing k b p with
  | zero => exact ⟨b, rfl, by rwa [List.append_nil]⟩
  | succ n ih =>
    unfold readBytes dump
    cases read : safeReadByte t (BitVec.ofNat 64 (addr + k)) with
    | none => exact ⟨b, rfl⟩
    | some byte =>
      by_cases room : k * 2 + 1 < bufferSize
      · have first : k * 2 < bufferSize := by omega
        have one : p ++ [hexOf (byte.toNat / 16)] <+: (b.put (k * 2) (hexOf (byte.toNat / 16))).bytes := by
          rw [← at_]
          exact Buffer.put_behind here (by omega)
        have two := @Buffer.put_behind _ (hexOf (byte.toNat % 16)) _ one (by simp; omega)
        rw [List.length_append, List.length_singleton, at_, List.append_assoc] at two
        have step := @ih (k + 1) _ _ two (by simp [at_]; omega)
        simp only [if_pos room, Buffer.write_eq _ first, Buffer.write_eq _ room, bind, Except.bind]
        revert step
        cases dump t addr n (k + 1) with
        | error fault => exact id
        | ok text =>
          cases text with
          | none => exact id
          | some l =>
            rintro ⟨b', ran, after⟩
            exact ⟨b', ran, by simpa [byteDigits] using after⟩
      · simp only [if_neg room]
        by_cases first : k * 2 < bufferSize
        · simp only [Buffer.write, if_pos first, if_neg room, bind, Except.bind, Dumped]
        · simp only [Buffer.write, if_neg first, bind, Except.bind, Dumped]

theorem dump_text {l : List UInt8} (dumped : dump t addr n k = .ok (some l)) :
    l.length = n * 2 ∧ (0 : UInt8) ∉ l := by
  induction n generalizing k l with
  | zero =>
    cases dumped
    exact ⟨rfl, List.not_mem_nil⟩
  | succ n ih =>
    unfold dump at dumped
    split at dumped
    · cases dumped
    · rename_i byte _
      split at dumped
      · cases rest : dump t addr n (k + 1) with
        | error fault =>
          rw [rest] at dumped
          cases dumped
        | ok text =>
          rw [rest] at dumped
          cases text with
          | none => cases dumped
          | some more =>
            cases dumped
            obtain ⟨length, clean⟩ := ih rest
            have high := hexOf_ne_zero (byte.toNat / 16) (by have bound := byte.toNat_lt; omega)
            have low := hexOf_ne_zero (byte.toNat % 16) (by omega)
            refine ⟨?_, ?_⟩
            · rw [List.length_append, length, byteDigits]
              simp only [List.length_cons, List.length_nil]
              omega
            · simp [byteDigits, high.symm, low.symm, clean]
      · cases dumped

end Dump

/- What is answered to the request for `length` bytes at `addr`. -/
def readReply (view : List UInt8 × Target) (addr length : Nat) : Except Fault (List UInt8 × Target) :=
  if length = 0 then .ok (view.1 ++ framed (text "E01"), view.2)
  else match dump view.2 addr length 0 with
    | .error fault => .error fault
    | .ok none => .ok (view.1 ++ framed (text "E02"), view.2)
    | .ok (some l) =>
      if l.length + 5 ≤ bufferSize then .ok (view.1 ++ framed l, view.2) else .error .overflow

section Read

variable {s : Stub} {address count rest : List UInt8} {h0 h1 : UInt8} {addr length : Nat}

theorem map_bind {α : Type} {x : Except Fault α} {f : α → Except Fault Stub} {v : α} (ran : x = .ok v) :
    (x >>= f).map Stub.view = (f v).map Stub.view := by
  rw [ran]
  rfl

theorem Buffer.put_at {b : Buffer} {p r : List UInt8} {c d : UInt8} (bytes : b.bytes = p ++ c :: r) :
    (b.put p.length d).bytes = p ++ d :: r := by
  unfold Buffer.put
  simp only [bytes]
  rw [List.set_append_right _ _ (Nat.le_refl _), Nat.sub_self, List.set_cons_zero]

theorem Buffer.at_lt {b : Buffer} {p r : List UInt8} {c : UInt8} (bytes : b.bytes = p ++ c :: r) :
    p.length < bufferSize := by
  rw [← b.size, bytes, List.length_append, List.length_cons]
  omega

/-- The bytes are read and sent. -/
theorem sendMemory_view (s : Stub) (addr length : Nat) :
    (sendMemory s addr length).map Stub.view = readReply s.view addr length := by
  unfold sendMemory readReply
  by_cases none : length = 0
  · rw [if_pos none, if_pos none, reply_view sendable_texts.2.2.2.2.2.1]
    rfl
  rw [if_neg none, if_neg none]
  have dumped := @readBytes_dumped s.target addr length 0 s.sendBuffer [] List.nil_prefix rfl
  change Dumped [] (dump s.view.2 addr length 0) _ at dumped
  cases text : dump s.view.2 addr length 0 with
  | error fault =>
    rw [text] at dumped
    rw [dumped]
    rfl
  | ok outcome =>
    rw [text] at dumped
    cases outcome with
    | none =>
      obtain ⟨buffer, ran⟩ := dumped
      rw [map_bind ran]
      exact reply_view sendable_texts.2.2.2.2.2.2.1
    | some l =>
      obtain ⟨buffer, ran, here⟩ := dumped
      obtain ⟨double, clean⟩ := dump_text text
      have fits : l.length ≤ bufferSize := by
        rw [← buffer.size]
        exact here.length_le
      have small : bufferSize < 2 ^ 64 := by decide
      have product : length * 2 % 2 ^ 64 = l.length := by
        rw [double]
        exact Nat.mod_eq_of_lt (by omega)
      rw [map_bind ran, product]
      by_cases room : l.length < bufferSize
      · obtain ⟨more, bytes⟩ := @Buffer.put_behind _ 0 _ here room
        have written : buffer.write l.length 0 = .ok (buffer.put l.length 0) := Buffer.write_eq _ room
        have shape : (buffer.put l.length 0).bytes = l ++ 0 :: more := by
          rw [← List.nil_append l, ← bytes]
          simp
        exact (map_bind written).trans (sendBuffer_view shape clean)
      · have full : buffer.write l.length 0 = .error .overflow := if_neg room
        have tooLong : ¬ l.length + 5 ≤ bufferSize := by omega
        simp only [↓reduceIte, if_neg tooLong, full, bind, Except.bind, Except.map]

/-- The address and the length stand around the first comma, wherever that is. -/
theorem readMemory_around (bytes : s.recv.bytes = '$'.toUInt8 :: 'm'.toUInt8 :: (address ++ ','.toUInt8 :: rest))
    (first : ','.toUInt8 ∉ address) (clean : (0 : UInt8) ∉ address)
    (isAddr : strtoull (address ++ [0]) 16 = some addr) (isLength : strtoull rest 16 = some length) :
    (readMemory s).map Stub.view = readReply s.view addr length := by
  let start := ['$'.toUInt8, 'm'.toUInt8] ++ address
  have shape : s.recv.bytes = start ++ ','.toUInt8 :: rest := by
    rw [bytes]
    simp [start]
  have place : start.length = 2 + address.length := by simp [start]; omega
  have found : strchr ','.toUInt8 (s.recv.bytes.drop 2) = some (some address.length) := by
    rw [bytes, List.drop_succ_cons, List.drop_succ_cons, List.drop_zero]
    exact strchr_found first clean (by decide) _
  have written : s.recv.write (2 + address.length) 0 = .ok (s.recv.put (2 + address.length) 0) := by
    rw [← place]
    exact Buffer.write_eq _ (Buffer.at_lt shape)
  have after : (s.recv.put (2 + address.length) 0).bytes = start ++ 0 :: rest := by
    rw [← place]
    exact Buffer.put_at shape
  have addrRead : strtoull ((s.recv.put (2 + address.length) 0).bytes.drop 2) 16 = some addr := by
    have behind : (start ++ 0 :: rest).drop 2 = address ++ 0 :: rest := by simp [start]
    rw [after, behind, strtoull_terminated address isDigit_zero, isAddr]
  have lengthRead : strtoull ((s.recv.put (2 + address.length) 0).bytes.drop (2 + address.length + 1)) 16 =
      some length := by
    have behind : (start ++ 0 :: rest).drop (start.length + 1) = rest := by
      rw [List.drop_append]
      simp
    rw [after, ← place, behind, isLength]
  unfold readMemory
  rw [found]
  refine (map_bind rfl).trans ?_
  refine (map_bind written).trans ?_
  rw [addrRead]
  refine (map_bind rfl).trans ?_
  rw [lengthRead]
  refine (map_bind rfl).trans ?_
  exact sendMemory_view { s with recv := s.recv.put (2 + address.length) 0 } addr length

theorem readMemory_view (bytes : s.recv.bytes = frame ('m'.toUInt8 :: (address ++ ','.toUInt8 :: count)) h0 h1 ++ rest)
    (first : ','.toUInt8 ∉ address) (clean : (0 : UInt8) ∉ address)
    (isAddr : strtoull (address ++ [0]) 16 = some addr) (isLength : strtoull (count ++ [0]) 16 = some length) :
    (readMemory s).map Stub.view = readReply s.view addr length := by
  have shape : s.recv.bytes = '$'.toUInt8 :: 'm'.toUInt8 ::
      (address ++ ','.toUInt8 :: (count ++ '#'.toUInt8 :: h0 :: h1 :: rest)) := by
    rw [bytes]
    simp [frame]
  exact readMemory_around shape first clean isAddr ((strtoull_terminated count rfl).trans isLength)

theorem drop_args {args : List UInt8} {c : UInt8} (bytes : s.recv.bytes = frame (c :: args) h0 h1 ++ rest) :
    s.recv.bytes.drop 2 = args ++ '#'.toUInt8 :: h0 :: h1 :: rest := by
  rw [bytes]
  simp [frame]

/-- The text of the request ends before its comma. -/
theorem readMemory_refused {p r : List UInt8}
    (bytes : s.recv.bytes = frame ('m'.toUInt8 :: (p ++ 0 :: r)) h0 h1 ++ rest) (absent : ','.toUInt8 ∉ p) (clean : (0 : UInt8) ∉ p) :
    (readMemory s).map Stub.view = .ok (s.output ++ framed (text "E00"), s.target) := by
  have found : strchr ','.toUInt8 (s.recv.bytes.drop 2) = some none := by
    rw [drop_args bytes, List.append_assoc, List.cons_append]
    exact strchr_none absent clean (by decide) _
  unfold readMemory
  rw [found]
  exact (map_bind rfl).trans (reply_view sendable_texts.2.2.2.2.1)

end Read

end EvalynOS.Dbgstub
