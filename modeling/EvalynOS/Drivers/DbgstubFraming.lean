import EvalynOS.Drivers.Dbgstub

/-! Frames on the serial line. A frame is taken from any state of the receiver, and what
dbgstub_send puts on the line is a frame. -/
namespace EvalynOS.Dbgstub
open Strings DrX

def frame (payload : List UInt8) (h0 h1 : UInt8) : List UInt8 :=
  '$'.toUInt8 :: payload ++ ['#'.toUInt8, h0, h1]

/- A byte that a frame can have in its payload. -/
def Plain (c : UInt8) : Prop := c ≠ '$'.toUInt8 ∧ c ≠ '#'.toUInt8 ∧ c ≠ '}'.toUInt8

def byteSum (payload : List UInt8) : Nat := (payload.map UInt8.toNat).sum % 256

def hexByte (h0 h1 : UInt8) : Nat := (digitOf h0).getD 0 * 16 + (digitOf h1).getD 0

/-! Bytes that do not complete a packet. -/
inductive Quiet : Stub → List UInt8 → Stub → Prop where
  | nil {s : Stub} : Quiet s [] s
  | cons {s s' s'' : Stub} {c : UInt8} {rest : List UInt8} : rxByte s c = .ok (false, s') → Quiet s' rest s'' →
      Quiet s (c :: rest) s''

section Buffers

variable {p l : List UInt8} {c : UInt8} {b : Buffer}

theorem Buffer.write_eq (b : Buffer) {i : Nat} (bound : i < bufferSize) : b.write i c = .ok (b.put i c) :=
  if_pos bound

theorem Buffer.put_behind (here : p <+: b.bytes) (bound : p.length < bufferSize) :
    p ++ [c] <+: (b.put p.length c).bytes := by
  obtain ⟨rest, whole⟩ := here
  rw [← b.size, ← whole] at bound
  unfold Buffer.put
  simp only [← whole]
  cases rest with
  | nil => simp at bound
  | cons x rest =>
    rw [List.set_append_right p.length c (Nat.le_refl _), Nat.sub_self, List.set_cons_zero]
    exact ⟨rest, by simp⟩

theorem Buffer.put_drop (b : Buffer) (c : UInt8) {i n : Nat} (before : i < n) :
    (b.put i c).bytes.drop n = b.bytes.drop n := List.drop_set_of_lt before

/-- The terminator of dbgstub_rx leaves one byte of an older packet before it. -/
theorem Buffer.put_terminator (here : p <+: b.bytes) (bound : p.length + 1 < bufferSize) :
    ∃ stale rest, (b.put (p.length + 1) 0).bytes = p ++ stale :: 0 :: rest ∧
      ∃ old, b.bytes.drop p.length = stale :: old :: rest := by
  obtain ⟨rest, whole⟩ := here
  rw [← b.size, ← whole] at bound
  unfold Buffer.put
  simp only [← whole]
  match rest, bound with
  | [], bound => simp at bound
  | [x], bound => simp at bound
  | x :: y :: rest, _ =>
    refine ⟨x, rest, ?_, y, ?_⟩
    · rw [List.set_append_right _ _ (Nat.le_succ _)]
      simp
    · exact List.drop_left

end Buffers

/-! The receiver. -/

def Stub.receiving (s : Stub) (recv : Buffer) (index : Nat) : Stub :=
  { s with recv := recv, index := index, middle := true, ended := false }

def Stub.ending (s : Stub) (recv : Buffer) (index endCount : Nat) : Stub :=
  { s with recv := recv, index := index, middle := false, ended := true, endCount := endCount }

/- The receiver is outside any packet. -/
def Stub.idle (s : Stub) (recv : Buffer) : Stub :=
  { s with recv := recv, endCount := 0, index := 0, middle := false, ended := false }

section Receive

variable {s s' : Stub} {recv : Buffer} {p t payload : List UInt8} {c h0 h1 : UInt8}

def Stub.nextCount (s : Stub) : Nat := if s.ended then s.endCount + 1 else s.endCount

theorem rxByte_stored (room : s.index < packetBufferSize) (switch : rxSwitch s c = .ok (true, s'))
    (bound : s'.index < bufferSize) (more : s'.nextCount ≠ 3) :
    rxByte s c = .ok (false, { s' with
      recv := s'.recv.put s'.index c, index := s'.index + 1, endCount := s'.nextCount }) := by
  unfold Stub.nextCount at more ⊢
  simp only [rxByte, if_neg (Nat.ne_of_lt room), switch, bind, Except.bind, ↓reduceIte, rxStore,
    Buffer.write_eq _ bound, if_neg more]

theorem rx_start (room : s.index < packetBufferSize) (count : s.endCount ≤ 2) :
    rxByte s '$'.toUInt8 = .ok (false, s.receiving (s.recv.put 0 '$'.toUInt8) 1) := by
  have switch : rxSwitch s '$'.toUInt8 = .ok (true, s.startPacket) := rfl
  have bound : 0 < bufferSize := by decide
  refine rxByte_stored room switch bound ?_
  change s.endCount ≠ 3
  omega

theorem rxSwitch_data (middle : s.middle = true) (plain : Plain c) (data : c ≠ 3) : rxSwitch s c = .ok (true, s) := by
  obtain ⟨notStart, notEnd, notEscape⟩ := plain
  simp only [rxSwitch, if_neg data, middle, if_neg notStart, if_neg notEnd, if_neg notEscape, ↓reduceIte, ite_self]

theorem rx_data (room : p.length < packetBufferSize) (count : s.endCount ≤ 2) (plain : Plain c) (data : c ≠ 3) :
    rxByte (s.receiving recv p.length) c = .ok (false, s.receiving (recv.put p.length c) (p ++ [c]).length) := by
  rw [List.length_append]
  refine rxByte_stored room (rxSwitch_data rfl plain data) (Nat.lt_trans room (by decide)) ?_
  change s.endCount ≠ 3
  omega

/-- An interrupt byte in a packet is dropped. -/
theorem rx_dropped (room : p.length < packetBufferSize) :
    rxByte (s.receiving recv p.length) 3 = .ok (false, s.receiving recv p.length) := by
  have notFull : ¬ (s.receiving recv p.length).index = packetBufferSize := Nat.ne_of_lt room
  unfold rxByte
  rw [if_neg notFull]
  rfl

theorem rx_full (full : s.index = packetBufferSize) (c : UInt8) : rxByte s c = .error .panic := if_pos full

theorem rx_end (room : p.length < packetBufferSize) :
    rxByte (s.receiving recv p.length) '#'.toUInt8 =
      .ok (false, s.ending (recv.put p.length '#'.toUInt8) (p ++ ['#'.toUInt8]).length 1) := by
  rw [List.length_append]
  have switch : rxSwitch (s.receiving recv p.length) '#'.toUInt8 = .ok (true, s.ending recv p.length 0) := rfl
  have more : 1 ≠ 3 := by decide
  exact rxByte_stored room switch (Nat.lt_trans room (by decide)) more

/- Hexadecimal digits have no meaning of their own to the receiver. -/
theorem rxSwitch_hex (hex : isDigit 16 c = true) : rxSwitch s c = .ok (true, s) := by
  have other : ∀ d, isDigit 16 d = false → c ≠ d := by
    rintro d special rfl
    rw [special] at hex
    cases hex
  simp only [rxSwitch, if_neg (other 3 rfl), if_neg (other '+'.toUInt8 rfl), if_neg (other '-'.toUInt8 rfl),
    if_neg (other '}'.toUInt8 rfl), if_neg (other '$'.toUInt8 rfl), if_neg (other '%'.toUInt8 rfl),
    if_neg (other '#'.toUInt8 rfl)]

theorem rx_first (room : p.length < packetBufferSize) (hex : isDigit 16 c = true) :
    rxByte (s.ending recv p.length 1) c = .ok (false, s.ending (recv.put p.length c) (p ++ [c]).length 2) := by
  rw [List.length_append]
  have more : 2 ≠ 3 := by decide
  exact rxByte_stored room (rxSwitch_hex hex) (Nat.lt_trans room (by decide)) more

theorem rx_second (room : p.length < packetBufferSize) (hex : isDigit 16 c = true) :
    rxByte (s.ending recv p.length 2) c =
      .ok (true, s.idle ((recv.put p.length c).put (p.length + 2) 0)) := by
  have notFull : ¬ (s.ending recv p.length 2).index = packetBufferSize := Nat.ne_of_lt room
  have here : p.length < bufferSize := Nat.lt_trans room (by decide)
  have behind : p.length + 1 + 1 < bufferSize := by
    unfold bufferSize
    omega
  unfold rxByte
  rw [if_neg notFull, rxSwitch_hex hex]
  simp only [bind, Except.bind, ↓reduceIte, rxStore, Stub.ending, Buffer.write_eq _ here, Buffer.write_eq _ behind]
  rfl

theorem Quiet.snoc {bytes : List UInt8} {s'' : Stub} (quiet : Quiet s bytes s') (step : rxByte s' c = .ok (false, s'')) :
    Quiet s (bytes ++ [c]) s'' := by
  induction quiet with
  | nil => exact .cons step .nil
  | cons first _ ih => exact .cons first (ih step)

/- What the receiver stores of a payload. -/
def stored (payload : List UInt8) : List UInt8 := payload.filter (· ≠ 3)

/-- The payload follows what is in the buffer. -/
theorem quiet_payload (here : p <+: recv.bytes) (room : p.length + (stored payload).length < packetBufferSize)
    (count : s.endCount ≤ 2) (plain : ∀ c ∈ payload, Plain c) :
    ∃ recv', Quiet (s.receiving recv p.length) payload (s.receiving recv' (p ++ stored payload).length) ∧
      p ++ stored payload <+: recv'.bytes ∧
      ∀ n, (p ++ stored payload).length ≤ n → recv'.bytes.drop n = recv.bytes.drop n := by
  induction payload generalizing p recv with
  | nil =>
    refine ⟨recv, ?_, ?_, fun _ _ => rfl⟩
    · rw [stored, List.filter_nil, List.append_nil]
      exact .nil
    · rwa [stored, List.filter_nil, List.append_nil]
  | cons c payload ih =>
    have plainRest : ∀ d ∈ payload, Plain d := fun d member => plain d (List.mem_cons_of_mem _ member)
    by_cases data : c = 3
    · subst data
      have skip : stored (3 :: payload) = stored payload := rfl
      rw [skip] at room ⊢
      obtain ⟨recv', quiet, after⟩ := ih here room plainRest
      exact ⟨recv', .cons (rx_dropped (by omega)) quiet, after⟩
    · have keep : stored (c :: payload) = c :: stored payload := by simp [stored, data]
      rw [keep] at room ⊢
      rw [List.length_cons] at room
      have first := @rx_data s recv p c (by omega) count (plain c List.mem_cons_self) data
      have bound : p.length < bufferSize := by
        unfold bufferSize
        omega
      obtain ⟨recv', quiet, after, behind⟩ := ih (@Buffer.put_behind p c recv here bound) (by simp; omega) plainRest
      rw [List.append_assoc, List.singleton_append] at quiet after behind
      refine ⟨recv', .cons first quiet, after, ?_⟩
      intro n far
      rw [behind n far]
      rw [List.length_append, List.length_cons] at far
      exact Buffer.put_drop recv c (by omega)

/-- A frame is taken without a call of dbgstub_process_packet up to its last byte. Behind it the
buffer is as it was, but for the terminator. -/
theorem quiet_frame_behind (room : s.index < packetBufferSize) (count : s.endCount ≤ 2) (plain : ∀ c ∈ payload, Plain c)
    (short : (stored payload).length + 4 ≤ packetBufferSize) (hex0 : isDigit 16 h0 = true) (hex1 : isDigit 16 h1 = true) :
    ∃ s₁ recv stale rest, Quiet s ('$'.toUInt8 :: payload ++ ['#'.toUInt8, h0]) s₁ ∧
      rxByte s₁ h1 = .ok (true, s.idle recv) ∧ recv.bytes = frame (stored payload) h0 h1 ++ stale :: 0 :: rest ∧
      ∃ old, s.recv.bytes.drop ((stored payload).length + 4) = stale :: old :: rest := by
  have whole : bufferSize = packetBufferSize + 16 := rfl
  have opened : ['$'.toUInt8] <+: (s.recv.put 0 '$'.toUInt8).bytes :=
    @Buffer.put_behind [] '$'.toUInt8 s.recv List.nil_prefix (by decide)
  obtain ⟨recv, quiet, here, behind⟩ := @quiet_payload s _ _ payload opened (by simp; omega) count plain
  let body := ['$'.toUInt8] ++ stored payload
  have length : body.length = (stored payload).length + 1 := by simp [body]
  have here₁ : body ++ ['#'.toUInt8] <+: (recv.put body.length '#'.toUInt8).bytes :=
    Buffer.put_behind here (by omega)
  have here₂ : body ++ ['#'.toUInt8] ++ [h0] <+: ((recv.put body.length '#'.toUInt8).put
      (body ++ ['#'.toUInt8]).length h0).bytes := Buffer.put_behind here₁ (by simp; omega)
  have here₃ := @Buffer.put_behind _ h1 _ here₂ (by simp; omega)
  obtain ⟨stale, rest, bytes, old, before⟩ := Buffer.put_terminator here₃ (by simp; omega)
  have ends := @rx_end s recv body (by omega)
  have first := @rx_first s (recv.put body.length '#'.toUInt8) (body ++ ['#'.toUInt8]) h0 (by simp; omega) hex0
  have second := @rx_second s ((recv.put body.length '#'.toUInt8).put (body ++ ['#'.toUInt8]).length h0)
    (body ++ ['#'.toUInt8] ++ [h0]) h1 (by simp; omega) hex1
  refine ⟨_, _, stale, rest, ?_, second, ?_, old, ?_⟩
  · have quiet' := ((Quiet.cons (rx_start room count) quiet).snoc ends).snoc first
    simpa using quiet'
  · have shape : body ++ ['#'.toUInt8] ++ [h0] ++ [h1] = frame (stored payload) h0 h1 := by simp [body, frame]
    rw [← shape, ← bytes]
    simp
  · have total : (body ++ ['#'.toUInt8] ++ [h0] ++ [h1]).length = (stored payload).length + 4 := by simp [body]
    rw [total, Buffer.put_drop _ _ (by simp; omega), Buffer.put_drop _ _ (by simp; omega),
      Buffer.put_drop _ _ (by omega), behind _ (by simp), Buffer.put_drop _ _ (by omega)] at before
    exact before

theorem quiet_frame (room : s.index < packetBufferSize) (count : s.endCount ≤ 2) (plain : ∀ c ∈ payload, Plain c)
    (short : (stored payload).length + 4 ≤ packetBufferSize) (hex0 : isDigit 16 h0 = true) (hex1 : isDigit 16 h1 = true) :
    ∃ s₁ recv stale rest, Quiet s ('$'.toUInt8 :: payload ++ ['#'.toUInt8, h0]) s₁ ∧
      rxByte s₁ h1 = .ok (true, s.idle recv) ∧ recv.bytes = frame (stored payload) h0 h1 ++ stale :: 0 :: rest := by
  obtain ⟨s₁, recv, stale, rest, quiet, last, bytes, _⟩ := quiet_frame_behind room count plain short hex0 hex1
  exact ⟨s₁, recv, stale, rest, quiet, last, bytes⟩

theorem feed_step (step : rxByte s c = .ok (false, s')) (rest : List UInt8) : feed s (c :: rest) = feed s' rest := by
  simp only [feed, List.foldlM_cons, dbgstubRx, step, bind, Except.bind, Bool.false_eq_true, ↓reduceIte]

theorem feed_stop {fault : Fault} (stops : rxByte s c = .error fault) (rest : List UInt8) :
    feed s (c :: rest) = .error fault := by
  simp only [feed, List.foldlM_cons, dbgstubRx, stops, bind, Except.bind]

theorem feed_quiet {bytes : List UInt8} (quiet : Quiet s bytes s') (more : List UInt8) :
    feed s (bytes ++ more) = feed s' more := by
  induction quiet with
  | nil => rfl
  | cons first _ ih => rw [List.cons_append, feed_step first, ih]

/-- The whole frame: one call, in the state after its last byte. -/
theorem feed_frame {bytes : List UInt8} {s₁ : Stub} (quiet : Quiet s bytes s₁) (last : rxByte s₁ c = .ok (true, s')) :
    feed s (bytes ++ [c]) = dbgstubProcessPacket s' := by
  rw [feed_quiet quiet]
  simp only [feed, List.foldlM_cons, List.foldlM_nil, dbgstubRx, last, bind, Except.bind, ↓reduceIte]
  cases dbgstubProcessPacket s' with
  | error fault => rfl
  | ok s'' => rfl

theorem feed_payload_overlong (inside : p.length ≤ packetBufferSize)
    (long : packetBufferSize < p.length + (stored payload).length + 3) (count : s.endCount ≤ 2) (plain : ∀ c ∈ payload, Plain c) (hex0 : isDigit 16 h0 = true) :
    feed (s.receiving recv p.length) (payload ++ ['#'.toUInt8, h0, h1]) = .error .panic := by
  induction payload generalizing p recv with
  | nil =>
    rw [stored, List.filter_nil, List.length_nil] at long
    by_cases full : p.length = packetBufferSize
    · exact feed_stop (rx_full full _) _
    · rw [List.nil_append, feed_step (rx_end (by omega))]
      by_cases full' : (p ++ ['#'.toUInt8]).length = packetBufferSize
      · exact feed_stop (rx_full full' _) _
      · rw [List.length_append, List.length_singleton] at full'
        have first := @rx_first s (recv.put p.length '#'.toUInt8) (p ++ ['#'.toUInt8]) h0 (by simp; omega) hex0
        rw [feed_step first]
        have full'' : (p ++ ['#'.toUInt8] ++ [h0]).length = packetBufferSize := by
          simp
          omega
        exact feed_stop (rx_full full'' _) _
  | cons c payload ih =>
    have plainRest : ∀ d ∈ payload, Plain d := fun d member => plain d (List.mem_cons_of_mem _ member)
    by_cases full : p.length = packetBufferSize
    · exact feed_stop (rx_full full _) _
    · by_cases data : c = 3
      · subst data
        have skip : stored (3 :: payload) = stored payload := rfl
        rw [skip] at long
        rw [List.cons_append, feed_step (rx_dropped (by omega))]
        exact ih inside long plainRest
      · have keep : stored (c :: payload) = c :: stored payload := by simp [stored, data]
        rw [keep, List.length_cons] at long
        rw [List.cons_append, feed_step (rx_data (by omega) count (plain c List.mem_cons_self) data)]
        exact ih (by simp; omega) (by simp; omega) plainRest

/-- A frame that is too long for the buffer ends in a panic. -/
theorem feed_overlong (room : s.index < packetBufferSize) (count : s.endCount ≤ 2) (plain : ∀ c ∈ payload, Plain c)
    (long : packetBufferSize < (stored payload).length + 4) (hex0 : isDigit 16 h0 = true) :
    feed s (frame payload h0 h1) = .error .panic := by
  have first : feed s (frame payload h0 h1) =
      feed (s.receiving (s.recv.put 0 '$'.toUInt8) ['$'.toUInt8].length) (payload ++ ['#'.toUInt8, h0, h1]) :=
    feed_step (rx_start room count) _
  rw [first]
  exact feed_payload_overlong (by decide) (by simp; omega) count plain hex0

end Receive

/-! What a command leaves of the receiver. -/

def Stub.receiver (s : Stub) : Nat × Bool × Bool × Nat := (s.index, s.middle, s.ended, s.endCount)

section Keeps

variable {s s' : Stub} {α β : Type}

theorem bind_ok {x : Except Fault α} {f : α → Except Fault β} {r : β} :
    (x >>= f) = .ok r ↔ ∃ a, x = .ok a ∧ f a = .ok r := by
  cases x with
  | error fault =>
    constructor
    · intro result
      cases result
    · rintro ⟨a, result, _⟩
      cases result
  | ok a =>
    constructor
    · exact fun result => ⟨a, rfl, result⟩
    · rintro ⟨b, same, result⟩
      cases same
      exact result

theorem emit_keeps {i : Nat} {b : UInt8} (ran : s.emit i b = .ok s') : s'.receiver = s.receiver := by
  obtain ⟨buffer, _, result⟩ := bind_ok.mp ran
  cases result
  rfl

theorem sendLoop_keeps {source : Source} {fuel k k' : Nat} {checksum checksum' : UInt8}
    (ran : sendLoop source fuel k checksum s = .ok (k', checksum', s')) : s'.receiver = s.receiver := by
  induction fuel generalizing k checksum s with
  | zero => cases ran
  | succ fuel ih =>
    obtain ⟨b, _, rest⟩ := bind_ok.mp ran
    split at rest
    · cases rest
      rfl
    · obtain ⟨s₁, emitted, rest⟩ := bind_ok.mp rest
      exact (ih rest).trans (emit_keeps emitted)

theorem dbgstubSend_keeps {source : Source} (ran : dbgstubSend s source = .ok s') : s'.receiver = s.receiver := by
  obtain ⟨s₁, opened, rest⟩ := bind_ok.mp ran
  obtain ⟨⟨k, checksum, s₂⟩, body, rest⟩ := bind_ok.mp rest
  obtain ⟨s₃, closed, rest⟩ := bind_ok.mp rest
  obtain ⟨s₄, first, rest⟩ := bind_ok.mp rest
  obtain ⟨s₅, second, rest⟩ := bind_ok.mp rest
  obtain ⟨buffer, _, result⟩ := bind_ok.mp rest
  cases result
  calc s₅.receiver = s₄.receiver := emit_keeps second
    _ = s₃.receiver := emit_keeps first
    _ = s₂.receiver := emit_keeps closed
    _ = s₁.receiver := sendLoop_keeps body
    _ = s.receiver := emit_keeps opened

theorem reply_keeps {answer : String} (ran : s.reply answer = .ok s') : s'.receiver = s.receiver :=
  dbgstubSend_keeps ran

theorem readRegisters_keeps (ran : readRegisters s = .ok s') : s'.receiver = s.receiver := by
  obtain ⟨buffer, _, sent⟩ := bind_ok.mp ran
  exact (dbgstubSend_keeps sent).trans rfl

theorem writeRegisters_keeps (ran : writeRegisters s = .ok s') : s'.receiver = s.receiver := by
  obtain ⟨frame, _, sent⟩ := bind_ok.mp ran
  exact (reply_keeps sent).trans rfl

theorem sendMemory_keeps {addr length : Nat} (ran : sendMemory s addr length = .ok s') : s'.receiver = s.receiver := by
  unfold sendMemory at ran
  split at ran
  · exact reply_keeps ran
  · obtain ⟨⟨done, buffer⟩, _, rest⟩ := bind_ok.mp ran
    cases done with
    | false => exact (reply_keeps rest).trans rfl
    | true =>
      obtain ⟨buffer', _, sent⟩ := bind_ok.mp rest
      exact (dbgstubSend_keeps sent).trans rfl

theorem readMemory_keeps (ran : readMemory s = .ok s') : s'.receiver = s.receiver := by
  obtain ⟨comma, _, rest⟩ := bind_ok.mp ran
  cases comma with
  | none => exact reply_keeps rest
  | some comma =>
    obtain ⟨recv, _, rest⟩ := bind_ok.mp rest
    obtain ⟨addr, _, rest⟩ := bind_ok.mp rest
    obtain ⟨length, _, rest⟩ := bind_ok.mp rest
    exact (sendMemory_keeps rest).trans rfl

theorem storeMemory_keeps {addr length data : Nat} (ran : storeMemory s addr length data = .ok s') :
    s'.receiver = s.receiver := by
  unfold storeMemory at ran
  split at ran
  · exact reply_keeps ran
  · obtain ⟨available, _, rest⟩ := bind_ok.mp ran
    split at rest
    · exact reply_keeps rest
    · obtain ⟨⟨done, target⟩, _, rest⟩ := bind_ok.mp rest
      cases done with
      | false => exact (reply_keeps rest).trans rfl
      | true => exact (reply_keeps rest).trans rfl

theorem writeMemory_keeps (ran : writeMemory s = .ok s') : s'.receiver = s.receiver := by
  obtain ⟨comma, _, rest⟩ := bind_ok.mp ran
  obtain ⟨colon, _, rest⟩ := bind_ok.mp rest
  cases comma with
  | none => exact reply_keeps rest
  | some comma =>
    cases colon with
    | none => exact reply_keeps rest
    | some colon =>
      simp only at rest
      split at rest
      · exact reply_keeps rest
      · obtain ⟨recv, _, rest⟩ := bind_ok.mp rest
        obtain ⟨recv', _, rest⟩ := bind_ok.mp rest
        obtain ⟨addr, _, rest⟩ := bind_ok.mp rest
        obtain ⟨length, _, rest⟩ := bind_ok.mp rest
        exact (storeMemory_keeps rest).trans rfl

theorem changeBreakpoint_keeps {change : Address → Debug → Bool × Debug} {refusal : String}
    (ran : changeBreakpoint change refusal s = .ok s') : s'.receiver = s.receiver := by
  obtain ⟨addr, _, rest⟩ := bind_ok.mp ran
  simp only at rest
  split at rest
  · exact (reply_keeps rest).trans rfl
  · exact (reply_keeps rest).trans rfl

theorem runCommand_cases (s : Stub) :
    (∃ command ∈ commands, s.isCommand command.1 = true ∧ runCommand s = command.2 s) ∨
      runCommand s = s.reply "" := by
  unfold runCommand
  cases found : commands.find? (fun command => s.isCommand command.1) with
  | none => exact .inr rfl
  | some command => exact .inl ⟨command, List.mem_of_find?_eq_some found, by simpa using List.find?_some found, rfl⟩

theorem command_keeps : ∀ command ∈ commands, ∀ s s' : Stub, command.2 s = .ok s' → s'.receiver = s.receiver := by
  simp only [commands, List.forall_mem_cons]
  refine ⟨fun s s' ran => reply_keeps ran, fun s s' ran => reply_keeps ran, fun s s' ran => reply_keeps ran,
    fun s s' => readRegisters_keeps, fun s s' => writeRegisters_keeps, fun s s' => readMemory_keeps,
    fun s s' => writeMemory_keeps, fun s s' => changeBreakpoint_keeps, fun s s' => changeBreakpoint_keeps, ?_, ?_, ?_,
    fun _ none => absurd none List.not_mem_nil⟩
  all_goals
    rintro s s' ⟨⟩
    rfl

theorem runCommand_keeps (ran : runCommand s = .ok s') : s'.receiver = s.receiver := by
  rcases runCommand_cases s with ⟨command, member, _, same⟩ | same
  · exact command_keeps command member s s' (same ▸ ran)
  · exact reply_keeps (same ▸ ran)

theorem validate_cases {status : Bool} (ran : dbgstubValidatePacket s = .ok (status, s')) : ∃ b, s' = s.serialSend b := by
  obtain ⟨first, _, rest⟩ := bind_ok.mp ran
  split at rest
  · cases rest
    exact ⟨_, rfl⟩
  · obtain ⟨⟨calculated, i⟩, _, rest⟩ := bind_ok.mp rest
    obtain ⟨c0, _, rest⟩ := bind_ok.mp rest
    obtain ⟨c1, _, rest⟩ := bind_ok.mp rest
    obtain ⟨checksum, _, rest⟩ := bind_ok.mp rest
    split at rest
    · cases rest
      exact ⟨_, rfl⟩
    · cases rest
      exact ⟨_, rfl⟩

theorem processPacket_keeps (ran : dbgstubProcessPacket s = .ok s') : s'.receiver = s.receiver := by
  obtain ⟨⟨status, s₁⟩, validated, rest⟩ := bind_ok.mp ran
  obtain ⟨b, rfl⟩ := validate_cases validated
  simp only at rest
  split at rest
  · exact (runCommand_keeps rest).trans rfl
  · cases rest
    rfl

/- The counters of the receiver are in range. -/
def Stub.Bounded (s : Stub) : Prop := s.endCount ≤ 2 ∧ s.index ≤ packetBufferSize

theorem bounded_congr (same : s'.receiver = s.receiver) (bounded : s.Bounded) : s'.Bounded :=
  ⟨Nat.le_trans (Nat.le_of_eq (congrArg (·.2.2.2) same)) bounded.1,
    Nat.le_trans (Nat.le_of_eq (congrArg (·.1) same)) bounded.2⟩

theorem rxSwitch_counters {c : UInt8} {store : Bool} (ran : rxSwitch s c = .ok (store, s')) :
    s'.endCount ≤ s.endCount ∧ s'.index ≤ s.index := by
  have same : s.endCount ≤ s.endCount ∧ s.index ≤ s.index := ⟨Nat.le_refl _, Nat.le_refl _⟩
  have starts : s.endCount ≤ s.endCount ∧ 0 ≤ s.index := ⟨Nat.le_refl _, Nat.zero_le _⟩
  unfold rxSwitch at ran
  split at ran
  · split at ran
    · cases ran
      exact same
    · cases ran
      exact same
  split at ran
  · cases ran
    exact same
  split at ran
  · split at ran
    · cases ran
      exact same
    · obtain ⟨s₁, sent, result⟩ := bind_ok.mp ran
      cases result
      have kept := dbgstubSend_keeps sent
      exact ⟨Nat.le_of_eq (congrArg (·.2.2.2) kept), Nat.le_of_eq (congrArg (·.1) kept)⟩
  split at ran
  · cases ran
  split at ran
  · cases ran
    exact starts
  split at ran
  · cases ran
    split
    · exact same
    · exact starts
  split at ran
  · cases ran
    exact ⟨Nat.zero_le _, Nat.le_refl _⟩
  · cases ran
    exact same

theorem rxByte_bounded {c : UInt8} {complete : Bool} (bounded : s.Bounded) (ran : rxByte s c = .ok (complete, s')) :
    s'.Bounded := by
  obtain ⟨count, inside⟩ := bounded
  unfold rxByte at ran
  split at ran
  · cases ran
  · rename_i notFull
    obtain ⟨⟨store, s₁⟩, switched, rest⟩ := bind_ok.mp ran
    obtain ⟨count₁, inside₁⟩ := rxSwitch_counters switched
    simp only at rest count₁ inside₁
    split at rest
    · obtain ⟨recv, _, rest⟩ := bind_ok.mp rest
      have next : s₁.nextCount ≤ 3 := by
        unfold Stub.nextCount
        split
        · omega
        · omega
      by_cases more : s₁.nextCount = 3
      · unfold Stub.nextCount at more
        simp only [if_pos more] at rest
        obtain ⟨recv', _, result⟩ := bind_ok.mp rest
        cases result
        exact ⟨Nat.zero_le _, Nat.zero_le _⟩
      · have small : s₁.nextCount ≤ 2 := by omega
        unfold Stub.nextCount at more small
        simp only [if_neg more] at rest
        cases rest
        refine ⟨small, ?_⟩
        change s₁.index + 1 ≤ packetBufferSize
        omega
    · cases rest
      exact ⟨by omega, by omega⟩

/-- The count of the bytes of a checksum never stays at three, and the index stops at the size
that makes the next byte a panic. -/
theorem Reachable.bounded (reachable : Reachable s) : s.Bounded := by
  induction reachable with
  | init => exact ⟨Nat.zero_le _, Nat.zero_le _⟩
  | rx _ ran ih =>
    obtain ⟨⟨complete, s₁⟩, received, rest⟩ := bind_ok.mp ran
    have bounded := rxByte_bounded ih received
    simp only at rest
    split at rest
    · exact bounded_congr (processPacket_keeps rest) bounded
    · cases rest
      exact bounded
  | exception _ ran ih =>
    unfold dbgstubException at ran
    split at ran
    · exact bounded_congr (reply_keeps ran) ih
    · exact bounded_congr (reply_keeps ran) ih
  | leave _ _ _ ih => exact ih
  | elsewhere _ _ _ _ ih => exact ih

end Keeps

/-! The checksum. -/

section Checksum

variable {s : Stub} {t rest : List UInt8} {h0 h1 : UInt8}

theorem foldl_add (t : List UInt8) (sum : UInt8) :
    (t.foldl (· + ·) sum).toNat = (sum.toNat + (t.map UInt8.toNat).sum) % 256 := by
  induction t generalizing sum with
  | nil =>
    have bound := sum.toNat_lt
    simp only [List.foldl_nil, List.map_nil, List.sum_nil]
    omega
  | cons b t ih =>
    rw [List.foldl_cons, ih, List.map_cons, List.sum_cons, UInt8.toNat_add]
    omega

theorem foldl_byteSum (t : List UInt8) : (t.foldl (· + ·) 0).toNat = byteSum t := by
  rw [foldl_add]
  simp [byteSum]

theorem checksumLoop_eq (plain : '#'.toUInt8 ∉ t) (sum : UInt8) (i : Nat) :
    checksumLoop (t ++ '#'.toUInt8 :: rest) sum i = some (t.foldl (· + ·) sum, i + t.length) := by
  induction t generalizing sum i with
  | nil => simp [checksumLoop]
  | cons b t ih =>
    obtain ⟨other, plain⟩ := not_or.mp (mt List.mem_cons.mpr plain)
    rw [List.cons_append, checksumLoop, if_neg (Ne.symm other), ih plain, List.foldl_cons, List.length_cons]
    congr 2
    omega

theorem hex_digit {c : UInt8} (hex : isDigit 16 c = true) :
    ∃ digit, digitOf c = some digit ∧ digit < 16 := by
  obtain ⟨digit, here, small⟩ := (Option.any_eq_true _ _).mp hex
  exact ⟨digit, here, by simpa using small⟩

theorem hexByte_lt (hex0 : isDigit 16 h0 = true) (hex1 : isDigit 16 h1 = true) : hexByte h0 h1 < 256 := by
  obtain ⟨d0, here0, small0⟩ := hex_digit hex0
  obtain ⟨d1, here1, small1⟩ := hex_digit hex1
  rw [hexByte, here0, here1, Option.getD_some, Option.getD_some]
  omega

theorem strtoll_hex (hex0 : isDigit 16 h0 = true) (hex1 : isDigit 16 h1 = true) :
    strtoll [h0, h1, 0] 16 = some (hexByte h0 h1 : Int) := by
  obtain ⟨d0, here0, small0⟩ := hex_digit hex0
  obtain ⟨d1, here1, small1⟩ := hex_digit hex1
  have notMinus : h0 ≠ '-'.toUInt8 := by
    rintro rfl
    cases here0
  have notPlus : h0 ≠ '+'.toUInt8 := by
    rintro rfl
    cases here0
  simp only [strtoll, if_neg notMinus, if_neg notPlus, detectBase, ne_eq, OfNat.ofNat_ne_zero, not_false_eq_true,
    ↓reduceIte, parseDigits_digit here0 small0, parseDigits_digit here1 small1, parseDigits_stop isDigit_zero,
    id_eq, Option.map_some, Bool.false_eq_true, hexByte, here0, here1, Option.getD_some, Nat.zero_mul, Nat.zero_add]

/-- What dbgstub_validate_packet answers to a frame in the buffer. -/
theorem validate_frame (bytes : s.recv.bytes = frame t h0 h1 ++ rest) (plain : '#'.toUInt8 ∉ t)
    (hex0 : isDigit 16 h0 = true) (hex1 : isDigit 16 h1 = true) :
    dbgstubValidatePacket s = if hexByte h0 h1 = byteSum t then .ok (true, s.serialSend '+'.toUInt8)
      else .ok (false, s.serialSend '-'.toUInt8) := by
  have first : s.recv.read 0 = .ok '$'.toUInt8 := by
    rw [Buffer.read, bytes]
    rfl
  have behind : s.recv.bytes.drop 1 = t ++ '#'.toUInt8 :: ([h0, h1] ++ rest) := by
    rw [bytes]
    simp [frame]
  have digit0 : s.recv.read (1 + t.length + 1) = .ok h0 := by
    rw [Buffer.read, bytes, frame]
    have place : 1 + t.length + 1 = ('$'.toUInt8 :: t ++ ['#'.toUInt8]).length := by simp; omega
    have shape : '$'.toUInt8 :: t ++ ['#'.toUInt8, h0, h1] ++ rest =
        ('$'.toUInt8 :: t ++ ['#'.toUInt8]) ++ h0 :: h1 :: rest := by simp
    rw [place, shape, List.getElem?_append_right (Nat.le_refl _), Nat.sub_self]
    rfl
  have digit1 : s.recv.read (1 + t.length + 2) = .ok h1 := by
    rw [Buffer.read, bytes, frame]
    have place : 1 + t.length + 2 = ('$'.toUInt8 :: t ++ ['#'.toUInt8, h0]).length := by simp; omega
    have shape : '$'.toUInt8 :: t ++ ['#'.toUInt8, h0, h1] ++ rest =
        ('$'.toUInt8 :: t ++ ['#'.toUInt8, h0]) ++ h1 :: rest := by simp
    rw [place, shape, List.getElem?_append_right (Nat.le_refl _), Nat.sub_self]
    rfl
  have small := hexByte_lt hex0 hex1
  have compare : ((t.foldl (· + ·) 0).toNat : Int) = (hexByte h0 h1 : Int) % 2 ^ 64 ↔ hexByte h0 h1 = byteSum t := by
    rw [foldl_byteSum]
    omega
  unfold dbgstubValidatePacket
  simp only [first, bind, Except.bind, ne_eq, not_true_eq_false, false_and, ↓reduceIte, behind,
    checksumLoop_eq plain, orOverread, digit0, digit1, strtoll_hex hex0 hex1, compare]

end Checksum

/-! What is sent. -/

section Send

variable {s u : Stub} {source : Source} {l p : List UInt8}

/- The argument of dbgstub_send is the string `l`. Only dbgstub_packet_send_buffer changes meanwhile. -/
def Reads (source : Source) (s : Stub) (l : List UInt8) : Prop :=
  ∀ u : Stub, u.sendBuffer = s.sendBuffer → ∀ k ≤ l.length, u.byteAt k source = (l ++ [0])[k]?

theorem reads_text (s : Stub) (l : List UInt8) : Reads (.text l) s l := fun _ _ _ _ => rfl

theorem reads_sendBuffer {rest : List UInt8} (bytes : s.sendBuffer.bytes = l ++ 0 :: rest) :
    Reads .sendBuffer s l := by
  intro u same k bound
  have shape : l ++ 0 :: rest = (l ++ [0]) ++ rest := by simp
  rw [Stub.byteAt, same, bytes, shape, List.getElem?_append_left (by simp; omega)]

def Stub.sent (s : Stub) (buffer : Buffer) (bytes : List UInt8) : Stub :=
  { s with packetSend := buffer, output := s.output ++ bytes }

theorem emit_eq {i : Nat} (b : UInt8) (bound : i < bufferSize) : s.emit i b = .ok (s.sent (s.packetSend.put i b) [b]) := by
  simp only [Stub.emit, Buffer.write_eq _ bound, bind, Except.bind, Stub.sent]

theorem emit_overflow {i : Nat} (b : UInt8) (bound : bufferSize ≤ i) : s.emit i b = .error .overflow := by
  simp only [Stub.emit, Buffer.write, if_neg (Nat.not_lt_of_le bound), bind, Except.bind]

theorem sendLoop_end (reads : Reads source s p) (same : u.sendBuffer = s.sendBuffer) (fuel : Nat) (checksum : UInt8) :
    sendLoop source (fuel + 1) p.length checksum u = .ok (p.length, checksum, u) := by
  have here : u.byteAt p.length source = some 0 := by
    rw [reads u same p.length (Nat.le_refl _)]
    simp
  simp only [sendLoop, here, orOverread, bind, Except.bind, ↓reduceIte]

theorem sendLoop_next {b : UInt8} {rest : List UInt8} (reads : Reads source s (p ++ b :: rest))
    (same : u.sendBuffer = s.sendBuffer) (nonzero : b ≠ 0) (fuel : Nat) (checksum : UInt8) :
    sendLoop source (fuel + 1) p.length checksum u =
      (u.emit (p.length + 1) b >>= sendLoop source fuel (p ++ [b]).length (checksum + b)) := by
  have here : u.byteAt p.length source = some b := by
    rw [reads u same p.length (by simp)]
    simp
  rw [List.length_append]
  simp only [sendLoop, here, orOverread, bind, Except.bind, if_neg nonzero, List.length_singleton]

/-- The loop sends the rest of the string. -/
theorem sendLoop_sent {rest : List UInt8} (reads : Reads source s (p ++ rest)) (same : u.sendBuffer = s.sendBuffer)
    (clean : (0 : UInt8) ∉ rest) (room : p.length + rest.length < bufferSize) {fuel : Nat} (enough : rest.length < fuel)
    (checksum : UInt8) : ∃ buffer, sendLoop source fuel p.length checksum u =
      .ok (p.length + rest.length, rest.foldl (· + ·) checksum, u.sent buffer rest) := by
  induction rest generalizing p u fuel checksum with
  | nil =>
    obtain ⟨fuel, rfl⟩ := Nat.exists_eq_add_of_lt enough
    rw [List.append_nil] at reads
    refine ⟨u.packetSend, ?_⟩
    simp only [List.length_nil, Nat.zero_add, sendLoop_end reads same, List.foldl_nil, Nat.add_zero, Stub.sent,
      List.append_nil]
  | cons b rest ih =>
    obtain ⟨notNul, clean⟩ := not_or.mp (mt List.mem_cons.mpr clean)
    obtain ⟨fuel, rfl⟩ := Nat.exists_eq_add_of_lt enough
    rw [List.length_cons] at room enough
    have reads' : Reads source s ((p ++ [b]) ++ rest) := by simpa using reads
    obtain ⟨buffer, ran⟩ := @ih (u.sent (u.packetSend.put (p.length + 1) b) [b]) (p ++ [b]) reads' same clean
      (by simp; omega) (rest.length + 1 + fuel) (by omega) (checksum + b)
    refine ⟨buffer, ?_⟩
    rw [List.length_cons, sendLoop_next reads same (Ne.symm notNul), emit_eq b (by omega)]
    refine ran.trans ?_
    simp only [List.foldl_cons, Stub.sent, List.append_assoc, List.singleton_append, List.length_append,
      List.length_singleton, Nat.add_assoc, Nat.add_comm 1]

/-- A string that does not fit the packet buffer runs over its end. -/
theorem sendLoop_overflow {rest : List UInt8} (reads : Reads source s (p ++ rest)) (same : u.sendBuffer = s.sendBuffer)
    (clean : (0 : UInt8) ∉ rest) (full : bufferSize ≤ p.length + rest.length) (inside : p.length < bufferSize)
    (fuel : Nat) (checksum : UInt8) : sendLoop source fuel p.length checksum u = .error .overflow := by
  induction rest generalizing p u fuel checksum with
  | nil =>
    rw [List.length_nil] at full
    omega
  | cons b rest ih =>
    obtain ⟨notNul, clean⟩ := not_or.mp (mt List.mem_cons.mpr clean)
    cases fuel with
    | zero => rfl
    | succ fuel =>
      have reads' : Reads source s ((p ++ [b]) ++ rest) := by simpa using reads
      rw [sendLoop_next reads same (Ne.symm notNul)]
      rw [List.length_cons] at full
      by_cases room : p.length + 1 < bufferSize
      · rw [emit_eq b room]
        exact @ih (u.sent (u.packetSend.put (p.length + 1) b) [b]) (p ++ [b]) reads' same clean (by simp; omega)
          (by simpa using room) fuel (checksum + b)
      · rw [emit_overflow b (Nat.le_of_not_lt room)]
        rfl

/-- dbgstub_send puts a frame with its checksum on the line. -/
theorem dbgstubSend_sent (reads : Reads source s l) (clean : (0 : UInt8) ∉ l) (room : l.length + 5 ≤ bufferSize) :
    ∃ buffer, dbgstubSend s source =
      .ok (s.sent buffer (frame l (hexOf (byteSum l / 16)) (hexOf (byteSum l % 16)))) := by
  obtain ⟨buffer, ran⟩ := @sendLoop_sent s (s.sent (s.packetSend.put 0 '$'.toUInt8) ['$'.toUInt8]) source [] l reads rfl
    clean (by simp; omega) bufferSize (by omega) 0
  have opened : 0 < bufferSize := by omega
  have place1 : l.length + 1 < bufferSize := by omega
  have place2 : l.length + 2 < bufferSize := by omega
  have place3 : l.length + 3 < bufferSize := by omega
  have place4 : l.length + 4 < bufferSize := by omega
  simp only [List.length_nil, Nat.zero_add] at ran
  simp only [dbgstubSend, emit_eq _ opened, bind, Except.bind, ran, emit_eq _ place1, emit_eq _ place2,
    emit_eq _ place3, Buffer.write_eq _ place4, foldl_byteSum]
  simp only [Stub.sent, frame, List.append_assoc, List.cons_append, List.nil_append]
  exact ⟨_, rfl⟩

theorem dbgstubSend_overflow (reads : Reads source s l) (clean : (0 : UInt8) ∉ l) (full : bufferSize < l.length + 5) :
    dbgstubSend s source = .error .overflow := by
  have opened : 0 < bufferSize := by decide
  by_cases body : l.length < bufferSize
  · obtain ⟨buffer, ran⟩ := @sendLoop_sent s (s.sent (s.packetSend.put 0 '$'.toUInt8) ['$'.toUInt8]) source [] l reads
      rfl clean (by simpa using body) bufferSize body 0
    simp only [List.length_nil, Nat.zero_add] at ran
    simp only [dbgstubSend, emit_eq _ opened, bind, Except.bind, ran]
    by_cases place1 : l.length + 1 < bufferSize
    · simp only [emit_eq _ place1]
      by_cases place2 : l.length + 2 < bufferSize
      · simp only [emit_eq _ place2]
        by_cases place3 : l.length + 3 < bufferSize
        · have place4 : ¬ l.length + 4 < bufferSize := by omega
          simp only [emit_eq _ place3, Buffer.write, if_neg place4]
        · simp only [emit_overflow _ (Nat.le_of_not_lt place3)]
      · simp only [emit_overflow _ (Nat.le_of_not_lt place2)]
    · simp only [emit_overflow _ (Nat.le_of_not_lt place1)]
  · have ran := @sendLoop_overflow s (s.sent (s.packetSend.put 0 '$'.toUInt8) ['$'.toUInt8]) source [] l reads rfl clean
      (by simpa using body) opened bufferSize 0
    simp only [List.length_nil] at ran
    simp only [dbgstubSend, emit_eq _ opened, bind, Except.bind, ran]

end Send

theorem digitOf_hexOf : ∀ n < 16, digitOf (hexOf n) = some n := by decide

theorem stored_data {payload : List UInt8} (data : ∀ c ∈ payload, c ≠ 3) : stored payload = payload :=
  List.filter_eq_self.mpr (fun c member => by simpa using data c member)

/-- From every state of the receiver with room, a frame calls dbgstub_process_packet once, on
its last byte, with the frame in the buffer; the checksum decides, and the receiver is then
outside any packet. What dbgstub_send transmits for a string is its frame. -/
theorem framing_inverts_send :
    (∀ (s : Stub) (payload : List UInt8) (h0 h1 : UInt8), Reachable s → s.index < packetBufferSize →
      payload.length ≤ 4092 → (∀ c ∈ payload, Plain c ∧ c ≠ 3) → isDigit 16 h0 = true → isDigit 16 h1 = true →
      ∃ s₁ s₂ valid, Quiet s ('$'.toUInt8 :: payload ++ ['#'.toUInt8, h0]) s₁ ∧ rxByte s₁ h1 = .ok (true, s₂) ∧
        feed s (frame payload h0 h1) = dbgstubProcessPacket s₂ ∧ frame payload h0 h1 <+: s₂.recv.bytes ∧
        dbgstubValidatePacket s₂ = .ok (valid, s₂.serialSend (if valid then '+'.toUInt8 else '-'.toUInt8)) ∧
        (valid = true ↔ hexByte h0 h1 = byteSum payload) ∧
        (s₂.index = 0 ∧ s₂.middle = false ∧ s₂.ended = false) ∧
        ∀ s', feed s (frame payload h0 h1) = .ok s' → s'.index = 0 ∧ s'.middle = false ∧ s'.ended = false) ∧
    ∀ (s : Stub) (source : Source) (l : List UInt8), Reads source s l → (0 : UInt8) ∉ l → l.length ≤ 4107 →
      ∃ s' h0 h1, dbgstubSend s source = .ok s' ∧ s'.output = s.output ++ frame l h0 h1 ∧
        isDigit 16 h0 = true ∧ isDigit 16 h1 = true ∧ hexByte h0 h1 = byteSum l := by
  constructor
  · intro s payload h0 h1 reachable room short plain hex0 hex1
    have same : stored payload = payload := stored_data (fun c member => (plain c member).2)
    obtain ⟨s₁, recv, stale, rest, quiet, last, bytes⟩ := quiet_frame room reachable.bounded.1
      (fun c member => (plain c member).1) (by rw [same]; unfold packetBufferSize; omega) hex0 hex1
    rw [same] at bytes
    have noEnd : '#'.toUInt8 ∉ payload := fun member => (plain _ member).1.2.1 rfl
    have fed : feed s (frame payload h0 h1) = dbgstubProcessPacket (s.idle recv) := by
      rw [← feed_frame quiet last]
      simp [frame]
    refine ⟨s₁, s.idle recv, decide (hexByte h0 h1 = byteSum payload), quiet, last, fed, ⟨_, bytes.symm⟩, ?_,
      decide_eq_true_iff, ⟨rfl, rfl, rfl⟩, ?_⟩
    · rw [@validate_frame (s.idle recv) payload _ h0 h1 bytes noEnd hex0 hex1]
      by_cases right : hexByte h0 h1 = byteSum payload
      · simp only [right, ↓reduceIte, decide_true]
      · simp only [right, ↓reduceIte, decide_false, Bool.false_eq_true]
    · intro s' ran
      have kept := processPacket_keeps (fed ▸ ran)
      have fields : (s'.index, s'.middle, s'.ended, s'.endCount) = (0, false, false, 0) := kept
      simp only [Prod.mk.injEq] at fields
      exact ⟨fields.1, fields.2.1, fields.2.2.1⟩
  · intro s source l reads clean short
    obtain ⟨buffer, sent⟩ := dbgstubSend_sent reads clean (by unfold bufferSize packetBufferSize; omega)
    have bound : byteSum l < 256 := Nat.mod_lt _ (by decide)
    have high := digitOf_hexOf (byteSum l / 16) (by omega)
    have low := digitOf_hexOf (byteSum l % 16) (by omega)
    refine ⟨_, _, _, sent, rfl, ?_, ?_, ?_⟩
    · rw [isDigit, high]
      simp
      omega
    · rw [isDigit, low]
      simp
      omega
    · rw [hexByte, high, low, Option.getD_some, Option.getD_some]
      omega

theorem framing_inverts_send_query : ∃ s₂ s₃,
    feed (dbgstubInit (fun _ => none) (fun _ => false)) (frame (text "?") '3'.toUInt8 'f'.toUInt8) =
      dbgstubProcessPacket s₂ ∧ dbgstubValidatePacket s₂ = .ok (true, s₃) := by
  have room : 0 < packetBufferSize := by decide
  have short : 1 ≤ 4092 := by decide
  have hex0 : isDigit 16 '3'.toUInt8 = true := rfl
  have hex1 : isDigit 16 'f'.toUInt8 = true := rfl
  have plain : ∀ c ∈ ['?'.toUInt8], Plain c ∧ c ≠ 3 := by
    intro c member
    cases List.mem_singleton.mp member
    exact ⟨⟨by decide, by decide, by decide⟩, by decide⟩
  obtain ⟨s₁, s₂, valid, _, _, fed, _, validated, right, _⟩ := framing_inverts_send.1
    (dbgstubInit (fun _ => none) (fun _ => false)) (text "?") '3'.toUInt8 'f'.toUInt8 (.init _ _) room short
    plain hex0 hex1
  cases right.mpr rfl
  exact ⟨s₂, _, fed, validated⟩

end EvalynOS.Dbgstub
