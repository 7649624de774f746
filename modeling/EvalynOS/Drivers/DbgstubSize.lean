import EvalynOS.Drivers.DbgstubCommands

/-! The size of a packet. The answer to qSupported offers 0x4000 bytes; the buffers have 4112,
and the receiver takes 4096. -/
namespace EvalynOS.Dbgstub
open Strings DrX

/- Neither a panic nor a byte written behind a buffer. -/
def Honoured {α : Type} (result : Except Fault α) : Prop := ∀ fault, result = .error fault → fault = .overread

/- The packet asks for `length` bytes at `addr`. -/
def Requests (t : List UInt8) (addr length : Nat) : Prop :=
  ∃ address count, t = 'm'.toUInt8 :: (address ++ ','.toUInt8 :: count) ∧ ','.toUInt8 ∉ address ∧
    (0 : UInt8) ∉ address ∧ strtoull (address ++ [0]) 16 = some addr ∧ strtoull (count ++ [0]) 16 = some length

section Honoured

variable {α β : Type} {s : Stub}

theorem honoured_ok (v : α) : Honoured (.ok v : Except Fault α) := by
  intro fault failed
  cases failed

theorem honoured_orOverread (x : Option α) : Honoured (orOverread x) := by
  intro fault failed
  cases x with
  | none =>
    cases failed
    rfl
  | some v => cases failed

theorem Honoured.bind {x : Except Fault α} {f : α → Except Fault β} (first : Honoured x)
    (next : ∀ v, x = .ok v → Honoured (f v)) : Honoured (x >>= f) := by
  cases x with
  | error fault =>
    intro fault' failed
    cases failed
    exact first fault rfl
  | ok v => exact next v rfl

theorem honoured_map {x : Except Fault α} {f : α → β} : Honoured (x.map f) ↔ Honoured x := by
  cases x with
  | error fault =>
    constructor
    · intro honoured fault' failed
      cases failed
      exact honoured fault rfl
    · intro honoured fault' failed
      cases failed
      exact honoured fault rfl
  | ok v => exact ⟨fun _ => honoured_ok v, fun _ => honoured_ok (f v)⟩

theorem honoured_reply {answer : String} (sendable : Sendable answer) : Honoured (s.reply answer) := by
  obtain ⟨s', sent⟩ := @reply_ok s answer sendable
  rw [sent]
  exact honoured_ok s'

theorem honoured_readRegisters : Honoured (readRegisters s) := by
  rw [← honoured_map, readRegisters_view]
  exact honoured_ok _

theorem honoured_unpackRegs (recv : Buffer) (fields : List (Register × Nat)) (ptr : Nat) (frame : Frame) :
    Honoured (unpackRegs recv fields ptr frame) := by
  induction fields generalizing ptr frame with
  | nil => exact honoured_ok frame
  | cons field fields ih =>
    obtain ⟨reg, width⟩ := field
    unfold unpackRegs
    split
    · intro fault failed
      cases failed
      rfl
    · exact (honoured_orOverread _).bind (fun val _ => ih _ _)

theorem honoured_writeRegisters : Honoured (writeRegisters s) :=
  (honoured_unpackRegs _ _ _ _).bind (fun _ _ => honoured_reply sendable_texts.2.2.2.1)

theorem honoured_changeBreakpoint {change : Address → Debug → Bool × Debug} {refusal : String}
    (sendable : Sendable refusal) : Honoured (changeBreakpoint change refusal s) := by
  apply (honoured_orOverread _).bind
  intro addr _
  simp only
  split
  · exact honoured_reply sendable_texts.2.2.2.1
  · exact honoured_reply sendable

theorem honoured_writeBytes (recv : Buffer) (addr data n k : Nat) (t : Target) :
    Honoured (writeBytes recv addr data n k t) := by
  induction n generalizing k t with
  | zero => exact honoured_ok _
  | succ n ih =>
    unfold writeBytes
    refine (honoured_orOverread _).bind (fun high _ => ?_)
    refine (honoured_orOverread _).bind (fun low _ => ?_)
    refine (honoured_orOverread _).bind (fun value _ => ?_)
    split
    · exact honoured_ok _
    · exact ih _ _

theorem honoured_storeMemory (addr length data : Nat) : Honoured (storeMemory s addr length data) := by
  unfold storeMemory
  split
  · exact honoured_reply sendable_texts.2.2.2.2.2.1
  · refine (honoured_orOverread _).bind (fun available _ => ?_)
    split
    · exact honoured_reply sendable_texts.2.2.2.2.2.1
    · refine (honoured_writeBytes _ _ _ _ _ _).bind (fun outcome _ => ?_)
      obtain ⟨done, target⟩ := outcome
      cases done with
      | false => exact honoured_reply sendable_texts.2.2.2.2.2.2.2.1
      | true => exact honoured_reply sendable_texts.2.2.2.1

/-- What strchr finds in the buffer is in the buffer. -/
theorem honoured_overwrite {c : UInt8} {i : Nat} (b : Buffer)
    (found : orOverread (strchr c (s.recv.bytes.drop 2)) = .ok (some i)) : Honoured (b.write (2 + i) 0) := by
  cases here : strchr c (s.recv.bytes.drop 2) with
  | none =>
    rw [here] at found
    cases found
  | some place =>
    rw [here] at found
    cases found
    have bound := strchr_bound here
    rw [List.length_drop, s.recv.size] at bound
    rw [Buffer.write_eq _ (by omega)]
    exact honoured_ok _

theorem honoured_writeMemory : Honoured (writeMemory s) := by
  refine (honoured_orOverread _).bind (fun comma isComma => ?_)
  refine (honoured_orOverread _).bind (fun colon isColon => ?_)
  have refuses := @honoured_reply s "E00" sendable_texts.2.2.2.2.1
  cases comma with
  | none => exact refuses
  | some i =>
    cases colon with
    | none => exact refuses
    | some j =>
      simp only
      split
      · exact refuses
      · refine (honoured_overwrite _ isComma).bind (fun recv _ => ?_)
        refine (honoured_overwrite _ isColon).bind (fun recv' _ => ?_)
        refine (honoured_orOverread _).bind (fun addr _ => ?_)
        exact (honoured_orOverread _).bind (fun length _ => honoured_storeMemory _ _ _)

end Honoured

section Requests

variable {s : Stub} {t : Target} {args r rest : List UInt8} {h0 h1 x : UInt8} {addr n k : Nat}

/-- Bytes that have room are dumped, or one of them cannot be read. -/
theorem dump_small (room : (k + n) * 2 ≤ bufferSize) : ∃ text, dump t addr n k = .ok text := by
  induction n generalizing k with
  | zero => exact ⟨_, rfl⟩
  | succ n ih =>
    unfold dump
    split
    · exact ⟨_, rfl⟩
    · obtain ⟨text, later⟩ := @ih (k + 1) (by omega)
      rw [if_pos (by omega), later]
      exact ⟨_, rfl⟩

/-- Bytes that can be read are dumped, or run over the buffer. -/
theorem dump_readable (readable : ∀ j, k ≤ j → j < k + n → (t.memory (BitVec.ofNat 64 (addr + j))).isSome = true) :
    dump t addr n k = .error .overflow ∨ ∃ l, dump t addr n k = .ok (some l) := by
  induction n generalizing k with
  | zero => exact .inr ⟨_, rfl⟩
  | succ n ih =>
    obtain ⟨byte, isByte⟩ := Option.isSome_iff_exists.mp (readable k (Nat.le_refl _) (by omega))
    unfold dump
    simp only [safeReadByte, isByte]
    split
    · rcases @ih (k + 1) (fun j low high => readable j (by omega) (by omega)) with failed | ⟨l, later⟩
      · rw [failed]
        exact .inl rfl
      · rw [later]
        exact .inr ⟨_, rfl⟩
    · exact .inl rfl

theorem readReply_small (view : List UInt8 × Target) (small : n ≤ 2053) : Honoured (readReply view addr n) := by
  have size : bufferSize = 4112 := rfl
  unfold readReply
  split
  · exact honoured_ok _
  · obtain ⟨text, dumped⟩ := @dump_small view.2 addr n 0 (by omega)
    rw [dumped]
    cases text with
    | none => exact honoured_ok _
    | some l =>
      have length := (dump_text dumped).1
      have room : l.length + 5 ≤ bufferSize := by omega
      simp only [if_pos room]
      exact honoured_ok _

theorem readReply_large (view : List UInt8 × Target) (large : 2053 < n)
    (readable : ∀ j < n, (view.2.memory (BitVec.ofNat 64 (addr + j))).isSome = true) :
    readReply view addr n = .error .overflow := by
  have size : bufferSize = 4112 := rfl
  unfold readReply
  rw [if_neg (by omega)]
  rcases @dump_readable view.2 addr n 0 (fun j _ bound => readable j (by omega)) with failed | ⟨l, dumped⟩
  · rw [failed]
  · have length := (dump_text dumped).1
    have full : ¬ l.length + 5 ≤ bufferSize := by omega
    rw [dumped]
    simp only [if_neg full]

/-- A comma behind the packet is followed by the terminator, that is by a length of zero. -/
theorem honoured_readMemory (bytes : s.recv.bytes = frame ('m'.toUInt8 :: args) h0 h1 ++ x :: 0 :: r)
    (hex0 : isDigit 16 h0 = true) (hex1 : isDigit 16 h1 = true)
    (small : ∀ addr length, Requests ('m'.toUInt8 :: args) addr length → length ≤ 2053) : Honoured (readMemory s) := by
  rw [← @honoured_map _ _ _ Stub.view]
  by_cases stop : ∃ c ∈ args, c = ','.toUInt8 ∨ c = 0
  · obtain ⟨p, c, q, rfl, kind, before⟩ := split_first stop
    have noComma : ','.toUInt8 ∉ p := fun member => before _ member (.inl rfl)
    have clean : (0 : UInt8) ∉ p := fun member => before _ member (.inr rfl)
    rcases kind with rfl | rfl
    · obtain ⟨addr, isAddr⟩ := strtoull_total p
      obtain ⟨length, isLength⟩ := strtoull_total q
      rw [readMemory_view bytes noComma clean isAddr isLength]
      exact readReply_small _ (small addr length ⟨p, q, rfl, noComma, clean, isAddr, isLength⟩)
    · rw [readMemory_refused bytes noComma clean]
      exact honoured_ok _
  · let packet := args ++ ['#'.toUInt8, h0, h1]
    have shape : s.recv.bytes = '$'.toUInt8 :: 'm'.toUInt8 :: (packet ++ x :: 0 :: r) := by
      rw [bytes]
      simp [frame, packet]
    have digits : ∀ h, isDigit 16 h = true → ','.toUInt8 ≠ h ∧ 0 ≠ h := by
      intro h hex
      constructor
      · rintro rfl
        cases hex
      · rintro rfl
        cases hex
    have noComma : ','.toUInt8 ∉ packet := by
      have absent : ','.toUInt8 ∉ args := fun member => stop ⟨_, member, .inl rfl⟩
      simp [packet, absent, (digits h0 hex0).1, (digits h1 hex1).1]
      decide
    have clean : (0 : UInt8) ∉ packet := by
      have absent : (0 : UInt8) ∉ args := fun member => stop ⟨_, member, .inr rfl⟩
      simp [packet, absent, (digits h0 hex0).2, (digits h1 hex1).2]
      decide
    by_cases stale : x = ','.toUInt8
    · subst stale
      obtain ⟨addr, isAddr⟩ := strtoull_total packet
      rw [readMemory_around shape noComma clean isAddr (rfl : strtoull (0 :: r) 16 = some 0)]
      exact readReply_small _ (Nat.zero_le _)
    · have found : strchr ','.toUInt8 (s.recv.bytes.drop 2) = some none := by
        rw [shape, List.drop_succ_cons, List.drop_succ_cons, List.drop_zero, strchr_skip noComma clean]
        by_cases isNul : x = 0
        · simp [strchr, isNul]
          decide
        · simp [strchr, isNul, stale]
          decide
      have ran : readMemory s = s.reply "E00" := by
        simp only [readMemory, found, orOverread, bind, Except.bind]
      rw [honoured_map, ran]
      exact honoured_reply sendable_texts.2.2.2.2.1

/-- No command but the request for memory can write behind a buffer. -/
theorem honoured_runCommand {packet : List UInt8} (bytes : s.recv.bytes = frame packet h0 h1 ++ x :: 0 :: r)
    (hex0 : isDigit 16 h0 = true) (hex1 : isDigit 16 h1 = true)
    (small : ∀ addr length, Requests packet addr length → length ≤ 2053) : Honoured (runCommand s) := by
  obtain ⟨supported, one, stopped, _, _, _, _, _, removeRefusal, insertRefusal, empty⟩ := sendable_texts
  have all : ∀ command ∈ commands, s.isCommand command.1 = true → Honoured (command.2 s) := by
    simp only [commands, List.forall_mem_cons]
    refine ⟨fun _ => honoured_reply supported, fun _ => honoured_reply one, fun _ => honoured_reply stopped,
      fun _ => honoured_readRegisters, fun _ => honoured_writeRegisters, ?_, fun _ => honoured_writeMemory,
      fun _ => honoured_changeBreakpoint removeRefusal, fun _ => honoured_changeBreakpoint insertRefusal,
      fun _ => honoured_ok _, fun _ => honoured_ok _, fun _ => honoured_ok _, fun _ none => absurd none List.not_mem_nil⟩
    intro here
    rw [isCommand_iff (by decide), bytes, prefix_frame (by decide)] at here
    obtain ⟨args, rfl⟩ := (List.cons_prefix_cons.mp here).2
    exact honoured_readMemory bytes hex0 hex1 small
  rcases runCommand_cases s with ⟨command, member, named, same⟩ | same
  · rw [same]
    exact all command member named
  · rw [same]
    exact honoured_reply empty

/-- A request for memory is none of the commands that are tried before it. -/
theorem runCommand_read (bytes : s.recv.bytes = frame ('m'.toUInt8 :: args) h0 h1 ++ rest) :
    runCommand s = readMemory s :=
  runCommand_letter bytes (by decide) rfl

end Requests

/-- Whatever size is offered: the stub honours exactly the packets that fit its receive buffer
and that ask for no more memory than fits its send buffer. -/
theorem packet_size_honoured_iff {s : Stub} (reachable : Reachable s) {payload : List UInt8} {h0 h1 : UInt8} (plain : ∀ c ∈ payload, Plain c) (hex0 : isDigit 16 h0 = true)
    (hex1 : isDigit 16 h1 = true) (readable : ∀ addr length, Requests (stored payload) addr length →
      ∀ k < length, (s.target.memory (BitVec.ofNat 64 (addr + k))).isSome = true) :
    Honoured (feed s (frame payload h0 h1)) ↔
      s.index < packetBufferSize ∧ (stored payload).length + 4 ≤ packetBufferSize ∧
      (hexByte h0 h1 = byteSum (stored payload) → ∀ addr length, Requests (stored payload) addr length → length ≤ 2053) := by
  obtain ⟨count, inside⟩ := reachable.bounded
  by_cases room : s.index < packetBufferSize
  swap
  · constructor
    · intro honoured
      have stops : feed s (frame payload h0 h1) = .error .panic := feed_stop (rx_full (by omega) _) _
      cases honoured .panic stops
    · exact fun both => absurd both.1 room
  by_cases short : (stored payload).length + 4 ≤ packetBufferSize
  · obtain ⟨_, recv, x, r, quiet, last, bytes⟩ := quiet_frame room count plain short hex0 hex1
    have split : frame payload h0 h1 = ('$'.toUInt8 :: payload ++ ['#'.toUInt8, h0]) ++ [h1] := by simp [frame]
    have noEnd : '#'.toUInt8 ∉ stored payload := fun member => (plain _ (List.mem_of_mem_filter member)).2.1 rfl
    rw [split, feed_frame quiet last, dbgstubProcessPacket, @validate_frame (s.idle recv) _ _ _ _ bytes noEnd hex0 hex1]
    by_cases right : hexByte h0 h1 = byteSum (stored payload)
    · rw [if_pos right]
      change Honoured (runCommand ((s.idle recv).serialSend '+'.toUInt8)) ↔ _
      constructor
      · intro honoured
        refine ⟨room, short, fun _ addr length requests => ?_⟩
        by_contra large
        obtain ⟨address, more, shape, first, clean, isAddr, isLength⟩ := requests
        rw [shape] at bytes
        have readAll := readable addr length ⟨address, more, shape, first, clean, isAddr, isLength⟩
        have result := @readMemory_view ((s.idle recv).serialSend '+'.toUInt8) address more _ h0 h1 addr length bytes first
          clean isAddr isLength
        rw [readReply_large _ (Nat.lt_of_not_le large) readAll] at result
        rw [@runCommand_read ((s.idle recv).serialSend '+'.toUInt8) _ _ h0 h1 bytes, ← @honoured_map _ _ _ Stub.view,
          result] at honoured
        cases honoured .overflow rfl
      · rintro ⟨_, _, small⟩
        exact @honoured_runCommand ((s.idle recv).serialSend '+'.toUInt8) r h0 h1 x _ bytes hex0 hex1 (small right)
    · rw [if_neg right]
      exact ⟨fun _ => ⟨room, short, fun same => absurd same right⟩, fun _ => honoured_ok _⟩
  · constructor
    · intro honoured
      rw [feed_overlong room count plain (Nat.lt_of_not_le short) hex0] at honoured
      cases honoured .panic rfl
    · exact fun both => absurd both.2.1 short

/-- A short packet from a stub that was just started. -/
theorem packet_size_honoured_iff_query :
    Honoured (feed (dbgstubInit (fun _ => none) (fun _ => false)) (frame (text "?") '3'.toUInt8 'f'.toUInt8)) := by
  have room : 0 < packetBufferSize := by decide
  have plain : ∀ c ∈ ['?'.toUInt8], Plain c := by
    intro c member
    cases List.mem_singleton.mp member
    exact ⟨by decide, by decide, by decide⟩
  have noRequest : ∀ addr length, ¬ Requests ['?'.toUInt8] addr length := by
    rintro addr length ⟨address, count, shape, _⟩
    cases shape
  refine (packet_size_honoured_iff (.init _ _) plain rfl rfl (fun addr length requests =>
    absurd requests (noRequest addr length))).mpr ⟨room, ?_, fun _ addr length requests => absurd requests (noRequest addr length)⟩
  change 1 + 4 ≤ packetBufferSize
  decide

/-- A packet of 4097 bytes, where 0x4000 are offered, ends in a panic. -/
theorem offered_packet_panics : ∃ (s : Stub) (payload : List UInt8) (h0 h1 : UInt8), Reachable s ∧
    s.index < packetBufferSize ∧ (∀ c ∈ payload, Plain c) ∧ isDigit 16 h0 = true ∧ isDigit 16 h1 = true ∧
    hexByte h0 h1 = byteSum payload ∧ (frame payload h0 h1).length ≤ 0x4000 ∧
    feed s (frame payload h0 h1) = .error .panic := by
  have plain : ∀ c ∈ List.replicate 4093 'A'.toUInt8, Plain c := by
    intro c member
    cases List.eq_of_mem_replicate member
    exact ⟨by decide, by decide, by decide⟩
  have room : 0 < packetBufferSize := by decide
  have count : 0 ≤ 2 := by decide
  have data : stored (List.replicate 4093 'A'.toUInt8) = List.replicate 4093 'A'.toUInt8 :=
    stored_data (fun c member => List.eq_of_mem_replicate member ▸ (by decide))
  refine ⟨dbgstubInit (fun _ => none) (fun _ => false), List.replicate 4093 'A'.toUInt8, '3'.toUInt8, 'd'.toUInt8,
    .init _ _, room, plain, rfl, rfl, ?_, ?_, feed_overlong room count plain ?_ rfl⟩
  · rw [byteSum, List.map_replicate, List.sum_replicate]
    rfl
  · rw [frame, List.cons_append, List.length_cons, List.length_append, List.length_replicate]
    decide
  · rw [data, List.length_replicate]
    decide

/-! A packet that is sent again. The saved packet is the source of dbgstub_send, and its target. -/

/- The answer to '-' outside a packet: the frame of `l` once more, which stays saved. -/
def Retransmits (s : Stub) (l : List UInt8) : Prop :=
  ∃ s', dbgstubRx s '-'.toUInt8 = .ok s' ∧ s'.output = s.output ++ framed l ∧ s'.packetSend = s.packetSend

section Resend

variable {s : Stub} {l : List UInt8}

/-- The byte that is read next is the one that was written last. -/
theorem sendLoop_chases {k : Nat} (written : s.packetSend.bytes[k]? = some '$'.toUInt8) (fuel : Nat) (checksum : UInt8) :
    sendLoop .packetSend fuel k checksum s = .error .overflow := by
  induction fuel generalizing k checksum s with
  | zero => rfl
  | succ fuel ih =>
    have nonzero : '$'.toUInt8 ≠ 0 := by decide
    have read : s.byteAt k .packetSend = some '$'.toUInt8 := written
    simp only [sendLoop, read, orOverread, bind, Except.bind, if_neg nonzero]
    by_cases room : k + 1 < bufferSize
    · have next : (s.packetSend.put (k + 1) '$'.toUInt8).bytes[k + 1]? = some '$'.toUInt8 := by
        rw [Buffer.put, List.getElem?_set_self]
        rwa [s.packetSend.size]
      simp only [emit_eq _ room]
      exact @ih (s.sent (s.packetSend.put (k + 1) '$'.toUInt8) ['$'.toUInt8]) (k + 1) next _
    · simp only [emit_overflow _ (Nat.le_of_not_lt room)]

theorem dbgstubSend_chases (s : Stub) : dbgstubSend s .packetSend = .error .overflow := by
  have opened : 0 < bufferSize := by decide
  have first : (s.packetSend.put 0 '$'.toUInt8).bytes[0]? = some '$'.toUInt8 := by
    rw [Buffer.put, List.getElem?_set_self]
    rwa [s.packetSend.size]
  simp only [dbgstubSend, emit_eq _ opened, bind, Except.bind]
  rw [@sendLoop_chases (s.sent (s.packetSend.put 0 '$'.toUInt8) ['$'.toUInt8]) 0 first]

theorem rx_again (room : s.index ≠ packetBufferSize) (outside : s.middle = false) :
    dbgstubRx s '-'.toUInt8 = .error .overflow := by
  have switch : rxSwitch s '-'.toUInt8 = .error .overflow := by
    change (if s.middle then _ else _) = _
    rw [outside]
    simp only [Bool.false_eq_true, if_false, dbgstubSend_chases, bind, Except.bind]
  simp only [dbgstubRx, rxByte, if_neg room, switch, bind, Except.bind]

end Resend

/-- No state that is outside a packet sends its last packet again. -/
theorem resend_never (s : Stub) (l : List UInt8) (outside : s.middle = false) : ¬ Retransmits s l := by
  rintro ⟨s', ran, _⟩
  by_cases full : s.index = packetBufferSize
  · simp only [dbgstubRx, rx_full full, bind, Except.bind] at ran
    cases ran
  · rw [rx_again full outside] at ran
    cases ran

/-- A stub that was just interrupted has sent the reason, and is asked for it again. -/
theorem resend_never_stopped : ∃ s, dbgstubException (dbgstubInit (fun _ => none) (fun _ => false)) (fun _ => 0) false =
    .ok s ∧ ¬ Retransmits s (text "S05") := by
  obtain ⟨s, ran⟩ := @reply_ok (dbgstubInit (fun _ => none) (fun _ => false)) "S05" sendable_texts.2.2.1
  have kept := reply_keeps ran
  have outside : s.middle = false := congrArg (fun receiver => receiver.2.1) kept
  exact ⟨s, ran, resend_never s _ outside⟩

/-- The packet that was sent last is not sent again, although it is saved. -/
theorem resend_fails : ¬ ∀ (s t : Stub) (l : List UInt8), Reachable s → 1 ≤ l.length → l.length ≤ 4000 → 0 ∉ l →
    dbgstubSend s (.text l) = .ok t → t.middle = false → Retransmits t l := by
  intro resent
  let s := dbgstubInit (fun _ => none) (fun _ => false)
  obtain ⟨t, ran⟩ := @reply_ok s "S05" sendable_texts.2.2.1
  have kept := reply_keeps ran
  have outside : t.middle = false := congrArg (fun receiver => receiver.2.1) kept
  have index : t.index = 0 := congrArg (fun receiver => receiver.1) kept
  have room : t.index ≠ packetBufferSize := by
    rw [index]
    decide
  obtain ⟨t', again, _⟩ := resent s t (text "S05") (.init _ _) (by decide) (by decide) sendable_texts.2.2.1.1 ran outside
  rw [rx_again room outside] at again
  cases again

end EvalynOS.Dbgstub
