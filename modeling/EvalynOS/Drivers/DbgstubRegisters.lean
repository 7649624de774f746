import EvalynOS.Drivers.DbgstubSize

/-! The register packets: what 'g' sends is taken back by 'G', and the other way around. -/
namespace EvalynOS.Dbgstub
open Strings DrX

/- A state in which the receiver takes a packet. -/
structure Ready (s : Stub) : Prop where
  room : s.index < packetBufferSize
  count : s.endCount ≤ 2

/- A payload that fits a packet and is no end of it. -/
structure Carried (payload : List UInt8) : Prop where
  short : payload.length ≤ 4092
  plain : ∀ c ∈ payload, Plain c ∧ c ≠ 3

/- The digits behind a payload are its checksum. -/
structure Checked (payload : List UInt8) (h0 h1 : UInt8) : Prop where
  hex0 : isDigit 16 h0 = true
  hex1 : isDigit 16 h1 = true
  right : hexByte h0 h1 = byteSum payload

section Packets

variable {s s' : Stub} {payload : List UInt8} {h0 h1 : UInt8}

theorem Reachable.ready (reachable : Reachable s) (room : s.index < packetBufferSize) : Ready s :=
  ⟨room, reachable.bounded.1⟩

theorem isDigit_hexOf {n : Nat} (small : n < 16) : isDigit 16 (hexOf n) = true := by
  rw [isDigit, digitOf_hexOf n small]
  simpa using small

theorem checked_framed (l : List UInt8) : Checked l (hexOf (byteSum l / 16)) (hexOf (byteSum l % 16)) := by
  have bound : byteSum l < 256 := Nat.mod_lt _ (by decide)
  have high := digitOf_hexOf (byteSum l / 16) (by omega)
  have low := digitOf_hexOf (byteSum l % 16) (by omega)
  refine ⟨isDigit_hexOf (by omega), isDigit_hexOf (by omega), ?_⟩
  rw [hexByte, high, low, Option.getD_some, Option.getD_some]
  omega

/-- A packet with a right checksum is acknowledged, and runs its command. Behind the packet the
buffer is what it was, but for the terminator. -/
theorem feed_checked (ready : Ready s) (carried : Carried payload) (checked : Checked payload h0 h1) :
    ∃ recv stale rest old, recv.bytes = frame payload h0 h1 ++ stale :: 0 :: rest ∧
      s.recv.bytes.drop (payload.length + 4) = stale :: old :: rest ∧
      feed s (frame payload h0 h1) = runCommand ((s.idle recv).serialSend '+'.toUInt8) := by
  have short := carried.short
  have same : stored payload = payload := stored_data (fun c member => (carried.plain c member).2)
  obtain ⟨s₁, recv, stale, rest, quiet, last, bytes, old, behind⟩ := quiet_frame_behind ready.room ready.count
    (fun c member => (carried.plain c member).1) (by rw [same]; unfold packetBufferSize; omega) checked.hex0 checked.hex1
  rw [same] at bytes behind
  have noEnd : '#'.toUInt8 ∉ payload := fun member => (carried.plain _ member).1.2.1 rfl
  have split : frame payload h0 h1 = ('$'.toUInt8 :: payload ++ ['#'.toUInt8, h0]) ++ [h1] := by simp [frame]
  refine ⟨recv, stale, rest, old, bytes, behind, ?_⟩
  rw [split, feed_frame quiet last, dbgstubProcessPacket, @validate_frame (s.idle recv) payload _ h0 h1 bytes noEnd
    checked.hex0 checked.hex1, if_pos checked.right]
  rfl

/-- The same for a command that is named by one letter. -/
theorem feed_command {c : UInt8} {args : List UInt8} {command : String × (Stub → Except Fault Stub)}
    (alone : ∀ name ∈ commands.map Prod.fst, (text name)[1]? = some c → text name = ['$'.toUInt8, c])
    (listed : commands.find? (fun command => text command.1 = ['$'.toUInt8, c]) = some command)
    (ready : Ready s) (carried : Carried (c :: args)) (checked : Checked (c :: args) h0 h1) :
    ∃ recv stale rest old, recv.bytes = frame (c :: args) h0 h1 ++ stale :: 0 :: rest ∧
      s.recv.bytes.drop (args.length + 5) = stale :: old :: rest ∧
      feed s (frame (c :: args) h0 h1) = command.2 ((s.idle recv).serialSend '+'.toUInt8) := by
  obtain ⟨recv, stale, rest, old, bytes, behind, fed⟩ := feed_checked ready carried checked
  refine ⟨recv, stale, rest, old, bytes, behind, ?_⟩
  rw [fed]
  exact @runCommand_letter ((s.idle recv).serialSend '+'.toUInt8) args (stale :: 0 :: rest) h0 h1 c command bytes alone
    listed

/-- After a packet the receiver takes the next one. -/
theorem ready_after (ready : Ready s) (carried : Carried payload) (checked : Checked payload h0 h1)
    (ran : feed s (frame payload h0 h1) = .ok s') : Ready s' := by
  obtain ⟨recv, _, _, _, _, _, fed⟩ := feed_checked ready carried checked
  have kept := runCommand_keeps (fed.symm.trans ran)
  have fields : (s'.index, s'.middle, s'.ended, s'.endCount) = (0, false, false, 0) := kept
  simp only [Prod.mk.injEq] at fields
  refine ⟨?_, by omega⟩
  rw [fields.1]
  decide

end Packets

/-! Digits. -/

section Digits

variable {width v value : Nat} {digits : List UInt8}

theorem hexField_append (width v : Nat) (digits : List UInt8) :
    hexField width v digits = hexField width v [] ++ digits := by
  induction width generalizing v digits with
  | zero => rfl
  | succ width ih => rw [hexField, hexField, ih, ih (v / 16) [hexOf (v % 16)], List.append_assoc, List.singleton_append]

theorem hexField_succ (width v : Nat) : hexField (width + 1) v [] = hexField width (v / 16) [] ++ [hexOf (v % 16)] := by
  rw [hexField, hexField_append]

theorem parseDigits_hexField (small : v < 16 ^ width) (fits : value * 16 ^ width + v < 2 ^ 64) :
    parseDigits (· % 2 ^ 64) 16 (hexField width v digits) value =
      parseDigits (· % 2 ^ 64) 16 digits (value * 16 ^ width + v) := by
  induction width generalizing v digits with
  | zero =>
    have none : v = 0 := by omega
    rw [none, hexField, pow_zero, Nat.mul_one, Nat.add_zero]
  | succ width ih =>
    have last : v % 16 < 16 := Nat.mod_lt _ (by decide)
    have whole : (value * 16 ^ width + v / 16) * 16 + v % 16 = value * 16 ^ width * 16 + v := by omega
    have grown : value * 16 ^ (width + 1) + v = value * 16 ^ width * 16 + v := by rw [pow_succ, Nat.mul_assoc]
    rw [grown] at fits ⊢
    rw [pow_succ] at small
    rw [hexField, ih (by omega) (by omega), parseDigits_digit (digitOf_hexOf _ last) last, whole, Nat.mod_eq_of_lt fits]

theorem strtoull_hexField (small : v < 16 ^ width) (fits : v < 2 ^ 64) :
    strtoull (hexField width v [] ++ [0]) 16 = some v := by
  rw [← hexField_append]
  have parsed := @parseDigits_hexField width v 0 [0] small (by omega)
  rw [Nat.zero_mul, Nat.zero_add, parseDigits_stop isDigit_zero] at parsed
  exact parsed

theorem mem_hexDigits {c : UInt8} : c ∈ text "0123456789abcdef" ↔ ∃ n < 16, hexOf n = c := by
  have listed : text "0123456789abcdef" = (List.range 16).map hexOf := rfl
  rw [listed, List.mem_map]
  simp only [List.mem_range]

/-- Every text of such digits is that of a number. -/
theorem hexField_surjective (width : Nat) (length : digits.length = width)
    (hex : ∀ c ∈ digits, c ∈ text "0123456789abcdef") : ∃ v < 16 ^ width, hexField width v [] = digits := by
  induction width generalizing digits with
  | zero =>
    rw [List.length_eq_zero_iff] at length
    exact ⟨0, by decide, by rw [length]; rfl⟩
  | succ width ih =>
    have nonempty : digits ≠ [] := by
      rintro rfl
      cases length
    obtain ⟨init, c, rfl⟩ : ∃ init c, digits = init ++ [c] :=
      ⟨_, _, (List.dropLast_concat_getLast nonempty).symm⟩
    rw [List.length_append, List.length_singleton, Nat.add_right_cancel_iff] at length
    obtain ⟨v, small, rfl⟩ := ih length (fun d member => hex d (List.mem_append_left _ member))
    obtain ⟨n, bound, rfl⟩ := mem_hexDigits.mp (hex c (by simp))
    refine ⟨v * 16 + n, by rw [pow_succ]; omega, ?_⟩
    have high : (v * 16 + n) / 16 = v := by omega
    have low : (v * 16 + n) % 16 = n := by omega
    rw [hexField_succ, high, low]

end Digits

/-! Bytes in the other order. -/

section Swap

variable {n v width : Nat}

theorem bswap_lt (n v : Nat) : bswap n v < 256 ^ n := by
  induction n generalizing v with
  | zero => exact Nat.one_pos
  | succ n ih =>
    have rest := ih (v / 256)
    have first : v % 256 * 256 ^ n ≤ 255 * 256 ^ n := Nat.mul_le_mul_right _ (by omega)
    rw [bswap, pow_succ]
    omega

/-- The last byte comes first. -/
theorem bswap_top (n v : Nat) (small : v < 256 ^ (n + 1)) :
    bswap (n + 1) v = bswap n (v % 256 ^ n) * 256 + v / 256 ^ n := by
  induction n generalizing v with
  | zero => simp [bswap]; omega
  | succ n ih =>
    have positive : 0 < 256 ^ n := Nat.pos_of_neZero _
    have lower : v / 256 < 256 ^ (n + 1) := by
      rw [pow_succ] at small
      omega
    have split : v % 256 ^ (n + 1) / 256 = v / 256 % 256 ^ n := by
      rw [pow_succ, Nat.mul_comm, Nat.mod_mul_right_div_self]
    have first : v % 256 ^ (n + 1) % 256 = v % 256 := Nat.mod_mod_of_dvd _ (dvd_pow_self 256 (Nat.succ_ne_zero n))
    have last : v / 256 / 256 ^ n = v / 256 ^ (n + 1) := by rw [Nat.div_div_eq_div_mul, pow_succ, Nat.mul_comm]
    rw [bswap, ih _ lower, bswap, split, first, last, pow_succ]
    ring

theorem bswap_bswap (n v : Nat) (small : v < 256 ^ n) : bswap n (bswap n v) = v := by
  induction n generalizing v with
  | zero =>
    rw [pow_zero] at small
    simp [bswap]
    omega
  | succ n ih =>
    have rest := bswap_lt n (v / 256)
    have lower : v / 256 < 256 ^ n := by
      rw [pow_succ] at small
      omega
    have shape : bswap (n + 1) v = v % 256 * 256 ^ n + bswap n (v / 256) := rfl
    have low : bswap (n + 1) v % 256 ^ n = bswap n (v / 256) := by
      rw [shape, Nat.mul_comm, Nat.mul_add_mod, Nat.mod_eq_of_lt rest]
    have high : bswap (n + 1) v / 256 ^ n = v % 256 := by
      rw [shape, Nat.mul_comm, Nat.mul_add_div (Nat.pos_of_neZero _), Nat.div_eq_of_lt rest, Nat.add_zero]
    rw [bswap_top n _ (bswap_lt (n + 1) v), low, high, ih _ lower]
    omega

/-- A field of either width comes back, as far as it was sent. -/
theorem swapRegister_twice (field : width = 16 ∨ width = 8) (small : v < 2 ^ 64) :
    swapRegister width (swapRegister width v) = v % 16 ^ width := by
  rcases field with rfl | rfl
  · change bswap 8 (bswap 8 v) = v % 16 ^ 16
    rw [bswap_bswap 8 v small]
    exact (Nat.mod_eq_of_lt small).symm
  · change bswap 4 (bswap 4 (v % 2 ^ 32) % 2 ^ 32) = v % 16 ^ 8
    have half : bswap 4 (v % 2 ^ 32) < 2 ^ 32 := bswap_lt 4 _
    rw [Nat.mod_eq_of_lt half]
    exact bswap_bswap 4 _ (Nat.mod_lt _ (by decide))

theorem swapRegister_kept (field : width = 16 ∨ width = 8) (small : v < 2 ^ 64) :
    swapRegister width (v % 16 ^ width) = swapRegister width v := by
  rcases field with rfl | rfl
  · have full : v < 16 ^ 16 := small
    rw [Nat.mod_eq_of_lt full]
  · change bswap 4 (v % 16 ^ 8 % 2 ^ 32) = bswap 4 (v % 2 ^ 32)
    have same : v % 16 ^ 8 % 2 ^ 32 = v % 2 ^ 32 := Nat.mod_mod_of_dvd _ (by decide)
    rw [same]

theorem swapRegister_lt (field : width = 16 ∨ width = 8) (v : Nat) : swapRegister width v < 16 ^ width := by
  rcases field with rfl | rfl
  · exact bswap_lt 8 v
  · exact bswap_lt 4 _

end Swap

/-! The fields of a register packet. -/

section Fields

variable {saved frame : Frame} {fields : List (Register × Nat)} {recv : Buffer} {ptr : Nat} {more : List UInt8}

/- `frame` after the fields of `saved` were written into it. -/
def restore (saved : Frame) : List (Register × Nat) → Frame → Frame
  | [], frame => frame
  | (reg, width) :: rest, frame => restore saved rest (frame.set reg (BitVec.ofNat 64 ((saved reg).toNat % 16 ^ width)))

theorem unpackRegs_packed (widths : ∀ field ∈ fields, field.2 = 16 ∨ field.2 = 8)
    (bytes : recv.bytes.drop ptr = fields.flatMap (packReg saved) ++ more) :
    unpackRegs recv fields ptr frame = .ok (restore saved fields frame) := by
  induction fields generalizing ptr frame with
  | nil => rfl
  | cons field fields ih =>
    obtain ⟨reg, width⟩ := field
    have either : width = 16 ∨ width = 8 := widths _ List.mem_cons_self
    let v := swapRegister width (saved reg).toNat
    have digits : (hexField width v []).length = width := length_hexField width v []
    rw [List.flatMap_cons, List.append_assoc] at bytes
    change recv.bytes.drop ptr = hexField width v [] ++ _ at bytes
    have inside : ¬ bufferSize < ptr + width := by
      have room := congrArg List.length bytes
      rw [List.length_drop, recv.size, List.length_append, digits] at room
      omega
    have read : strtoull ((recv.bytes.drop ptr).take width ++ [0]) 16 = some v := by
      rw [bytes, List.take_left' digits]
      have small : v < 16 ^ width := swapRegister_lt either _
      have bound : 16 ^ width ≤ 2 ^ 64 := by rcases either with rfl | rfl <;> decide
      exact strtoull_hexField small (by omega)
    have behind : recv.bytes.drop (ptr + width) = fields.flatMap (packReg saved) ++ more := by
      rw [← List.drop_drop, bytes, List.drop_left' digits]
    unfold unpackRegs
    rw [if_neg inside, read]
    change unpackRegs recv fields (ptr + width) (frame.set reg (BitVec.ofNat 64 (swapRegister width v))) = _
    rw [ih (fun field member => widths field (List.mem_cons_of_mem _ member)) behind,
      swapRegister_twice either (saved reg).isLt]
    rfl

theorem restore_other {r : Register} (other : r ∉ fields.map Prod.fst) : restore saved fields frame r = frame r := by
  induction fields generalizing frame with
  | nil => rfl
  | cons field fields ih =>
    rw [List.map_cons, List.mem_cons, not_or] at other
    rw [restore, ih other.2, Frame.set, if_neg other.1]

theorem restore_field (distinct : (fields.map Prod.fst).Nodup) {field : Register × Nat} (member : field ∈ fields) :
    restore saved fields frame field.1 = BitVec.ofNat 64 ((saved field.1).toNat % 16 ^ field.2) := by
  induction fields generalizing frame with
  | nil => cases member
  | cons first fields ih =>
    rw [List.map_cons, List.nodup_cons] at distinct
    rcases List.mem_cons.mp member with rfl | later
    · rw [restore, restore_other distinct.1, Frame.set, if_pos rfl]
    · rw [restore]
      exact ih distinct.2 later

/-- What is sent of a register does not depend on what is lost of it. -/
theorem packReg_restored (widths : ∀ field ∈ fields, field.2 = 16 ∨ field.2 = 8)
    (distinct : (fields.map Prod.fst).Nodup) :
    fields.flatMap (packReg (restore saved fields frame)) = fields.flatMap (packReg saved) := by
  have same : ∀ field ∈ fields, packReg (restore saved fields frame) field = packReg saved field := by
    intro field member
    have small : (saved field.1).toNat < 2 ^ 64 := (saved field.1).isLt
    have bound : (saved field.1).toNat % 16 ^ field.2 < 2 ^ 64 := Nat.lt_of_le_of_lt (Nat.mod_le _ _) small
    rw [packReg, restore_field distinct member, BitVec.toNat_ofNat, Nat.mod_eq_of_lt bound,
      swapRegister_kept (widths field member) small, packReg]
  rw [List.flatMap_congr same]

/-- Every text of the right length is that of some registers. -/
theorem packed_surjective (widths : ∀ field ∈ fields, field.2 = 16 ∨ field.2 = 8)
    (distinct : (fields.map Prod.fst).Nodup) {digits : List UInt8} (length : digits.length = (fields.map Prod.snd).sum)
    (hex : ∀ c ∈ digits, c ∈ text "0123456789abcdef") : ∃ saved : Frame, fields.flatMap (packReg saved) = digits := by
  induction fields generalizing digits with
  | nil => exact ⟨fun _ => 0, (List.length_eq_zero_iff.mp length).symm⟩
  | cons field fields ih =>
    obtain ⟨reg, width⟩ := field
    have either : width = 16 ∨ width = 8 := widths _ List.mem_cons_self
    rw [List.map_cons, List.nodup_cons] at distinct
    rw [List.map_cons, List.sum_cons] at length
    obtain ⟨frame, later⟩ := @ih (fun field member => widths field (List.mem_cons_of_mem _ member)) distinct.2
      (digits.drop width) (by rw [List.length_drop]; omega) (fun c member => hex c (List.mem_of_mem_drop member))
    have short : (digits.take width).length = width := by
      rw [List.length_take]
      omega
    obtain ⟨v, small, first⟩ := hexField_surjective width short (fun c member => hex c (List.mem_of_mem_take member))
    have bound : 16 ^ width ≤ 2 ^ 64 := by rcases either with rfl | rfl <;> decide
    have swapped := swapRegister_lt either v
    refine ⟨frame.set reg (BitVec.ofNat 64 (swapRegister width v)), ?_⟩
    have here : packReg (frame.set reg (BitVec.ofNat 64 (swapRegister width v))) (reg, width) = digits.take width := by
      rw [packReg, Frame.set, if_pos rfl, BitVec.toNat_ofNat, Nat.mod_eq_of_lt (by omega),
        swapRegister_twice either (by omega), Nat.mod_eq_of_lt small, first]
    have rest : ∀ field ∈ fields, packReg (frame.set reg (BitVec.ofNat 64 (swapRegister width v))) field =
        packReg frame field := by
      intro field member
      have other : field.1 ≠ reg := by
        rintro rfl
        exact distinct.1 (List.mem_map.mpr ⟨field, member, rfl⟩)
      rw [packReg, Frame.set, if_neg other, packReg]
    rw [List.flatMap_cons, here, List.flatMap_congr rest, later, List.take_append_drop]

end Fields

section Registers

variable {s : Stub} {d : List UInt8} {h0 h1 : UInt8}

theorem hexField_hex (width v : Nat) : ∀ c ∈ hexField width v [], c ∈ text "0123456789abcdef" := by
  induction width generalizing v with
  | zero => exact fun c member => absurd member List.not_mem_nil
  | succ width ih =>
    intro c member
    rw [hexField_succ, List.mem_append, List.mem_singleton] at member
    rcases member with before | rfl
    · exact ih _ c before
    · exact mem_hexDigits.mpr ⟨_, Nat.mod_lt _ (by decide), rfl⟩

theorem packedFrame_hex (saved : Frame) : ∀ c ∈ packedFrame saved, c ∈ text "0123456789abcdef" := by
  intro c member
  obtain ⟨field, _, digit⟩ := List.mem_flatMap.mp member
  exact hexField_hex _ _ c digit

theorem hex_plain {c : UInt8} (hex : c ∈ text "0123456789abcdef") : Plain c ∧ c ≠ 3 := by
  obtain ⟨n, bound, rfl⟩ := mem_hexDigits.mp hex
  have all : ∀ n < 16, (hexOf n ≠ '$'.toUInt8 ∧ hexOf n ≠ '#'.toUInt8 ∧ hexOf n ≠ '}'.toUInt8) ∧ hexOf n ≠ 3 := by decide
  exact all n bound

theorem packed_widths : ∀ field ∈ packedRegisters, field.2 = 16 ∨ field.2 = 8 := by decide

theorem packed_distinct : (packedRegisters.map Prod.fst).Nodup := by decide

theorem carried_g : Carried ['g'.toUInt8] := by
  refine ⟨by decide, fun c member => ?_⟩
  cases List.mem_singleton.mp member
  exact ⟨⟨by decide, by decide, by decide⟩, by decide⟩

/-- 'g' sends the registers. -/
theorem feed_g (ready : Ready s) (checked : Checked ['g'.toUInt8] h0 h1) :
    ∃ s', feed s (frame ['g'.toUInt8] h0 h1) = .ok s' ∧
      s'.output = s.output ++ '+'.toUInt8 :: framed (packedFrame s.target.lastFrame) ∧ s'.target = s.target := by
  obtain ⟨recv, _, _, _, _, _, fed⟩ := feed_command (by decide) rfl ready carried_g checked
  obtain ⟨s', ran, output, target⟩ := view_ok (readRegisters_view ((s.idle recv).serialSend '+'.toUInt8))
  refine ⟨s', fed.trans ran, ?_, target⟩
  rw [output]
  simp [Stub.serialSend, Stub.idle]

theorem carried_G (saved : Frame) : Carried ('G'.toUInt8 :: packedFrame saved) := by
  refine ⟨by rw [List.length_cons, length_packedFrame]; decide, fun c member => ?_⟩
  rcases List.mem_cons.mp member with rfl | digit
  · exact ⟨⟨by decide, by decide, by decide⟩, by decide⟩
  · exact hex_plain (packedFrame_hex saved c digit)

/-- 'G' takes the registers that are sent with it. -/
theorem feed_G {saved : Frame} (ready : Ready s) (checked : Checked ('G'.toUInt8 :: packedFrame saved) h0 h1) :
    ∃ s', feed s (frame ('G'.toUInt8 :: packedFrame saved) h0 h1) = .ok s' ∧
      s'.output = s.output ++ '+'.toUInt8 :: framed (text "OK") ∧
      s'.target.lastFrame = restore saved packedRegisters s.target.lastFrame := by
  have carried := carried_G saved
  obtain ⟨recv, stale, rest, _, bytes, _, fed⟩ := feed_command (by decide) rfl ready carried checked
  have digits : recv.bytes.drop 2 = packedFrame saved ++ ('#'.toUInt8 :: h0 :: h1 :: stale :: 0 :: rest) := by
    rw [bytes]
    simp [frame]
  have unpacked := @unpackRegs_packed saved s.target.lastFrame _ recv 2 _ packed_widths digits
  let target : Target := { s.target with lastFrame := restore saved packedRegisters s.target.lastFrame }
  obtain ⟨s', ran, output, same⟩ := view_ok (@reply_view
    { (s.idle recv).serialSend '+'.toUInt8 with target := target } "OK" sendable_texts.2.2.2.1)
  refine ⟨s', ?_, ?_, congrArg Target.lastFrame same⟩
  · rw [fed]
    change writeRegisters ((s.idle recv).serialSend '+'.toUInt8) = _
    unfold writeRegisters
    change (unpackRegs recv packedRegisters 2 s.target.lastFrame >>= _) = _
    rw [unpacked]
    exact ran
  · rw [output]
    simp [Stub.serialSend, Stub.idle]

end Registers

/- The registers that are sent with all their bits. -/
def fullRegisters : List Register :=
  [.rax, .rbx, .rcx, .rdx, .rsi, .rdi, .rbp, .rsp, .r8, .r9, .r10, .r11, .r12, .r13, .r14, .r15, .ip]

/-- The text that 'g' replied with gives 'G' the registers back; and what 'G' took, 'g' replies. -/
theorem register_packets_round_trip :
    (∀ (s : Stub) (g0 g1 : UInt8), Ready s → Checked (text "g") g0 g1 →
      ∃ t d, feed s (frame (text "g") g0 g1) = .ok t ∧ t.output = s.output ++ text "+" ++ framed d ∧
      ∀ (s' : Stub) (h0 h1 : UInt8), Ready s' → Checked (text "G" ++ d) h0 h1 →
      ∃ u, feed s' (frame (text "G" ++ d) h0 h1) = .ok u ∧ u.output = s'.output ++ text "+" ++ framed (text "OK") ∧
        (∀ reg ∈ fullRegisters, u.target.lastFrame reg = s.target.lastFrame reg) ∧
        (∀ reg ∈ [Register.flags, .cs, .ss],
          (u.target.lastFrame reg).toNat = (s.target.lastFrame reg).toNat % 2 ^ 32) ∧
        (∀ reg ∈ [Register.vector, .error], u.target.lastFrame reg = s'.target.lastFrame reg)) ∧
    (∀ (d : List UInt8) (s : Stub) (h0 h1 g0 g1 : UInt8), d.length = 296 → (∀ c ∈ d, c ∈ text "0123456789abcdef") →
      Ready s → Checked (text "G" ++ d) h0 h1 → Checked (text "g") g0 g1 →
      ∃ t u, feed s (frame (text "G" ++ d) h0 h1) = .ok t ∧ t.output = s.output ++ text "+" ++ framed (text "OK") ∧
        feed t (frame (text "g") g0 g1) = .ok u ∧ u.output = t.output ++ text "+" ++ framed d) := by
  have one : text "+" = ['+'.toUInt8] := rfl
  simp only [one, List.append_assoc, List.singleton_append]
  constructor
  · intro s g0 g1 ready asked
    obtain ⟨t, ran, output, _⟩ := feed_g ready asked
    refine ⟨t, _, ran, output, fun s' h0 h1 ready' checked => ?_⟩
    obtain ⟨u, ran', output', registers⟩ := feed_G ready' checked
    refine ⟨u, ran', output', ?_, ?_, ?_⟩
    · intro reg member
      have listed : ∀ reg ∈ fullRegisters, (reg, 16) ∈ packedRegisters := by decide
      have back : restore s.target.lastFrame packedRegisters s'.target.lastFrame reg =
          BitVec.ofNat 64 ((s.target.lastFrame reg).toNat % 16 ^ 16) := restore_field packed_distinct (listed reg member)
      have full : (s.target.lastFrame reg).toNat < 16 ^ 16 := (s.target.lastFrame reg).isLt
      rw [registers, back, Nat.mod_eq_of_lt full, BitVec.ofNat_toNat, BitVec.setWidth_eq]
    · intro reg member
      have listed : ∀ reg ∈ [Register.flags, .cs, .ss], (reg, 8) ∈ packedRegisters := by decide
      have back : restore s.target.lastFrame packedRegisters s'.target.lastFrame reg =
          BitVec.ofNat 64 ((s.target.lastFrame reg).toNat % 2 ^ 32) := restore_field packed_distinct (listed reg member)
      have half : (s.target.lastFrame reg).toNat % 2 ^ 32 < 2 ^ 64 := Nat.lt_trans (Nat.mod_lt _ (by decide)) (by decide)
      rw [registers, back, BitVec.toNat_ofNat, Nat.mod_eq_of_lt half]
    · intro reg member
      have unlisted : ∀ reg ∈ [Register.vector, .error], reg ∉ packedRegisters.map Prod.fst := by decide
      rw [registers]
      exact restore_other (unlisted reg member)
  · intro d s h0 h1 g0 g1 length hex ready checked asked
    obtain ⟨saved, packed⟩ := packed_surjective packed_widths packed_distinct length hex
    change packedFrame saved = d at packed
    subst packed
    obtain ⟨t, ran, output, registers⟩ := feed_G ready checked
    have carried := carried_G saved
    obtain ⟨u, ran', output', _⟩ := feed_g (ready_after ready carried checked ran) asked
    refine ⟨t, u, ran, output, ran', ?_⟩
    rw [output', registers]
    have same : packedFrame (restore saved packedRegisters s.target.lastFrame) = packedFrame saved :=
      packReg_restored packed_widths packed_distinct
    exact congrArg (fun d => t.output ++ '+'.toUInt8 :: framed d) same

/-- A stub that was just started has zeros in its registers, and takes others. -/
theorem register_packets_round_trip_fresh :
    let fresh := dbgstubInit (fun _ => none) (fun _ => false)
    let ones := List.replicate 296 '1'.toUInt8
    (∃ t d u, feed fresh (framed (text "g")) = .ok t ∧ t.output = text "+" ++ framed d ∧
      feed t (framed (text "G" ++ d)) = .ok u ∧ ∀ reg ∈ fullRegisters, u.target.lastFrame reg = 0) ∧
    ∃ t u, feed fresh (framed (text "G" ++ ones)) = .ok t ∧ feed t (framed (text "g")) = .ok u ∧
      u.output = t.output ++ text "+" ++ framed ones := by
  intro fresh ones
  have ready : Ready fresh := ⟨by decide, by decide⟩
  have asked := checked_framed (text "g")
  constructor
  · obtain ⟨t, d, ran, output, back⟩ := register_packets_round_trip.1 fresh _ _ ready asked
    obtain ⟨u, ran', _, same, _⟩ := back t _ _ (ready_after ready carried_g asked ran) (checked_framed _)
    exact ⟨t, d, u, ran, output, ran', same⟩
  · have hex : ∀ c ∈ ones, c ∈ text "0123456789abcdef" := by
      intro c member
      cases List.eq_of_mem_replicate member
      decide
    obtain ⟨t, u, ran, _, ran', output⟩ := register_packets_round_trip.2 ones fresh _ _ _ _ List.length_replicate hex ready
      (checked_framed _) asked
    exact ⟨t, u, ran, ran', output⟩

end EvalynOS.Dbgstub
