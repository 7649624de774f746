import EvalynOS.Lib.Bits

/-! The bit stream of deps/kgz_singleheader.h. Bytes are taken into a 64-bit buffer, from
which the fields are read. While the reader is inside its data, the buffer holds the bits
that come next, and a field is the number these bits make. -/
namespace EvalynOS.Kgz
open Lib

/- kgz_bitstream_t; data_len is the length of the list. -/
structure Bitstream where
  data : List UInt8
  currentByte : Nat
  currentBit : Nat
  bitBuffer : Nat
  bitsInBuffer : Nat
  deriving DecidableEq, Repr

namespace Bitstream

/- The loop of kgz_bitstream_fill, which runs eight times at most. -/
def fillLoop (data : List UInt8) : Nat → Nat → Nat → Nat → Nat × Nat
  | 0, _, bitBuffer, bits => (bitBuffer, bits)
  | rounds + 1, curByte, bitBuffer, bits =>
    if bits ≤ 56 then
      match data[curByte]? with
      | some byte => fillLoop data rounds (curByte + 1) (bitBuffer ||| (byte.toNat <<< bits)) (bits + 8)
      | none => (bitBuffer, bits)
    else (bitBuffer, bits)

def fill (s : Bitstream) : Bitstream :=
  let curByte := s.currentByte + (s.currentBit + s.bitsInBuffer) / 8
  let (bitBuffer, bits) := fillLoop s.data 8 curByte s.bitBuffer s.bitsInBuffer
  { s with bitBuffer := bitBuffer, bitsInBuffer := bits }

/- The end of kgz_bitstream_getbits and kgz_bitstream_consume. The counts are uint8_t. -/
def advance (s : Bitstream) (bits : Nat) : Bitstream :=
  let currentBit := (s.currentBit + bits) % 256
  { s with
    bitBuffer := s.bitBuffer >>> bits
    bitsInBuffer := (s.bitsInBuffer + (256 - bits % 256)) % 256
    currentByte := s.currentByte + currentBit / 8
    currentBit := currentBit % 8 }

def getbits (s : Bitstream) (bits : Nat) : Nat × Bitstream :=
  if bits = 0 then (0, s)
  else
    let s := if s.bitsInBuffer < bits then s.fill else s
    ((s.bitBuffer &&& (2 ^ bits - 1)) % 2 ^ 32, s.advance bits)

def align (s : Bitstream) : Bitstream :=
  let s := if s.currentBit ≠ 0 then { s with currentByte := s.currentByte + 1, currentBit := 0 } else s
  { s with bitBuffer := 0, bitsInBuffer := 0 }

def readU16 (s : Bitstream) : Nat × Bitstream :=
  if s.currentBit = 0 ∧ s.currentByte + 1 < s.data.length then
    let lo := (s.data.getD s.currentByte 0).toNat
    let hi := (s.data.getD (s.currentByte + 1) 0).toNat
    (lo ||| (hi <<< 8), { s with currentByte := s.currentByte + 2 })
  else
    let (value, s) := s.getbits 16
    (value % 2 ^ 16, s)

def peek (s : Bitstream) (bits : Nat) : Nat × Bitstream :=
  if bits = 0 then (0, s)
  else
    let s := if s.bitsInBuffer < bits then s.fill else s
    ((s.bitBuffer &&& (2 ^ bits - 1)) % 2 ^ 32, s)

def consume (s : Bitstream) (bits : Nat) : Bitstream :=
  if bits = 0 then s else s.advance bits

end Bitstream

/-- The bits that are still to be read from the stream. -/
structure Reads (s : Bitstream) (rest : List Bool) : Prop where
  low : s.currentBit < 8
  position : 8 * s.currentByte + s.currentBit + rest.length = 8 * s.data.length
  here : (bitsOf s.data).drop (8 * s.currentByte + s.currentBit) = rest
  filled : s.bitsInBuffer ≤ rest.length
  small : s.bitsInBuffer ≤ 64
  boundary : (s.currentBit + s.bitsInBuffer) % 8 = 0
  buffer : s.bitBuffer = number (rest.take s.bitsInBuffer)

section Stream

variable {s : Bitstream} {rest field : List Bool} {bits : Nat}

/-- Reading stops where the data ends. -/
theorem Reads.ended_iff (reads : Reads s rest) : s.data.length ≤ s.currentByte ↔ rest = [] := by
  have low := reads.low
  have position := reads.position
  rw [← List.length_eq_zero_iff]
  omega

/-- A byte is taken into the buffer behind the bits that it holds. -/
theorem number_next_byte {data : List UInt8} {start count k : Nat} {byte : UInt8}
    (here : (bitsOf data).drop start = rest) (place : start + count = 8 * k) (found : data[k]? = some byte) :
    number (rest.take count) ||| (byte.toNat <<< count) = number (rest.take (count + 8)) ∧
      count + 8 ≤ rest.length := by
  have next := bitsOf_byte found
  have behind : rest.drop count = byteBits byte ++ (bitsOf data).drop (8 * (k + 1)) := by
    rw [← here, List.drop_drop, place, next]
  have size := congrArg List.length behind
  rw [List.length_drop, List.length_append, byteBits_length] at size
  have long : count + 8 ≤ rest.length := by omega
  refine ⟨?_, long⟩
  have taken : rest.take (count + 8) = rest.take count ++ byteBits byte := by
    rw [List.take_add, behind, List.take_left' (byteBits_length byte)]
  have count_eq : (rest.take count).length = count := List.length_take_of_le (by omega)
  have bound := number_lt (rest.take count)
  rw [count_eq] at bound
  rw [or_shift bound, taken, number_append, count_eq, number_byteBits]

/-- The loop goes on until the buffer is full or the data is at its end. -/
theorem fillLoop_spec {data : List UInt8} {start : Nat} (here : (bitsOf data).drop start = rest)
    (rounds : Nat) {count k : Nat} (place : start + count = 8 * k) (small : count ≤ rest.length) (low : count ≤ 64)
    (enough : 57 ≤ count + 8 * rounds) :
    ∃ count', Bitstream.fillLoop data rounds k (number (rest.take count)) count =
        (number (rest.take count'), count') ∧
      count ≤ count' ∧ count' ≤ rest.length ∧ count' ≤ 64 ∧ (start + count') % 8 = 0 ∧
      (57 ≤ count' ∨ count' = rest.length) := by
  induction rounds generalizing count k with
  | zero => exact ⟨count, rfl, Nat.le_refl _, small, low, by omega, .inl (by omega)⟩
  | succ rounds ih =>
    unfold Bitstream.fillLoop
    by_cases room : count ≤ 56
    · rw [if_pos room]
      cases found : data[k]? with
      | none =>
        have past := List.getElem?_eq_none_iff.mp found
        have size := congrArg List.length here
        rw [List.length_drop, bitsOf_length] at size
        exact ⟨count, rfl, Nat.le_refl _, small, low, by omega, .inr (by omega)⟩
      | some byte =>
        obtain ⟨value, long⟩ := number_next_byte here place found
        obtain ⟨count', result, more, rest'⟩ := @ih (count + 8) (k + 1) (by omega) long (by omega) (by omega)
        refine ⟨count', ?_, by omega, rest'⟩
        simp only [value, result]
    · rw [if_neg room]
      exact ⟨count, rfl, Nat.le_refl _, small, low, by omega, .inl (by omega)⟩

theorem Reads.fill (reads : Reads s rest) : Reads s.fill rest ∧ s.fill.data = s.data ∧
    (57 ≤ s.fill.bitsInBuffer ∨ s.fill.bitsInBuffer = rest.length) := by
  have place : 8 * s.currentByte + s.currentBit + s.bitsInBuffer =
      8 * (s.currentByte + (s.currentBit + s.bitsInBuffer) / 8) := by
    have boundary := reads.boundary
    omega
  obtain ⟨count, result, more, inside, small, boundary, full⟩ := fillLoop_spec reads.here 8 place reads.filled
    reads.small (by omega)
  have shape : s.fill = { s with bitBuffer := number (rest.take count), bitsInBuffer := count } := by
    simp only [Bitstream.fill, reads.buffer, result]
  rw [shape]
  refine ⟨⟨reads.low, reads.position, reads.here, inside, small, ?_, rfl⟩, rfl, full⟩
  change (s.currentBit + count) % 8 = 0
  omega

/-- The buffer has been filled for a field of this many bits. -/
theorem Reads.ready (reads : Reads s rest) (small : bits ≤ 57) :
    ∃ s₁, (if s.bitsInBuffer < bits then s.fill else s) = s₁ ∧ Reads s₁ rest ∧ s₁.data = s.data ∧
      (bits ≤ s₁.bitsInBuffer ∨ s₁.bitsInBuffer = rest.length) := by
  split
  · obtain ⟨after, same, full⟩ := reads.fill
    exact ⟨_, rfl, after, same, full.imp_left (fun many => small.trans many)⟩
  · rename_i enough
    exact ⟨s, rfl, reads, rfl, .inl (Nat.le_of_not_lt enough)⟩

/-- The bits at the front of the buffer are the next ones; behind the end of the data there
are zeros. -/
theorem Reads.front (reads : Reads s rest) (small : bits ≤ 32)
    (full : bits ≤ s.bitsInBuffer ∨ s.bitsInBuffer = rest.length) :
    (s.bitBuffer &&& (2 ^ bits - 1)) % 2 ^ 32 = number (rest.take bits) := by
  have value : number (rest.take s.bitsInBuffer) % 2 ^ bits = number (rest.take bits) := by
    rw [← number_take, List.take_take]
    rcases full with many | all
    · rw [Nat.min_eq_left many]
    · rw [all, ← List.take_take, List.take_length]
  have bound : number (rest.take bits) < 2 ^ 32 :=
    Nat.lt_of_lt_of_le (number_lt _) (Nat.pow_le_pow_right (by decide) ((List.length_take_le _ _).trans small))
  rw [reads.buffer, land_mask, value, Nat.mod_eq_of_lt bound]

theorem Reads.advance (reads : Reads s (field ++ rest)) (inside : field.length ≤ s.bitsInBuffer) :
    Reads (s.advance field.length) rest := by
  have low := reads.low
  have small := reads.small
  have position := reads.position
  have filled := reads.filled
  have boundary := reads.boundary
  rw [List.length_append] at position filled
  have bit : (s.currentBit + field.length) % 256 = s.currentBit + field.length := Nat.mod_eq_of_lt (by omega)
  have count : (s.bitsInBuffer + (256 - field.length % 256)) % 256 = s.bitsInBuffer - field.length := by omega
  have buffer : s.bitBuffer >>> field.length = number (rest.take (s.bitsInBuffer - field.length)) := by
    rw [reads.buffer, Nat.shiftRight_eq_div_pow, ← number_drop, List.drop_take, List.drop_left]
  have here := congrArg (List.drop field.length) reads.here
  rw [List.drop_drop, List.drop_left] at here
  simp only [Bitstream.advance, bit, count, buffer]
  refine ⟨Nat.mod_lt _ (by decide), ?_, ?_, ?_, ?_, ?_, rfl⟩
  · change 8 * (s.currentByte + (s.currentBit + field.length) / 8) + (s.currentBit + field.length) % 8 + rest.length =
      8 * s.data.length
    omega
  · change (bitsOf s.data).drop (8 * (s.currentByte + (s.currentBit + field.length) / 8) +
      (s.currentBit + field.length) % 8) = rest
    rw [← here]
    congr 1
    omega
  · change s.bitsInBuffer - field.length ≤ rest.length
    omega
  · change s.bitsInBuffer - field.length ≤ 64
    omega
  · change ((s.currentBit + field.length) % 8 + (s.bitsInBuffer - field.length)) % 8 = 0
    omega

theorem Reads.getbits (reads : Reads s (field ++ rest)) (small : field.length ≤ 32) :
    ∃ s', s.getbits field.length = (number field, s') ∧ Reads s' rest ∧ s'.data = s.data := by
  unfold Bitstream.getbits
  split
  · rename_i empty
    have nil := List.length_eq_zero_iff.mp empty
    subst nil
    exact ⟨s, rfl, reads, rfl⟩
  · obtain ⟨s₁, ready, reads₁, same, full⟩ := @Reads.ready s (field ++ rest) field.length reads (by omega)
    have inside : field.length ≤ s₁.bitsInBuffer := by
      rw [List.length_append] at full
      omega
    have value := reads₁.front small full
    rw [List.take_left] at value
    simp only [ready, value]
    exact ⟨_, rfl, reads₁.advance inside, same⟩

/-- Looking ahead leaves the stream where it is. -/
theorem Reads.peek (reads : Reads s rest) (some_bits : 0 < bits) (small : bits ≤ 32) :
    ∃ s', s.peek bits = (number (rest.take bits), s') ∧ Reads s' rest ∧ s'.data = s.data ∧
      (bits ≤ s'.bitsInBuffer ∨ s'.bitsInBuffer = rest.length) := by
  unfold Bitstream.peek
  rw [if_neg (Nat.ne_of_gt some_bits)]
  obtain ⟨s₁, ready, reads₁, same, full⟩ := @Reads.ready s rest bits reads (by omega)
  simp only [ready, reads₁.front small full]
  exact ⟨s₁, rfl, reads₁, same, full⟩

theorem Reads.consume (reads : Reads s (field ++ rest)) (inside : field.length ≤ s.bitsInBuffer) :
    Reads (s.consume field.length) rest ∧ (s.consume field.length).data = s.data := by
  unfold Bitstream.consume
  split
  · rename_i empty
    have nil := List.length_eq_zero_iff.mp empty
    subst nil
    exact ⟨reads, rfl⟩
  · exact ⟨reads.advance inside, rfl⟩

/-- Aligning leaves out the bits up to the next byte. -/
theorem Reads.align (reads : Reads s rest) :
    Reads s.align (rest.drop (rest.length % 8)) ∧ s.align.data = s.data ∧ s.align.currentBit = 0 := by
  have low := reads.low
  have position := reads.position
  have here := reads.here
  by_cases onByte : s.currentBit = 0
  · have none : rest.length % 8 = 0 := by omega
    simp only [Bitstream.align, onByte, ne_eq, not_true_eq_false, ↓reduceIte, none, List.drop_zero]
    refine ⟨⟨Nat.zero_lt_succ 7, ?_, ?_, Nat.zero_le _, Nat.zero_le 64, rfl, rfl⟩, trivial, trivial⟩
    · change 8 * s.currentByte + 0 + rest.length = 8 * s.data.length
      omega
    · rw [onByte] at here
      exact here
  · simp only [Bitstream.align, onByte, ne_eq, not_false_eq_true, ↓reduceIte]
    refine ⟨⟨Nat.zero_lt_succ 7, ?_, ?_, Nat.zero_le _, Nat.zero_le 64, rfl, rfl⟩, trivial, trivial⟩
    · change 8 * (s.currentByte + 1) + 0 + (rest.drop (rest.length % 8)).length = 8 * s.data.length
      rw [List.length_drop]
      omega
    · change (bitsOf s.data).drop (8 * (s.currentByte + 1) + 0) = rest.drop (rest.length % 8)
      rw [← here, List.drop_drop]
      congr 1
      rw [here]
      omega

/-- A number of two bytes at a byte's edge, with nothing in the buffer. -/
theorem Reads.readU16 (reads : Reads s (field ++ rest)) (onByte : s.currentBit = 0) (empty : s.bitsInBuffer = 0)
    (two : field.length = 16) :
    ∃ s', s.readU16 = (number field, s') ∧ Reads s' rest ∧ s'.data = s.data ∧ s'.currentBit = 0 ∧
      s'.bitsInBuffer = 0 := by
  have position := reads.position
  rw [List.length_append] at position
  have inside : s.currentBit = 0 ∧ s.currentByte + 1 < s.data.length := ⟨onByte, by omega⟩
  have here := reads.here
  rw [onByte, Nat.add_zero] at here
  have buffer : s.bitBuffer = 0 := by
    rw [reads.buffer, empty, List.take_zero]
    rfl
  have first := bitsOf_byte (List.getElem?_eq_getElem (Nat.lt_of_succ_lt inside.2))
  have second := bitsOf_byte (List.getElem?_eq_getElem inside.2)
  rw [second, here, ← List.append_assoc] at first
  have parts := List.append_inj first (by rw [List.length_append, byteBits_length, byteBits_length, two])
  have value : (s.data.getD s.currentByte 0).toNat ||| ((s.data.getD (s.currentByte + 1) 0).toNat <<< 8) =
      number field := by
    rw [List.getD_eq_getElem _ _ (Nat.lt_of_succ_lt inside.2), List.getD_eq_getElem _ _ inside.2,
      or_shift (UInt8.toNat_lt _), parts.1, number_append, number_byteBits, number_byteBits, byteBits_length]
  unfold Bitstream.readU16
  rw [if_pos inside]
  simp only [value]
  refine ⟨_, rfl, ⟨reads.low, ?_, ?_, ?_, reads.small, reads.boundary, ?_⟩, rfl, onByte, empty⟩
  · change 8 * (s.currentByte + 2) + s.currentBit + rest.length = 8 * s.data.length
    omega
  · change (bitsOf s.data).drop (8 * (s.currentByte + 2) + s.currentBit) = rest
    rw [onByte]
    exact parts.2.symm
  · change s.bitsInBuffer ≤ rest.length
    omega
  · change s.bitBuffer = number (rest.take s.bitsInBuffer)
    rw [buffer, empty, List.take_zero]
    rfl

end Stream

end EvalynOS.Kgz
