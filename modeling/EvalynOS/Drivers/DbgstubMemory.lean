import EvalynOS.Libc.Numbers
import EvalynOS.Drivers.DbgstubHistory
import EvalynOS.Drivers.DbgstubRegisters

/-! The memory packets: what 'M' writes, and that 'm' reads it back. -/
namespace EvalynOS.Dbgstub
open Strings DrX

/-! Arguments. -/

def HexText (l : List UInt8) : Prop := ∀ c ∈ l, isDigit 16 c = true

def hexValue (digits : List UInt8) : Nat := digits.foldl (fun value c => value * 16 + (digitOf c).getD 0) 0

/- The byte at offset `k` of an address. -/
def cell (address : List UInt8) (k : Nat) : BitVec 64 := BitVec.ofNat 64 (hexValue address + k)

/- What is said by pairs of digits. -/
def decode : List UInt8 → List UInt8
  | high :: low :: rest => UInt8.ofNat (hexByte high low) :: decode rest
  | _ => []

section Arguments

variable {l r : List UInt8} {high low : UInt8}

/-- A number is read modulo the size of the type. -/
theorem strtoull_hexValue (hex : HexText l) : strtoull (l ++ [0]) 16 = some (hexValue l % 2 ^ 64) :=
  strtoull_value hex isDigit_zero

theorem strtoull_pair (hexHigh : isDigit 16 high = true) (hexLow : isDigit 16 low = true) :
    strtoull [high, low, 0] 16 = some (hexByte high low) := by
  have hex : HexText [high, low] := by simp [HexText, hexHigh, hexLow]
  have value : hexValue [high, low] = hexByte high low := by simp [hexValue, hexByte]
  have small := hexByte_lt hexHigh hexLow
  rw [← value] at small ⊢
  rw [← Nat.mod_eq_of_lt (by omega : hexValue [high, low] < 2 ^ 64)]
  exact strtoull_hexValue hex

theorem hexText_clean (hex : HexText l) : ','.toUInt8 ∉ l ∧ ':'.toUInt8 ∉ l ∧ (0 : UInt8) ∉ l := by
  refine ⟨fun member => ?_, fun member => ?_, fun member => ?_⟩
  · cases hex _ member
  · cases hex _ member
  · cases hex _ member

theorem cell_wrapped (address : List UInt8) (k : Nat) :
    BitVec.ofNat 64 (hexValue address % 2 ^ 64 + k) = cell address k := by
  apply BitVec.eq_of_toNat_eq
  rw [cell, BitVec.toNat_ofNat, BitVec.toNat_ofNat, Nat.mod_add_mod]

theorem cell_inj {address : List UInt8} {j k : Nat} (lowJ : j < 2 ^ 64) (lowK : k < 2 ^ 64)
    (same : cell address j = cell address k) : j = k := by
  have values := congrArg BitVec.toNat same
  rw [cell, cell, BitVec.toNat_ofNat, BitVec.toNat_ofNat] at values
  omega

end Arguments

/-! The loop of 'M'. -/

/- The value that the loop makes of its bytes at `k`. -/
def decoded (tail : List UInt8) (k : Nat) : Option UInt8 :=
  match tail[k * 2]?, tail[k * 2 + 1]? with
  | some high, some low => (strtoull [high, low, 0] 16).map UInt8.ofNat
  | _, _ => none

/- The first `m` bytes are written. -/
structure Written (t t' : Target) (address tail : List UInt8) (m : Nat) : Prop where
  granted : ∀ j < m, t.writable (cell address j) = true
  known : ∀ j < m, decoded tail j ≠ none
  bytes : ∀ j < m, t'.memory (cell address j) = decoded tail j
  others : ∀ a, (∀ j < m, a ≠ cell address j) → t'.memory a = t.memory a
  rest : t' = { t with memory := t'.memory }

section Loop

variable {t t' t'' : Target} {address tail : List UInt8} {recv : Buffer} {start k n m : Nat} {value : UInt8}

theorem written_zero (t : Target) (address tail : List UInt8) : Written t t address tail 0 := by
  refine ⟨fun j none => absurd none (Nat.not_lt_zero j), fun j none => absurd none (Nat.not_lt_zero j),
    fun j none => absurd none (Nat.not_lt_zero j), fun _ _ => rfl, rfl⟩

theorem Written.writable_same (written : Written t t' address tail m) (a : BitVec 64) : t'.writable a = t.writable a := by
  rw [written.rest]

theorem Written.step (written : Written t t' address tail m) (small : m < 2 ^ 64) (isValue : decoded tail m = some value)
    (stored : safeWriteByte t' (cell address m) value = some t'') : Written t t'' address tail (m + 1) := by
  have granted : t'.writable (cell address m) = true := by
    by_contra refused
    rw [safeWriteByte, if_neg refused] at stored
    cases stored
  rw [safeWriteByte, if_pos granted] at stored
  cases stored
  refine ⟨?_, ?_, ?_, ?_, ?_⟩
  · intro j bound
    rcases Nat.lt_succ_iff_lt_or_eq.mp bound with before | rfl
    · exact written.granted j before
    · rw [← written.writable_same, granted]
  · intro j bound
    rcases Nat.lt_succ_iff_lt_or_eq.mp bound with before | rfl
    · exact written.known j before
    · rw [isValue]
      exact Option.some_ne_none value
  · intro j bound
    rcases Nat.lt_succ_iff_lt_or_eq.mp bound with before | rfl
    · have apart : cell address j ≠ cell address m := fun same => Nat.ne_of_lt before (cell_inj (by omega) small same)
      change (if cell address j = cell address m then some value else t'.memory (cell address j)) = _
      rw [if_neg apart, written.bytes j before]
    · change (if cell address j = cell address j then some value else _) = _
      rw [if_pos rfl, isValue]
  · intro a other
    change (if a = cell address m then some value else t'.memory a) = _
    rw [if_neg (other m (Nat.lt_succ_self m))]
    exact written.others a (fun j before => other j (Nat.lt_succ_of_lt before))
  · rw [written.rest]

theorem writeBytes_step (behind : recv.bytes.drop start = tail) (t : Target) :
    writeBytes recv (hexValue address % 2 ^ 64) start (n + 1) k t =
      orOverread (decoded tail k) >>= fun value => match safeWriteByte t (cell address k) value with
        | none => .ok (false, t)
        | some t => writeBytes recv (hexValue address % 2 ^ 64) start n (k + 1) t := by
  have readHigh : recv.read (start + k * 2) = orOverread tail[k * 2]? := by
    rw [Buffer.read, ← behind, List.getElem?_drop]
  have readLow : recv.read (start + k * 2 + 1) = orOverread tail[k * 2 + 1]? := by
    rw [Buffer.read, ← behind, List.getElem?_drop, Nat.add_assoc]
  rw [writeBytes, decoded, readHigh, readLow, cell_wrapped]
  cases tail[k * 2]? with
  | none => rfl
  | some high =>
    cases tail[k * 2 + 1]? with
    | none => rfl
    | some low =>
      obtain ⟨value, read⟩ := strtoull_total [high, low]
      change strtoull [high, low, 0] 16 = some value at read
      cases step : safeWriteByte t (cell address k) (UInt8.ofNat value) with
      | none => simp only [orOverread, bind, Except.bind, read, Option.map_some, step]
      | some u => simp only [orOverread, bind, Except.bind, read, Option.map_some, step]

/-- The loop goes on to the end, to a byte that cannot be written, or out of the buffer. -/
theorem writeBytes_outcome (behind : recv.bytes.drop start = tail) (small : k + n ≤ 2 ^ 64)
    (written : Written t t' address tail k) :
    ∃ m u, Written t u address tail m ∧
      ((m = k + n ∧ writeBytes recv (hexValue address % 2 ^ 64) start n k t' = .ok (true, u)) ∨
      (m < k + n ∧ decoded tail m ≠ none ∧ t.writable (cell address m) = false ∧
        writeBytes recv (hexValue address % 2 ^ 64) start n k t' = .ok (false, u)) ∨
      (m < k + n ∧ decoded tail m = none ∧
        writeBytes recv (hexValue address % 2 ^ 64) start n k t' = .error .overread)) := by
  induction n generalizing k t' with
  | zero => exact ⟨k, t', written, .inl ⟨rfl, rfl⟩⟩
  | succ n ih =>
    rw [writeBytes_step behind]
    cases isValue : decoded tail k with
    | none => exact ⟨k, t', written, .inr (.inr ⟨by omega, isValue, rfl⟩)⟩
    | some value =>
      cases stored : safeWriteByte t' (cell address k) value with
      | none =>
        have refused : t.writable (cell address k) = false := by
          rw [← written.writable_same]
          by_contra granted
          rw [Bool.not_eq_false] at granted
          rw [safeWriteByte, if_pos granted] at stored
          cases stored
        refine ⟨k, t', written, .inr (.inl ⟨by omega, by rw [isValue]; exact Option.some_ne_none value, refused, ?_⟩)⟩
        simp only [orOverread, bind, Except.bind, stored]
      | some next =>
        have later := ih (by omega : k + 1 + n ≤ 2 ^ 64) (written.step (by omega) isValue stored)
        have count : k + 1 + n = k + (n + 1) := by omega
        rw [count] at later
        simp only [orOverread, bind, Except.bind, stored]
        exact later

end Loop

/-! The packet in the buffer. -/

def writeRequest (address count data : List UInt8) : List UInt8 :=
  'M'.toUInt8 :: (address ++ ','.toUInt8 :: count ++ ':'.toUInt8 :: data)

def readRequest (address count : List UInt8) : List UInt8 := 'm'.toUInt8 :: (address ++ ','.toUInt8 :: count)

/- What stands behind the colon when 'M' runs: the data, the checksum, and what the buffer holds
behind the packet, with the terminator in the second place of it. -/
def behindColon (s : Stub) (address count data : List UInt8) (h0 h1 : UInt8) : List UInt8 :=
  data ++ '#'.toUInt8 :: h0 :: h1 :: (s.recv.bytes.drop ((writeRequest address count data).length + 4)).set 1 0

section Packets

variable {s : Stub} {address count data : List UInt8} {h0 h1 : UInt8}

theorem hexText_plain (hex : HexText data) : ∀ c ∈ data, Plain c ∧ c ≠ 3 := by
  intro c member
  refine ⟨⟨?_, ?_, ?_⟩, ?_⟩ <;> rintro rfl <;> cases hex _ member

theorem carried_write (hexAddress : HexText address) (hexCount : HexText count) (hex : HexText data)
    (short : (writeRequest address count data).length ≤ 4092) : Carried (writeRequest address count data) := by
  refine ⟨short, fun c member => ?_⟩
  simp only [writeRequest, List.mem_cons, List.mem_append] at member
  rcases member with rfl | (inAddress | rfl | inCount) | rfl | inData
  · exact ⟨⟨by decide, by decide, by decide⟩, by decide⟩
  · exact hexText_plain hexAddress c inAddress
  · exact ⟨⟨by decide, by decide, by decide⟩, by decide⟩
  · exact hexText_plain hexCount c inCount
  · exact ⟨⟨by decide, by decide, by decide⟩, by decide⟩
  · exact hexText_plain hex c inData

theorem carried_read (hexAddress : HexText address) (hexCount : HexText count)
    (short : (readRequest address count).length ≤ 4092) : Carried (readRequest address count) := by
  refine ⟨short, fun c member => ?_⟩
  simp only [readRequest, List.mem_cons, List.mem_append] at member
  rcases member with rfl | inAddress | rfl | inCount
  · exact ⟨⟨by decide, by decide, by decide⟩, by decide⟩
  · exact hexText_plain hexAddress c inAddress
  · exact ⟨⟨by decide, by decide, by decide⟩, by decide⟩
  · exact hexText_plain hexCount c inCount

/-- 'M' finds its arguments. -/
theorem feed_M (hexAddress : HexText address) (hexCount : HexText count) (ready : Ready s)
    (carried : Carried (writeRequest address count data)) (checked : Checked (writeRequest address count data) h0 h1) :
    ∃ u start, u.output = s.output ++ ['+'.toUInt8] ∧ u.target = s.target ∧
      u.recv.bytes.drop start = behindColon s address count data h0 h1 ∧
      (0 : UInt8) ∈ behindColon s address count data h0 h1 ∧
      feed s (frame (writeRequest address count data) h0 h1) =
        storeMemory u (hexValue address % 2 ^ 64) (hexValue count % 2 ^ 64) start := by
  obtain ⟨recv, stale, rest, old, bytes, behind, fed⟩ := feed_command (by decide) rfl ready carried checked
  obtain ⟨noComma, noColon, clean⟩ := hexText_clean hexAddress
  obtain ⟨_, noColon', clean'⟩ := hexText_clean hexCount
  have noColons : ':'.toUInt8 ∉ address ++ count := by simp [noColon, noColon']
  have cleans : (0 : UInt8) ∉ address ++ count := by simp [clean, clean']
  obtain ⟨recv', bytes', ran⟩ := @writeMemory_parsed ((s.idle recv).serialSend '+'.toUInt8) (stale :: 0 :: rest) h0 h1
    address count data _ _ bytes noComma noColons cleans (strtoull_hexValue hexAddress) (strtoull_hexValue hexCount)
  have found : behindColon s address count data h0 h1 = data ++ '#'.toUInt8 :: h0 :: h1 :: stale :: 0 :: rest := by
    have behind' : s.recv.bytes.drop ((writeRequest address count data).length + 4) = stale :: old :: rest := behind
    rw [behindColon, behind']
    rfl
  refine ⟨{ (s.idle recv).serialSend '+'.toUInt8 with recv := recv' }, (writeStart address count).length, rfl, rfl, ?_, ?_,
    fed.trans ran⟩
  · rw [found, bytes', List.drop_left]
  · rw [found]
    simp

end Packets

/-! What a write packet is to do. -/

def errorReplies : List String := ["E00", "E01", "E02", "E03"]

/- The packet is refused, and no byte changes. -/
def Refuses (s : Stub) (packet : List UInt8) : Prop :=
  ∃ s', feed s packet = .ok s' ∧ (∃ e ∈ errorReplies, s'.output = s.output ++ text "+" ++ framed (text e)) ∧
    s'.target.memory = s.target.memory

/- The bytes that `data` spells are stored, and no others change. -/
def Stores (s : Stub) (packet address data : List UInt8) (length : Nat) : Prop :=
  ∃ s', feed s packet = .ok s' ∧ s'.output = s.output ++ text "+" ++ framed (text "OK") ∧
    (∀ k < length, s'.target.memory (cell address k) = (decode data)[k]?) ∧
    ∀ a, (∀ k < length, a ≠ cell address k) → s'.target.memory a = s.target.memory a

/- Data that is too short for the length is refused, and data of that length is stored. -/
def WritesWhatItCarries (s : Stub) (address count data : List UInt8) (h0 h1 : UInt8) : Prop :=
  (data.length < 2 * hexValue count → Refuses s (frame (writeRequest address count data) h0 h1)) ∧
  (data.length = 2 * hexValue count → HexText data →
    (∀ k < hexValue count, s.target.writable (cell address k) = true) →
    Stores s (frame (writeRequest address count data) h0 h1) address data (hexValue count))

/- The length is zero as it is parsed, or larger than the string behind the colon, or the first
byte of the target that would change cannot be written. -/
def Harmless (s : Stub) (address count data : List UInt8) (h0 h1 : UInt8) : Prop :=
  let n := hexValue count % 2 ^ 64
  let tail := behindColon s address count data h0 h1
  n = 0 ∨ (∃ available, strlen tail = some available ∧ available < n * 2 % 2 ^ 64) ∨
    ∃ k < n, s.target.writable (cell address k) = false ∧ decoded tail k ≠ none ∧
      ∀ j < k, s.target.writable (cell address j) = true ∧ s.target.memory (cell address j) = decoded tail j

section Refusal

variable {s u : Stub} {address count data tail packet : List UInt8} {h0 h1 : UInt8} {n m k start : Nat} {t : Target}

theorem decoded_none : decoded tail k = none ↔ tail.length ≤ k * 2 + 1 := by
  rw [decoded]
  cases second : tail[k * 2 + 1]? with
  | none =>
    rw [List.getElem?_eq_none_iff] at second
    cases tail[k * 2]? <;> simp [second]
  | some low =>
    obtain ⟨bound, _⟩ := List.getElem?_eq_some_iff.mp second
    have first : tail[k * 2]? = some tail[k * 2] := List.getElem?_eq_getElem (by omega)
    obtain ⟨value, read⟩ := strtoull_total [tail[k * 2], low]
    change strtoull [tail[k * 2], low, 0] 16 = some value at read
    rw [first]
    simp only [read, Option.map_some]
    constructor
    · intro none
      cases none
    · omega

theorem refuses_reply {e : String} (ran : feed s packet = u.reply e) (output : u.output = s.output ++ ['+'.toUInt8])
    (memory : u.target.memory = s.target.memory) (listed : e ∈ errorReplies) : Refuses s packet := by
  have sendable : Sendable e := by
    have all := sendable_texts
    rcases List.mem_cons.mp listed with rfl | listed
    · exact all.2.2.2.2.1
    rcases List.mem_cons.mp listed with rfl | listed
    · exact all.2.2.2.2.2.1
    rcases List.mem_cons.mp listed with rfl | listed
    · exact all.2.2.2.2.2.2.1
    · rw [List.mem_singleton.mp listed]
      exact all.2.2.2.2.2.2.2.1
  obtain ⟨s', sent, after, target⟩ := view_ok (@reply_view u e sendable)
  refine ⟨s', ran.trans sent, ⟨e, listed, ?_⟩, by rw [target, memory]⟩
  rw [after, output]
  rfl

theorem not_refuses_ok (ran : feed s packet = u.reply "OK") (output : u.output = s.output ++ ['+'.toUInt8]) :
    ¬ Refuses s packet := by
  rintro ⟨s', fed, ⟨e, listed, after⟩, _⟩
  obtain ⟨s'', sent, after', _⟩ := view_ok (@reply_view u "OK" sendable_texts.2.2.2.1)
  rw [ran, sent] at fed
  cases fed
  rw [after', output] at after
  have same : framed (text "OK") = framed (text e) := List.append_cancel_left after
  have differ : ∀ e ∈ errorReplies, framed (text "OK") ≠ framed (text e) := by decide
  exact differ e listed same

/-- Nothing changed where each byte that was written was there before. -/
theorem Written.unchanged_iff (written : Written s.target t address tail m) :
    t.memory = s.target.memory ↔ ∀ j < m, s.target.memory (cell address j) = decoded tail j := by
  constructor
  · intro same j bound
    rw [← written.bytes j bound, same]
  · intro same
    funext a
    by_cases inside : ∃ j < m, a = cell address j
    · obtain ⟨j, bound, rfl⟩ := inside
      rw [written.bytes j bound, same j bound]
    · exact written.others a (fun j bound is => inside ⟨j, bound, is⟩)

/-- What is refused, whatever the length of the data. -/
theorem refuses_iff (hexAddress : HexText address) (hexCount : HexText count) (ready : Ready s)
    (carried : Carried (writeRequest address count data)) (checked : Checked (writeRequest address count data) h0 h1) :
    Refuses s (frame (writeRequest address count data) h0 h1) ↔ Harmless s address count data h0 h1 := by
  obtain ⟨u, start, output, target, behind, stop, fed⟩ := feed_M hexAddress hexCount ready carried checked
  have memory : u.target.memory = s.target.memory := by rw [target]
  obtain ⟨available, length⟩ := strlen_total stop
  have length' : strlen (u.recv.bytes.drop start) = some available := by rw [behind, length]
  unfold Harmless
  simp only [length, Option.some.injEq, exists_eq_left']
  by_cases none : hexValue count % 2 ^ 64 = 0
  · have ran : feed s (frame (writeRequest address count data) h0 h1) = u.reply "E01" := by
      rw [fed, storeMemory, if_pos none]
    exact ⟨fun _ => .inl none, fun _ => refuses_reply ran output memory (by decide)⟩
  by_cases short : available < hexValue count % 2 ^ 64 * 2 % 2 ^ 64
  · have ran := fed.trans (storeMemory_short length' short)
    exact ⟨fun _ => .inr (.inl short), fun _ => refuses_reply ran output memory (by decide)⟩
  have ran := fed.trans (storeMemory_enough length' (Nat.le_of_not_lt short) none)
  obtain ⟨m, t, written, outcome⟩ := writeBytes_outcome behind
    (by have bound := Nat.mod_lt (hexValue count) (by decide : 0 < 2 ^ 64); omega : 0 + hexValue count % 2 ^ 64 ≤ 2 ^ 64)
    (written_zero u.target address (behindColon s address count data h0 h1))
  rw [target] at written outcome
  rw [Nat.zero_add] at outcome
  rw [target] at ran
  rcases outcome with ⟨isEnd, loop⟩ | ⟨bound, known, refused, loop⟩ | ⟨bound, unknown, loop⟩
  · -- all bytes are written
    simp only [loop, bind, Except.bind, if_true] at ran
    have notRefused : ¬ Refuses s (frame (writeRequest address count data) h0 h1) := not_refuses_ok ran output
    constructor
    · exact fun refuses => absurd refuses notRefused
    · rintro (isZero | isShort | ⟨k, inside, closed, _⟩)
      · exact absurd isZero none
      · exact absurd isShort short
      · rw [written.granted k (by omega)] at closed
        cases closed
  · -- the byte at `m` cannot be written
    simp only [loop, bind, Except.bind, Bool.false_eq_true, if_false] at ran
    constructor
    · rintro ⟨s', fed', _, same⟩
      obtain ⟨s'', sent, _, after⟩ := view_ok (@reply_view { u with target := t } "E03" sendable_texts.2.2.2.2.2.2.2.1)
      have result : s' = s'' := Except.ok.inj (fed'.symm.trans (ran.trans sent))
      rw [result, after] at same
      have present := written.unchanged_iff.mp same
      exact .inr (.inr ⟨m, bound, refused, known, fun j before => ⟨written.granted j before, present j before⟩⟩)
    · rintro (isZero | isShort | ⟨k, inside, closed, _, before⟩)
      · exact absurd isZero none
      · exact absurd isShort short
      · have reached : m ≤ k := by
          by_contra early
          rw [written.granted k (Nat.lt_of_not_le early)] at closed
          cases closed
        have same : t.memory = s.target.memory :=
          written.unchanged_iff.mpr (fun j early => (before j (Nat.lt_of_lt_of_le early reached)).2)
        exact refuses_reply ran output same (by decide)
  · -- the loop runs out of the buffer
    rw [loop] at ran
    constructor
    · rintro ⟨s', fed', _⟩
      cases ran.symm.trans fed'
    · rintro (isZero | isShort | ⟨k, inside, closed, known, _⟩)
      · exact absurd isZero none
      · exact absurd isShort short
      · by_cases early : k < m
        · rw [written.granted k early] at closed
          cases closed
        · rw [decoded_none] at unknown
          exact absurd (decoded_none.mpr (by omega)) known

theorem decode_getElem (hex : HexText data) (even : data.length = 2 * n) {k : Nat} (inside : k < n) :
    decoded (data ++ tail) k = (decode data)[k]? := by
  induction n generalizing data k with
  | zero => omega
  | succ n ih =>
    match data, even with
    | high :: low :: rest, even =>
      have shorter : rest.length = 2 * n := by
        simp only [List.length_cons] at even
        omega
      have hexRest : HexText rest := fun c member => hex c (List.mem_cons_of_mem _ (List.mem_cons_of_mem _ member))
      cases k with
      | zero =>
        have hexHigh := hex high List.mem_cons_self
        have hexLow := hex low (List.mem_cons_of_mem _ List.mem_cons_self)
        have value : strtoull [high, low, 0] 16 = some (hexByte high low) := strtoull_pair hexHigh hexLow
        change (strtoull [high, low, 0] 16).map UInt8.ofNat = some (UInt8.ofNat (hexByte high low))
        rw [value]
        rfl
      | succ k =>
        have place : (k + 1) * 2 = k * 2 + 1 + 1 := by omega
        have same : decoded (high :: low :: rest ++ tail) (k + 1) = decoded (rest ++ tail) k := by
          rw [decoded, decoded, place]
          rfl
        rw [same, ih hexRest shorter (by omega)]
        rfl

/-- Data of the length of the request is stored. -/
theorem stores_whole (hexAddress : HexText address) (hexCount : HexText count) (positive : 1 ≤ hexValue count)
    (ready : Ready s) (carried : Carried (writeRequest address count data))
    (checked : Checked (writeRequest address count data) h0 h1) (whole : data.length = 2 * hexValue count)
    (hex : HexText data) (writable : ∀ k < hexValue count, s.target.writable (cell address k) = true) :
    Stores s (frame (writeRequest address count data) h0 h1) address data (hexValue count) := by
  obtain ⟨u, start, output, target, behind, stop, fed⟩ := feed_M hexAddress hexCount ready carried checked
  have short : data.length ≤ 4092 := by
    have bound := carried.short
    simp only [writeRequest, List.length_cons, List.length_append] at bound
    omega
  have small : hexValue count % 2 ^ 64 = hexValue count := Nat.mod_eq_of_lt (by omega)
  obtain ⟨available, length⟩ := strlen_total stop
  have enough : data.length ≤ available := by
    rw [behindColon, strlen_skip (hexText_clean hex).2.2] at length
    obtain ⟨more, _, rfl⟩ := Option.map_eq_some_iff.mp length
    exact Nat.le_add_left _ more
  have length' : strlen (u.recv.bytes.drop start) = some available := by rw [behind, length]
  rw [small] at fed
  have ran := fed.trans (storeMemory_enough length' (by omega) (by omega))
  obtain ⟨m, t, written, outcome⟩ := writeBytes_outcome behind (by omega : 0 + hexValue count ≤ 2 ^ 64)
    (written_zero u.target address (behindColon s address count data h0 h1))
  rw [target] at written outcome
  rw [Nat.zero_add] at outcome
  rw [target] at ran
  have known : ∀ k < hexValue count, decoded (behindColon s address count data h0 h1) k = (decode data)[k]? :=
    fun k inside => decode_getElem hex whole inside
  rcases outcome with ⟨isEnd, loop⟩ | ⟨bound, _, refused, _⟩ | ⟨bound, unknown, _⟩
  · simp only [loop, bind, Except.bind, if_true] at ran
    obtain ⟨s', sent, after, same⟩ := view_ok (@reply_view { u with target := t } "OK" sendable_texts.2.2.2.1)
    refine ⟨s', ran.trans sent, ?_, ?_, ?_⟩
    · rw [after]
      change u.output ++ _ = _
      rw [output]
      rfl
    · intro k inside
      rw [same]
      exact (written.bytes k (by omega)).trans (known k inside)
    · intro a other
      rw [same]
      exact written.others a (fun j inside => other j (by omega))
  · rw [writable m bound] at refused
    cases refused
  · rw [decoded_none, behindColon, List.length_append] at unknown
    omega

end Refusal

section Write

variable {s : Stub} {address count data : List UInt8} {h0 h1 : UInt8}

end Write

/- `data` is a hexadecimal spelling of the bytes `b`. -/
def Spells (data b : List UInt8) : Prop := HexText data ∧ data.length = 2 * b.length ∧ decode data = b

section Read

variable {s s' : Stub} {t : Target} {address count data b args : List UInt8} {h0 h1 : UInt8} {addr k : Nat}

/-- The spelling that the stub uses. -/
theorem spells_digits (b : List UInt8) : Spells (b.flatMap byteDigits) b := by
  induction b with
  | nil => exact ⟨fun c none => absurd none List.not_mem_nil, rfl, rfl⟩
  | cons byte b ih =>
    obtain ⟨hex, length, same⟩ := ih
    have bound := byte.toNat_lt
    have high := digitOf_hexOf (byte.toNat / 16) (by omega)
    have low := digitOf_hexOf (byte.toNat % 16) (by omega)
    have value : hexByte (hexOf (byte.toNat / 16)) (hexOf (byte.toNat % 16)) = byte.toNat := by
      rw [hexByte, high, low, Option.getD_some, Option.getD_some]
      omega
    refine ⟨?_, ?_, ?_⟩
    · intro c member
      simp only [List.flatMap_cons, byteDigits, List.cons_append, List.nil_append, List.mem_cons] at member
      rcases member with rfl | rfl | later
      · exact isDigit_hexOf (by omega)
      · exact isDigit_hexOf (by omega)
      · exact hex c later
    · rw [List.flatMap_cons, List.length_append, length, List.length_cons]
      simp [byteDigits]
      omega
    · change UInt8.ofNat (hexByte (hexOf (byte.toNat / 16)) (hexOf (byte.toNat % 16))) :: decode (b.flatMap byteDigits) = _
      rw [value, same, UInt8.ofNat_toNat]

theorem dump_bytes (bytes : ∀ j < b.length, t.memory (BitVec.ofNat 64 (addr + (k + j))) = b[j]?)
    (room : (k + b.length) * 2 ≤ bufferSize) : dump t addr b.length k = .ok (some (b.flatMap byteDigits)) := by
  induction b generalizing k with
  | nil => rfl
  | cons byte b ih =>
    have first : safeReadByte t (BitVec.ofNat 64 (addr + k)) = some byte := bytes 0 (Nat.succ_pos _)
    rw [List.length_cons] at room
    have later := @ih (k + 1) (fun j inside => by
      rw [Nat.add_assoc, Nat.add_comm 1]
      exact bytes (j + 1) (Nat.succ_lt_succ inside)) (by omega)
    rw [List.length_cons, dump, first]
    simp only
    rw [if_pos (by omega), later]
    rfl

/-- 'm' sends the bytes. -/
theorem feed_m (hexAddress : HexText address) (hexCount : HexText count) (ready : Ready s)
    (carried : Carried (readRequest address count)) (checked : Checked (readRequest address count) h0 h1) :
    (feed s (frame (readRequest address count) h0 h1)).map Stub.view =
      readReply (s.output ++ ['+'.toUInt8], s.target) (hexValue address % 2 ^ 64) (hexValue count % 2 ^ 64) := by
  obtain ⟨recv, stale, rest, _, bytes, _, fed⟩ := feed_command (by decide) rfl ready carried checked
  obtain ⟨noComma, _, clean⟩ := hexText_clean hexAddress
  refine (congrArg (Except.map Stub.view) fed).trans ?_
  exact @readMemory_view ((s.idle recv).serialSend '+'.toUInt8) address count _ h0 h1 _ _ bytes noComma clean
    (strtoull_hexValue hexAddress) (strtoull_hexValue hexCount)

theorem readReply_target {view : List UInt8 × Target} {length : Nat} {output : List UInt8} {target : Target}
    (replied : readReply view addr length = .ok (output, target)) : target = view.2 := by
  unfold readReply at replied
  split at replied
  · cases replied
    rfl
  · split at replied
    · cases replied
    · cases replied
      rfl
    · split at replied
      · cases replied
        rfl
      · cases replied

/-- However it is spelled, 'm' leaves what is debugged as it was. -/
theorem readMemory_target (ran : readMemory s = .ok s') : s'.target = s.target := by
  unfold readMemory at ran
  obtain ⟨comma, found, ran⟩ := bind_ok.mp ran
  cases comma with
  | none =>
    obtain ⟨s'', sent, _, same⟩ := view_ok (@reply_view s "E00" sendable_texts.2.2.2.2.1)
    cases ran.symm.trans sent
    exact same
  | some comma =>
    obtain ⟨recv, _, ran⟩ := bind_ok.mp ran
    obtain ⟨addr, _, ran⟩ := bind_ok.mp ran
    obtain ⟨length, _, ran⟩ := bind_ok.mp ran
    have view := sendMemory_view { s with recv := recv } addr length
    rw [ran] at view
    exact readReply_target view.symm

theorem feed_m_target (ready : Ready s) (carried : Carried ('m'.toUInt8 :: args))
    (checked : Checked ('m'.toUInt8 :: args) h0 h1) (ran : feed s (frame ('m'.toUInt8 :: args) h0 h1) = .ok s') :
    s'.target = s.target := by
  obtain ⟨recv, _, _, _, _, _, fed⟩ := feed_command (by decide) rfl ready carried checked
  exact (@readMemory_target ((s.idle recv).serialSend '+'.toUInt8) s' (fed.symm.trans ran)).trans rfl

end Read

end EvalynOS.Dbgstub
