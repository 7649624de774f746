import EvalynOS.Acpi.Madt

/-! Tables that are made of well-formed entries, and what the walk has made of each part of
such a table. -/
namespace EvalynOS.Acpi

/- The bytes of a number, the low one first. -/
def little (size value : Nat) : List UInt8 := (List.range size).map (fun i => UInt8.ofNat (value / 256 ^ i))

/- The fields of MADT_ioapic and of MADT_isr_override behind the header; of other entries
the bytes behind the header. -/
inductive MadtEntry where
  | ioapic (id reserved : UInt8) (address gsib : UInt32)
  | isrOverride (busSource irqSource gsi : UInt8) (flags : UInt16)
  | other (type : UInt8) (payload : List UInt8) (kind : type ≠ 1 ∧ type ≠ 2) (short : payload.length ≤ 253)
  deriving DecidableEq

namespace MadtEntry

def type : MadtEntry → UInt8
  | ioapic .. => 1
  | isrOverride .. => 2
  | other type .. => type

def payload : MadtEntry → List UInt8
  | ioapic id reserved address gsib => [id, reserved] ++ little 4 address.toNat ++ little 4 gsib.toNat
  | isrOverride busSource irqSource gsi flags =>
    [busSource, irqSource] ++ little 4 gsi.toNat ++ little 2 flags.toNat
  | other _ payload .. => payload

def length (e : MadtEntry) : Nat := e.payload.length + 2

def bytes (e : MadtEntry) : List UInt8 := e.type :: UInt8.ofNat e.length :: e.payload

/- What an entry says of an interrupt controller: its physical address and its first
interrupt. -/
def controller? : MadtEntry → Option (Nat × Nat)
  | ioapic _ _ address gsib => some (address.toNat, gsib.toNat)
  | _ => none

/- What it says of an interrupt that is not where its number puts it. -/
def overide? : MadtEntry → Option IrqOveride
  | isrOverride _ irqSource gsi _ => if irqSource ≠ gsi then some ⟨irqSource.toNat, gsi.toNat⟩ else none
  | _ => none

end MadtEntry

/- The length of some entries. -/
def extent (entries : List MadtEntry) : Nat := (entries.map MadtEntry.length).sum

/-- The entries follow struct MADT one after the other, and the table ends with the last one. -/
structure LaidOut (m : Memory) (entries : List MadtEntry) : Prop where
  total : headerLength m = 44 + extent entries
  bytes : ∀ i b, (entries.flatMap MadtEntry.bytes)[i]? = some b → m (44 + i) = b

section Entries

variable {m : Memory} {entries done rest : List MadtEntry} {e : MadtEntry}

theorem little_length (size value : Nat) : (little size value).length = size := by
  simp only [little, List.length_map, List.length_range]

theorem MadtEntry.length_lt (e : MadtEntry) : e.length < 256 := by
  unfold MadtEntry.length MadtEntry.payload
  cases e with
  | ioapic => simp [little_length]
  | isrOverride => simp [little_length]
  | other type payload kind short =>
    simp only
    omega

theorem MadtEntry.bytes_length (e : MadtEntry) : e.bytes.length = e.length := rfl

theorem extent_append (done rest : List MadtEntry) : extent (done ++ rest) = extent done + extent rest := by
  simp only [extent, List.map_append, List.sum_append]

theorem extent_cons (e : MadtEntry) (rest : List MadtEntry) : extent (e :: rest) = e.length + extent rest := by
  simp only [extent, List.map_cons, List.sum_cons]

theorem flatMap_length (entries : List MadtEntry) : (entries.flatMap MadtEntry.bytes).length = extent entries := by
  simp only [extent, List.length_flatMap]
  rfl

/- The bytes of an entry in the table. -/
theorem LaidOut.byte (laid : LaidOut m (done ++ e :: rest)) {j : Nat} {b : UInt8} (here : e.bytes[j]? = some b) :
    m (44 + extent done + j) = b := by
  have inside : j < e.bytes.length := by
    by_contra beyond
    rw [List.getElem?_eq_none (Nat.le_of_not_lt beyond)] at here
    cases here
  rw [Nat.add_assoc]
  apply laid.bytes
  rw [List.flatMap_append, List.flatMap_cons, List.getElem?_append_right, flatMap_length, Nat.add_sub_cancel_left,
    List.getElem?_append_left inside]
  · exact here
  · rw [flatMap_length]
    exact Nat.le_add_right _ _

theorem read32_little {p value : Nat} (bound : value < 2 ^ 32)
    (stored : ∀ j b, (little 4 value)[j]? = some b → m (p + j) = b) : read32 m p = value := by
  have byte : ∀ j, j < 4 → (m (p + j)).toNat = value / 256 ^ j % 256 := by
    intro j inside
    rw [stored j (UInt8.ofNat (value / 256 ^ j))]
    · exact UInt8.toNat_ofNat'
    · simp [little, inside]
  have first := byte 0 (by decide)
  rw [Nat.add_zero] at first
  unfold read32
  rw [first, byte 1 (by decide), byte 2 (by decide), byte 3 (by decide)]
  omega

/- A field of 32 bits. -/
theorem LaidOut.field (laid : LaidOut m (done ++ e :: rest)) {value : Nat} (bound : value < 2 ^ 32)
    (before after : List UInt8) (here : e.payload = before ++ (little 4 value ++ after)) :
    read32 m (44 + extent done + (before.length + 2)) = value := by
  apply read32_little bound
  intro j b stored
  have inside : j < (little 4 value).length := by
    by_contra beyond
    rw [List.getElem?_eq_none (Nat.le_of_not_lt beyond)] at stored
    cases stored
  rw [Nat.add_assoc]
  apply laid.byte
  have place : before.length + 2 + j = before.length + j + 1 + 1 := by omega
  rw [place, MadtEntry.bytes, List.getElem?_cons_succ, List.getElem?_cons_succ, here,
    List.getElem?_append_right (Nat.le_add_right _ _), Nat.add_sub_cancel_left, List.getElem?_append_left inside]
  exact stored

theorem LaidOut.length (laid : LaidOut m (done ++ e :: rest)) :
    entryLength m (44 + extent done) = e.length := by
  unfold entryLength
  rw [laid.byte (j := 1) rfl]
  exact UInt8.toNat_ofNat_of_lt' e.length_lt

def signature : List UInt8 := [65, 80, 73, 67]

/- A table with the signature, its length, an empty rest of struct MADT, and these entries. -/
def tableOf (entries : List MadtEntry) : Memory :=
  table (signature ++ (little 4 (44 + extent entries) ++
    (List.replicate 36 0 ++ entries.flatMap MadtEntry.bytes)))

theorem laidOut_tableOf (bound : 44 + extent entries < 2 ^ 32) : LaidOut (tableOf entries) entries := by
  constructor
  · apply read32_little bound
    intro j b stored
    have inside : j < (little 4 (44 + extent entries)).length := by
      by_contra beyond
      rw [List.getElem?_eq_none (Nat.le_of_not_lt beyond)] at stored
      cases stored
    unfold tableOf table
    rw [List.getD_eq_getElem?_getD, List.getElem?_append_right (Nat.le_add_right 4 j),
      show signature.length = 4 from rfl, Nat.add_sub_cancel_left, List.getElem?_append_left inside, stored]
    rfl
  · intro i b here
    have skip : 44 + i = 4 + (4 + (36 + i)) := by omega
    unfold tableOf table
    rw [skip, List.getD_eq_getElem?_getD, List.getElem?_append_right (Nat.le_add_right 4 _),
      show signature.length = 4 from rfl, Nat.add_sub_cancel_left,
      List.getElem?_append_right (by rw [little_length]; omega), little_length, Nat.add_sub_cancel_left,
      List.getElem?_append_right (by rw [List.length_replicate]; omega), List.length_replicate,
      Nat.add_sub_cancel_left, here]
    rfl

end Entries

/-- The walk behind some of the entries: the lists have what these say, in their order. -/
structure Walked (done : List MadtEntry) (w : Walk) : Prop where
  ptr : w.ptr = 44 + extent done
  ioapics : w.ioapics.map (fun ioapic => (ioapic.physical, ioapic.gsib)) = done.filterMap MadtEntry.controller?
  overides : w.overides = done.filterMap MadtEntry.overide?

section Turns

variable {m : Memory} {done rest : List MadtEntry} {e : MadtEntry} {w : Walk}

theorem entryType_other {byte : UInt8} (ioapic : byte ≠ 1) (isrOverride : byte ≠ 2) :
    entryType byte ≠ .ioapic ∧ entryType byte ≠ .isrOverride := by
  have notOne : byte.toNat ≠ 1 := fun same => ioapic (UInt8.toNat_inj.mp same)
  have notTwo : byte.toNat ≠ 2 := fun same => isrOverride (UInt8.toNat_inj.mp same)
  unfold entryType
  split
  all_goals simp_all

theorem walked_start : Walked [] start := ⟨rfl, rfl, rfl⟩

/- An entry is interpreted as what it is. -/
theorem Walked.interpret (walked : Walked done w) (laid : LaidOut m (done ++ e :: rest)) (window : Nat → Nat) :
    (interpret m window w).ioapics.map (fun ioapic => (ioapic.physical, ioapic.gsib)) =
        (done ++ [e]).filterMap MadtEntry.controller? ∧
      (interpret m window w).overides = (done ++ [e]).filterMap MadtEntry.overide? := by
  have type : m w.ptr = e.type := by
    rw [walked.ptr]
    exact laid.byte (j := 0) rfl
  rw [List.filterMap_append, List.filterMap_append, ← walked.ioapics, ← walked.overides]
  unfold Acpi.interpret
  cases e with
  | ioapic id reserved address gsib =>
    have physical := laid.field address.toNat_lt [id, reserved] (little 4 gsib.toNat) rfl
    have first := laid.field gsib.toNat_lt ([id, reserved] ++ little 4 address.toNat) [] (by
      rw [List.append_nil]
      rfl)
    have kind : entryType (m w.ptr) = .ioapic := by
      rw [type]
      rfl
    rw [← walked.ptr] at physical first
    simp only [kind]
    change read32 m (w.ptr + 4) = _ at physical
    change read32 m (w.ptr + 8) = _ at first
    simp [physical, first, MadtEntry.controller?, MadtEntry.overide?]
  | isrOverride busSource irqSource gsi flags =>
    have low : gsi.toNat < 256 := gsi.toNat_lt
    have target := laid.field (show gsi.toNat < 2 ^ 32 by omega) [busSource, irqSource] (little 2 flags.toNat) rfl
    have source : m (w.ptr + 3) = irqSource := by
      rw [walked.ptr]
      exact laid.byte rfl
    have kind : entryType (m w.ptr) = .isrOverride := by
      rw [type]
      rfl
    rw [← walked.ptr] at target
    change read32 m (w.ptr + 4) = _ at target
    simp only [kind, source, target, Nat.mod_eq_of_lt low]
    by_cases moved : irqSource = gsi
    · subst moved
      simp [MadtEntry.controller?, MadtEntry.overide?]
    · have apart : irqSource.toNat ≠ gsi.toNat := fun same => moved (UInt8.toNat_inj.mp same)
      simp [MadtEntry.controller?, MadtEntry.overide?, moved, apart]
  | other byte payload kind short =>
    have known := entryType_other kind.1 kind.2
    change m w.ptr = byte at type
    rw [type]
    split
    · rename_i here
      exact absurd here known.1
    · rename_i here
      exact absurd here known.2
    · simp [MadtEntry.controller?, MadtEntry.overide?]

/- The next entry is inside of the table. -/
theorem Walked.inside (walked : Walked done w) (laid : LaidOut m (done ++ e :: rest)) :
    w.ptr + 2 ≤ headerLength m ∧ w.ptr + entryLength m w.ptr ≤ headerLength m ∧ entryLength m w.ptr = e.length := by
  have length := laid.length
  have least : 2 ≤ e.length := Nat.le_add_left 2 _
  rw [laid.total, extent_append, extent_cons, walked.ptr, length]
  omega

/- A turn takes the walk behind the next entry. -/
theorem Walked.turn (walked : Walked done w) (laid : LaidOut m (done ++ e :: rest)) (window : Nat → Nat) :
    (turn m window w).1 = true ∧ Walked (done ++ [e]) (turn m window w).2 := by
  obtain ⟨header, fits, length⟩ := walked.inside laid
  have reads : Walked done { w with reads := w.reads ++ field (w.ptr + 1) 1 ++ field w.ptr 1 } :=
    ⟨walked.ptr, walked.ioapics, walked.overides⟩
  obtain ⟨ioapics, overides⟩ := reads.interpret laid window
  obtain ⟨bytes, more, ptr, -⟩ := turn_more window header fits
  have one : extent (done ++ [e]) = extent done + e.length := extent_append done [e]
  refine ⟨more, ?_, ?_, ?_⟩
  · rw [ptr, length, walked.ptr, one, Nat.add_assoc]
  · unfold Acpi.turn
    simp only [if_pos header, if_neg (Nat.not_lt.mpr fits)]
    exact ioapics
  · unfold Acpi.turn
    simp only [if_pos header, if_neg (Nat.not_lt.mpr fits)]
    exact overides

/- Behind the last entry the walk stops. -/
theorem Walked.last (walked : Walked entries w) (laid : LaidOut m entries) :
    ¬ w.ptr + 2 ≤ headerLength m := by
  rw [walked.ptr, laid.total]
  omega

end Turns

end EvalynOS.Acpi
