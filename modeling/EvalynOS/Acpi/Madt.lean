import Mathlib

/-! The walk of acpi_parse_madt over the entries of the interrupt controller table, which
firmware has written. Addresses count from the start of the table. -/
namespace EvalynOS.Acpi

abbrev Memory := Nat → UInt8

def read32 (m : Memory) (p : Nat) : Nat :=
  (m p).toNat + 2 ^ 8 * (m (p + 1)).toNat + 2 ^ 16 * (m (p + 2)).toNat + 2 ^ 24 * (m (p + 3)).toNat

/- The bytes of a field. -/
def field (p size : Nat) : List Nat := (List.range size).map (p + ·)

inductive EntryType where
  | lapic
  | ioapic
  | isrOverride
  | ioapicNmi
  | lapicNmi
  | lapicAddrOvr
  | plx2apic
  | unknown
  deriving DecidableEq, Repr

def entryType (byte : UInt8) : EntryType :=
  match byte.toNat with
  | 0 => .lapic
  | 1 => .ioapic
  | 2 => .isrOverride
  | 3 => .ioapicNmi
  | 4 => .lapicNmi
  | 5 => .lapicAddrOvr
  | 9 => .plx2apic
  | _ => .unknown

/- struct ioapic_t, and the physical address that its window maps. -/
structure Ioapic where
  address : Nat
  physical : Nat
  gsib : Nat
  deriving DecidableEq

structure IrqOveride where
  irq : Nat
  gsi : Nat
  deriving DecidableEq

/- The walk's pointer, the lists that it appends to, and every byte it has read. -/
structure Walk where
  ptr : Nat
  ioapics : List Ioapic
  overides : List IrqOveride
  reads : List Nat
  deriving DecidableEq

def headerLength (m : Memory) : Nat := read32 m 4
def entryLength (m : Memory) (p : Nat) : Nat := (m (p + 1)).toNat

/- Behind struct MADT, with the length read. -/
def start : Walk := ⟨44, [], [], field 4 4⟩

/- The switch; `window` has the virtual addresses that valloc returns, in order. -/
def interpret (m : Memory) (window : Nat → Nat) (s : Walk) : Walk :=
  match entryType (m s.ptr) with
  | .ioapic =>
    let ioapic : Ioapic := ⟨window s.ioapics.length, read32 m (s.ptr + 4), read32 m (s.ptr + 8)⟩
    { s with
      ioapics := s.ioapics ++ [ioapic]
      reads := s.reads ++ field (s.ptr + 4) 4 ++ field (s.ptr + 8) 4 }
  | .isrOverride =>
    let source := (m (s.ptr + 3)).toNat
    let gsi := read32 m (s.ptr + 4)
    let s := { s with reads := s.reads ++ field (s.ptr + 3) 1 ++ field (s.ptr + 4) 4 }
    if source ≠ gsi then { s with overides := s.overides ++ [⟨source, gsi % 256⟩] } else s
  | _ => s

/- One turn of the loop, and whether there is another one. -/
def turn (m : Memory) (window : Nat → Nat) (s : Walk) : Bool × Walk :=
  let stop := headerLength m
  if s.ptr + 2 ≤ stop then
    let s := { s with reads := s.reads ++ field (s.ptr + 1) 1 }
    if stop < s.ptr + entryLength m s.ptr then (false, s)
    else
      let s := interpret m window { s with reads := s.reads ++ field s.ptr 1 }
      (true, { s with ptr := s.ptr + entryLength m s.ptr })
  else (false, s)

/- acpi_parse_madt after a number of turns. -/
def acpiParseMadt (m : Memory) (window : Nat → Nat) : (turns : Nat) → Bool × Walk
  | 0 => (true, start)
  | turns + 1 =>
    let (more, s) := acpiParseMadt m window turns
    if more then turn m window s else (false, s)

/-- The walk comes to its end, and reads no byte outside of the table. -/
structure Safe (m : Memory) (window : Nat → Nat) : Prop where
  terminates : ∃ turns, (acpiParseMadt m window turns).1 = false
  inside : ∀ turns, ∀ a ∈ (acpiParseMadt m window turns).2.reads, a < headerLength m

/- The places that the lengths of the entries lead to. -/
inductive EntryAt (m : Memory) : Nat → Prop
  | first : EntryAt m 44
  | next {p : Nat} (before : EntryAt m p) (header : p + 2 ≤ headerLength m)
      (fits : p + entryLength m p ≤ headerLength m) : EntryAt m (p + entryLength m p)

/- The bytes at the start of an entry that its type makes the walk read. -/
def EntryType.extent : EntryType → Nat
  | .ioapic => 12
  | .isrOverride => 8
  | _ => 2

/-- The length itself is in the table, no entry has length 0, and what is read of an entry
ends before the table does. -/
structure WellFormed (m : Memory) : Prop where
  header : 8 ≤ headerLength m
  entries : ∀ p, EntryAt m p → p + 2 ≤ headerLength m → p + entryLength m p ≤ headerLength m →
    entryLength m p ≠ 0 ∧ p + (entryType (m p)).extent ≤ headerLength m

section Turns

variable {m : Memory} (window : Nat → Nat) {s : Walk}

theorem mem_field {p size a : Nat} : a ∈ field p size ↔ p ≤ a ∧ a < p + size := by
  simp only [field, List.mem_map, List.mem_range]
  constructor
  · rintro ⟨i, inside, rfl⟩
    omega
  · rintro ⟨low, high⟩
    exact ⟨a - p, by omega, by omega⟩

theorem interpret_ptr (m : Memory) (window : Nat → Nat) (s : Walk) : (interpret m window s).ptr = s.ptr := by
  unfold interpret
  split
  · rfl
  · simp only
    split <;> rfl
  · rfl

/- What the switch reads lies before the extent, and the last byte of that is read. -/
theorem interpret_reads (m : Memory) (window : Nat → Nat) (s : Walk) :
    ∃ bytes, (interpret m window s).reads = s.reads ++ bytes ∧
      (∀ a ∈ bytes, a < s.ptr + (entryType (m s.ptr)).extent) ∧
      ((entryType (m s.ptr)).extent = 2 ∨ s.ptr + (entryType (m s.ptr)).extent - 1 ∈ bytes) := by
  unfold interpret
  split
  case h_1 kind =>
    refine ⟨field (s.ptr + 4) 4 ++ field (s.ptr + 8) 4, by simp, ?_, ?_⟩
    · simp only [kind, EntryType.extent, List.mem_append, mem_field]
      omega
    · simp only [kind, EntryType.extent, List.mem_append, mem_field]
      omega
  case h_2 kind =>
    refine ⟨field (s.ptr + 3) 1 ++ field (s.ptr + 4) 4, ?_, ?_, ?_⟩
    · simp only
      split <;> simp
    · simp only [kind, EntryType.extent, List.mem_append, mem_field]
      omega
    · simp only [kind, EntryType.extent, List.mem_append, mem_field]
      omega
  case h_3 noIoapic noOverride =>
    refine ⟨[], by simp, by simp, .inl ?_⟩
    unfold EntryType.extent
    split
    · rename_i kind
      exact absurd kind noIoapic
    · rename_i kind
      exact absurd kind noOverride
    · rfl

/- A turn that stops. -/
theorem turn_last (last : ¬ (s.ptr + 2 ≤ headerLength m ∧ s.ptr + entryLength m s.ptr ≤ headerLength m)) :
    (turn m window s).1 = false ∧ ∀ a ∈ (turn m window s).2.reads, a ∈ s.reads ∨ a < headerLength m := by
  unfold turn
  simp only
  split
  · rename_i header
    rw [if_pos (by omega)]
    refine ⟨rfl, ?_⟩
    intro a member
    rcases List.mem_append.mp member with early | here
    · exact .inl early
    · rw [mem_field] at here
      exact .inr (by omega)
  · exact ⟨rfl, fun a member => .inl member⟩

/- A turn that goes on. -/
theorem turn_more (header : s.ptr + 2 ≤ headerLength m) (fits : s.ptr + entryLength m s.ptr ≤ headerLength m) :
    ∃ bytes, (turn m window s).1 = true ∧ (turn m window s).2.ptr = s.ptr + entryLength m s.ptr ∧
      (turn m window s).2.reads = s.reads ++ bytes ∧
      (∀ a ∈ bytes, a < s.ptr + (entryType (m s.ptr)).extent) ∧
      ((entryType (m s.ptr)).extent = 2 ∨ s.ptr + (entryType (m s.ptr)).extent - 1 ∈ bytes) := by
  unfold turn
  simp only [if_pos header, if_neg (Nat.not_lt.mpr fits), interpret_ptr]
  obtain ⟨bytes, reads, before, last⟩ :=
    interpret_reads m window { s with reads := s.reads ++ field (s.ptr + 1) 1 ++ field s.ptr 1 }
  have atLeast : 2 ≤ (entryType (m s.ptr)).extent := by
    unfold EntryType.extent
    split <;> omega
  refine ⟨field (s.ptr + 1) 1 ++ field s.ptr 1 ++ bytes, trivial, trivial, ?_, ?_, ?_⟩
  · rw [reads]
    simp only [List.append_assoc]
  · intro a member
    simp only [List.mem_append, mem_field] at member
    rcases member with (here | here) | later
    · omega
    · omega
    · exact before a later
  · rcases last with short | member
    · exact .inl short
    · exact .inr (List.mem_append_right _ member)

end Turns

section Runs

variable {m : Memory} {window : Nat → Nat}

theorem acpiParseMadt_more {turns : Nat} (more : (acpiParseMadt m window turns).1 = true) :
    acpiParseMadt m window (turns + 1) = turn m window (acpiParseMadt m window turns).2 := by
  simp only [acpiParseMadt, more, if_true]

theorem acpiParseMadt_stopped {turns : Nat} (stopped : (acpiParseMadt m window turns).1 = false) (later : Nat) :
    acpiParseMadt m window (turns + later) = acpiParseMadt m window turns := by
  induction later with
  | zero => rfl
  | succ later ih =>
    rw [← Nat.add_assoc, acpiParseMadt, ih]
    simp only [stopped, Bool.false_eq_true, if_false]
    rw [← stopped]

variable (window) in
/- The walk reaches every place that the lengths lead to. -/
theorem reaches {p : Nat} (entry : EntryAt m p) :
    ∃ turns, (acpiParseMadt m window turns).1 = true ∧ (acpiParseMadt m window turns).2.ptr = p := by
  induction entry with
  | first => exact ⟨0, rfl, rfl⟩
  | next _ header fits ih =>
    obtain ⟨turns, more, rfl⟩ := ih
    obtain ⟨bytes, again, ptr, -⟩ := turn_more window header fits
    refine ⟨turns + 1, ?_, ?_⟩
    · rw [acpiParseMadt_more more]
      exact again
    · rw [acpiParseMadt_more more]
      exact ptr

/- With an entry of length 0 every later turn is at that entry. -/
theorem stays {turns : Nat} (more : (acpiParseMadt m window turns).1 = true)
    (header : (acpiParseMadt m window turns).2.ptr + 2 ≤ headerLength m)
    (empty : entryLength m (acpiParseMadt m window turns).2.ptr = 0) (later : Nat) :
    (acpiParseMadt m window (turns + later)).1 = true ∧
      (acpiParseMadt m window (turns + later)).2.ptr = (acpiParseMadt m window turns).2.ptr := by
  induction later with
  | zero => exact ⟨more, rfl⟩
  | succ later ih =>
    obtain ⟨again, same⟩ := ih
    have fits : (acpiParseMadt m window (turns + later)).2.ptr +
        entryLength m (acpiParseMadt m window (turns + later)).2.ptr ≤ headerLength m := by
      rw [same, empty]
      omega
    obtain ⟨bytes, next, ptr, -⟩ := turn_more window (by rw [same]; exact header) fits
    rw [← Nat.add_assoc, acpiParseMadt_more again]
    exact ⟨next, by rw [ptr, same, empty, Nat.add_zero]⟩

theorem wellFormed_of_safe (safe : Safe m window) : WellFormed m := by
  constructor
  case header =>
    have last := safe.inside 0 7 (by simp [acpiParseMadt, start, mem_field])
    omega
  case entries =>
    intro p entry header fits
    obtain ⟨turns, more, rfl⟩ := reaches window entry
    constructor
    · intro empty
      obtain ⟨stop, stopped⟩ := safe.terminates
      have for_ever := (stays more header empty stop).1
      have ended := acpiParseMadt_stopped stopped turns
      rw [Nat.add_comm, ended, stopped] at for_ever
      cases for_ever
    · obtain ⟨bytes, -, -, reads, -, last⟩ := turn_more window header fits
      rcases last with short | member
      · omega
      · have read := safe.inside (turns + 1) _ (by
          rw [acpiParseMadt_more more, reads]
          exact List.mem_append_right _ member)
        omega

/- What holds after every number of turns: the walk has come further with each one. -/
structure Along (m : Memory) (turns : Nat) (more : Bool) (s : Walk) : Prop where
  inside : ∀ a ∈ s.reads, a < headerLength m
  entry : more = true → EntryAt m s.ptr ∧ 44 + turns ≤ s.ptr

theorem WellFormed.along (wellFormed : WellFormed m) (turns : Nat) :
    Along m turns (acpiParseMadt m window turns).1 (acpiParseMadt m window turns).2 := by
  induction turns with
  | zero =>
    refine ⟨?_, fun _ => ⟨.first, Nat.le_refl 44⟩⟩
    intro a member
    have header := wellFormed.header
    simp only [acpiParseMadt, start, mem_field] at member
    omega
  | succ turns ih =>
    cases more : (acpiParseMadt m window turns).1 with
    | false =>
      rw [acpiParseMadt_stopped more 1]
      refine ⟨ih.inside, ?_⟩
      intro again
      rw [more] at again
      cases again
    | true =>
      obtain ⟨entry, far⟩ := ih.entry more
      rw [acpiParseMadt_more more]
      by_cases going : (acpiParseMadt m window turns).2.ptr + 2 ≤ headerLength m ∧
          (acpiParseMadt m window turns).2.ptr + entryLength m (acpiParseMadt m window turns).2.ptr ≤
            headerLength m
      case pos =>
        obtain ⟨header, fits⟩ := going
        obtain ⟨nonempty, extent⟩ := wellFormed.entries _ entry header fits
        obtain ⟨bytes, -, ptr, reads, before, -⟩ := turn_more window header fits
        constructor
        · intro a member
          rw [reads] at member
          rcases List.mem_append.mp member with early | late
          · exact ih.inside a early
          · exact Nat.lt_of_lt_of_le (before a late) extent
        · intro _
          rw [ptr]
          exact ⟨.next entry header fits, by omega⟩
      case neg =>
        obtain ⟨stopped, reads⟩ := turn_last window going
        constructor
        · intro a member
          rcases reads a member with early | inside
          · exact ih.inside a early
          · exact inside
        · intro again
          rw [stopped] at again
          cases again

theorem safe_of_wellFormed (wellFormed : WellFormed m) : Safe m window := by
  refine ⟨⟨headerLength m + 1, ?_⟩, fun turns => (wellFormed.along turns).inside⟩
  cases more : (acpiParseMadt m window (headerLength m)).1 with
  | false => rw [acpiParseMadt_stopped more 1, more]
  | true =>
    have far := ((wellFormed.along (headerLength m)).entry more).2
    rw [acpiParseMadt_more more]
    exact (turn_last window (by omega)).1

end Runs

/-- The walk is safe exactly on well-formed tables. -/
theorem madt_safe_iff (m : Memory) (window : Nat → Nat) : Safe m window ↔ WellFormed m :=
  ⟨wellFormed_of_safe, safe_of_wellFormed⟩

/- Memory with a byte string at the start. -/
def table (bytes : List UInt8) : Memory := fun p => bytes.getD p 0

/- A table of `length` bytes with these entries. -/
def madt (length : UInt8) (entries : List UInt8) : List UInt8 :=
  [65, 80, 73, 67, length, 0, 0, 0] ++ List.replicate 36 0 ++ entries

/- A table that ends behind the header of an interrupt controller's entry. -/
def emptyEntry : List UInt8 := madt 46 [0, 0]
def shortEntry : List UInt8 := madt 46 [1, 2]
def firstWindow (_ : Nat) : Nat := 0xFFFF900000000000

theorem emptyEntry_stays (turns : Nat) : (acpiParseMadt (table emptyEntry) firstWindow turns).1 = true := by
  have here := (@stays (table emptyEntry) firstWindow 0 rfl (by decide) (by decide) turns).1
  rwa [Nat.zero_add] at here

/-- An entry of length 0 keeps the walk for ever; the entry of an interrupt controller that
ends with the table is read past its end. -/
theorem madt_unsafe :
    (headerLength (table emptyEntry) = emptyEntry.length ∧ ¬ Safe (table emptyEntry) firstWindow) ∧
    (headerLength (table shortEntry) = shortEntry.length ∧
      55 ∈ (acpiParseMadt (table shortEntry) firstWindow 1).2.reads ∧
      ¬ Safe (table shortEntry) firstWindow) := by
  have behind : 55 ∈ (acpiParseMadt (table shortEntry) firstWindow 1).2.reads := by decide
  refine ⟨⟨by decide, ?_⟩, by decide, behind, ?_⟩
  · intro safe
    obtain ⟨turns, stopped⟩ := safe.terminates
    rw [emptyEntry_stays turns] at stopped
    cases stopped
  · intro safe
    exact absurd (safe.inside 1 55 behind) (by decide)

end EvalynOS.Acpi
