import EvalynOS.Acpi.Madt

/-! Routing of interrupts to the redirection entries (drivers/x86_64/apic/ioapic.c). -/
namespace EvalynOS.Apic
open Acpi (Ioapic IrqOveride)

/- The chips behind the windows at `bases`. Each has a register that selects another one, and a
window to that. `writes` has the writes to the selected registers, in their order. -/
structure Bus where
  bases : List Nat
  select : Nat → BitVec 32
  regs : Nat → BitVec 32 → BitVec 32
  writes : List (Nat × BitVec 32 × BitVec 32)

def mmioWrite32 (b : Bus) (addr : Nat) (value : BitVec 32) : Bus :=
  if addr ∈ b.bases then { b with select := fun base => if base = addr then value else b.select base }
  else match b.bases.find? (fun base => base + 16 = addr) with
    | some base => { b with
        regs := fun chip reg => if chip = base ∧ reg = b.select base then value else b.regs chip reg
        writes := b.writes ++ [(base, b.select base, value)] }
    | none => b

def mmioRead32 (b : Bus) (addr : Nat) : BitVec 32 :=
  if addr ∈ b.bases then b.select addr
  else match b.bases.find? (fun base => base + 16 = addr) with
    | some base => b.regs base (b.select base)
    | none => 0xFFFFFFFF#32

def ioapicRead (b : Bus) (ioapic : Ioapic) (reg : BitVec 32) : BitVec 32 × Bus :=
  let b := mmioWrite32 b ioapic.address reg
  (mmioRead32 b (ioapic.address + 16), b)

def ioapicWrite (b : Bus) (ioapic : Ioapic) (reg value : BitVec 32) : Bus :=
  let b := mmioWrite32 b ioapic.address reg
  mmioWrite32 b (ioapic.address + 16) value

def ioapicRegVer : BitVec 32 := 0x01#32
def ioapicRegRedtblBase : BitVec 32 := 0x10#32

def maxEntriesOf (version : BitVec 32) : BitVec 8 := (version >>> 16 &&& 0xFF#32).setWidth 8

def ioapicMaxEntries (b : Bus) (ioapic : Ioapic) : BitVec 8 × Bus :=
  let (version, b) := ioapicRead b ioapic ioapicRegVer
  (maxEntriesOf version, b)

def lowRegister (index : BitVec 8) : BitVec 32 := ioapicRegRedtblBase + index.setWidth 32 * 2#32
def highRegister (index : BitVec 8) : BitVec 32 := ioapicRegRedtblBase + index.setWidth 32 * 2#32 + 1#32

def ioapicSetEntry (b : Bus) (ioapic : Ioapic) (index : BitVec 8) (data : BitVec 64) : Bus :=
  let b := ioapicWrite b ioapic (lowRegister index) (data.setWidth 32)
  ioapicWrite b ioapic (highRegister index) ((data >>> 32).setWidth 32)

/- The entry with a vector and a destination, and all else zero. -/
def redirectTo (vector destination : BitVec 8) : BitVec 64 := vector.setWidth 64 ||| destination.setWidth 64 <<< 56

def ioapicMapIrq (dbgstubEnabled : Bool) (b : Bus) (ioapic : Ioapic) (irq vector destination : BitVec 8) : Bus :=
  let vector := if irq = 4 ∧ dbgstubEnabled = true then 0xF0#8 else vector
  ioapicSetEntry b ioapic irq (redirectTo vector destination)

def actualIrq (overides : List IrqOveride) (irq : BitVec 8) : BitVec 8 :=
  match overides.find? (fun overide => overide.irq = irq.toNat) with
  | some overide => BitVec.ofNat 8 overide.gsi
  | none => irq

/- The search for the chip of an interrupt. -/
def findIoapic (actual : BitVec 8) : List Ioapic → Bus → Option Ioapic × Bus
  | [], b => (none, b)
  | ioapic :: rest, b =>
    let (max, b) := ioapicMaxEntries b ioapic
    if ioapic.gsib ≤ actual.toNat ∧ actual.toNat < (ioapic.gsib + max.toNat) % 2 ^ 32 then (some ioapic, b)
    else findIoapic actual rest b

/- `id` is what apic_get_id answers. -/
def ioapicUnmaskIrq (dbgstubEnabled : Bool) (b : Bus) (ioapics : List Ioapic) (overides : List IrqOveride)
    (irq : BitVec 8) (id : BitVec 32) : Bus :=
  let actual := actualIrq overides irq
  match findIoapic actual ioapics b with
  | (none, b) => b
  | (some ioapic, b) => ioapicMapIrq dbgstubEnabled b ioapic actual (irq + 0x20#8) (id.setWidth 8)

/-! What is wanted of it. -/

/- Every window has a chip behind it, and no two windows meet. -/
structure Wired (b : Bus) (ioapics : List Ioapic) : Prop where
  mapped : ∀ ioapic ∈ ioapics, ioapic.address ∈ b.bases
  apart : ∀ x ∈ b.bases, ∀ y ∈ b.bases, x ≠ y + 16

def Bus.last (b : Bus) (ioapic : Ioapic) : Nat := (maxEntriesOf (b.regs ioapic.address ioapicRegVer)).toNat

/- The interrupts of a chip: as many as it has redirection entries, from its first one on. -/
def Owns (b : Bus) (ioapic : Ioapic) (gsi : Nat) : Prop := ioapic.gsib ≤ gsi ∧ gsi < ioapic.gsib + (b.last ioapic + 1)

/- Exactly one entry of one chip is written. -/
def WritesEntry (b after : Bus) (ioapic : Ioapic) (index : BitVec 8) (data : BitVec 64) : Prop :=
  after.writes = b.writes ++ [(ioapic.address, lowRegister index, data.setWidth 32),
    (ioapic.address, highRegister index, (data >>> 32).setWidth 32)] ∧
  after.regs ioapic.address (lowRegister index) = data.setWidth 32 ∧
  after.regs ioapic.address (highRegister index) = (data >>> 32).setWidth 32 ∧
  ∀ chip reg, ¬ (chip = ioapic.address ∧ (reg = lowRegister index ∨ reg = highRegister index)) →
    after.regs chip reg = b.regs chip reg

def Routes (b : Bus) (ioapics : List Ioapic) (overides : List IrqOveride) (irq : BitVec 8) (id : BitVec 32) : Prop :=
  let gsi := actualIrq overides irq
  let after := ioapicUnmaskIrq false b ioapics overides irq id
  (∀ ioapic ∈ ioapics, Owns b ioapic gsi.toNat →
    WritesEntry b after ioapic (gsi - BitVec.ofNat 8 ioapic.gsib) (redirectTo (irq + 0x20#8) (id.setWidth 8))) ∧
  ((∀ ioapic ∈ ioapics, ¬ Owns b ioapic gsi.toNat) → after.writes = b.writes ∧ after.regs = b.regs)

section Chips

variable {b : Bus} {ioapics : List Ioapic} {ioapic : Ioapic} {reg value : BitVec 32}

theorem Wired.window (wired : Wired b ioapics) (member : ioapic ∈ ioapics) :
    ioapic.address + 16 ∉ b.bases ∧ b.bases.find? (fun base => base + 16 = ioapic.address + 16) = some ioapic.address := by
  have mapped := wired.mapped ioapic member
  constructor
  · exact fun inside => wired.apart _ inside _ mapped rfl
  · cases found : b.bases.find? (fun base => base + 16 = ioapic.address + 16) with
    | none =>
      have other := List.find?_eq_none.mp found _ mapped
      simp at other
    | some base =>
      have same := List.find?_some found
      rw [decide_eq_true_iff, Nat.add_right_cancel_iff] at same
      rw [same]

theorem select_eq (wired : Wired b ioapics) (member : ioapic ∈ ioapics) (reg : BitVec 32) :
    mmioWrite32 b ioapic.address reg =
      { b with select := fun base => if base = ioapic.address then reg else b.select base } := by
  rw [mmioWrite32, if_pos (wired.mapped ioapic member)]

theorem Wired.selected (wired : Wired b ioapics) (select : Nat → BitVec 32) : Wired { b with select := select } ioapics :=
  ⟨wired.mapped, wired.apart⟩

theorem ioapicRead_eq (wired : Wired b ioapics) (member : ioapic ∈ ioapics) (reg : BitVec 32) :
    ioapicRead b ioapic reg = (b.regs ioapic.address reg,
      { b with select := fun base => if base = ioapic.address then reg else b.select base }) := by
  obtain ⟨outside, found⟩ := wired.window member
  simp only [ioapicRead, select_eq wired member, mmioRead32, if_neg outside, found, if_true]

theorem ioapicWrite_eq (wired : Wired b ioapics) (member : ioapic ∈ ioapics) (reg value : BitVec 32) :
    ioapicWrite b ioapic reg value =
      { b with
        select := fun base => if base = ioapic.address then reg else b.select base
        regs := fun chip r => if chip = ioapic.address ∧ r = reg then value else b.regs chip r
        writes := b.writes ++ [(ioapic.address, reg, value)] } := by
  obtain ⟨outside, found⟩ := wired.window member
  unfold ioapicWrite
  rw [select_eq wired member]
  simp only [mmioWrite32, if_neg outside, found, if_true]

theorem lowRegister_ne_high (i j : BitVec 8) : lowRegister i ≠ highRegister j := by
  intro same
  have values := congrArg BitVec.toNat same
  have small := i.isLt
  have small' := j.isLt
  simp only [lowRegister, highRegister, ioapicRegRedtblBase, BitVec.toNat_add, BitVec.toNat_mul, BitVec.toNat_setWidth,
    BitVec.toNat_ofNat] at values
  omega

theorem lowRegister_inj {i j : BitVec 8} (same : lowRegister i = lowRegister j) : i = j := by
  apply BitVec.eq_of_toNat_eq
  have values := congrArg BitVec.toNat same
  have small := i.isLt
  have small' := j.isLt
  simp only [lowRegister, ioapicRegRedtblBase, BitVec.toNat_add, BitVec.toNat_mul, BitVec.toNat_setWidth,
    BitVec.toNat_ofNat] at values
  omega

/-- An entry is set by its two registers. -/
theorem ioapicSetEntry_writes (wired : Wired b ioapics) (member : ioapic ∈ ioapics) (index : BitVec 8) (data : BitVec 64) :
    WritesEntry b (ioapicSetEntry b ioapic index data) ioapic index data := by
  have wired' : Wired (ioapicWrite b ioapic (lowRegister index) (data.setWidth 32)) ioapics := by
    rw [ioapicWrite_eq wired member]
    exact ⟨wired.mapped, wired.apart⟩
  unfold ioapicSetEntry
  rw [ioapicWrite_eq wired' member, ioapicWrite_eq wired member]
  refine ⟨?_, ?_, ?_, ?_⟩
  · simp
  · have differ := lowRegister_ne_high index index
    simp only [true_and, if_neg differ, if_true]
  · simp only [and_self, if_true]
  · intro chip reg other
    simp only
    rw [if_neg (fun both => other ⟨both.1, .inr both.2⟩), if_neg (fun both => other ⟨both.1, .inl both.2⟩)]

/- The comparison of the search. -/
def Bus.matches (b : Bus) (actual : BitVec 8) (k : Ioapic) : Bool :=
  decide (k.gsib ≤ actual.toNat ∧ actual.toNat < (k.gsib + b.last k) % 2 ^ 32)

/-- The search leaves all registers as they are. -/
theorem findIoapic_eq (actual : BitVec 8) (wired : Wired b ioapics) (rest : List Ioapic) (part : ∀ k ∈ rest, k ∈ ioapics) :
    ∃ select, findIoapic actual rest b = (rest.find? (b.matches actual), { b with select := select }) := by
  induction rest generalizing b with
  | nil => exact ⟨b.select, rfl⟩
  | cons k rest ih =>
    have member := part k List.mem_cons_self
    let select := fun base => if base = k.address then ioapicRegVer else b.select base
    have max : ioapicMaxEntries b k = (maxEntriesOf (b.regs k.address ioapicRegVer), { b with select := select }) := by
      rw [ioapicMaxEntries, ioapicRead_eq wired member]
    unfold findIoapic
    rw [max]
    by_cases here : k.gsib ≤ actual.toNat ∧ actual.toNat < (k.gsib + b.last k) % 2 ^ 32
    · refine ⟨select, ?_⟩
      have isMatch : b.matches actual k = true := decide_eq_true here
      rw [List.find?_cons, isMatch]
      exact if_pos here
    · obtain ⟨select', later⟩ := ih (wired.selected select) (fun k member => part k (List.mem_cons_of_mem _ member))
      refine ⟨select', ?_⟩
      have noMatch : b.matches actual k = false := decide_eq_false here
      rw [List.find?_cons, noMatch]
      exact (if_neg here).trans later

end Chips

/-! Which chip is found, and which entry of it is written. -/

section Routing

variable {b : Bus} {ioapics : List Ioapic} {ioapic : Ioapic} {overides : List IrqOveride} {irq : BitVec 8} {id : BitVec 32}

/- No interrupt belongs to two chips. -/
def Disjoint (b : Bus) (ioapics : List Ioapic) : Prop :=
  ioapics.Pairwise (fun j k => ∀ gsi, ¬ (Owns b j gsi ∧ Owns b k gsi))

/-- The comparison misses the last interrupt of a chip. -/
theorem matches_iff (actual : BitVec 8) : b.matches actual ioapic = true ↔
    Owns b ioapic actual.toNat ∧ actual.toNat ≠ ioapic.gsib + b.last ioapic := by
  rw [Bus.matches, decide_eq_true_iff]
  have small := actual.isLt
  have few : b.last ioapic < 256 := (maxEntriesOf _).isLt
  unfold Owns
  constructor
  · rintro ⟨low, high⟩
    rw [Nat.mod_eq_of_lt (by omega)] at high
    omega
  · rintro ⟨⟨low, high⟩, other⟩
    rw [Nat.mod_eq_of_lt (by omega)]
    omega

theorem owner_unique (disjoint : Disjoint b ioapics) {j k : Ioapic} {gsi : Nat} (memberJ : j ∈ ioapics)
    (memberK : k ∈ ioapics) (ownsJ : Owns b j gsi) (ownsK : Owns b k gsi) : j = k := by
  induction ioapics with
  | nil => cases memberJ
  | cons first rest ih =>
    obtain ⟨apart, disjoint⟩ := List.pairwise_cons.mp disjoint
    rcases List.mem_cons.mp memberJ with rfl | laterJ
    · rcases List.mem_cons.mp memberK with rfl | laterK
      · rfl
      · exact absurd ⟨ownsJ, ownsK⟩ (apart k laterK gsi)
    · rcases List.mem_cons.mp memberK with rfl | laterK
      · exact absurd ⟨ownsK, ownsJ⟩ (apart j laterJ gsi)
      · exact ih disjoint laterJ laterK

/-- Without a chip that is found, only the selections change. -/
theorem unmask_missed (wired : Wired b ioapics)
    (missed : ∀ k ∈ ioapics, Owns b k (actualIrq overides irq).toNat → (actualIrq overides irq).toNat = k.gsib + b.last k) :
    (ioapicUnmaskIrq false b ioapics overides irq id).writes = b.writes ∧
      (ioapicUnmaskIrq false b ioapics overides irq id).regs = b.regs := by
  obtain ⟨select, found⟩ := findIoapic_eq (actualIrq overides irq) wired ioapics (fun k member => member)
  have none : ioapics.find? (b.matches (actualIrq overides irq)) = none := by
    rw [List.find?_eq_none]
    intro k member here
    obtain ⟨owns, other⟩ := (matches_iff _).mp here
    exact other (missed k member owns)
  rw [none] at found
  simp only [ioapicUnmaskIrq, found, and_self]

/-- The chip that is found has the entry of the interrupt's own number written. -/
theorem unmask_found (wired : Wired b ioapics) (disjoint : Disjoint b ioapics) (member : ioapic ∈ ioapics)
    (owns : Owns b ioapic (actualIrq overides irq).toNat)
    (other : (actualIrq overides irq).toNat ≠ ioapic.gsib + b.last ioapic) :
    WritesEntry b (ioapicUnmaskIrq false b ioapics overides irq id) ioapic (actualIrq overides irq)
      (redirectTo (irq + 0x20#8) (id.setWidth 8)) := by
  obtain ⟨select, found⟩ := findIoapic_eq (actualIrq overides irq) wired ioapics (fun k member => member)
  have chosen : ioapics.find? (b.matches (actualIrq overides irq)) = some ioapic := by
    cases search : ioapics.find? (b.matches (actualIrq overides irq)) with
    | none => exact absurd ((matches_iff _).mpr ⟨owns, other⟩) (List.find?_eq_none.mp search ioapic member)
    | some k =>
      have here := (matches_iff _).mp (List.find?_some search)
      rw [owner_unique disjoint (List.mem_of_find?_eq_some search) member here.1 owns]
  rw [chosen] at found
  have mapped : ioapicUnmaskIrq false b ioapics overides irq id = ioapicSetEntry { b with select := select } ioapic
      (actualIrq overides irq) (redirectTo (irq + 0x20#8) (id.setWidth 8)) := by
    simp only [ioapicUnmaskIrq, found, ioapicMapIrq, Bool.false_eq_true, and_false, if_false]
  rw [mapped]
  exact ioapicSetEntry_writes (wired.selected select) member _ _

end Routing

/- Two chips with 24 entries each. -/
def twoChips : Bus := ⟨[0x1000, 0x3000], fun _ => 0, fun _ _ => 0x170000#32, []⟩

def firstChip : Ioapic := ⟨0x1000, 0xFEC00000, 0⟩
def secondChip : Ioapic := ⟨0x3000, 0xFEC01000, 24⟩

theorem twoChips_wired : Wired twoChips [firstChip, secondChip] := by
  constructor
  · decide
  · decide

theorem twoChips_disjoint : Disjoint twoChips [firstChip, secondChip] := by
  have separate : ∀ gsi, ¬ (Owns twoChips firstChip gsi ∧ Owns twoChips secondChip gsi) := by
    rintro gsi ⟨⟨_, before⟩, after, _⟩
    have last : twoChips.last firstChip = 23 := rfl
    have next : secondChip.gsib = 24 := rfl
    have first : firstChip.gsib = 0 := rfl
    omega
  exact List.pairwise_pair.mpr separate

end EvalynOS.Apic
