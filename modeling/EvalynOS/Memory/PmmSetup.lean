import EvalynOS.Memory.PmmRuns

/-! setup_pmm() step by step: where it puts the parent table and the child tables in the
memory that they describe, and what it counts. -/
namespace EvalynOS.Pmm
open Lib Lib.Word

/- A child table with its pointer and the number of bytes that are cleared for it. -/
structure PlacedTable where
  child : Nat
  size : Nat
  table : ChildTable

/- The variables of setup_pmm(), with the slots behind the parent table and the calls of
memset. -/
structure Setup where
  parentTable : Nat
  parentTableSize : Nat
  numChildTables : Nat
  childTables : List (Option PlacedTable)
  j : Nat
  totalPages : Nat
  cleared : List (Nat × Nat)

/- A round of the first loop: num_usable_regions and parent_table_size. -/
def countRegion (counts : Nat × Nat) (entry : MemmapEntry) : Nat × Nat :=
  if isUsableRegion entry then (counts.1 + 1, counts.2 + 8) else counts

def placeTable (hhdmOffset parentTable parentTableSize : Nat) (entry : MemmapEntry) : PlacedTable :=
  let size := childTableSize (entry.length / pageSize)
  let first := wadd (alignUp entry.base pageSize) hhdmOffset
  let child := if first = parentTable then wadd parentTable parentTableSize else first
  let start := alignUp (wadd (wsub child hhdmOffset) size) pageSize
  let endAddr := alignDown (wadd entry.base entry.length) pageSize
  let numPages := (endAddr - start) / pageSize
  {
    child := child, size := size
    table := { start := start, endAddr := endAddr, numPages := numPages, pages := List.replicate numPages .uninit } }

/- A round of the last loop. -/
def setupRegion (hhdmOffset : Nat) (setup : Setup) (entry : MemmapEntry) : Setup :=
  if entry.type ≠ .usable ∨ entry.length ≤ pageSize * 16 then setup
  else
    let placed := placeTable hhdmOffset setup.parentTable setup.parentTableSize entry
    let cleared := setup.cleared ++ [(placed.child, placed.size)]
    if placed.table.endAddr ≤ placed.table.start then
      { setup with cleared := cleared, numChildTables := (setup.numChildTables + (2 ^ 32 - 1)) % 2 ^ 32 }
    else
      { setup with
        cleared := cleared
        totalPages := wadd setup.totalPages placed.table.numPages
        childTables := setup.childTables.set setup.j (some placed)
        j := setup.j + 1 }

/-- setup_pmm() up to pmm_fill(). -/
def setupTables (hhdmOffset : Nat) (memmap : List MemmapEntry) : Except Panic Setup :=
  let (numUsableRegions, parentTableSize) := memmap.foldl countRegion (0, 8)
  match memmap.find? isUsableRegion with
  | none => .error .noParentTable
  | some entry =>
    let parentTable := wadd (alignUp entry.base pageSize) hhdmOffset
    if parentTable = 0 then .error .noParentTable
    else
      .ok (memmap.foldl (setupRegion hhdmOffset) {
        parentTable := parentTable
        parentTableSize := parentTableSize
        numChildTables := numUsableRegions % 2 ^ 32
        childTables := List.replicate numUsableRegions none
        j := 0
        totalPages := 0
        cleared := [(parentTable, parentTableSize)] })

namespace Setup

/- The slots that are filled. -/
def filled (setup : Setup) : List PlacedTable := setup.childTables.filterMap id

/- The allocator that is left behind, before pmm_fill(): the tables are the first
num_child_tables slots. -/
def phys (setup : Setup) (hhdmOffset : Nat) (mem : Memory) : Phys where
  hhdmOffset := hhdmOffset
  tables := (setup.childTables.take setup.numChildTables).filterMap (fun slot => slot.map PlacedTable.table)
  freelistHead := 0
  fillT := 0
  fillP := 0
  totalPages := setup.totalPages
  usedPages := 0
  mem := mem

end Setup

/- The bytes behind a pointer to the direct map are not among the pages of a table. -/
def Outside (hhdmOffset pointer size : Nat) (c : ChildTable) : Prop :=
  pointer + size ≤ c.start + hhdmOffset ∨ c.endAddr + hhdmOffset ≤ pointer

/-- The pages that setup_pmm() manages are pages of the memory map, and no bytes of its own
tables are among them. -/
structure KeepsMetadata (hhdmOffset : Nat) (memmap : List MemmapEntry) (setup : Setup) : Prop where
  aligned : ∀ placed ∈ setup.filled, pageSize ∣ placed.table.start ∧ pageSize ∣ placed.table.endAddr
  nonempty : ∀ placed ∈ setup.filled, placed.table.start < placed.table.endAddr
  apart : setup.filled.Pairwise (fun one other =>
    one.table.endAddr ≤ other.table.start ∨ other.table.endAddr ≤ one.table.start)
  inEntry : ∀ placed ∈ setup.filled, ∃ e ∈ memmap, e.type = .usable ∧ e.base ≤ placed.table.start ∧
    placed.table.endAddr ≤ e.base + e.length
  parent : ∀ placed ∈ setup.filled, Outside hhdmOffset setup.parentTable setup.parentTableSize placed.table
  children : ∀ one ∈ setup.filled, ∀ placed ∈ setup.filled, Outside hhdmOffset one.child one.size placed.table
  cleared : ∀ call ∈ setup.cleared, ∀ placed ∈ setup.filled, Outside hhdmOffset call.1 call.2 placed.table
  memsets : setup.cleared.Pairwise (fun one other => one.1 + one.2 ≤ other.1 ∨ other.1 + other.2 ≤ one.1)
  numPages : ∀ placed ∈ setup.filled,
    placed.table.numPages = (placed.table.endAddr - placed.table.start) / pageSize
  room : ∀ placed ∈ setup.filled,
    placed.child + childTableSize placed.table.numPages ≤ placed.table.start + hhdmOffset
  count : setup.numChildTables = setup.filled.length
  total : setup.totalPages = (setup.filled.map (fun placed => placed.table.numPages)).sum

section Place

variable {hhdmOffset parentTable parentTableSize : Nat} {e : MemmapEntry}

theorem isUsableRegion_iff : isUsableRegion e = true ↔ ¬ (e.type ≠ .usable ∨ e.length ≤ pageSize * 16) := by
  unfold isUsableRegion
  simp only [Bool.and_eq_true, decide_eq_true_eq, not_or, not_not, Nat.not_le, ne_eq]

/-- The table of a region and the value that is modelled of it. -/
theorem childTable_placed (region : isUsableRegion e = true) : childTable hhdmOffset parentTable parentTableSize e =
    if (placeTable hhdmOffset parentTable parentTableSize e).table.endAddr ≤
        (placeTable hhdmOffset parentTable parentTableSize e).table.start then none
    else some (placeTable hhdmOffset parentTable parentTableSize e).table := by
  unfold childTable
  rw [if_pos region]
  rfl

/-- A table lies in its region, behind the parent table if that is there, and leaves pages
behind it. -/
structure InRegion (hhdmOffset parentTable parentTableSize : Nat) (e : MemmapEntry) (placed : PlacedTable) : Prop where
  low : e.base + hhdmOffset ≤ placed.child
  behind : e.base + hhdmOffset = parentTable → parentTable + parentTableSize ≤ placed.child
  high : placed.child + placed.size ≤ placed.table.start + hhdmOffset
  aligned : pageSize ∣ placed.table.start
  nonempty : placed.table.start < placed.table.endAddr
  last : placed.table.endAddr = e.base + e.length
  numPages : placed.table.numPages = (placed.table.endAddr - placed.table.start) / pageSize
  room : childTableSize placed.table.numPages ≤ placed.size

/-- The parent table of up to 1024 regions and a child table never fill a region. -/
theorem placeTable_spec (higherHalf : 0xFFFF800000000000 ≤ hhdmOffset) (few : parentTableSize ≤ 8 + 8 * 1024)
    (region : isUsableRegion e = true) (aligned : pageSize ∣ e.base) (alignedLength : pageSize ∣ e.length)
    (mapped : e.base + e.length + hhdmOffset < 2 ^ 64) :
    InRegion hhdmOffset parentTable parentTableSize e (placeTable hhdmOffset parentTable parentTableSize e) := by
  have long : pageSize * 16 < e.length := by
    have both := isUsableRegion_iff.mp region
    omega
  have exactUp : alignUp e.base pageSize = e.base := alignUp_aligned aligned (by unfold pageSize at long; omega)
  have exactDown : alignDown (wadd e.base e.length) pageSize = e.base + e.length := by
    rw [wadd_eq (by omega)]
    exact alignDown_aligned (Nat.dvd_add aligned alignedLength) (by omega)
  have first : wadd e.base hhdmOffset = e.base + hhdmOffset := wadd_eq (by omega)
  obtain ⟨child, isChild, low, behind, high⟩ : ∃ child,
      (if e.base + hhdmOffset = parentTable then wadd parentTable parentTableSize else e.base + hhdmOffset) = child ∧
      e.base + hhdmOffset ≤ child ∧ (e.base + hhdmOffset = parentTable → parentTable + parentTableSize ≤ child) ∧
      child ≤ e.base + hhdmOffset + (8 + 8 * 1024) := by
    refine ⟨_, rfl, ?_⟩
    unfold pageSize at long
    split
    · rename_i isParent
      rw [wadd_eq (by omega)]
      omega
    · omega
  have place : wsub child hhdmOffset = child - hhdmOffset := by
    unfold pageSize at long
    exact wsub_eq (by omega) (by omega)
  have size : wadd (child - hhdmOffset) (childTableSize (e.length / pageSize)) =
      child - hhdmOffset + childTableSize (e.length / pageSize) := by
    unfold childTableSize pageSize at *
    exact wadd_eq (by omega)
  have start : alignUp (child - hhdmOffset + childTableSize (e.length / pageSize)) pageSize =
      (child - hhdmOffset + childTableSize (e.length / pageSize) + 4095) / 4096 * 4096 := by
    apply alignUp_page
    unfold childTableSize pageSize at *
    omega
  unfold placeTable
  simp only [exactUp, first, isChild, exactDown, place, size, start]
  unfold childTableSize pageSize at *
  generalize value : (child - hhdmOffset + (24 + 4 * (e.length / 4096)) + 4095) / 4096 * 4096 = top
  refine ⟨low, behind, ?_, ?_, ?_, rfl, rfl, ?_⟩
  · simp only
    omega
  · simp only [pageSize]
    omega
  · simp only
    omega
  · simp only [childTableSize]
    omega

end Place

/-! The rounds of the last loop. -/

/- The tables of the regions, those without pages left out. -/
def placedTables (hhdmOffset parentTable parentTableSize : Nat) (memmap : List MemmapEntry) : List PlacedTable :=
  ((memmap.filter isUsableRegion).map (placeTable hhdmOffset parentTable parentTableSize)).filter
    (fun placed => placed.table.start < placed.table.endAddr)

/-- The variables after the entries `done`, where the parent table has `slots` slots. -/
structure SetupAfter (hhdmOffset parentTable parentTableSize slots : Nat) (done : List MemmapEntry)
    (setup : Setup) : Prop where
  parentTable_eq : setup.parentTable = parentTable
  size_eq : setup.parentTableSize = parentTableSize
  childTables : setup.childTables =
    (placedTables hhdmOffset parentTable parentTableSize done).map some ++
      List.replicate (slots - (placedTables hhdmOffset parentTable parentTableSize done).length) none
  j : setup.j = (placedTables hhdmOffset parentTable parentTableSize done).length
  count : setup.numChildTables + (done.filter isUsableRegion).length =
    slots + (placedTables hhdmOffset parentTable parentTableSize done).length
  total : setup.totalPages =
    ((placedTables hhdmOffset parentTable parentTableSize done).map (fun placed => placed.table.numPages)).sum % 2 ^ 64
  cleared : setup.cleared = (parentTable, parentTableSize) :: ((done.filter isUsableRegion).map
    (fun e => ((placeTable hhdmOffset parentTable parentTableSize e).child,
      (placeTable hhdmOffset parentTable parentTableSize e).size)))

section Loop

variable {hhdmOffset parentTable parentTableSize slots : Nat} {memmap done : List MemmapEntry} {setup : Setup}

theorem countRegion_run (memmap : List MemmapEntry) (counts : Nat × Nat) : memmap.foldl countRegion counts =
    (counts.1 + (memmap.filter isUsableRegion).length, counts.2 + 8 * (memmap.filter isUsableRegion).length) := by
  induction memmap generalizing counts with
  | nil => rfl
  | cons e rest ih =>
    rw [List.foldl_cons, ih]
    unfold countRegion
    by_cases region : isUsableRegion e = true
    · rw [if_pos region, List.filter_cons_of_pos region, List.length_cons]
      simp only [Prod.mk.injEq]
      omega
    · rw [if_neg region, List.filter_cons_of_neg region]

theorem placedTables_le (done : List MemmapEntry) :
    (placedTables hhdmOffset parentTable parentTableSize done).length ≤ (done.filter isUsableRegion).length := by
  unfold placedTables
  exact Nat.le_trans (List.length_filter_le _ _) (Nat.le_of_eq (List.length_map _))

theorem placedTables_append (done rest : List MemmapEntry) :
    placedTables hhdmOffset parentTable parentTableSize (done ++ rest) =
      placedTables hhdmOffset parentTable parentTableSize done ++
        placedTables hhdmOffset parentTable parentTableSize rest := by
  unfold placedTables
  rw [List.filter_append, List.map_append, List.filter_append]

/-- One round of the last loop. -/
theorem SetupAfter.step (after : SetupAfter hhdmOffset parentTable parentTableSize slots done setup)
    (e : MemmapEntry) (room : ((done ++ [e]).filter isUsableRegion).length ≤ slots) (few : slots < 2 ^ 32) :
    SetupAfter hhdmOffset parentTable parentTableSize slots (done ++ [e]) (setupRegion hhdmOffset setup e) := by
  have short := @placedTables_le hhdmOffset parentTable parentTableSize done
  obtain ⟨isParent, isSize, childTables, j, count, total, cleared⟩ := after
  unfold setupRegion
  by_cases region : isUsableRegion e = true
  · have regions : [e].filter isUsableRegion = [e] := List.filter_cons_of_pos region
    rw [List.filter_append, regions, List.length_append, List.length_singleton] at room
    rw [if_neg (isUsableRegion_iff.mp region)]
    simp only [isParent, isSize]
    generalize isPlaced : placeTable hhdmOffset parentTable parentTableSize e = placed
    by_cases dropped : placed.table.endAddr ≤ placed.table.start
    · have none : placedTables hhdmOffset parentTable parentTableSize [e] = [] := by
        unfold placedTables
        rw [regions, List.map_singleton, isPlaced]
        exact List.filter_cons_of_neg (by simpa using dropped)
      rw [if_pos dropped]
      refine ⟨rfl, rfl, ?_, ?_, ?_, ?_, ?_⟩
      · rw [placedTables_append, none, List.append_nil]
        exact childTables
      · rw [placedTables_append, none, List.append_nil]
        exact j
      · rw [placedTables_append, none, List.append_nil, List.filter_append, regions, List.length_append,
          List.length_singleton]
        simp only
        omega
      · rw [placedTables_append, none, List.append_nil]
        exact total
      · rw [List.filter_append, regions, List.map_append, List.map_singleton, isPlaced, ← List.cons_append, ← cleared]
    · have one : placedTables hhdmOffset parentTable parentTableSize [e] = [placed] := by
        unfold placedTables
        rw [regions, List.map_singleton, isPlaced]
        exact List.filter_cons_of_pos (by simpa using dropped)
      rw [if_neg dropped]
      refine ⟨rfl, rfl, ?_, ?_, ?_, ?_, ?_⟩
      · rw [placedTables_append, one]
        simp only [childTables, j]
        obtain ⟨left, isLeft⟩ : ∃ left, slots - (placedTables hhdmOffset parentTable parentTableSize done).length =
            left + 1 := ⟨slots - (placedTables hhdmOffset parentTable parentTableSize done).length - 1, by omega⟩
        rw [isLeft, List.replicate_succ, List.set_append_right _ _ (by rw [List.length_map]), List.length_map,
          Nat.sub_self, List.set_cons_zero, List.map_append, List.map_singleton, List.append_assoc,
          List.length_append, List.length_singleton]
        have rest : slots - ((placedTables hhdmOffset parentTable parentTableSize done).length + 1) = left := by omega
        rw [rest]
        rfl
      · rw [placedTables_append, one, List.length_append, List.length_singleton]
        exact congrArg (· + 1) j
      · rw [placedTables_append, one, List.filter_append, regions, List.length_append, List.length_append,
          List.length_singleton, List.length_singleton]
        simp only
        omega
      · rw [placedTables_append, one, List.map_append, List.map_singleton, List.sum_append, List.sum_singleton]
        simp only [total, wadd]
        exact Nat.mod_add_mod _ _ _
      · rw [List.filter_append, regions, List.map_append, List.map_singleton, isPlaced, ← List.cons_append, ← cleared]
  · have noRegion : [e].filter isUsableRegion = [] := List.filter_cons_of_neg region
    have none : placedTables hhdmOffset parentTable parentTableSize [e] = [] := by
      unfold placedTables
      rw [noRegion]
      rfl
    have skipped : e.type ≠ .usable ∨ e.length ≤ pageSize * 16 := by
      by_contra both
      exact region (isUsableRegion_iff.mpr both)
    rw [if_pos skipped]
    refine ⟨isParent, isSize, ?_, ?_, ?_, ?_, ?_⟩
    · rw [placedTables_append, none, List.append_nil]
      exact childTables
    · rw [placedTables_append, none, List.append_nil]
      exact j
    · rw [placedTables_append, none, List.append_nil, List.filter_append, noRegion, List.append_nil]
      exact count
    · rw [placedTables_append, none, List.append_nil]
      exact total
    · rw [List.filter_append, noRegion, List.append_nil]
      exact cleared

/-- All rounds of the last loop. -/
theorem SetupAfter.run (after : SetupAfter hhdmOffset parentTable parentTableSize slots done setup)
    (rest : List MemmapEntry) (room : ((done ++ rest).filter isUsableRegion).length ≤ slots) (few : slots < 2 ^ 32) :
    SetupAfter hhdmOffset parentTable parentTableSize slots (done ++ rest)
      (rest.foldl (setupRegion hhdmOffset) setup) := by
  induction rest generalizing done setup with
  | nil =>
    rw [List.append_nil]
    exact after
  | cons e rest ih =>
    have split : done ++ e :: rest = done ++ [e] ++ rest := by rw [List.append_assoc, List.singleton_append]
    rw [split] at room ⊢
    have soFar : ((done ++ [e]).filter isUsableRegion).length ≤ slots := by
      rw [List.filter_append, List.length_append] at room
      omega
    exact ih (after.step e soFar few) room

end Loop

section Setup

variable {hhdmOffset parentTable parentSize slots : Nat} {memmap : List MemmapEntry} {first : MemmapEntry}
  {setup : Setup}

theorem SetupAfter.filled (after : SetupAfter hhdmOffset parentTable parentSize slots memmap setup) :
    setup.filled = placedTables hhdmOffset parentTable parentSize memmap := by
  have none : ∀ n, (List.replicate n (none : Option PlacedTable)).filterMap id = [] := by
    intro n
    exact List.filterMap_eq_nil_iff.mpr (fun slot member => List.eq_of_mem_replicate member)
  unfold Setup.filled
  rw [after.childTables, List.filterMap_append, none, List.append_nil, List.filterMap_map]
  exact List.filterMap_some

/-- When all slots are counted, num_child_tables is the number of those that are filled. -/
theorem SetupAfter.numChildTables (after : SetupAfter hhdmOffset parentTable parentSize
    (memmap.filter isUsableRegion).length memmap setup) : setup.numChildTables = setup.filled.length := by
  rw [after.filled]
  have count := after.count
  omega

theorem placedTables_values (memmap : List MemmapEntry) :
    (placedTables hhdmOffset parentTable parentSize memmap).map PlacedTable.table =
      memmap.filterMap (childTable hhdmOffset parentTable parentSize) := by
  unfold placedTables
  induction memmap with
  | nil => rfl
  | cons e rest ih =>
    by_cases region : isUsableRegion e = true
    · have value := @childTable_placed hhdmOffset parentTable parentSize e region
      rw [List.filter_cons_of_pos region, List.map_cons]
      by_cases dropped : (placeTable hhdmOffset parentTable parentSize e).table.endAddr ≤
          (placeTable hhdmOffset parentTable parentSize e).table.start
      · rw [if_pos dropped] at value
        rw [List.filter_cons_of_neg (by simpa using dropped), List.filterMap_cons_none value]
        exact ih
      · rw [if_neg dropped] at value
        rw [List.filter_cons_of_pos (by simpa using dropped), List.filterMap_cons_some value, List.map_cons, ih]
    · have value : childTable hhdmOffset parentTable parentSize e = none := by
        unfold childTable
        exact if_neg region
      rw [List.filter_cons_of_neg region, List.filterMap_cons_none value]
      exact ih

/-- The tables that are left behind are those that are modelled. -/
theorem SetupAfter.tables (after : SetupAfter hhdmOffset (wadd (alignUp first.base pageSize) hhdmOffset)
      (parentTableSize memmap) (memmap.filter isUsableRegion).length memmap setup) (mem : Memory) :
    (setup.phys hhdmOffset mem).tables = regionTables hhdmOffset memmap first := by
  have counted := after.numChildTables
  rw [after.filled] at counted
  have shown : (setup.childTables.take setup.numChildTables) = (placedTables hhdmOffset
      (wadd (alignUp first.base pageSize) hhdmOffset) (parentTableSize memmap) memmap).map some := by
    rw [counted, after.childTables, ← List.length_map some]
    exact List.take_left
  have values : (setup.phys hhdmOffset mem).tables = (placedTables hhdmOffset
      (wadd (alignUp first.base pageSize) hhdmOffset) (parentTableSize memmap) memmap).map PlacedTable.table := by
    unfold Setup.phys
    simp only [shown]
    rw [List.filterMap_map]
    exact congrFun (List.filterMap_eq_map) _
  rw [values, placedTables_values]
  rfl

/-- setup_pmm() with its variables is setup_pmm(). -/
theorem setupTables_after (found : memmap.find? isUsableRegion = some first)
    (nonzero : wadd (alignUp first.base pageSize) hhdmOffset ≠ 0)
    (few : (memmap.filter isUsableRegion).length < 2 ^ 32) :
    ∃ setup, setupTables hhdmOffset memmap = .ok setup ∧
      SetupAfter hhdmOffset (wadd (alignUp first.base pageSize) hhdmOffset) (parentTableSize memmap)
        (memmap.filter isUsableRegion).length memmap setup := by
  have counts := countRegion_run memmap (0, 8)
  simp only [Nat.zero_add] at counts
  have start : SetupAfter hhdmOffset (wadd (alignUp first.base pageSize) hhdmOffset) (parentTableSize memmap)
      (memmap.filter isUsableRegion).length [] {
        parentTable := wadd (alignUp first.base pageSize) hhdmOffset
        parentTableSize := parentTableSize memmap
        numChildTables := (memmap.filter isUsableRegion).length % 2 ^ 32
        childTables := List.replicate (memmap.filter isUsableRegion).length none
        j := 0
        totalPages := 0
        cleared := [(wadd (alignUp first.base pageSize) hhdmOffset, parentTableSize memmap)] } :=
    ⟨rfl, rfl, rfl, rfl, Nat.mod_eq_of_lt few, rfl, rfl⟩
  have after := start.run memmap (Nat.le_refl _) few
  refine ⟨_, ?_, after⟩
  simp only [setupTables, counts, found, nonzero, if_false]
  rfl

end Setup

section Metadata

variable {hhdmOffset : Nat} {memmap : List MemmapEntry} {first e : MemmapEntry} {setup : Setup}

theorem LimineMap.apart_of_ne (limine : LimineMap hhdmOffset memmap) {a b : MemmapEntry} (inA : a ∈ memmap)
    (inB : b ∈ memmap) (usableA : a.type = .usable) (usableB : b.type = .usable) (different : a ≠ b) :
    a.base + a.length ≤ b.base ∨ b.base + b.length ≤ a.base := by
  have symmetric : Std.Symm (fun a b : MemmapEntry => a.type = .usable → b.type = .usable →
      a.base + a.length ≤ b.base ∨ b.base + b.length ≤ a.base) :=
    ⟨fun a b apart usableB usableA => (apart usableA usableB).symm⟩
  exact limine.apart.forall inA inB different usableA usableB

theorem LimineMap.region (limine : LimineMap hhdmOffset memmap) (few : memmap.length ≤ 1024) (member : e ∈ memmap)
    (region : isUsableRegion e = true) (parentTable : Nat) :
    e.type = .usable ∧ InRegion hhdmOffset parentTable (parentTableSize memmap) e
      (placeTable hhdmOffset parentTable (parentTableSize memmap) e) := by
  have usable : e.type = .usable := by
    have both := isUsableRegion_iff.mp region
    by_contra other
    exact both (.inl other)
  have small : parentTableSize memmap ≤ 8 + 8 * 1024 := by
    have regions := List.length_filter_le isUsableRegion memmap
    unfold parentTableSize
    omega
  obtain ⟨base, length⟩ := limine.aligned e member usable
  exact ⟨usable, placeTable_spec limine.higherHalf small region base length (limine.mapped e member usable)⟩

/-- Bytes of one region are not pages of the table of another one. -/
theorem LimineMap.outside (limine : LimineMap hhdmOffset memmap) {a b : MemmapEntry} {parentTable parentSize : Nat}
    {placed : PlacedTable} (inA : a ∈ memmap) (inB : b ∈ memmap) (usableA : a.type = .usable)
    (usableB : b.type = .usable) (different : a ≠ b) (here : InRegion hhdmOffset parentTable parentSize b placed)
    {pointer size : Nat} (low : a.base + hhdmOffset ≤ pointer)
    (high : pointer + size ≤ a.base + a.length + hhdmOffset) : Outside hhdmOffset pointer size placed.table := by
  have starts := here.low
  have fits := here.high
  have last := here.last
  unfold Outside
  rcases limine.apart_of_ne inA inB usableA usableB different with below | above
  · left
    omega
  · right
    omega

/-- The table of a region is behind no page of a table. -/
theorem LimineMap.child_outside (limine : LimineMap hhdmOffset memmap) (few : memmap.length ≤ 1024)
    {a b : MemmapEntry} (inA : a ∈ memmap) (inB : b ∈ memmap) (regionA : isUsableRegion a = true)
    (regionB : isUsableRegion b = true) (parentTable : Nat) :
    Outside hhdmOffset (placeTable hhdmOffset parentTable (parentTableSize memmap) a).child
      (placeTable hhdmOffset parentTable (parentTableSize memmap) a).size
      (placeTable hhdmOffset parentTable (parentTableSize memmap) b).table := by
  obtain ⟨usableA, placedA⟩ := limine.region few inA regionA parentTable
  obtain ⟨usableB, placedB⟩ := limine.region few inB regionB parentTable
  by_cases same : a = b
  · subst same
    exact .inl placedA.high
  · apply limine.outside inA inB usableA usableB same placedB placedA.low
    have high := placedA.high
    have nonempty := placedA.nonempty
    have last := placedA.last
    omega

/-- Neither is the parent table. -/
theorem LimineMap.parent_outside (limine : LimineMap hhdmOffset memmap) (few : memmap.length ≤ 1024)
    (inFirst : first ∈ memmap) (inMap : e ∈ memmap) (regionFirst : isUsableRegion first = true)
    (region : isUsableRegion e = true) :
    Outside hhdmOffset (first.base + hhdmOffset) (parentTableSize memmap)
      (placeTable hhdmOffset (first.base + hhdmOffset) (parentTableSize memmap) e).table := by
  obtain ⟨usableFirst, placedFirst⟩ := limine.region few inFirst regionFirst (first.base + hhdmOffset)
  obtain ⟨usable, placed⟩ := limine.region few inMap region (first.base + hhdmOffset)
  have behind := placedFirst.behind rfl
  have high := placedFirst.high
  by_cases same : first = e
  · subst same
    left
    omega
  · apply limine.outside inFirst inMap usableFirst usable same placed (Nat.le_refl _)
    have nonempty := placedFirst.nonempty
    have last := placedFirst.last
    omega

/-- The tables do not overlap. -/
theorem LimineMap.cleared_apart (limine : LimineMap hhdmOffset memmap) (few : memmap.length ≤ 1024)
    (inFirst : first ∈ memmap) (regionFirst : isUsableRegion first = true) :
    ((first.base + hhdmOffset, parentTableSize memmap) :: (memmap.filter isUsableRegion).map
      (fun e => ((placeTable hhdmOffset (first.base + hhdmOffset) (parentTableSize memmap) e).child,
        (placeTable hhdmOffset (first.base + hhdmOffset) (parentTableSize memmap) e).size))).Pairwise
      (fun one other => one.1 + one.2 ≤ other.1 ∨ other.1 + other.2 ≤ one.1) := by
  have inside : ∀ e ∈ memmap, isUsableRegion e = true → e.type = .usable ∧
      InRegion hhdmOffset (first.base + hhdmOffset) (parentTableSize memmap) e
        (placeTable hhdmOffset (first.base + hhdmOffset) (parentTableSize memmap) e) ∧
      (placeTable hhdmOffset (first.base + hhdmOffset) (parentTableSize memmap) e).child +
        (placeTable hhdmOffset (first.base + hhdmOffset) (parentTableSize memmap) e).size ≤
          e.base + e.length + hhdmOffset := by
    intro e inMap region
    obtain ⟨usable, placed⟩ := limine.region few inMap region (first.base + hhdmOffset)
    have high := placed.high
    have nonempty := placed.nonempty
    have last := placed.last
    exact ⟨usable, placed, by omega⟩
  obtain ⟨usableFirst, placedFirst, endFirst⟩ := inside first inFirst regionFirst
  refine List.pairwise_cons.mpr ⟨?_, ?_⟩
  · intro call member
    obtain ⟨e, inRegions, rfl⟩ := List.mem_map.mp member
    obtain ⟨inMap, region⟩ := List.mem_filter.mp inRegions
    obtain ⟨usable, placed, ends⟩ := inside e inMap region
    have low := placed.low
    by_cases same : first = e
    · subst same
      exact .inl (placed.behind rfl)
    · have behind := placedFirst.behind rfl
      rcases limine.apart_of_ne inFirst inMap usableFirst usable same with below | above
      · left
        simp only
        omega
      · right
        simp only
        omega
  · rw [List.pairwise_map]
    refine (limine.apart.filter _).imp_of_mem ?_
    intro a b inA inB apart
    obtain ⟨inMapA, regionA⟩ := List.mem_filter.mp inA
    obtain ⟨inMapB, regionB⟩ := List.mem_filter.mp inB
    obtain ⟨usableA, placedA, endA⟩ := inside a inMapA regionA
    obtain ⟨usableB, placedB, endB⟩ := inside b inMapB regionB
    have lowA := placedA.low
    have lowB := placedB.low
    have separate := apart usableA usableB
    simp only
    omega

theorem LimineMap.keepsMetadata (limine : LimineMap hhdmOffset memmap) (few : memmap.length ≤ 1024)
    (inFirst : first ∈ memmap) (regionFirst : isUsableRegion first = true)
    (table : wadd (alignUp first.base pageSize) hhdmOffset = first.base + hhdmOffset) (after : SetupAfter hhdmOffset (first.base + hhdmOffset) (parentTableSize memmap)
      (memmap.filter isUsableRegion).length memmap setup) : KeepsMetadata hhdmOffset memmap setup := by
  have each : ∀ placed ∈ setup.filled, ∃ e ∈ memmap, isUsableRegion e = true ∧
      placed = placeTable hhdmOffset (first.base + hhdmOffset) (parentTableSize memmap) e := by
    intro placed member
    rw [after.filled] at member
    obtain ⟨e, inRegions, same⟩ := List.mem_map.mp (List.mem_filter.mp member).1
    obtain ⟨inMap, region⟩ := List.mem_filter.mp inRegions
    exact ⟨e, inMap, region, same.symm⟩
  have regions : ∀ placed ∈ setup.filled, ∃ e ∈ memmap, e.type = .usable ∧
      InRegion hhdmOffset (first.base + hhdmOffset) (parentTableSize memmap) e placed := by
    intro placed member
    obtain ⟨e, inMap, region, rfl⟩ := each placed member
    exact ⟨e, inMap, limine.region few inMap region _⟩
  have children : ∀ e ∈ memmap, isUsableRegion e = true → ∀ placed ∈ setup.filled, Outside hhdmOffset
      (placeTable hhdmOffset (first.base + hhdmOffset) (parentTableSize memmap) e).child
      (placeTable hhdmOffset (first.base + hhdmOffset) (parentTableSize memmap) e).size placed.table := by
    intro a inA regionA placed member
    obtain ⟨b, inB, regionB, rfl⟩ := each placed member
    exact limine.child_outside few inA inB regionA regionB _
  have parent : ∀ placed ∈ setup.filled,
      Outside hhdmOffset (first.base + hhdmOffset) (parentTableSize memmap) placed.table := by
    intro placed member
    obtain ⟨e, inMap, region, rfl⟩ := each placed member
    exact limine.parent_outside few inFirst inMap regionFirst region
  have pages : ∀ placed ∈ setup.filled, placed.table.numPages ≤ 2 ^ 52 := by
    intro placed member
    obtain ⟨e, inMap, usable, here⟩ := regions placed member
    have mapped := limine.mapped e inMap usable
    have higherHalf := limine.higherHalf
    have numPages := here.numPages
    have last := here.last
    unfold pageSize at numPages
    omega
  have count : setup.filled.length ≤ 1024 := by
    rw [after.filled]
    exact Nat.le_trans (placedTables_le memmap) (Nat.le_trans (List.length_filter_le _ _) few)
  refine ⟨?_, ?_, ?_, ?_, ?_, ?_, ?_, ?_, ?_, ?_, after.numChildTables, ?_⟩
  · intro placed member
    obtain ⟨e, inMap, usable, here⟩ := regions placed member
    obtain ⟨base, length⟩ := limine.aligned e inMap usable
    exact ⟨here.aligned, here.last.symm ▸ Nat.dvd_add base length⟩
  · intro placed member
    obtain ⟨e, _, _, here⟩ := regions placed member
    exact here.nonempty
  · have gaps := (regionTables_inv limine first (fun _ => 0)).layout.apart
    have same : (unfilled hhdmOffset (regionTables hhdmOffset memmap first) (fun _ => 0)).tables =
        setup.filled.map PlacedTable.table := by
      rw [after.filled, placedTables_values, ← table]
      rfl
    rw [same, List.pairwise_map] at gaps
    refine gaps.imp ?_
    rintro one other (below | above)
    · exact .inl (Nat.le_of_lt below)
    · exact .inr (Nat.le_of_lt above)
  · intro placed member
    obtain ⟨e, inMap, usable, here⟩ := regions placed member
    have low := here.low
    have high := here.high
    exact ⟨e, inMap, usable, by omega, Nat.le_of_eq here.last⟩
  · rw [after.parentTable_eq, after.size_eq]
    exact parent
  · intro one memberOne
    obtain ⟨e, inMap, region, rfl⟩ := each one memberOne
    exact children e inMap region
  · intro call member
    rw [after.cleared] at member
    rcases List.mem_cons.mp member with rfl | child
    · exact parent
    · obtain ⟨e, inRegions, rfl⟩ := List.mem_map.mp child
      obtain ⟨inMap, region⟩ := List.mem_filter.mp inRegions
      exact children e inMap region
  · rw [after.cleared]
    exact limine.cleared_apart few inFirst regionFirst
  · intro placed member
    obtain ⟨e, _, _, here⟩ := regions placed member
    exact here.numPages
  · intro placed member
    obtain ⟨e, _, _, here⟩ := regions placed member
    have room := here.room
    have high := here.high
    omega
  · have bound := List.sum_le_card_nsmul (setup.filled.map (fun placed => placed.table.numPages)) (2 ^ 52) (by
      intro most member
      obtain ⟨placed, inFilled, rfl⟩ := List.mem_map.mp member
      exact pages placed inFilled)
    rw [List.length_map, smul_eq_mul] at bound
    rw [after.total, ← after.filled]
    apply Nat.mod_eq_of_lt
    have most := Nat.mul_le_mul_right (2 ^ 52) count
    omega

/- The pages of a table without their states. -/
def ChildTable.extent (c : ChildTable) : Nat × Nat × Nat := (c.start, c.endAddr, c.numPages)

theorem setPage_extents (s : Phys) (info : Nat × Nat) (state : PageState) :
    (s.setPage info state).tables.map ChildTable.extent = s.tables.map ChildTable.extent := by
  apply List.ext_getElem?
  intro i
  rw [List.getElem?_map, List.getElem?_map]
  change Option.map ChildTable.extent (s.tables.modify info.1 _)[i]? = _
  rw [List.getElem?_modify]
  cases s.tables[i]? with
  | none => rfl
  | some c =>
    simp only [Option.map_eq_map, Option.map_some, Option.some.injEq]
    split
    · rfl
    · rfl

theorem fillOne_extents (s : Phys) (child : ChildTable) :
    (fillOne s child).1.tables.map ChildTable.extent = s.tables.map ChildTable.extent := by
  unfold fillOne
  simp only
  split
  · exact setPage_extents s _ _
  · rfl

theorem fillChild_extents (pages : Nat) (child : ChildTable) (rounds : Nat) (s : Phys) (added : Nat) :
    (fillChild pages child rounds s added).1.tables.map ChildTable.extent = s.tables.map ChildTable.extent := by
  induction rounds generalizing s added with
  | zero => rfl
  | succ rounds ih =>
    unfold fillChild
    split
    · exact (ih _ _).trans (fillOne_extents s child)
    · rfl

theorem fillTables_extents (pages rounds : Nat) (s : Phys) (added : Nat) :
    (fillTables pages rounds s added).1.tables.map ChildTable.extent = s.tables.map ChildTable.extent := by
  induction rounds generalizing s added with
  | zero => rfl
  | succ rounds ih =>
    unfold fillTables
    split
    · rfl
    · rename_i child here
      split
      · refine (ih _ _).trans (Eq.trans ?_ (fillChild_extents pages child (child.numPages - s.fillP) s added))
        split
        · rfl
        · rfl
      · rfl

end Metadata

/-- setup_pmm() on a memory map with up to 1024 entries and a usable region of more than 16
pages: the pages that its tables manage are whole pages of the usable entries, each in one
table, none of them holds bytes of the parent table or of a child table, and the counts are
those of the tables. -/
theorem setup_keeps_metadata {hhdmOffset : Nat} {memmap : List MemmapEntry} (limine : LimineMap hhdmOffset memmap)
    (few : memmap.length ≤ 1024) (region : ∃ e ∈ memmap, isUsableRegion e = true) (mem : Memory) :
    ∃ setup s, setupTables hhdmOffset memmap = .ok setup ∧ setupPmm hhdmOffset memmap mem = .ok s ∧
      s = pmmFill (setup.phys hhdmOffset mem) 512 ∧
      s.tables.map ChildTable.extent = setup.filled.map (fun placed => placed.table.extent) ∧
      s.totalPages = setup.totalPages ∧ KeepsMetadata hhdmOffset memmap setup := by
  cases found : memmap.find? isUsableRegion with
  | none =>
    obtain ⟨e, inMap, usable⟩ := region
    exact absurd usable (List.find?_eq_none.mp found e inMap)
  | some first =>
    have regionFirst := List.find?_some found
    have inFirst := List.mem_of_find?_eq_some found
    obtain ⟨usable, _⟩ := limine.region few inFirst regionFirst 0
    have mapped := limine.mapped first inFirst usable
    have higherHalf := limine.higherHalf
    have table : wadd (alignUp first.base pageSize) hhdmOffset = first.base + hhdmOffset := by
      rw [alignUp_aligned (limine.aligned first inFirst usable).1 (by omega)]
      exact wadd_eq (by omega)
    have regions : (memmap.filter isUsableRegion).length ≤ 1024 := Nat.le_trans (List.length_filter_le _ _) few
    obtain ⟨setup, ran, after⟩ := @setupTables_after hhdmOffset memmap first found (by omega) (by omega)
    have tables := after.tables mem
    have shown := after.filled
    have values := @placedTables_values hhdmOffset (wadd (alignUp first.base pageSize) hhdmOffset)
      (parentTableSize memmap) memmap
    rw [table] at after
    have keeps := limine.keepsMetadata few inFirst regionFirst table after
    have same : setup.phys hhdmOffset mem = unfilled hhdmOffset (regionTables hhdmOffset memmap first) mem := by
      have total : setup.totalPages = ((regionTables hhdmOffset memmap first).map ChildTable.numPages).sum := by
        rw [keeps.total, shown]
        unfold regionTables
        rw [← values, List.map_map]
        rfl
      unfold unfilled
      rw [← total, ← tables]
      rfl
    obtain ⟨s, list, boots, _, filled, _⟩ := setupPmm_filled limine found mem
    have result : s = pmmFill (setup.phys hhdmOffset mem) 512 := by
      simp only [setupPmm, found] at boots
      rw [same]
      exact (Except.ok.inj boots).symm
    refine ⟨setup, s, ran, boots, result, ?_, ?_, keeps⟩
    · rw [result, pmmFill, fillTables_extents, tables]
      unfold regionTables
      rw [← values, ← shown, List.map_map]
      rfl
    · rw [filled.total, ← same]
      rfl

theorem setup_keeps_metadata_small : ∃ setup s, setupTables 0xFFFF800000000000 smallMap = .ok setup ∧
    setupPmm 0xFFFF800000000000 smallMap (fun _ => 7) = .ok s ∧ setup.numChildTables = setup.filled.length := by
  obtain ⟨setup, s, ran, boots, _, _, _, keeps⟩ := setup_keeps_metadata smallMap_limine (by decide)
    ⟨_, List.mem_cons_of_mem _ List.mem_cons_self, by decide⟩ (fun _ => 7)
  exact ⟨setup, s, ran, boots, keeps.count⟩

end EvalynOS.Pmm
