import EvalynOS.Memory.PmmSetup

/-! get_page_info() and get_phys_addr_from_page_info() by their pointers: the entries that
describe the pages lie in the child tables, and each of the two searches is the inverse of
the other. -/
namespace EvalynOS.Pmm
open Lib Lib.Word

/- &child->pages[index]: the entries of four bytes lie behind three words. -/
def PlacedTable.page (sub : PlacedTable) (index : Nat) : Nat := wadd sub.child (24 + 4 * index)

/- get_page_info() over the slots of the parent table that are in use. NULL is 0, and a
slot that is not filled faults. -/
def getPageInfoAt (phys : Nat) : List (Option PlacedTable) → Except Panic Nat
  | [] => .ok 0
  | none :: _ => .error .pageFault
  | some sub :: rest =>
    if sub.table.start ≤ phys ∧ phys ≤ sub.table.endAddr then
      let index := wsub (alignDown phys pageSize) sub.table.start / pageSize
      if index ≥ sub.table.numPages then .error .outOfBounds else .ok (sub.page index)
    else getPageInfoAt phys rest

def getPhysAddrFromPageInfo (page : Nat) : List (Option PlacedTable) → Except Panic Nat
  | [] => .ok 0
  | none :: _ => .error .pageFault
  | some sub :: rest =>
    if sub.page 0 ≤ page ∧ page < sub.page sub.table.numPages then
      let index := wsub page (sub.page 0) / 4
      .ok (wadd sub.table.start (index * pageSize))
    else getPhysAddrFromPageInfo page rest

/- The slots that the searches go through. -/
def Setup.slots (setup : Setup) : List (Option PlacedTable) := setup.childTables.take setup.numChildTables

/- The bytes of two arrays pages[] do not overlap. -/
def ArraysApart (one other : PlacedTable) : Prop :=
  one.page one.table.numPages ≤ other.page 0 ∨ other.page other.table.numPages ≤ one.page 0

/-- Each search undoes the other, and no pointer outside the arrays has an address. -/
structure LookupBijection (slots : List (Option PlacedTable)) : Prop where
  apart : (slots.filterMap id).Pairwise ArraysApart
  addresses : ∀ sub, some sub ∈ slots → ∀ phys, sub.table.start ≤ phys → phys < sub.table.endAddr →
    ∃ page, getPageInfoAt phys slots = .ok page ∧ getPhysAddrFromPageInfo page slots = .ok (phys / pageSize * pageSize)
  pages : ∀ sub, some sub ∈ slots → ∀ index, index < sub.table.numPages →
    ∃ phys, getPhysAddrFromPageInfo (sub.page index) slots = .ok phys ∧ getPageInfoAt phys slots = .ok (sub.page index)
  outside : ∀ pointer, (∀ sub, some sub ∈ slots → pointer < sub.page 0 ∨ sub.page sub.table.numPages ≤ pointer) →
    getPhysAddrFromPageInfo pointer slots = .ok 0

section Search

variable {hhdmOffset : Nat} {tables : List PlacedTable} {sub : PlacedTable}

/- The tables with their arrays, which end before the pages that they describe. -/
structure Arrays (hhdmOffset : Nat) (tables : List PlacedTable) : Prop where
  layout : Layout hhdmOffset (tables.map PlacedTable.table)
  inFront : ∀ sub ∈ tables, sub.child + childTableSize sub.table.numPages ≤ sub.table.start + hhdmOffset
  apart : tables.Pairwise ArraysApart

theorem Arrays.sound (arrays : Arrays hhdmOffset tables) (member : sub ∈ tables) : sub.table.Sound hhdmOffset :=
  arrays.layout.sound _ (List.mem_map_of_mem member)

theorem Arrays.tail {first : PlacedTable} (arrays : Arrays hhdmOffset (first :: tables)) : Arrays hhdmOffset tables where
  layout := ⟨fun c member => arrays.layout.sound c (List.mem_cons_of_mem _ member),
    (List.pairwise_cons.mp arrays.layout.apart).2⟩
  inFront := fun sub member => arrays.inFront sub (List.mem_cons_of_mem _ member)
  apart := (List.pairwise_cons.mp arrays.apart).2

/-- The entries of a table are addressed without a carry. -/
theorem PlacedTable.page_eq {index : Nat} (sound : sub.table.Sound hhdmOffset)
    (inFront : sub.child + childTableSize sub.table.numPages ≤ sub.table.start + hhdmOffset)
    (inside : index ≤ sub.table.numPages) : sub.page index = sub.child + (24 + 4 * index) := by
  have mapped := sound.mapped
  have ends := sound.ends
  unfold childTableSize at inFront
  unfold PlacedTable.page
  apply wadd_eq
  unfold pageSize at ends
  omega

theorem Arrays.page_eq (arrays : Arrays hhdmOffset tables) (member : sub ∈ tables) {index : Nat}
    (inside : index ≤ sub.table.numPages) : sub.page index = sub.child + (24 + 4 * index) :=
  PlacedTable.page_eq (arrays.sound member) (arrays.inFront sub member) inside

theorem findPage_from {phys n t index : Nat} {tables : List ChildTable}
    (found : findPage phys n tables = .ok (some (t, index))) : n ≤ t := by
  induction tables generalizing n with
  | nil => cases found
  | cons c tables ih =>
    simp only [findPage] at found
    by_cases within : c.start ≤ phys ∧ phys ≤ c.endAddr
    · rw [if_pos within] at found
      split at found
      · cases found
      · cases found
        exact Nat.le_refl _
    · rw [if_neg within] at found
      exact Nat.le_of_succ_le (ih found)

/-- The search for an address by pointers is the search by places. -/
theorem getPageInfoAt_found {t index n phys : Nat} (here : tables[t]? = some sub)
    (found : findPage phys n (tables.map PlacedTable.table) = .ok (some (n + t, index))) :
    getPageInfoAt phys (tables.map some) = .ok (sub.page index) := by
  induction tables generalizing t n with
  | nil => cases here
  | cons first tables ih =>
    simp only [List.map_cons, findPage] at found
    simp only [List.map_cons, getPageInfoAt]
    by_cases within : first.table.start ≤ phys ∧ phys ≤ first.table.endAddr
    · rw [if_pos within] at found ⊢
      split at found
      · cases found
      · rename_i bounded
        have place := Option.some.inj (Except.ok.inj found)
        simp only [Prod.mk.injEq] at place
        have atFront : t = 0 := by omega
        subst atFront
        cases Option.some.inj here
        rw [if_neg bounded, place.2]
    · rw [if_neg within] at found ⊢
      cases t with
      | zero =>
        have behind := findPage_from found
        omega
      | succ t =>
        have later : tables[t]? = some sub := here
        have place : n + (t + 1) = n + 1 + t := by omega
        rw [place] at found
        exact ih later found

/-- The search for an entry finds the one table whose array holds it. -/
theorem getPhysAddrFromPageInfo_found (arrays : Arrays hhdmOffset tables) (member : sub ∈ tables) {index : Nat}
    (inside : index < sub.table.numPages) :
    getPhysAddrFromPageInfo (sub.page index) (tables.map some) = .ok (sub.table.start + pageSize * index) := by
  have bottom := arrays.page_eq member (Nat.zero_le _)
  have here := arrays.page_eq member (Nat.le_of_lt inside)
  have top := arrays.page_eq member (Nat.le_refl _)
  have carry := arrays.inFront sub member
  have sound := arrays.sound member
  induction tables with
  | nil => cases member
  | cons first tables ih =>
    rw [List.map_cons, getPhysAddrFromPageInfo]
    rcases List.mem_cons.mp member with same | later
    · subst same
      have within : sub.page 0 ≤ sub.page index ∧ sub.page index < sub.page sub.table.numPages := by omega
      have place : wsub (sub.page index) (sub.page 0) / 4 = index := by
        have bounded : sub.page index < 2 ^ 64 := wadd_lt _ _
        rw [wsub_eq bounded within.1]
        omega
      have ends := sound.ends
      have mapped := sound.mapped
      rw [if_pos within]
      simp only [place]
      rw [wadd_eq (by unfold pageSize at *; omega), Nat.mul_comm index]
    · have outside : ¬ (first.page 0 ≤ sub.page index ∧ sub.page index < first.page first.table.numPages) := by
        have apart := (List.pairwise_cons.mp arrays.apart).1 sub later
        unfold ArraysApart at apart
        omega
      rw [if_neg outside]
      exact ih arrays.tail later

/-- A pointer into no array is searched for in vain. -/
theorem getPhysAddrFromPageInfo_null {pointer : Nat}
    (outside : ∀ sub ∈ tables, pointer < sub.page 0 ∨ sub.page sub.table.numPages ≤ pointer) :
    getPhysAddrFromPageInfo pointer (tables.map some) = .ok 0 := by
  induction tables with
  | nil => rfl
  | cons first tables ih =>
    have skipped : ¬ (first.page 0 ≤ pointer ∧ pointer < first.page first.table.numPages) := by
      have here := outside first List.mem_cons_self
      omega
    rw [List.map_cons, getPhysAddrFromPageInfo, if_neg skipped]
    exact ih fun sub member => outside sub (List.mem_cons_of_mem _ member)

/-- Looking up an address gives the entry of its page. -/
theorem Arrays.lookup (arrays : Arrays hhdmOffset tables) (member : sub ∈ tables) {phys : Nat}
    (low : sub.table.start ≤ phys) (high : phys < sub.table.endAddr) :
    getPageInfoAt phys (tables.map some) = .ok (sub.page ((phys - sub.table.start) / pageSize)) := by
  obtain ⟨t, here⟩ := List.getElem?_of_mem member
  have place : (tables.map PlacedTable.table)[t]? = some sub.table := by rw [List.getElem?_map, here, Option.map_some]
  exact getPageInfoAt_found (n := 0) here (findPage_at arrays.layout place low high)

theorem Arrays.bijection (arrays : Arrays hhdmOffset tables) : LookupBijection (tables.map some) := by
  have inUse : ∀ sub, some sub ∈ tables.map some ↔ sub ∈ tables := by
    intro sub
    exact List.mem_map_of_injective (Option.some_injective _)
  refine ⟨?_, ?_, ?_, ?_⟩
  · rw [List.filterMap_map]
    have same : tables.filterMap (id ∘ some) = tables := List.filterMap_some
    rw [same]
    exact arrays.apart
  · intro sub used phys low high
    have member := (inUse sub).mp used
    obtain ⟨k, start⟩ := (arrays.sound member).aligned
    have ends := (arrays.sound member).ends
    have inside : (phys - sub.table.start) / pageSize < sub.table.numPages := by
      unfold pageSize at *
      omega
    refine ⟨_, arrays.lookup member low high, ?_⟩
    rw [getPhysAddrFromPageInfo_found arrays member inside]
    congr 1
    unfold pageSize at *
    omega
  · intro sub used index inside
    have member := (inUse sub).mp used
    have ends := (arrays.sound member).ends
    have place : (sub.table.start + pageSize * index - sub.table.start) / pageSize = index := by
      rw [Nat.add_sub_cancel_left]
      exact Nat.mul_div_cancel_left index (by decide)
    refine ⟨_, getPhysAddrFromPageInfo_found arrays member inside, ?_⟩
    rw [arrays.lookup member (Nat.le_add_right _ _) (by unfold pageSize at *; omega), place]
  · intro pointer outside
    exact getPhysAddrFromPageInfo_null fun sub member => outside sub ((inUse sub).mpr member)

end Search

section Setup

variable {hhdmOffset parentTable parentSize : Nat} {memmap : List MemmapEntry} {first e : MemmapEntry} {setup : Setup}

/-- A table that is kept lies in its region, with its array in front of its pages. -/
theorem placeTable_kept (higherHalf : 0xFFFF800000000000 ≤ hhdmOffset) (small : parentSize < 2 ^ 40)
    (aligned : pageSize ∣ e.base) (alignedLength : pageSize ∣ e.length)
    (mapped : e.base + e.length + hhdmOffset < 2 ^ 64)
    (kept : (placeTable hhdmOffset parentTable parentSize e).table.start <
      (placeTable hhdmOffset parentTable parentSize e).table.endAddr) :
    e.base + hhdmOffset ≤ (placeTable hhdmOffset parentTable parentSize e).child ∧
      (placeTable hhdmOffset parentTable parentSize e).child +
          childTableSize (placeTable hhdmOffset parentTable parentSize e).table.numPages ≤
        (placeTable hhdmOffset parentTable parentSize e).table.start + hhdmOffset ∧
      (placeTable hhdmOffset parentTable parentSize e).table.endAddr = e.base + e.length := by
  have exactUp : alignUp e.base pageSize = e.base := alignUp_aligned aligned (by omega)
  have exactDown : alignDown (wadd e.base e.length) pageSize = e.base + e.length := by
    rw [wadd_eq (by omega)]
    exact alignDown_aligned (Nat.dvd_add aligned alignedLength) (by omega)
  have first : wadd e.base hhdmOffset = e.base + hhdmOffset := wadd_eq (by omega)
  -- where the child table is placed, as a physical address
  obtain ⟨child, place, isChild, isPlace, low, high, exact⟩ : ∃ child place,
      (if e.base + hhdmOffset = parentTable then wadd parentTable parentSize else e.base + hhdmOffset) = child ∧
      wsub child hhdmOffset = place ∧ e.base ≤ place ∧ place ≤ e.base + parentSize ∧
      (place + hhdmOffset < 2 ^ 64 → child = place + hhdmOffset) := by
    refine ⟨_, _, rfl, rfl, ?_⟩
    split
    · rename_i isParent
      rw [← isParent]
      unfold wsub wadd
      omega
    · rw [wsub_eq (by omega) (by omega)]
      omega
  unfold placeTable at kept ⊢
  simp only [exactUp, first, isChild, exactDown, isPlace] at kept ⊢
  unfold childTableSize at kept ⊢
  rw [wadd_eq (by unfold pageSize; omega), alignUp_page (by unfold pageSize; omega)] at kept ⊢
  unfold pageSize at kept ⊢
  have unwrapped := exact (by omega)
  refine ⟨by omega, by omega, trivial⟩

/-- The array of a region and those of the regions apart from it share no bytes. -/
theorem LimineMap.arrays (limine : LimineMap hhdmOffset memmap) (first : MemmapEntry) : Arrays hhdmOffset
    (placedTables hhdmOffset (wadd (alignUp first.base pageSize) hhdmOffset) (parentTableSize memmap) memmap) := by
  generalize isParent : wadd (alignUp first.base pageSize) hhdmOffset = parentTable
  have layout : Layout hhdmOffset
      ((placedTables hhdmOffset parentTable (parentTableSize memmap) memmap).map PlacedTable.table) := by
    rw [placedTables_values, ← isParent]
    exact (regionTables_inv limine first (fun _ => 0)).layout
  have within : ∀ e ∈ memmap, isUsableRegion e = true →
      (placeTable hhdmOffset parentTable (parentTableSize memmap) e).table.start <
        (placeTable hhdmOffset parentTable (parentTableSize memmap) e).table.endAddr →
      e.type = .usable ∧ e.base + hhdmOffset ≤ (placeTable hhdmOffset parentTable (parentTableSize memmap) e).child ∧
      (placeTable hhdmOffset parentTable (parentTableSize memmap) e).child +
          childTableSize (placeTable hhdmOffset parentTable (parentTableSize memmap) e).table.numPages ≤
        (placeTable hhdmOffset parentTable (parentTableSize memmap) e).table.start + hhdmOffset ∧
      (placeTable hhdmOffset parentTable (parentTableSize memmap) e).table.endAddr = e.base + e.length := by
    intro e inMap region kept
    have usable : e.type = .usable := by
      by_contra other
      exact isUsableRegion_iff.mp region (.inl other)
    obtain ⟨base, length⟩ := limine.aligned e inMap usable
    exact ⟨usable, placeTable_kept limine.higherHalf limine.parentTableSize_lt base length
      (limine.mapped e inMap usable) kept⟩
  have inFront : ∀ sub ∈ placedTables hhdmOffset parentTable (parentTableSize memmap) memmap,
      sub.child + childTableSize sub.table.numPages ≤ sub.table.start + hhdmOffset := by
    intro sub member
    obtain ⟨inRegions, kept⟩ := List.mem_filter.mp member
    obtain ⟨e, isRegion, rfl⟩ := List.mem_map.mp inRegions
    obtain ⟨inMap, region⟩ := List.mem_filter.mp isRegion
    exact (within e inMap region (by simpa using kept)).2.2.1
  refine ⟨layout, inFront, ?_⟩
  have shown : (placedTables hhdmOffset parentTable (parentTableSize memmap) memmap).Pairwise
      (fun one other => one.child + childTableSize one.table.numPages ≤ other.child ∨
        other.child + childTableSize other.table.numPages ≤ one.child) := by
    unfold placedTables
    rw [List.pairwise_filter, List.pairwise_map]
    refine (limine.apart.filter _).imp_of_mem ?_
    intro a b inA inB apart keptA keptB
    obtain ⟨inMapA, regionA⟩ := List.mem_filter.mp inA
    obtain ⟨inMapB, regionB⟩ := List.mem_filter.mp inB
    have placedA := within a inMapA regionA (by simpa using keptA)
    have placedB := within b inMapB regionB (by simpa using keptB)
    have separate := apart placedA.1 placedB.1
    simp only [decide_eq_true_eq] at keptA keptB
    omega
  refine shown.imp_of_mem ?_
  intro one other inOne inOther apart
  have soundOne := layout.sound _ (List.mem_map_of_mem inOne)
  have soundOther := layout.sound _ (List.mem_map_of_mem inOther)
  unfold ArraysApart
  unfold childTableSize at apart
  rw [PlacedTable.page_eq soundOne (inFront one inOne) (Nat.le_refl _),
    PlacedTable.page_eq soundOther (inFront other inOther) (Nat.zero_le _),
    PlacedTable.page_eq soundOther (inFront other inOther) (Nat.le_refl _),
    PlacedTable.page_eq soundOne (inFront one inOne) (Nat.zero_le _)]
  omega

/-- All slots that are in use are filled. -/
theorem SetupAfter.slots (after : SetupAfter hhdmOffset parentTable parentSize
    (memmap.filter isUsableRegion).length memmap setup) :
    setup.slots = (placedTables hhdmOffset parentTable parentSize memmap).map some := by
  unfold Setup.slots
  rw [after.numChildTables, after.filled, after.childTables, ← List.length_map some]
  exact List.take_left

end Setup

/-- Whatever tables setup_pmm() makes of a memory map, looking up entries and looking up
addresses are inverse to each other. -/
theorem setup_lookup_bijection {hhdmOffset : Nat} {memmap : List MemmapEntry} {setup : Setup}
    (limine : LimineMap hhdmOffset memmap) (ran : setupTables hhdmOffset memmap = .ok setup) :
    LookupBijection setup.slots := by
  have few : (memmap.filter isUsableRegion).length < 2 ^ 32 :=
    Nat.lt_of_le_of_lt (List.length_filter_le _ _) limine.few
  cases found : memmap.find? isUsableRegion with
  | none =>
    simp only [setupTables, found] at ran
    cases ran
  | some first =>
    have nonzero : wadd (alignUp first.base pageSize) hhdmOffset ≠ 0 := by
      intro zero
      simp only [setupTables, found, zero, if_true] at ran
      cases ran
    obtain ⟨result, ran', after⟩ := setupTables_after found nonzero few
    have same : result = setup := Except.ok.inj (ran'.symm.trans ran)
    subst same
    rw [after.slots]
    exact (limine.arrays first).bijection

/- The tables of the small machine: an address inside the second of its managed pages. -/
theorem setup_lookup_bijection_small : ∃ setup, setupTables 0xFFFF800000000000 smallMap = .ok setup ∧
    ∃ page, getPageInfoAt 0x102345 setup.slots = .ok page ∧
      getPhysAddrFromPageInfo page setup.slots = .ok 0x102000 := by
  refine ⟨_, rfl, ?_⟩
  exact (setup_lookup_bijection smallMap_limine rfl).addresses _ List.mem_cons_self 0x102345 (by decide) (by decide)

end EvalynOS.Pmm
