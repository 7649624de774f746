import EvalynOS.Memory.PmmInvariant

/-! From the boot loader's memory map to every later state of the allocator. -/
namespace EvalynOS.Pmm
open Lib Lib.Word

/-- What the boot loader promises of the memory map: usable entries are page aligned, they
do not overlap, and the direct map is in the higher half and covers them. -/
structure LimineMap (hhdmOffset : Nat) (memmap : List MemmapEntry) : Prop where
  higherHalf : 0xFFFF800000000000 ≤ hhdmOffset
  few : memmap.length < 2 ^ 32
  aligned : ∀ e ∈ memmap, e.type = .usable → pageSize ∣ e.base ∧ pageSize ∣ e.length
  mapped : ∀ e ∈ memmap, e.type = .usable → e.base + e.length + hhdmOffset < 2 ^ 64
  apart : memmap.Pairwise (fun a b => a.type = .usable → b.type = .usable →
    a.base + a.length ≤ b.base ∨ b.base + b.length ≤ a.base)

section Setup

variable {hhdmOffset : Nat} {memmap : List MemmapEntry}

theorem alignUp_page {x : Nat} (bound : x + 4095 < 2 ^ 64) :
    alignUp x pageSize = (x + 4095) / 4096 * 4096 := by
  have rounded := alignUp_pow (x := x) (k := 12) (by decide)
  simp only [Nat.reducePow, Nat.reduceSub] at rounded
  rw [pageSize, rounded, wadd_eq bound]

theorem alignDown_page {x : Nat} (bound : x < 2 ^ 64) : alignDown x pageSize = x / 4096 * 4096 := by
  have rounded := alignDown_pow (x := x) (k := 12) (by decide) bound
  simp only [Nat.reducePow] at rounded
  rw [pageSize, rounded]

theorem alignUp_aligned {x : Nat} (aligned : pageSize ∣ x) (bound : x + 4095 < 2 ^ 64) : alignUp x pageSize = x := by
  rw [alignUp_page bound]
  unfold pageSize at aligned
  omega

theorem alignDown_aligned {x : Nat} (aligned : pageSize ∣ x) (bound : x < 2 ^ 64) : alignDown x pageSize = x := by
  rw [alignDown_page bound]
  unfold pageSize at aligned
  omega

/-- A region's pages start behind its table and end with the region. -/
theorem childTable_spec {e : MemmapEntry} {c : ChildTable} {parentTable parentSize : Nat}
    (higherHalf : 0xFFFF800000000000 ≤ hhdmOffset) (small : parentSize < 2 ^ 40) (aligned : pageSize ∣ e.base)
    (alignedLength : pageSize ∣ e.length) (mapped : e.base + e.length + hhdmOffset < 2 ^ 64)
    (result : childTable hhdmOffset parentTable parentSize e = some c) :
    c.Sound hhdmOffset ∧ e.base < c.start ∧ c.endAddr = e.base + e.length ∧
      c.pages = List.replicate c.numPages .uninit := by
  have exactUp : alignUp e.base pageSize = e.base := alignUp_aligned aligned (by omega)
  have exactDown : alignDown (wadd e.base e.length) pageSize = e.base + e.length := by
    rw [wadd_eq (by omega)]
    exact alignDown_aligned (Nat.dvd_add aligned alignedLength) (by omega)
  have first : wadd e.base hhdmOffset = e.base + hhdmOffset := wadd_eq (by omega)
  obtain ⟨place, childPhys, atLeast, atMost⟩ : ∃ place,
      wsub (if wadd e.base hhdmOffset = parentTable then wadd parentTable parentSize
        else wadd e.base hhdmOffset) hhdmOffset = place ∧ e.base ≤ place ∧
      place ≤ e.base + parentSize := by
    refine ⟨_, rfl, ?_⟩
    split
    · rename_i isParent
      rw [← isParent, first]
      unfold wsub wadd
      omega
    · rw [first, wsub_eq (by omega) (by omega)]
      omega
  unfold childTable at result
  split at result
  · simp only [exactUp, exactDown, childPhys] at result
    unfold childTableSize at result
    rw [wadd_eq (by unfold pageSize; omega), alignUp_page (by unfold pageSize; omega)] at result
    generalize value : (place + (24 + 4 * (e.length / pageSize)) + 4095) / 4096 * 4096 = start at result
    simp only [pageSize] at *
    have rounded : 4096 ∣ start ∧ e.base < start := by omega
    split at result
    · cases result
    · rename_i room
      cases Option.some.inj result
      have whole : e.base + e.length = start + 4096 * ((e.base + e.length - start) / 4096) := by omega
      refine ⟨⟨rounded.1, Nat.zero_lt_of_lt rounded.2, whole, mapped, ?_, List.length_replicate⟩,
        rounded.2, rfl, rfl⟩
      simp only
      omega
  · cases result

theorem unfilled_inv {tables : List ChildTable} {mem : Memory}
    (uninit : ∀ c ∈ tables, c.Sound hhdmOffset ∧ c.pages = List.replicate c.numPages .uninit)
    (gaps : tables.Pairwise Gap) : Inv (unfilled hhdmOffset tables mem) [] := by
  have always : ∀ (t : Nat) (c : ChildTable) (i : Nat) (state : PageState), tables[t]? = some c →
      c.pages[i]? = some state → state = .uninit := by
    intro t c i state here entry
    have listed := List.mem_of_getElem? entry
    rw [(uninit c (List.mem_of_getElem? here)).2, List.mem_replicate] at listed
    exact listed.2
  refine ⟨⟨fun c member => (uninit c member).1, gaps⟩, Threaded.nil, List.nodup_nil, ?_, ?_, ?_, rfl⟩
  · intro a
    simp only [List.not_mem_nil, false_iff, not_exists, not_and]
    rintro p ⟨t, c, i, here, entry, _⟩
    cases always t c i .free here entry
  · intro t c i state here entry
    have ahead : AtCursor (unfilled hhdmOffset tables mem) t i := by
      rcases Nat.eq_zero_or_pos t with first | later
      · exact .inr ⟨first.symm, Nat.zero_le i⟩
      · exact .inl later
    exact ⟨fun _ => ahead, fun _ => always t c i state here entry⟩
  · refine (count_eq_zero.mpr ?_).symm
    rintro p ⟨t, c, i, here, entry, _⟩
    cases always t c i .used here entry

/- The tables of the usable regions, the first of which holds the parent table too. -/
def regionTables (hhdmOffset : Nat) (memmap : List MemmapEntry) (first : MemmapEntry) : List ChildTable :=
  memmap.filterMap (childTable hhdmOffset (wadd (alignUp first.base pageSize) hhdmOffset)
    (parentTableSize memmap))

theorem LimineMap.parentTableSize_lt (limine : LimineMap hhdmOffset memmap) : parentTableSize memmap < 2 ^ 40 := by
  have few : (memmap.filter isUsableRegion).length < 2 ^ 32 :=
    Nat.lt_of_le_of_lt (List.length_filter_le _ _) limine.few
  unfold parentTableSize
  omega

theorem regionTables_spec (limine : LimineMap hhdmOffset memmap) {first e : MemmapEntry} {c : ChildTable}
    (member : e ∈ memmap) (result : childTable hhdmOffset (wadd (alignUp first.base pageSize) hhdmOffset)
      (parentTableSize memmap) e = some c) :
    e.type = .usable ∧ c.Sound hhdmOffset ∧ e.base < c.start ∧ c.endAddr = e.base + e.length ∧
      c.pages = List.replicate c.numPages .uninit := by
  have usable : e.type = .usable := by
    by_contra other
    simp [childTable, isUsableRegion, other] at result
  obtain ⟨base, length⟩ := limine.aligned e member usable
  exact ⟨usable, childTable_spec limine.higherHalf limine.parentTableSize_lt base length
    (limine.mapped e member usable) result⟩

theorem regionTables_inv (limine : LimineMap hhdmOffset memmap) (first : MemmapEntry) (mem : Memory) :
    Inv (unfilled hhdmOffset (regionTables hhdmOffset memmap first) mem) [] := by
  apply unfilled_inv
  · intro c member
    obtain ⟨e, inMap, result⟩ := List.mem_filterMap.mp member
    obtain ⟨_, sound, _, _, pages⟩ := regionTables_spec limine inMap result
    exact ⟨sound, pages⟩
  · rw [regionTables, List.pairwise_filterMap]
    refine List.Pairwise.imp_of_mem ?_ limine.apart
    intro a b inA inB apart c resultA d resultB
    obtain ⟨usableA, _, startA, endA, _⟩ := regionTables_spec limine inA resultA
    obtain ⟨usableB, _, startB, endB, _⟩ := regionTables_spec limine inB resultB
    have separate := apart usableA usableB
    unfold Gap
    omega

/-- setup_pmm() fills the list from tables whose pages are all in usable regions. -/
theorem setupPmm_filled (limine : LimineMap hhdmOffset memmap) {first : MemmapEntry}
    (found : memmap.find? isUsableRegion = some first) (mem : Memory) :
    ∃ s list, setupPmm hhdmOffset memmap mem = .ok s ∧ Inv s list ∧
      Filled (unfilled hhdmOffset (regionTables hhdmOffset memmap first) mem) s ∧
      ∀ q state, PageIs s q state → ∃ e ∈ memmap, e.type = .usable ∧ e.base ≤ q ∧
        q + pageSize ≤ e.base + e.length := by
  have inv := regionTables_inv limine first mem
  obtain ⟨list, inv', filled, _⟩ := pmmFill_spec inv (show 0 < 512 by decide)
  refine ⟨_, list, ?_, inv', filled, ?_⟩
  · simp only [setupPmm, found]
    rfl
  · intro q state page
    obtain ⟨_, ⟨t, c, i, here, entry, rfl⟩, _⟩ := filled.back q state page
    have bound := inv.layout.entry here entry
    obtain ⟨e, inMap, result⟩ := List.mem_filterMap.mp (List.mem_of_getElem? here)
    obtain ⟨usable, sound, start, stop, _⟩ := regionTables_spec limine inMap result
    have ends := sound.ends
    refine ⟨e, inMap, usable, ?_, ?_⟩
    · omega
    · simp only [pageSize] at *
      omega

theorem setupPmm_inv {mem : Memory} {s : Phys} (limine : LimineMap hhdmOffset memmap)
    (boots : setupPmm hhdmOffset memmap mem = .ok s) : ∃ list, Inv s list := by
  cases found : memmap.find? isUsableRegion with
  | none =>
    simp only [setupPmm, found] at boots
    cases boots
  | some first =>
    obtain ⟨s', list, result, inv, _⟩ := setupPmm_filled limine found mem
    cases Except.ok.inj (result.symm.trans boots)
    exact ⟨list, inv⟩

end Setup

/-- The states after any sequence of allocations, frees of pages in use, and writes of
clients to pages in use. -/
inductive Reach (s₀ : Phys) : Phys → Prop where
  | start : Reach s₀ s₀
  | allocate {s s' : Phys} {p : Nat} : Reach s₀ s → allocatePage s = .ok (p, s') → Reach s₀ s'
  | free {s s' : Phys} {p : Nat} : Reach s₀ s → PageIs s p .used → freePage s p = .ok s' → Reach s₀ s'
  | write {s : Phys} {mem : Memory} : Reach s₀ s →
      (∀ a, (∀ q, PageIs s q .used → ¬ InFrame s q a) → mem a = s.mem a) → Reach s₀ { s with mem := mem }

theorem reach_inv {s₀ s : Phys} {list : List Nat} (inv : Inv s₀ list) (reach : Reach s₀ s) :
    ∃ list', Inv s list' := by
  induction reach with
  | start => exact ⟨list, inv⟩
  | allocate _ result ih =>
    obtain ⟨list', inv'⟩ := ih
    rcases allocatePage_outcome inv' with ⟨q, s₁, list'', returned, inv'', _⟩ | ⟨failed, _⟩
    · cases Except.ok.inj (returned.symm.trans result)
      exact ⟨list'', inv''⟩
    · cases failed.symm.trans result
  | free _ page result ih =>
    obtain ⟨list', inv'⟩ := ih
    obtain ⟨s', returned, inv'', _⟩ := freePage_spec inv' page
    cases Except.ok.inj (returned.symm.trans result)
    exact ⟨_, inv''⟩
  | write _ own ih =>
    obtain ⟨list', inv'⟩ := ih
    exact ⟨list', inv'.write own⟩

/-- Entries that get no table change nothing. -/
theorem setupPmm_append {hhdmOffset : Nat} {memmap rest : List MemmapEntry}
    (noRegion : ∀ e ∈ rest, isUsableRegion e = false) (mem : Memory) :
    setupPmm hhdmOffset (memmap ++ rest) mem = setupPmm hhdmOffset memmap mem := by
  have found : (memmap ++ rest).find? isUsableRegion = memmap.find? isUsableRegion := by
    have missed : rest.find? isUsableRegion = none := by
      rw [List.find?_eq_none]
      intro e member
      simp [noRegion e member]
    rw [List.find?_append, missed, Option.or_none]
  have size : parentTableSize (memmap ++ rest) = parentTableSize memmap := by
    have nothing : rest.filter isUsableRegion = [] := by
      rw [List.filter_eq_nil_iff]
      intro e member
      simp [noRegion e member]
    rw [parentTableSize, List.filter_append, nothing, List.append_nil]
    rfl
  have tables : ∀ parentTable parentSize, (memmap ++ rest).filterMap (childTable hhdmOffset parentTable parentSize) =
      memmap.filterMap (childTable hhdmOffset parentTable parentSize) := by
    intro parentTable parentSize
    have nothing : rest.filterMap (childTable hhdmOffset parentTable parentSize) = [] := by
      rw [List.filterMap_eq_nil_iff]
      intro e member
      simp [childTable, noRegion e member]
    rw [List.filterMap_append, nothing, List.append_nil]
  unfold setupPmm
  simp only [found, size, tables]

/- A machine with one region of 18 pages from the first megabyte on. -/
def smallMap : List MemmapEntry := [⟨0, 0x1000, .reserved⟩, ⟨0x100000, 0x12000, .usable⟩]

theorem smallMap_limine : LimineMap 0xFFFF800000000000 smallMap := by
  refine ⟨by decide, by decide, ?_, ?_, ?_⟩
  · simp [smallMap, pageSize]
  · simp [smallMap]
  · simp [smallMap]

end EvalynOS.Pmm
