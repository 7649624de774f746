import EvalynOS.Process.Runs

/-! sys_mmap on every size. The address that valloc gives is not tested before the pages are
mapped, and the size is rounded up modulo 2^64 and counted in 32 bits, so a refused or wrapped
size goes through the same loop as the others. -/
namespace EvalynOS.Process
open Lib Lib.Word Pmm Vmm
open Vma (Ranges Tiling UsedAt FreeAt Carve PageRange roundup newPagemapWindow)

/- The uint32_t number of pages. -/
def heapPages (rbx : Nat) : Nat := alignUp rbx pageSize / pageSize % 2 ^ 32

/- The page behind an address. -/
def frameOf (space : AddressSpace) (v : Nat) : Nat := leaf space.phys space.topLevel v &&& pteMask

/-- The address has a new page, for the user to read and write. -/
structure NewMapping (space space' : AddressSpace) (v : Nat) : Prop where
  reserved : UsedAt space'.ranges v
  present : (leaf space'.phys space'.topLevel v).testBit 0 = true
  writable : (leaf space'.phys space'.topLevel v).testBit 1 = true
  user : (leaf space'.phys space'.topLevel v).testBit 2 = true
  noExecute : (leaf space'.phys space'.topLevel v).testBit 63 = true
  used : PageIs space'.phys (frameOf space' v) .used
  fresh : ¬ PageIs space.phys (frameOf space' v) .used
  zero : ∀ a, InFrame space'.phys (frameOf space' v) a → space'.phys.mem a = 0

/-- sys_mmap gives a whole new block of memory. -/
structure Granted (space space' : AddressSpace) (rbx rax : Nat) : Prop where
  nonzero : rax ≠ 0
  aligned : pageSize ∣ rax
  bound : rax + rbx ≤ 2 ^ 64
  pages : ∀ v, rax ≤ v → v < rax + rbx → NewMapping space space' v
  distinct : ∀ v w, rax ≤ v → v < rax + rbx → rax ≤ w → w < rax + rbx →
    frameOf space' v = frameOf space' w → v / pageSize = w / pageSize
  untouched : Untouched space space'
  kernelHalf : ∀ i, 256 ≤ i → i < 512 →
    pte space'.phys space'.topLevel i = pte space.phys space.topLevel i

/-- sys_mmap does all or nothing. -/
def AllOrNothing (space : AddressSpace) (rbx : Nat) : Prop :=
  ∃ rax space', sysMmap space rbx = .ok (rax, space') ∧
    ((rax = 0 ∧ space' = space) ∨ Granted space space' rbx rax)

/-- The sizes that sys_mmap serves or refuses: there is room, or nothing is reserved and
nothing is mapped. -/
def MmapServes (pm : Ranges) (rbx : Nat) : Prop :=
  rbx = 0 ∨ HasRoom pm rbx ∨
    (heapPages rbx = 0 ∧ ∀ r ∈ pm.freeRanges.nodes, r.size < alignUp rbx pageSize)

section Mmap

variable {space : AddressSpace} {rbx : Nat}

theorem valloc_refuses {pm : Ranges} {size : Nat}
    (none : ∀ r ∈ pm.freeRanges.nodes, r.size < alignUp size pageSize) : Vma.valloc pm size = (0, pm) := by
  unfold Vma.valloc
  split
  · rfl
  · dsimp only
    split
    · rfl
    · have missing : pm.freeRanges.nodes.find? (fun range => alignUp size Vma.pageSize ≤ range.size) = Option.none := by
        rw [List.find?_eq_none]
        intro r member
        have small := none r member
        simp only [decide_eq_true_eq, not_le]
        exact small
      rw [missing]

/-- Where nothing is reserved and no page is counted, nothing happens. -/
theorem allOrNothing_refused (noPages : heapPages rbx = 0)
    (none : ∀ r ∈ space.ranges.freeRanges.nodes, r.size < alignUp rbx pageSize) : AllOrNothing space rbx := by
  refine ⟨0, space, ?_, .inl ⟨rfl, rfl⟩⟩
  unfold heapPages at noPages
  simp only [sysMmap, valloc_refuses none, noPages, List.range_zero, List.map_nil, mapNewPages, bind, Except.bind]

/- The flags of sys_mmap. -/
def mmapFlags : Nat := ptePresent ||| pteUser ||| pteWritable ||| pteNx

theorem mmap_entry {p entry : Nat} (shape : entry = p ||| (ptePresent ||| mmapFlags)) {s : Phys}
    (layout : Layout s.hhdmOffset s.tables) (used : PageIs s p .used) :
    entry &&& pteMask = p ∧ entry.testBit 0 = true ∧ entry.testBit 1 = true ∧ entry.testBit 2 = true ∧
      entry.testBit 63 = true := by
  obtain ⟨aligned, _, _, physical⟩ := layout.page_bounds used
  have bit : ∀ i, i < 12 ∨ 52 ≤ i → entry.testBit i = (ptePresent ||| mmapFlags).testBit i := by
    intro i outside
    rw [shape, entry_bit aligned physical outside]
  have masked : (ptePresent ||| mmapFlags) &&& pteMask = 0 := by decide
  refine ⟨?_, ?_, ?_, ?_, ?_⟩
  · rw [shape, entry_mask aligned physical masked]
  · rw [bit 0 (by decide)]
    decide
  · rw [bit 1 (by decide)]
    decide
  · rw [bit 2 (by decide)]
    decide
  · rw [bit 63 (by decide)]
    decide

/-- A size that wraps when it is rounded becomes 0. -/
theorem alignUp_wrapped (wraps : 2 ^ 64 ≤ rbx + 4095) (small : rbx < 2 ^ 64) : alignUp rbx pageSize = 0 := by
  have shape : alignUp rbx (2 ^ 12) = wadd rbx (2 ^ 12 - 1) / 2 ^ 12 * 2 ^ 12 := alignUp_pow (by decide)
  have page : pageSize = 2 ^ 12 := by decide
  rw [page, shape]
  unfold wadd
  omega

/-- A size that some free range has room for is served. -/
theorem allOrNothing_granted (agrees : Agrees space) (positive : 1 ≤ rbx) (room : HasRoom space.ranges rbx)
    (enough : space.phys.usedPages + 4 * heapPages rbx ≤ space.phys.totalPages) : AllOrNothing space rbx := by
  obtain ⟨large, listed, fits⟩ := room
  have limits := agrees.tiling.limits (List.mem_append_left _ listed)
  have window : newPagemapWindow.lo = 0x1000 ∧ newPagemapWindow.hi = 400000000000 := ⟨rfl, rfl⟩
  have whole := Vma.le_roundup rbx
  have bound : rbx + 4095 < 2 ^ 64 := by omega
  rcases Vma.valloc_cases agrees.tiling positive bound with ⟨_, none⟩ | ⟨r, f, u, result, carve⟩
  · exact absurd (none large listed) (Nat.not_lt_of_le fits)
  have inWindow := agrees.tiling.limits (List.mem_append_left _ carve.member)
  have high := carve.high
  simp only at high
  have count : heapPages rbx = roundup rbx / 4096 := by
    unfold heapPages
    rw [show alignUp rbx pageSize = roundup rbx from Vma.alignUp_roundup bound]
    exact Nat.mod_eq_of_lt (by unfold pageSize; omega)
  have pages : roundup rbx = 4096 * (roundup rbx / 4096) := (Nat.mul_div_cancel' (Vma.roundup_dvd rbx)).symm
  have virt : ∀ i < heapPages rbx, wadd r.vaddr (i * pageSize) = r.vaddr + i * pageSize := by
    intro i below
    apply wadd_eq
    unfold pageSize
    omega
  have lower : ∀ v ∈ (List.range (heapPages rbx)).map (fun i => wadd r.vaddr (i * pageSize)), lowerHalf (pml4i v) := by
    intro v member
    obtain ⟨i, inRange, rfl⟩ := List.mem_map.mp member
    have below := List.mem_range.mp inRange
    apply lowerHalf_pml4i
    rw [virt i below]
    unfold pageSize
    omega
  obtain ⟨list, inv⟩ := agrees.inv
  have few := card_missingTables_le space.phys space.topLevel
    ((List.range (heapPages rbx)).map (fun i => wadd r.vaddr (i * pageSize)))
  rcases @mapNewPages_outcome space.phys space.topLevel mmapFlags lowerHalf
      list _ inv agrees.tree lower with ⟨s', list', ran, inv', mapped⟩ | ⟨_, full⟩
  swap
  · rw [List.length_map, List.length_range] at few full
    omega
  have call : sysMmap space rbx = .ok (r.vaddr, { space with phys := s', ranges := ⟨f, u, space.ranges.refused⟩ }) := by
    unfold heapPages mmapFlags at ran
    simp only [sysMmap, result, ran, bind, Except.bind]
  have inside : ∀ v ∈ (List.range (heapPages rbx)).map (fun i => wadd r.vaddr (i * pageSize)),
      Inside v (r.vaddr, r.vaddr + roundup rbx) := by
    intro v member
    obtain ⟨i, inRange, rfl⟩ := List.mem_map.mp member
    have below := List.mem_range.mp inRange
    rw [virt i below]
    unfold pageSize
    exact ⟨Nat.le_add_right _ _, by simp only; omega⟩
  obtain ⟨_, untouched⟩ := agrees.carved carve inside ran
  have aligned := (agrees.tiling.aligned r (List.mem_append_left _ carve.member)).1
  -- the address in the list that stands for the page of an address of the block
  have representative : ∀ v, r.vaddr ≤ v → v < r.vaddr + rbx →
      ∃ w ∈ (List.range (heapPages rbx)).map (fun i => wadd r.vaddr (i * pageSize)),
        pageBits v = pageBits w ∧ v / pageSize = w / pageSize := by
    intro v low below
    obtain ⟨k, start⟩ := aligned
    have index : (v - r.vaddr) / 4096 < heapPages rbx := by omega
    have samePage : v / 4096 = (r.vaddr + (v - r.vaddr) / 4096 * 4096) / 4096 := by
      simp only [Vma.pageSize] at start
      omega
    refine ⟨_, List.mem_map.mpr ⟨(v - r.vaddr) / 4096, List.mem_range.mpr index, rfl⟩, ?_, ?_⟩
    · rw [virt _ index]
      unfold pageSize
      rw [pageBits_lower (by omega) (by omega)]
      exact samePage
    · rw [virt _ index]
      unfold pageSize
      exact samePage
  refine ⟨r.vaddr, _, call, .inr ⟨?_, aligned, ?_, ?_, ?_, untouched, ?_⟩⟩
  · omega
  · omega
  · intro v low below
    obtain ⟨w, member, sameBits, _⟩ := representative v low below
    obtain ⟨p, entry, used, fresh, zero, _⟩ := mapped.mapped w member
    have sameLeaf : leaf s' space.topLevel v = p ||| (ptePresent ||| mmapFlags) :=
      (leaf_congr sameBits).trans entry
    obtain ⟨frame, present, writable, user, noExecute⟩ := mmap_entry sameLeaf inv'.layout used
    refine ⟨(carve.dst_covers v).mpr (.inl ⟨low, by simp only [PageRange.span]; omega⟩), present, writable, user,
      noExecute, ?_, ?_, ?_⟩
    · simp only [frameOf, frame]
      exact used
    · simp only [frameOf, frame]
      exact fresh
    · intro a inFrame
      simp only [frameOf, frame] at inFrame
      apply zero
      unfold InFrame at inFrame ⊢
      rw [← mapped.kept.hhdm]
      exact inFrame
  · intro v w lowV belowV lowW belowW same
    obtain ⟨v', memberV, bitsV, pageV⟩ := representative v lowV belowV
    obtain ⟨w', memberW, bitsW, pageW⟩ := representative w lowW belowW
    by_contra different
    have apart : pageBits v' ≠ pageBits w' := by
      intro equal
      have lowBits : pageBits v = pageBits w := bitsV.trans (equal.trans bitsW.symm)
      rw [pageBits_lower (by omega) (by omega)] at lowBits
      exact different lowBits
    obtain ⟨p, q, notSame, entryP, entryQ, usedP, usedQ⟩ := mapped.distinct v' memberV w' memberW apart
    have frameP : leaf s' space.topLevel v &&& pteMask = p :=
      (mmap_entry ((leaf_congr bitsV).trans entryP) inv'.layout usedP).1
    have frameQ : leaf s' space.topLevel w &&& pteMask = q :=
      (mmap_entry ((leaf_congr bitsW).trans entryQ) inv'.layout usedQ).1
    simp only [frameOf, frameP, frameQ] at same
    exact notSame same
  · intro i high small
    exact mapped.kept.topEntries i small (Nat.not_lt_of_le high)

/-- Pages are mapped from address 0 on where valloc has failed. -/
theorem not_allOrNothing_unreserved (agrees : Agrees space)
    (none : ∀ r ∈ space.ranges.freeRanges.nodes, r.size < alignUp rbx pageSize) (some_ : heapPages rbx ≠ 0) :
    ¬ AllOrNothing space rbx := by
  rintro ⟨rax, space', ran, outcome⟩
  obtain ⟨list, inv⟩ := agrees.inv
  have failed : Vma.valloc space.ranges rbx = (0, space.ranges) := valloc_refuses none
  simp only [sysMmap, failed, bind, Except.bind] at ran
  split at ran
  · cases ran
  · rename_i s' mapped
    simp only [Except.ok.injEq, Prod.mk.injEq] at ran
    obtain ⟨rfl, rfl⟩ := ran
    rcases outcome with ⟨_, same⟩ | granted
    · have pages : ∀ i < heapPages rbx, wadd 0 (i * pageSize) < 2 ^ 47 := by
        intro i below
        have count : heapPages rbx < 2 ^ 32 := Nat.mod_lt _ (by decide)
        rw [wadd_eq (by unfold pageSize; omega)]
        unfold pageSize
        omega
      obtain ⟨list', inv', new⟩ := mapNewPages_ok inv agrees.tree (by
        intro v member
        obtain ⟨i, inRange, rfl⟩ := List.mem_map.mp member
        exact lowerHalf_pml4i (pages i (List.mem_range.mp inRange))) mapped
      have first : 0 ∈ (List.range (alignUp rbx pageSize / pageSize % 2 ^ 32)).map
          (fun i => wadd 0 (i * pageSize)) :=
        List.mem_map.mpr ⟨0, List.mem_range.mpr (Nat.pos_of_ne_zero some_), rfl⟩
      obtain ⟨p, entry, used, _⟩ := new.mapped 0 first
      have present : isPresent (leaf s' space.topLevel 0) = true := by
        rw [isPresent_eq]
        exact (mmap_entry entry inv'.layout used).2.1
      have unchanged : s' = space.phys := congrArg AddressSpace.phys same
      rw [unchanged] at present
      have window := usedAt_window agrees.tiling (agrees.reserved 0 (by decide) present)
      omega
    · exact granted.nonzero rfl

/-- A size that rounds to 0 takes an empty range. -/
theorem not_allOrNothing_wrapped (agrees : Agrees space) (wraps : 2 ^ 64 ≤ rbx + 4095) (small : rbx < 2 ^ 64)
    (free : space.ranges.freeRanges.nodes ≠ []) : ¬ AllOrNothing space rbx := by
  rintro ⟨rax, space', ran, outcome⟩
  have zero : alignUp rbx Vma.pageSize = 0 := alignUp_wrapped wraps small
  obtain ⟨r, rest, nodes⟩ := List.exists_cons_of_ne_nil free
  have member : r ∈ space.ranges.freeRanges.nodes := by simp [nodes]
  have limits := agrees.tiling.limits (List.mem_append_left _ member)
  have positive := (agrees.tiling.sound_free r member).1
  have answer : (Vma.valloc space.ranges rbx).1 = r.vaddr := by
    unfold Vma.valloc
    rw [if_neg (by omega), if_neg free, zero, nodes]
    have different : ¬ r.size = 0 := by omega
    simp [different]
  have window : newPagemapWindow.lo = 0x1000 := rfl
  simp only [sysMmap, bind, Except.bind] at ran
  split at ran
  · cases ran
  · simp only [Except.ok.injEq, Prod.mk.injEq] at ran
    obtain ⟨isRax, _⟩ := ran
    rw [answer] at isRax
    rcases outcome with ⟨isZero, _⟩ | granted
    · omega
    · have bound := granted.bound
      omega

end Mmap

/-- sys_mmap does all or nothing exactly for the sizes that it serves or refuses. -/
theorem mmap_all_or_nothing_iff {space : AddressSpace} {rbx : Nat} (agrees : Agrees space) (small : rbx < 2 ^ 64)
    (enough : space.phys.usedPages + 4 * heapPages rbx ≤ space.phys.totalPages) :
    AllOrNothing space rbx ↔ MmapServes space.ranges rbx := by
  constructor
  · intro served
    by_contra not
    unfold MmapServes at not
    push Not at not
    obtain ⟨positive, noRoom, open_⟩ := not
    by_cases wraps : 2 ^ 64 ≤ rbx + 4095
    · apply not_allOrNothing_wrapped agrees wraps small _ served
      intro empty
      have zero : heapPages rbx = 0 := by
        unfold heapPages
        rw [alignUp_wrapped wraps small, Nat.zero_div, Nat.zero_mod]
      obtain ⟨r, member, _⟩ := open_ zero
      rw [empty] at member
      cases member
    · have rounded : alignUp rbx pageSize = roundup rbx := Vma.alignUp_roundup (by omega)
      have none : ∀ r ∈ space.ranges.freeRanges.nodes, r.size < alignUp rbx pageSize := by
        intro r member
        rw [rounded]
        by_contra large
        exact noRoom ⟨r, member, Nat.not_lt.mp large⟩
      apply not_allOrNothing_unreserved agrees none _ served
      intro zero
      obtain ⟨r, member, large⟩ := open_ zero
      have small := none r member
      omega
  · rintro (rfl | room | ⟨noPages, none⟩)
    · exact ⟨0, space, rfl, .inl ⟨rfl, rfl⟩⟩
    · by_cases positive : 1 ≤ rbx
      · exact allOrNothing_granted agrees positive room enough
      · have zero : rbx = 0 := by omega
        subst zero
        exact ⟨0, space, rfl, .inl ⟨rfl, rfl⟩⟩
    · exact allOrNothing_refused noPages none

/-- 2^44 + 4096 bytes are refused, and yet a page is mapped at address 0. -/
theorem mmap_maps_at_zero : ∃ space : AddressSpace, Agrees space ∧
    space.phys.usedPages + 4 * heapPages (2 ^ 44 + 4096) ≤ space.phys.totalPages ∧
    (Vma.valloc space.ranges (2 ^ 44 + 4096)).1 = 0 ∧ ¬ AllOrNothing space (2 ^ 44 + 4096) := by
  obtain ⟨s, list, space, _, _, _, agrees, fresh, room⟩ := smallProcess
  have one : heapPages (2 ^ 44 + 4096) = 1 := by decide
  have none : ∀ r ∈ space.ranges.freeRanges.nodes, r.size < alignUp (2 ^ 44 + 4096) pageSize := by
    rw [fresh]
    decide
  refine ⟨space, agrees, by omega, ?_, not_allOrNothing_unreserved agrees none (by omega)⟩
  rw [valloc_refuses none]

theorem mmap_all_or_nothing_iff_page : ∃ space : AddressSpace, Agrees space ∧
    (AllOrNothing space 4096 ↔ MmapServes space.ranges 4096) := by
  obtain ⟨s, list, space, _, _, _, agrees, _, room⟩ := smallProcess
  have one : heapPages 4096 = 1 := by decide
  exact ⟨space, agrees, mmap_all_or_nothing_iff agrees (by decide) (by omega)⟩

end EvalynOS.Process
