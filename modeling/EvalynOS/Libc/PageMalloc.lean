import EvalynOS.Libc.Malloc

/-! The large blocks of malloc: runs of new pages at addresses from valloc. -/
namespace EvalynOS.Stdlib
open Lib Lib.Word Pmm Vmm Heap
open Vma (Ranges Tiling UsedAt FreeAt Carve PageRange roundup vallocInitWindow)

section Reserve

variable {k : Kernel} {live list : List Nat} {runs : List (Nat × Nat)} {slabsOf free : Nat → List Nat}

/-- The page the node of a split range takes. -/
def nodeCost (k : Kernel) (slabsOf free : Nat → List Nat) (size : Nat) : Nat :=
  if splitsRange k.ranges size then slabCost slabsOf free 128 else 0

theorem isClass_node {c : Nat} (isClass : IsClass (rangeNodeSize + 16) c) : c = 128 := by
  obtain ⟨member, fits, least⟩ := isClass
  have small := least 128 (by decide) (by decide)
  unfold rangeNodeSize at fits
  simp only [slabSizes, List.mem_cons, List.not_mem_nil, or_false] at member
  omega

theorem KernelInv.reserve (inv : KernelInv k live runs slabsOf free list) {r m : PageRange}
    {f u : Vma.VallocTree} (carve : Carve k.ranges.freeRanges.nodes f.nodes
      k.ranges.usedRanges.nodes u.nodes r m) (start : Vma.pageSize ∣ m.vaddr) (size : Vma.pageSize ∣ m.size)
    (refused : List PageRange) :
    KernelInv { k with ranges := ⟨f, u, refused⟩ } live runs slabsOf free list where
  heap := inv.heap
  tree := inv.tree
  apart := inv.apart
  tiling := inv.tiling.of_alloc carve start size
  reserved := fun v low high present => (carve.dst_covers v).mpr (.inr (inv.reserved v low high present))
  direct := inv.direct
  runs := inv.runs

/-- With a range that is large enough valloc fails only when there is no page for the node. -/
theorem kernelValloc_outcome (inv : KernelInv k live runs slabsOf free list) {size : Nat}
    (positive : 1 ≤ size) (bound : size + 4095 < 2 ^ 64)
    (room : ∃ r ∈ k.ranges.freeRanges.nodes, roundup size ≤ r.size) :
    ∃ r f u, (Vma.valloc k.ranges size).1 = r.vaddr ∧
      Carve k.ranges.freeRanges.nodes f.nodes k.ranges.usedRanges.nodes u.nodes r ⟨r.vaddr, roundup size⟩ ∧
      ∀ fuel, (slabsOf 128).length < fuel →
        (∃ k' nodes slabsOf' free' list', kernelValloc fuel k size = some (.ok (r.vaddr, k')) ∧
          KernelInv k' (nodes ++ live) runs slabsOf' free' list' ∧ Steady k k' ∧
          k'.ranges = ⟨f, u, k.ranges.refused⟩ ∧
          k'.phys.usedPages = k.phys.usedPages + nodeCost k slabsOf free size) ∨
        (kernelValloc fuel k size = some (.error .outOfMemory) ∧
          k.phys.totalPages < k.phys.usedPages + nodeCost k slabsOf free size) := by
  rcases Vma.valloc_cases inv.tiling positive bound with ⟨_, none⟩ | ⟨r, f, u, answer, carve⟩
  · obtain ⟨r, member, fits⟩ := room
    have short := none r member
    omega
  refine ⟨r, f, u, by rw [answer], carve, ?_⟩
  intro fuel enough
  have aligned := inv.tiling.aligned r (List.mem_append_left _ carve.member)
  unfold nodeCost kernelValloc
  rw [answer]
  by_cases splits : splitsRange k.ranges size = true
  · simp only [splits, ↓reduceIte]
    obtain ⟨c, isClass, outcome⟩ := @slabMalloc_outcome k live list runs slabsOf free inv rangeNodeSize (by decide)
    cases isClass_node isClass
    rcases outcome fuel enough with ⟨q, k', slabsOf', free', list', ran, inv', block, cost⟩ | ⟨failed, full⟩
    · left
      refine ⟨{ k' with ranges := ⟨f, u, k.ranges.refused⟩ }, [q], slabsOf', free', list', ?_, ?_, ?_, rfl, cost⟩
      · rw [ran]
        rfl
      · have carve' := carve
        rw [← block.ranges] at carve'
        exact inv'.reserve carve' aligned.1 (Vma.roundup_dvd size) k.ranges.refused
      · have same := block.same
        exact ⟨same.topLevel, same.hhdm, same.total, same.pages, same.used, same.lookup, same.leaves⟩
    · right
      refine ⟨?_, full⟩
      rw [failed]
      rfl
  · simp only [splits]
    left
    refine ⟨{ k with ranges := ⟨f, u, k.ranges.refused⟩ }, [], slabsOf, free, list, rfl, ?_, ?_, rfl, rfl⟩
    · exact inv.reserve carve aligned.1 (Vma.roundup_dvd size) k.ranges.refused
    · exact ⟨rfl, rfl, rfl, fun _ page => page, fun _ used => used, fun _ _ => rfl, fun _ _ => rfl⟩

end Reserve

section Run

variable {k : Kernel} {live list virts : List Nat} {runs : List (Nat × Nat)}
  {slabsOf free : Nat → List Nat} {v w x base size flags : Nat}

def InWindow (v : Nat) : Prop := vallocInitWindow.lo ≤ v ∧ v < vallocInitWindow.hi

theorem pageBits_window (inV : InWindow v) (inW : InWindow w) :
    pageBits v = pageBits w ↔ v / 4096 = w / 4096 := by
  have bounds : vallocInitWindow.lo = 0xFFFFA00000000000 ∧ vallocInitWindow.hi = 0xFFFFE00000000000 :=
    ⟨rfl, rfl⟩
  apply pageBits_within
  unfold InWindow at inV inW
  omega

/-- Entries for a page in use lead to its bytes. -/
theorem KernelInv.translate_entry (inv : KernelInv k live runs slabsOf free list) (paged : Paged x)
    {q : Nat} (isFlags : IsFlags flags) (used : PageIs k.phys q .used)
    (entry : leaf k.phys k.topLevel x = q ||| (ptePresent ||| flags)) :
    vmmGetPhys k.phys k.topLevel x = q ∧ k.translate x = some (q + k.phys.hhdmOffset + x % pageSize) := by
  obtain ⟨aligned, positive, mapped, physical⟩ := inv.heap.pmm.layout.page_bounds used
  obtain ⟨present, address⟩ := isFlags.entry aligned physical
  have frame : vmmGetPhys k.phys k.topLevel x = q := by
    rw [vmmGetPhys_eq, entry, if_pos present, address]
  have offset : x % pageSize < pageSize := Nat.mod_lt _ (by decide)
  refine ⟨frame, ?_⟩
  unfold Kernel.translate
  rw [if_neg (paged.not_direct inv.direct), frame]
  simp only [show q ≠ 0 by omega, ↓reduceIte]
  change q + pageSize + k.phys.hhdmOffset < 2 ^ 64 at mapped
  rw [@wadd_eq q _ (by omega), wadd_eq (by omega)]

/-- Work on the tables that leaves all other pages in use alone leaves the heap alone. -/
theorem KernelInv.kept (inv : KernelInv k live runs slabsOf free list) {s' : Phys} {list' : List Nat}
    (inv' : Inv s' list') (kept : Kept k.phys s' k.topLevel kernelRegion) :
    HeapInv { k.heap with phys := s' } live slabsOf free list' ∧
      ∀ path t, Valid kernelRegion path → descend (child s') k.topLevel path = some t →
        ∀ c ∈ slabSizes, t ∉ slabsOf c := by
  constructor
  · apply inv.heap.frame inv' kept.hhdm (fun q usedQ _ => kept.used q usedQ)
    intro c member slab here a low high
    obtain ⟨q, usedQ, rfl⟩ := inv.heap.frames c member slab here
    exact kept.mem q usedQ (fun path valid there => inv.apart path _ valid there c member here) a ⟨low, high⟩
  · intro path t valid here c member isSlab
    rcases kept.tables path t valid here with old | ⟨q, unused, address⟩
    · exact inv.apart path t valid old c member isSlab
    · obtain ⟨r, usedR, address'⟩ := inv.heap.frames c member t isSlab
      have equal : q = r := Nat.add_right_cancel (address.symm.trans address')
      exact unused (equal ▸ usedR)

/-- New pages at reserved addresses that were not mapped are a new run. -/
theorem KernelInv.mapped (inv : KernelInv k live runs slabsOf free list) {s' : Phys} {list' : List Nat}
    (inv' : Inv s' list') (mapped : Mapped k.phys s' k.topLevel kernelRegion virts flags)
    (isFlags : IsFlags flags) (window : ∀ v ∈ virts, InWindow v)
    (used : ∀ v ∈ virts, UsedAt k.ranges v)
    (fresh : ∀ v ∈ virts, isPresent (leaf k.phys k.topLevel v) = false) {run : Nat × Nat}
    (pages : ∀ x, Inside x run → InWindow x ∧ ∃ v ∈ virts, pageBits x = pageBits v) :
    KernelInv (k.withPhys s') live (run :: runs) slabsOf free list' := by
  have kept := mapped.kept
  obtain ⟨heap', apart'⟩ := inv.kept inv' kept
  refine ⟨heap', mapped.tree, apart', inv.tiling, ?_,
    inv.direct.kept kept.hhdm kept.total kept.pages, ?_⟩
  · intro v low high present
    by_cases new : ∃ u ∈ virts, pageBits v = pageBits u
    · obtain ⟨u, member, same⟩ := new
      have page := (pageBits_window ⟨low, high⟩ (window u member)).mp same
      exact inv.tiling.used_page page.symm (used u member)
    · apply inv.reserved v low high
      rw [← mapped.others v (paged_region (.inr ⟨low, high⟩)) (fun u member same => new ⟨u, member, same⟩)]
      exact present
  · intro r member x inside
    rcases List.mem_cons.mp member with rfl | old
    · obtain ⟨inWindow, v, inVirts, same⟩ := pages x inside
      refine ⟨.inr inWindow, ?_⟩
      obtain ⟨q, entry, usedQ, _⟩ := mapped.mapped v inVirts
      obtain ⟨aligned, _, _, physical⟩ := inv'.layout.page_bounds usedQ
      change isPresent (leaf s' k.topLevel x) = true
      rw [leaf_congr same, entry]
      exact (isFlags.entry aligned physical).1
    · obtain ⟨paged, present⟩ := inv.runs r old x inside
      refine ⟨paged, ?_⟩
      change isPresent (leaf s' k.topLevel x) = true
      rw [mapped.others x (paged_region paged)]
      · exact present
      · intro u inVirts same
        rw [leaf_congr same, fresh u inVirts] at present
        cases present

/- The pages that are mapped at some addresses. -/
def framesOf (s : Phys) (top : Nat) (virts : List Nat) : List Nat := (virts.map (vmmGetPhys s top)).dedup

theorem framesOf_owned (inv : KernelInv k live runs slabsOf free list) {s' : Phys} {list' : List Nat}
    {runs' : List (Nat × Nat)} (inv' : KernelInv (k.withPhys s') live runs' slabsOf free list')
    (mapped : Mapped k.phys s' k.topLevel kernelRegion virts flags) (isFlags : IsFlags flags)
    (window : ∀ v ∈ virts, InWindow v) :
    (∀ v ∈ virts, ∃ q ∈ framesOf s' k.topLevel virts, ¬ PageIs k.phys q .used ∧ PageIs s' q .used ∧
      leaf s' k.topLevel v = q ||| (ptePresent ||| flags)) ∧
    Owned (k.withPhys s').heap (framesOf s' k.topLevel virts) slabsOf ∧
    ∀ q ∈ framesOf s' k.topLevel virts, ∀ path, Valid kernelRegion path →
      descend (child s') k.topLevel path ≠ some (q + s'.hhdmOffset) := by
  have hhdm := mapped.kept.hhdm
  have each : ∀ v ∈ virts, ∃ q, vmmGetPhys s' k.topLevel v = q ∧ ¬ PageIs k.phys q .used ∧
      PageIs s' q .used ∧ leaf s' k.topLevel v = q ||| (ptePresent ||| flags) ∧
      ∀ path, Valid kernelRegion path → descend (child s') k.topLevel path ≠ some (q + s'.hhdmOffset) := by
    intro v member
    obtain ⟨q, entry, usedQ, unused, _, notTable⟩ := mapped.mapped v member
    have looked := inv'.translate_entry (.inr (window v member)) isFlags usedQ entry
    exact ⟨q, looked.1, unused, usedQ, entry, hhdm.symm ▸ notTable⟩
  have page : ∀ q ∈ framesOf s' k.topLevel virts, ¬ PageIs k.phys q .used ∧ PageIs s' q .used ∧
      ∀ path, Valid kernelRegion path → descend (child s') k.topLevel path ≠ some (q + s'.hhdmOffset) := by
    intro q member
    obtain ⟨v, inVirts, rfl⟩ := List.mem_map.mp (List.mem_dedup.mp member)
    obtain ⟨q, rfl, unused, usedQ, _, notTable⟩ := each v inVirts
    exact ⟨unused, usedQ, notTable⟩
  refine ⟨?_, ⟨List.nodup_dedup _, fun q member => (page q member).2.1, ?_⟩, fun q member => (page q member).2.2⟩
  · intro v member
    obtain ⟨q, frame, unused, usedQ, entry, _⟩ := each v member
    exact ⟨q, List.mem_dedup.mpr (List.mem_map.mpr ⟨v, member, frame⟩), unused, usedQ, entry⟩
  · intro q member c isClass isSlab
    obtain ⟨r, usedR, address⟩ := inv.heap.frames c isClass _ isSlab
    change q + s'.hhdmOffset = r + k.phys.hhdmOffset at address
    rw [hhdm] at address
    exact (page q member).1 (Nat.add_right_cancel address ▸ usedR)

end Run

section Pages

variable {k : Kernel} {live list : List Nat} {runs : List (Nat × Nat)} {slabsOf free : Nat → List Nat}
  {v x base size : Nat}

theorem runPages_length (bound : size + 4111 < 2 ^ 64) :
    (runPages base size).length = roundup (size + 16) / 4096 := by
  have sum : wadd size 16 = size + 16 := wadd_eq (by omega)
  have rounded : alignUp (size + 16) pageSize = roundup (size + 16) :=
    Vma.alignUp_roundup (by omega)
  simp only [runPages, sum, rounded, List.length_map, List.length_range]
  rfl

theorem mem_runPages (bound : size + 4111 < 2 ^ 64) (high : base + roundup (size + 16) ≤ vallocInitWindow.hi) :
    v ∈ runPages base size ↔ ∃ i, i < roundup (size + 16) / 4096 ∧ v = base + i * 4096 := by
  have limit : vallocInitWindow.hi < 2 ^ 64 := by decide
  have sum : wadd size 16 = size + 16 := wadd_eq (by omega)
  have rounded : alignUp (size + 16) pageSize = roundup (size + 16) :=
    Vma.alignUp_roundup (by omega)
  simp only [runPages, sum, rounded, List.mem_map, List.mem_range]
  unfold pageSize
  constructor
  · rintro ⟨i, small, rfl⟩
    refine ⟨i, small, wadd_eq ?_⟩
    omega
  · rintro ⟨i, small, rfl⟩
    refine ⟨i, small, wadd_eq ?_⟩
    omega

/-- Each address of the run is in one of its pages. -/
theorem page_of_run (bound : size + 4111 < 2 ^ 64) (aligned : 4096 ∣ base)
    (high : base + roundup (size + 16) ≤ vallocInitWindow.hi)
    (inside : Inside x (base, base + roundup (size + 16))) :
    ∃ v ∈ runPages base size, v = x / 4096 * 4096 := by
  obtain ⟨low, below⟩ := inside
  simp only at low below
  have whole : roundup (size + 16) = (size + 16 + 4095) / 4096 * 4096 := rfl
  refine ⟨x / 4096 * 4096, (mem_runPages bound high).mpr ⟨(x - base) / 4096, ?_, ?_⟩, rfl⟩
  · omega
  · omega

/- The addresses of a large block, its header first. -/
def blockRun (base size : Nat) : Nat × Nat := (base, base + roundup (size + 16))

/-- A run that begins with a header, in pages of its own. -/
structure RunBlock (k k' : Kernel) (own : List Nat) (base size : Nat) : Prop where
  pages : ∀ x, Inside x (blockRun base size) → ∃ q ∈ own, ¬ PageIs k.phys q .used ∧
    PageIs k'.phys q .used ∧ k'.translate x = some (q + k'.phys.hhdmOffset + x % pageSize)
  header : k'.readWord base = some size
  apart : ∀ x t, Inside x (blockRun base size) → base + 16 ≤ x → k'.translate x = some t →
    k'.translate base ≠ some (8 * (t / 8))

/-- The word of a byte of a page. -/
theorem word_inFrame {s : Phys} {q : Nat} (aligned : pageSize ∣ q + s.hhdmOffset) (x : Nat) :
    InFrame s q (8 * ((q + s.hhdmOffset + x % pageSize) / 8)) := by
  obtain ⟨i, whole⟩ := aligned
  unfold InFrame
  rw [whole]
  unfold pageSize
  omega

/-- Bytes behind the header are not in its word. -/
theorem mapped_apart (inv : KernelInv k live runs slabsOf free list) {s : Phys} {virts : List Nat} {flags : Nat}
    (mapped : Mapped s k.phys k.topLevel kernelRegion virts flags) (isFlags : IsFlags flags)
    (window : ∀ v ∈ virts, InWindow v) (inWindow : InWindow x) (aligned : 4096 ∣ base)
    (first : base ∈ virts) (member : x / 4096 * 4096 ∈ virts) (behind : base + 16 ≤ x) {t : Nat}
    (there : k.translate x = some t) : k.translate base ≠ some (8 * (t / 8)) := by
  have samePage : pageBits x = pageBits (x / 4096 * 4096) :=
    (pageBits_window inWindow (window _ member)).mpr (by omega)
  have offset : pageSize ∣ k.phys.hhdmOffset := inv.heap.offset
  have start : base % pageSize = 0 := Nat.mod_eq_zero_of_dvd aligned
  by_cases same : x / 4096 * 4096 = base
  · obtain ⟨q, entry, used, _⟩ := mapped.mapped base first
    rw [same] at samePage
    have alignedQ := (inv.heap.pmm.layout.page_bounds used).1
    rw [(inv.translate_entry (.inr inWindow) isFlags used ((leaf_congr samePage).trans entry)).2] at there
    rw [(inv.translate_entry (.inr (window base first)) isFlags used entry).2, start]
    obtain ⟨i, whole⟩ := Nat.dvd_add alignedQ offset
    cases there
    rw [whole]
    unfold pageSize
    intro equal
    rw [Option.some.injEq] at equal
    omega
  · have different : pageBits (x / 4096 * 4096) ≠ pageBits base := by
      rw [Ne, pageBits_window (window _ member) (window base first)]
      omega
    obtain ⟨q, r, notSame, entryX, entryBase, usedQ, usedR⟩ := mapped.distinct _ member base first different
    have alignedQ := (inv.heap.pmm.layout.page_bounds usedQ).1
    rw [(inv.translate_entry (.inr inWindow) isFlags usedQ ((leaf_congr samePage).trans entryX)).2] at there
    rw [(inv.translate_entry (.inr (window base first)) isFlags usedR entryBase).2, start]
    cases there
    intro equal
    have wholeQ : pageSize ∣ q + k.phys.hhdmOffset := Nat.dvd_add alignedQ offset
    have inQ := word_inFrame wholeQ x
    rw [Option.some.injEq, Nat.add_zero] at equal
    rw [← equal] at inQ
    exact notSame (frame_apart inv.heap.pmm.layout usedQ usedR inQ (first_word k.phys r))

end Pages

section Block

variable {k : Kernel} {live list : List Nat} {runs : List (Nat × Nat)} {slabsOf free : Nat → List Nat}
  {base size : Nat}

/- No page of `own` is a table. -/
def NoTable (k : Kernel) (own : List Nat) : Prop :=
  ∀ q ∈ own, ∀ path, Valid kernelRegion path →
    descend (child k.phys) k.topLevel path ≠ some (q + k.phys.hhdmOffset)

def pageFlags : Nat := pteWritable ||| pteNx

theorem pageFlags_isFlags : IsFlags pageFlags := by
  unfold IsFlags
  decide

/-- The header is stored to the first page of a run. -/
theorem KernelInv.storeHeader (inv : KernelInv k live runs slabsOf free list) {s : Phys} {own : List Nat}
    (owned : Owned k.heap own slabsOf) (noTable : NoTable k own) (aligned : 4096 ∣ base)
    (window : ∀ x, Inside x (blockRun base size) → InWindow x)
    (pages : ∀ x, Inside x (blockRun base size) → ∃ q ∈ own, ¬ PageIs s q .used ∧
      PageIs k.phys q .used ∧ k.translate x = some (q + k.phys.hhdmOffset + x % pageSize))
    (apart : ∀ x t, Inside x (blockRun base size) → base + 16 ≤ x → k.translate x = some t →
      k.translate base ≠ some (8 * (t / 8))) :
    ∃ m, k.writeWord base size = .ok (k.withMem m) ∧
      KernelInv (k.withMem m) live runs slabsOf free list ∧
      Owned (k.withMem m).heap own slabsOf ∧ NoTable (k.withMem m) own ∧
      RunBlock (k.withPhys s) (k.withMem m) own base size := by
  have positive := Vma.roundup_pos (show 1 ≤ size + 16 by omega)
  have inside₀ : Inside base (blockRun base size) := ⟨Nat.le_refl _, by simp only [blockRun]; omega⟩
  obtain ⟨q, isOwn, _, _, first⟩ := pages base inside₀
  have start : base % pageSize = 0 := Nat.mod_eq_zero_of_dvd aligned
  rw [start, Nat.add_zero] at first
  generalize memory : k.phys.mem.store (q + k.phys.hhdmOffset) size = m
  have clients : ∀ a, ¬ MayWrite k.heap live own a → m a = k.phys.mem a := by
    intro a outside
    rw [← memory]
    apply Memory.store_other
    rintro rfl
    exact outside (.inr ⟨q, isOwn, first_word k.phys q⟩)
  obtain ⟨inv', same⟩ := inv.write owned noTable clients
  have looked : ∀ x, Inside x (blockRun base size) → (k.withMem m).translate x = k.translate x :=
    fun x inside => same.translate (.inr (.inr (window x inside)))
  refine ⟨m, ?_, inv', ⟨owned.nodup, owned.used, owned.notSlab⟩, ?_, ⟨?_, ?_, ?_⟩⟩
  · simp only [Kernel.writeWord, first, memory]
  · intro r member path valid
    rw [same.lookup path valid]
    exact noTable r member path valid
  · intro x inside
    rw [looked x inside]
    exact pages x inside
  · unfold Kernel.readWord
    rw [looked base inside₀, first, Option.map_some, withMem_phys, ← memory]
    exact congrArg some (Memory.store_same _ _ _)
  · intro x t inside behind
    rw [looked x inside, looked base inside₀]
    exact apart x t inside behind

/-- The loop of malloc and the store of the header, at reserved addresses. -/
theorem KernelInv.newRun (inv : KernelInv k live runs slabsOf free list) (bound : size + 4111 < 2 ^ 64)
    (aligned : 4096 ∣ base) (low : vallocInitWindow.lo ≤ base)
    (high : base + roundup (size + 16) ≤ vallocInitWindow.hi)
    (used : ∀ x, Inside x (blockRun base size) → UsedAt k.ranges x)
    (fresh : ∀ x, Inside x (blockRun base size) → isPresent (leaf k.phys k.topLevel x) = false) :
    (∃ s' m own list', mapNewPages k.topLevel pageFlags (runPages base size) k.phys = .ok s' ∧
      (k.withPhys s').writeWord base size = .ok ((k.withPhys s').withMem m) ∧
      KernelInv ((k.withPhys s').withMem m) live (blockRun base size :: runs) slabsOf free list' ∧
      Owned ((k.withPhys s').withMem m).heap own slabsOf ∧ NoTable ((k.withPhys s').withMem m) own ∧
      RunBlock k ((k.withPhys s').withMem m) own base size ∧ s'.totalPages = k.phys.totalPages ∧
      s'.usedPages = k.phys.usedPages + (runPages base size).length +
        (missingTables k.phys k.topLevel (runPages base size)).card) ∨
    (mapNewPages k.topLevel pageFlags (runPages base size) k.phys = .error .outOfMemory ∧
      k.phys.totalPages < k.phys.usedPages + (runPages base size).length +
        (missingTables k.phys k.topLevel (runPages base size)).card) := by
  have inRun : ∀ v ∈ runPages base size, Inside v (blockRun base size) := by
    intro v member
    obtain ⟨i, small, rfl⟩ := (mem_runPages bound high).mp member
    exact ⟨Nat.le_add_right _ _, by simp only [blockRun]; omega⟩
  have runWindow : ∀ x, Inside x (blockRun base size) → InWindow x := by
    rintro x ⟨start, stop⟩
    simp only [blockRun] at start stop
    unfold InWindow
    omega
  have window := fun v member => runWindow v (inRun v member)
  have pageOf : ∀ x, Inside x (blockRun base size) → x / 4096 * 4096 ∈ runPages base size ∧
      pageBits x = pageBits (x / 4096 * 4096) := by
    intro x inside
    obtain ⟨v, member, rfl⟩ := page_of_run bound aligned high inside
    exact ⟨member, (pageBits_window (runWindow x inside) (window _ member)).mpr (by omega)⟩
  rcases @mapNewPages_outcome k.phys k.topLevel pageFlags kernelRegion list (runPages base size)
      inv.heap.pmm inv.tree (fun v member => paged_region (.inr (window v member))) with
    ⟨s', list', ran, inv', mapped⟩ | ⟨failed, full⟩
  · left
    have inv₂ : KernelInv (k.withPhys s') live (blockRun base size :: runs) slabsOf free list' :=
      inv.mapped inv' mapped pageFlags_isFlags window (fun v member => used v (inRun v member))
        (fun v member => fresh v (inRun v member))
        (fun x inside => ⟨runWindow x inside, _, (pageOf x inside).1, (pageOf x inside).2⟩)
    obtain ⟨frames, owned, noTable⟩ := framesOf_owned inv inv₂ mapped pageFlags_isFlags window
    have positive := Vma.roundup_pos (show 1 ≤ size + 16 by omega)
    have first : base ∈ runPages base size := (mem_runPages bound high).mpr
      ⟨0, Nat.div_pos (Nat.le_of_dvd positive (Vma.roundup_dvd _)) (by decide), by omega⟩
    obtain ⟨m, written, inv₃, owned₃, noTable₃, block⟩ := inv₂.storeHeader (s := k.phys) owned noTable
      aligned runWindow
      (by
        intro x inside
        obtain ⟨member, same⟩ := pageOf x inside
        obtain ⟨q, isOwn, unused, usedQ, entry⟩ := frames _ member
        have looked := inv₂.translate_entry (.inr (runWindow x inside)) pageFlags_isFlags usedQ
          ((leaf_congr same).trans entry)
        exact ⟨q, isOwn, unused, usedQ, looked.2⟩)
      (fun x t inside behind there => mapped_apart inv₂ mapped pageFlags_isFlags window
        (runWindow x inside) aligned first (pageOf x inside).1 behind there)
    exact ⟨s', m, _, list', ran, written, inv₃, owned₃, noTable₃, ⟨block.pages, block.header, block.apart⟩,
      mapped.kept.total, mapped.made.cost⟩
  · exact .inr ⟨failed, full⟩

/-- An address that the call has reserved and mapped, to a page that was not in use. -/
structure NewAddress (k k' : Kernel) (x : Nat) : Prop where
  free : FreeAt k.ranges x
  reserved : UsedAt k'.ranges x
  unmapped : isPresent (leaf k.phys k.topLevel x) = false
  mapped : ∃ q, ¬ PageIs k.phys q .used ∧ PageIs k'.phys q .used ∧
    k'.translate x = some (q + k'.phys.hhdmOffset + x % pageSize)

/- The pages a large block takes: for a node, for the run and for the tables it needs. -/
def pageCost (k : Kernel) (slabsOf free : Nat → List Nat) (size : Nat) : Nat :=
  let virts := runPages (Vma.valloc k.ranges (size + 16)).1 size
  nodeCost k slabsOf free (size + 16) + virts.length + (missingTables k.phys k.topLevel virts).card

theorem freeAt_window (inv : KernelInv k live runs slabsOf free list) {x : Nat} (isFree : FreeAt k.ranges x) :
    InWindow x := by
  obtain ⟨span, member, low, high⟩ := isFree
  obtain ⟨r, listed, rfl⟩ := List.mem_map.mp member
  obtain ⟨start, stop, _⟩ := inv.tiling.limits (List.mem_append_left _ listed)
  simp only [PageRange.span] at low high
  exact ⟨start.trans low, high.trans_le stop⟩

/-- Addresses of free ranges are not mapped. -/
theorem KernelInv.unmapped (inv : KernelInv k live runs slabsOf free list) {x : Nat}
    (isFree : FreeAt k.ranges x) : isPresent (leaf k.phys k.topLevel x) = false := by
  obtain ⟨low, high⟩ := freeAt_window inv isFree
  cases present : isPresent (leaf k.phys k.topLevel x) with
  | false => rfl
  | true => exact absurd (inv.reserved x low high present) (inv.tiling.free_not_used isFree)

theorem pageMalloc_outcome (inv : KernelInv k live runs slabsOf free list)
    (room : ∃ r ∈ k.ranges.freeRanges.nodes, roundup (size + 16) ≤ r.size) {fuel : Nat}
    (enough : (slabsOf 128).length < fuel) :
    (∃ base k' nodes own slabsOf' free' list', pageMalloc fuel k size = some (.ok (base + 16, k')) ∧
      KernelInv k' (nodes ++ live) (blockRun base size :: runs) slabsOf' free' list' ∧
      Owned k'.heap own slabsOf' ∧ NoTable k' own ∧ RunBlock k k' own base size ∧
      (∀ x, Inside x (blockRun base size) → NewAddress k k' x) ∧
      k'.phys.totalPages = k.phys.totalPages ∧
      k'.phys.usedPages = k.phys.usedPages + pageCost k slabsOf free size) ∨
    (pageMalloc fuel k size = some (.error .outOfMemory) ∧
      k.phys.totalPages < k.phys.usedPages + pageCost k slabsOf free size) := by
  have window : vallocInitWindow.lo = 0xFFFFA00000000000 ∧ vallocInitWindow.hi = 0xFFFFE00000000000 :=
    ⟨rfl, rfl⟩
  have small : size + 4111 < 2 ^ 64 := by
    obtain ⟨r, member, fits⟩ := room
    obtain ⟨low, high, _⟩ := inv.tiling.limits (List.mem_append_left _ member)
    have whole := Vma.le_roundup (size + 16)
    omega
  have sum : wadd size 16 = size + 16 := wadd_eq (by omega)
  obtain ⟨r, f, u, answer, carve, outcome⟩ := kernelValloc_outcome inv (by omega) (by omega) room
  obtain ⟨low, stop, _⟩ := inv.tiling.limits (List.mem_append_left _ carve.member)
  have aligned := (inv.tiling.aligned r (List.mem_append_left _ carve.member)).1
  have fits : r.vaddr + roundup (size + 16) ≤ r.vaddr + r.size := carve.high
  have end_ : wadd r.vaddr 16 = r.vaddr + 16 := wadd_eq (by omega)
  have isFree : ∀ x, Inside x (blockRun r.vaddr size) → FreeAt k.ranges x := fun x inside =>
    ⟨r.span, List.mem_map_of_mem carve.member, inside.1, inside.2.trans_le fits⟩
  simp only [pageCost, pageMalloc, answer, sum]
  rcases outcome fuel enough with ⟨k₁, nodes, slabsOf₁, free₁, list₁, ran₁, inv₁, same₁, ranges₁, cost₁⟩ |
    ⟨failed, full⟩
  · have inside : ∀ x, Inside x (blockRun r.vaddr size) → kernelRegion (pml4i x) := fun x here =>
      paged_region (.inr (freeAt_window inv (isFree x here)))
    have used₁ : ∀ x, Inside x (blockRun r.vaddr size) → UsedAt k₁.ranges x := by
      intro x here
      rw [ranges₁]
      exact (carve.dst_covers x).mpr (.inl here)
    have fresh₁ : ∀ x, Inside x (blockRun r.vaddr size) →
        isPresent (leaf k₁.phys k₁.topLevel x) = false := by
      intro x here
      rw [same₁.leaves x (inside x here)]
      exact inv.unmapped (isFree x here)
    have missing : missingTables k₁.phys k₁.topLevel (runPages r.vaddr size) =
        missingTables k.phys k.topLevel (runPages r.vaddr size) := by
      rw [same₁.topLevel]
      apply @missingTables_congr k.phys k₁.phys k.topLevel kernelRegion
      · intro v member
        obtain ⟨i, below, rfl⟩ := (mem_runPages small (fits.trans stop)).mp member
        apply inside
        exact ⟨Nat.le_add_right _ _, by simp only [blockRun]; omega⟩
      · intro path valid
        rw [← same₁.lookup path valid, same₁.topLevel]
    rcases inv₁.newRun small aligned low (fits.trans stop) used₁ fresh₁ with
      ⟨s', m, own, list', ran, written, inv', owned, noTable, block, total, cost⟩ | ⟨failed, full⟩
    · left
      refine ⟨r.vaddr, (k₁.withPhys s').withMem m, nodes, own, slabsOf₁, free₁, list', ?_, inv', owned, noTable,
        ⟨?_, block.header, block.apart⟩, ?_, total.trans same₁.total, ?_⟩
      · rw [ran₁]
        simp only [Option.map_some, bind, Except.bind]
        change mapNewPages k₁.topLevel (pteWritable ||| pteNx) _ _ = _ at ran
        simp only [ran, written, end_]
      · intro x here
        obtain ⟨q, isOwn, unused, rest⟩ := block.pages x here
        exact ⟨q, isOwn, fun old => unused (same₁.used q old), rest⟩
      · intro x here
        obtain ⟨q, _, unused, usedQ, looked⟩ := block.pages x here
        exact ⟨isFree x here, used₁ x here, inv.unmapped (isFree x here),
          q, fun old => unused (same₁.used q old), usedQ, looked⟩
      · rw [withMem_phys, withPhys_phys, cost, cost₁, missing]
        omega
    · right
      rw [missing, same₁.total, cost₁] at full
      refine ⟨?_, by omega⟩
      rw [ran₁]
      simp only [Option.map_some, bind, Except.bind]
      change mapNewPages k₁.topLevel (pteWritable ||| pteNx) _ _ = _ at failed
      simp only [failed]
  · right
    refine ⟨?_, by omega⟩
    rw [failed]
    rfl

end Block

end EvalynOS.Stdlib
