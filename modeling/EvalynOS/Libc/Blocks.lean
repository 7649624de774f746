import EvalynOS.Libc.Unmap
import EvalynOS.Memory.VmaFree

/-! The blocks that malloc has handed out and that free has not got back: objects of the slab
heap, runs of pages, and what a call got for which valloc had no range. All of the last
begin at address zero, one on top of the other. -/
namespace EvalynOS.Stdlib
open Lib Lib.Word Pmm Vmm Heap
open Vma (Ranges Tiling UsedAt FreeAt Carve PageRange roundup vallocInitWindow)

/- The bytes that the loops of malloc and free go over. -/
def runLength (size : Nat) : Nat := alignUp (wadd size 16) pageSize

/- The pointer that malloc makes of NULL. -/
def nullPointer : Nat := 16

/- A live object behind a header with a size that fits it. -/
def SmallBlock (k : Kernel) (live : List Nat) (p : Nat) : Prop :=
  ∃ q ∈ live, p = q + 16 ∧ k.phys.mem q + 16 ≤ k.phys.mem (objSizeAt (slabOf q))

/-- A used range with a header, all of its pages mapped. -/
structure LargeBlock (k : Kernel) (runs : List (Nat × Nat)) (base size : Nat) : Prop where
  large : 1024 < size
  positive : 1 ≤ wadd size 16
  rounds : wadd size 16 + 4095 < 2 ^ 64
  run : (base, base + runLength size) ∈ runs
  node : ⟨base, runLength size⟩ ∈ k.ranges.usedRanges.nodes
  pages : ∀ v ∈ runPages base size, isPresent (leaf k.phys k.topLevel v) = true
  header : k.readWord base = some size

/-- The pointers `held` are out, and only pointers made of NULL more than once. -/
structure Holds (k : Kernel) (held live own : List Nat) (runs : List (Nat × Nat))
    (slabsOf free : Nat → List Nat) (list : List Nat) : Prop where
  frames : FramesInv k live own runs slabsOf free list
  blocks : ∀ p ∈ held, p = nullPointer ∨ SmallBlock k live p ∨
    ∃ base size, p = base + 16 ∧ LargeBlock k runs base size
  once : (held.filter (fun p => p ≠ nullPointer)).Nodup
  low : ∀ size, k.readWord 0 = some size → runLength size ≤ 2 ^ 47

section Runs

variable {base size v x : Nat}

theorem runLength_eq (size : Nat) : runLength size = wadd (wadd size 16) 4095 / 4096 * 4096 :=
  alignUp_pow (x := wadd size 16) (k := 12) (by decide)

theorem runLength_lt (size : Nat) : runLength size < 2 ^ 64 := by
  have small : wadd (wadd size 16) 4095 < 2 ^ 64 := Nat.mod_lt _ (by decide)
  rw [runLength_eq]
  omega

theorem runLength_roundup (rounds : wadd size 16 + 4095 < 2 ^ 64) : runLength size = roundup (wadd size 16) :=
  Vma.alignUp_roundup rounds

theorem mem_run (high : base + runLength size ≤ 2 ^ 64) :
    v ∈ runPages base size ↔ ∃ i, i * 4096 < runLength size ∧ v = base + i * 4096 := by
  have whole := runLength_eq size
  change v ∈ (List.range (runLength size / 4096)).map (fun i => wadd base (i * 4096)) ↔ _
  simp only [List.mem_map, List.mem_range]
  constructor
  · rintro ⟨i, small, rfl⟩
    exact ⟨i, by omega, wadd_eq (by omega)⟩
  · rintro ⟨i, small, rfl⟩
    exact ⟨i, by omega, wadd_eq (by omega)⟩

/-- The pages of a run are different pages. -/
theorem run_distinct (high : base + runLength size ≤ 2 ^ 64) (aligned : 4096 ∣ base)
    (paged : ∀ v ∈ runPages base size, Paged v) :
    (runPages base size).Pairwise (fun v w => pageBits v ≠ pageBits w) := by
  have whole := runLength_eq size
  change ((List.range (runLength size / 4096)).map (fun i => wadd base (i * 4096))).Pairwise _
  change ∀ v ∈ (List.range (runLength size / 4096)).map (fun i => wadd base (i * 4096)), Paged v at paged
  refine List.pairwise_map.mpr ((List.pairwise_lt_range).imp_of_mem ?_)
  intro i j inI inJ order same
  have pagedI := paged _ (List.mem_map_of_mem inI)
  have pagedJ := paged _ (List.mem_map_of_mem inJ)
  have boundI := List.mem_range.mp inI
  have boundJ := List.mem_range.mp inJ
  have page := (pageBits_paged pagedI pagedJ).mp same
  have startI : wadd base (i * 4096) = base + i * 4096 := wadd_eq (by omega)
  have startJ : wadd base (j * 4096) = base + j * 4096 := wadd_eq (by omega)
  rw [startI, startJ] at page
  omega

/-- Each address of a run is in one of its pages. -/
theorem run_page (high : base + runLength size ≤ 2 ^ 64) (aligned : 4096 ∣ base)
    (inside : Inside x (base, base + runLength size)) : x / 4096 * 4096 ∈ runPages base size := by
  have whole := runLength_eq size
  obtain ⟨low, below⟩ := inside
  simp only at low below
  exact (mem_run high).mpr ⟨(x - base) / 4096, by omega, by omega⟩

end Runs

section Large

variable {k : Kernel} {runs : List (Nat × Nat)} {live own list : List Nat} {slabsOf free : Nat → List Nat}
  {base size v x : Nat}

theorem LargeBlock.limits (large : LargeBlock k runs base size) (tiling : Tiling vallocInitWindow k.ranges) :
    4096 ∣ base ∧ vallocInitWindow.lo ≤ base ∧ base + runLength size ≤ vallocInitWindow.hi ∧ 0 < runLength size := by
  have member := List.mem_append_right k.ranges.freeRanges.nodes large.node
  obtain ⟨low, high, positive⟩ := tiling.limits member
  exact ⟨(tiling.aligned _ member).1, low, high, positive⟩

theorem LargeBlock.placed (large : LargeBlock k runs base size) (inside : Inside x (base, base + runLength size)) :
    Placed runs x := .inr ⟨_, large.run, inside⟩

theorem LargeBlock.page_inside (large : LargeBlock k runs base size) (tiling : Tiling vallocInitWindow k.ranges)
    (member : v ∈ runPages base size) : Inside v (base, base + runLength size) := by
  obtain ⟨_, _, high, _⟩ := large.limits tiling
  have window : vallocInitWindow.hi < 2 ^ 64 := by decide
  obtain ⟨i, small, rfl⟩ := (mem_run (by omega)).mp member
  exact ⟨Nat.le_add_right _ _, Nat.add_lt_add_left small _⟩

theorem LargeBlock.first (large : LargeBlock k runs base size) (tiling : Tiling vallocInitWindow k.ranges) :
    base ∈ runPages base size := by
  obtain ⟨_, _, high, positive⟩ := large.limits tiling
  have window : vallocInitWindow.hi < 2 ^ 64 := by decide
  exact (mem_run (by omega)).mpr ⟨0, by omega, by omega⟩

end Large

section Words

variable {k k' : Kernel} {runs runs' : List (Nat × Nat)} {live live' live₀ own own' own₀ list list' : List Nat}
  {slabsOf slabsOf' free free' : Nat → List Nat} {base size p x : Nat}

/-- Placed addresses lead to the pages of malloc, or nowhere. -/
theorem FramesInv.translate_cases (frames : FramesInv k live own runs slabsOf free list) (placed : Placed runs x) :
    (isPresent (leaf k.phys k.topLevel x) = false ∧ k.translate x = none) ∨
    ∃ q ∈ own, MapsTo k.phys k.topLevel x q ∧ vmmGetPhys k.phys k.topLevel x = q ∧
      k.translate x = some (q + k.phys.hhdmOffset + x % pageSize) := by
  cases present : isPresent (leaf k.phys k.topLevel x) with
  | false =>
    refine .inl ⟨rfl, ?_⟩
    unfold Kernel.translate
    rw [if_neg ((frames.paged placed).not_direct frames.inv.direct), vmmGetPhys_eq, present]
    rfl
  | true =>
    obtain ⟨q, isOwn, maps⟩ := frames.entries x placed present
    obtain ⟨frame, looked⟩ := frames.inv.translate_entry (frames.paged placed) pageFlags_isFlags
      (frames.owned.used q isOwn) maps
    exact .inr ⟨q, isOwn, maps, frame, looked⟩

/-- The first word of a page is as before when its entry and its words are. -/
theorem FramesInv.readWord_kept (frames : FramesInv k live own runs slabsOf free list)
    (frames' : FramesInv k' live' own' runs' slabsOf' free' list') (spares : Spares k k' live₀ own₀)
    (placed : Placed runs x) (placed' : Placed runs' x) (aligned : 4096 ∣ x)
    (leaves : leaf k'.phys k'.topLevel x = leaf k.phys k.topLevel x)
    (kept : ∀ q ∈ own, MapsTo k.phys k.topLevel x q → q ∈ own₀) : k'.readWord x = k.readWord x := by
  have start : x % pageSize = 0 := Nat.mod_eq_zero_of_dvd aligned
  have looked : vmmGetPhys k'.phys k'.topLevel x = vmmGetPhys k.phys k.topLevel x := by
    rw [vmmGetPhys_eq, vmmGetPhys_eq, leaves]
  unfold Kernel.readWord
  rcases frames.translate_cases placed with ⟨absent, none⟩ | ⟨q, isOwn, maps, frame, there⟩
  · rcases frames'.translate_cases placed' with ⟨_, none'⟩ | ⟨q, isOwn, maps, _⟩
    · rw [none, none']
      rfl
    · have present := (maps.looked frames'.inv.heap.pmm.layout (frames'.owned.used q isOwn)).1
      rw [leaves, absent] at present
      cases present
  · rcases frames'.translate_cases placed' with ⟨absent, _⟩ | ⟨q', _, _, frame', there'⟩
    · have present := (maps.looked frames.inv.heap.pmm.layout (frames.owned.used q isOwn)).1
      rw [← leaves, absent] at present
      cases present
    · cases frame'.symm.trans (looked.trans frame)
      rw [there, there', start, Nat.add_zero, Nat.add_zero, spares.hhdm]
      simp only [Option.map_some, Option.some.injEq]
      exact spares.words _ (.inr ⟨q, kept q isOwn maps, first_word k.phys q⟩)

theorem LargeBlock.kept (large : LargeBlock k runs base size) (frames : FramesInv k live own runs slabsOf free list)
    (frames' : FramesInv k' live' own' runs' slabsOf' free' list') (spares : Spares k k' live₀ own₀)
    (run' : (base, base + runLength size) ∈ runs')
    (node' : ⟨base, runLength size⟩ ∈ k'.ranges.usedRanges.nodes)
    (leaves : ∀ v ∈ runPages base size, leaf k'.phys k'.topLevel v = leaf k.phys k.topLevel v)
    (kept : ∀ q ∈ own, MapsTo k.phys k.topLevel base q → q ∈ own₀) : LargeBlock k' runs' base size := by
  have tiling := frames.inv.tiling
  have first := large.first tiling
  obtain ⟨aligned, _, _, positive⟩ := large.limits tiling
  have inside : Inside base (base, base + runLength size) := ⟨Nat.le_refl _, Nat.lt_add_of_pos_right positive⟩
  refine ⟨large.large, large.positive, large.rounds, run', node', ?_, ?_⟩
  · intro v member
    rw [leaves v member]
    exact large.pages v member
  · rw [frames.readWord_kept frames' spares (large.placed inside) (.inr ⟨_, run', inside⟩) aligned
      (leaves base first) kept]
    exact large.header

theorem SmallBlock.kept (small : SmallBlock k live p) (spares : Spares k k' live₀ own₀)
    (object : ∀ q ∈ live, p = q + 16 → q ∈ live₀) (fewer : ∀ q ∈ live₀, q ∈ live') : SmallBlock k' live' p := by
  obtain ⟨q, alive, rfl, fits⟩ := small
  have kept := object q alive rfl
  have size := spares.sizes q kept
  have header : k'.phys.mem q = k.phys.mem q :=
    spares.words q (.inl ⟨q, kept, Nat.le_refl _, by change q < q + k.phys.mem _; omega⟩)
  exact ⟨q, fewer q kept, rfl, by omega⟩

/-- The blocks `rest` come through a call. -/
structure Carries (k k' : Kernel) (rest live live' : List Nat) (runs runs' : List (Nat × Nat)) : Prop where
  topLevel : k'.topLevel = k.topLevel
  small : ∀ p ∈ rest, SmallBlock k live p → SmallBlock k' live' p
  large : ∀ base size, base + 16 ∈ rest → LargeBlock k runs base size → LargeBlock k' runs' base size ∧
    ∀ v ∈ runPages base size, leaf k'.phys k'.topLevel v = leaf k.phys k.topLevel v

theorem Carries.of_spares {rest : List Nat} (frames : FramesInv k live own runs slabsOf free list)
    (frames' : FramesInv k' live' own' runs' slabsOf' free' list') (spares : Spares k k' live₀ own₀)
    (objects : ∀ p ∈ rest, ∀ q ∈ live, p = q + 16 → q ∈ live₀) (fewer : ∀ q ∈ live₀, q ∈ live')
    (more : ∀ r ∈ runs, r ∈ runs')
    (large : ∀ base size, base + 16 ∈ rest → LargeBlock k runs base size →
      ⟨base, runLength size⟩ ∈ k'.ranges.usedRanges.nodes ∧
      (∀ v ∈ runPages base size, leaf k'.phys k'.topLevel v = leaf k.phys k.topLevel v) ∧
      ∀ q ∈ own, MapsTo k.phys k.topLevel base q → q ∈ own₀) :
    Carries k k' rest live live' runs runs' where
  topLevel := spares.topLevel
  small := fun p inRest small => small.kept spares (objects p inRest) fewer
  large := by
    intro base size inRest block
    obtain ⟨node', leaves, kept⟩ := large base size inRest block
    exact ⟨block.kept frames frames' spares (more _ block.run) node' leaves kept, leaves⟩

theorem Holds.carry {held rest : List Nat} (holds : Holds k held live own runs slabsOf free list)
    (frames' : FramesInv k' live' own' runs' slabsOf' free' list') (fewer : rest.Sublist held)
    (carries : Carries k k' rest live live' runs runs')
    (low' : ∀ size, k'.readWord 0 = some size → runLength size ≤ 2 ^ 47) :
    Holds k' rest live' own' runs' slabsOf' free' list' := by
  refine ⟨frames', ?_, holds.once.sublist (fewer.filter _), low'⟩
  intro p inRest
  rcases holds.blocks p (fewer.subset inRest) with null | small | ⟨base, size, rfl, large⟩
  · exact .inl null
  · exact .inr (.inl (carries.small p inRest small))
  · exact .inr (.inr ⟨base, size, rfl, (carries.large base size inRest large).1⟩)

end Words

end EvalynOS.Stdlib
