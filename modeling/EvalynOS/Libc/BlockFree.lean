import EvalynOS.Libc.BlockMalloc

/-! What free does to its block, and that it does nothing to the others. -/
namespace EvalynOS.Stdlib
open Lib Lib.Word Pmm Vmm Heap
open Vma (Ranges Tiling UsedAt FreeAt Carve PageRange roundup vallocInitWindow)

section Words

variable {k k' : Kernel} {runs runs' : List (Nat × Nat)} {held live live' own own' list list' : List Nat}
  {slabsOf slabsOf' free free' : Nat → List Nat} {p q x t size : Nat}

/- Where a block ends that has `size` in its header. -/
def blockEnd (p size : Nat) : Nat :=
  match blockPath size with
  | .slab => p + size
  | .page => p - 16 + runLength size

/- The addresses of a block, with its header. -/
def InBlock (k : Kernel) (p x : Nat) : Prop :=
  ∃ size, k.readWord (p - 16) = some size ∧ p - 16 ≤ x ∧ x < blockEnd p size

/-- An object is read in the direct map. -/
theorem KernelInv.object_translate (inv : KernelInv k live runs slabsOf free list) (alive : q ∈ live)
    (inside : q ≤ x ∧ x < q + k.phys.mem (objSizeAt (slabOf q))) : k.translate x = some x :=
  if_pos (inv.object_direct alive inside)

theorem KernelInv.object_aligned (inv : KernelInv k live runs slabsOf free list) (alive : q ∈ live) : 16 ∣ q := by
  obtain ⟨c, member, home⟩ := inv.heap.homes q alive
  exact slot_aligned (inv.heap.slab_bounds member home).1 member (inv.heap.live_slot alive member home)

theorem SmallBlock.header (inv : KernelInv k live runs slabsOf free list) (alive : q ∈ live)
    (fits : k.phys.mem q + 16 ≤ k.phys.mem (objSizeAt (slabOf q))) :
    k.readWord q = some (k.phys.mem q) ∧ blockPath (k.phys.mem q) = .slab := by
  obtain ⟨c, member, home⟩ := inv.heap.homes q alive
  have objSize := (inv.heap.slabs c member _ home).objSize
  have largest := (slabSizes_bounds member).2
  change k.phys.mem (objSizeAt (slabOf q)) = c at objSize
  refine ⟨?_, if_pos (by omega)⟩
  rw [Kernel.readWord, inv.object_translate alive ⟨Nat.le_refl q, by omega⟩]
  rfl

theorem LargeBlock.path (block : LargeBlock k runs q size) : blockPath size = .page :=
  if_neg (by have large := block.large; omega)

/-- The blocks of pointers made of NULL are in the lower half. -/
theorem Holds.null_lower (holds : Holds k held live own runs slabsOf free list) (header : k.readWord 0 = some size)
    (high : x < blockEnd nullPointer size) : x < 2 ^ 47 := by
  have short := holds.low size header
  unfold blockEnd blockPath nullPointer at high
  split at high
  · rename_i path
    split at path
    · omega
    · cases path
  · omega

theorem Holds.block_cases (holds : Holds k held live own runs slabsOf free list) (member : p ∈ held)
    (inBlock : InBlock k p x) : Placed runs x ∨
      ∃ q ∈ live, p = q + 16 ∧ q ≤ x ∧ x < q + k.phys.mem (objSizeAt (slabOf q)) := by
  obtain ⟨size, header, low, high⟩ := inBlock
  rcases holds.blocks p member with rfl | ⟨q, alive, rfl, fits⟩ | ⟨base, size', rfl, block⟩
  · exact .inl (.inl (holds.null_lower header high))
  · right
    obtain ⟨there, path⟩ := SmallBlock.header holds.frames.inv alive fits
    rw [Nat.add_sub_cancel] at header low
    cases Option.some.inj (there.symm.trans header)
    simp only [blockEnd, path] at high
    exact ⟨q, alive, rfl, low, by omega⟩
  · left
    rw [Nat.add_sub_cancel] at header low
    cases Option.some.inj (block.header.symm.trans header)
    simp only [blockEnd, block.path, Nat.add_sub_cancel] at high
    exact block.placed ⟨low, high⟩

/-- The word of a placed address is in a page of malloc. -/
theorem FramesInv.placed_word (frames : FramesInv k live own runs slabsOf free list) (placed : Placed runs x)
    (there : k.translate x = some t) : ∃ q ∈ own, MapsTo k.phys k.topLevel x q ∧
      t = q + k.phys.hhdmOffset + x % pageSize ∧ pageSize ∣ q + k.phys.hhdmOffset ∧
      InFrame k.phys q (8 * (t / 8)) := by
  rcases frames.translate_cases placed with ⟨_, none⟩ | ⟨q, isOwn, maps, _, looked⟩
  · cases none.symm.trans there
  · cases Option.some.inj (looked.symm.trans there)
    have aligned : pageSize ∣ q + k.phys.hhdmOffset := Nat.dvd_add
      (frames.inv.heap.pmm.layout.page_bounds (frames.owned.used q isOwn)).1 frames.inv.heap.offset
    exact ⟨q, isOwn, maps, rfl, aligned, word_inFrame aligned x⟩

/-- The words of a block are words of its caller. -/
theorem Holds.block_word (holds : Holds k held live own runs slabsOf free list) (member : p ∈ held)
    (inBlock : InBlock k p x) (there : k.translate x = some t) : MayWrite k.heap live own (8 * (t / 8)) := by
  rcases holds.block_cases member inBlock with placed | ⟨q, alive, _, low, high⟩
  · obtain ⟨q, isOwn, _, _, _, inFrame⟩ := holds.frames.placed_word placed there
    exact .inr ⟨q, isOwn, inFrame⟩
  · cases Option.some.inj ((holds.frames.inv.object_translate alive ⟨low, high⟩).symm.trans there)
    have aligned := holds.frames.inv.object_aligned alive
    refine .inl ⟨q, alive, by omega, ?_⟩
    change 8 * (x / 8) < q + k.phys.mem (objSizeAt (slabOf q))
    omega

end Words

section Frees

variable {k k' : Kernel} {runs : List (Nat × Nat)} {held live own list : List Nat}
  {slabsOf free : Nat → List Nat} {base size p q : Nat}

/-- A pointer that is not made of NULL is out once. -/
theorem Holds.out_once (holds : Holds k held live own runs slabsOf free list) (real : p ≠ nullPointer) :
    p ∉ held.erase p := by
  intro later
  have twice : 2 ≤ held.count p := by
    have more := List.count_pos_iff.mpr later
    rw [List.count_erase_self] at more
    omega
  have once := List.nodup_iff_count_le_one.mp holds.once p
  rw [List.count_filter (by simpa using real)] at once
  omega

/-- free of an object. -/
theorem Holds.freeSmall (holds : Holds k held live own runs slabsOf free list) (alive : q ∈ live)
    (fits : k.phys.mem q + 16 ≤ k.phys.mem (objSizeAt (slabOf q))) :
    ∃ k' live' free', (∀ fuel, Stdlib.free fuel k (q + 16) = some (.ok k')) ∧
      Holds k' (held.erase (q + 16)) live' own runs slabsOf free' list ∧
      Carries k k' (held.erase (q + 16)) live live' runs runs := by
  obtain ⟨header, path⟩ := SmallBlock.header holds.frames.inv alive fits
  obtain ⟨positive, below⟩ := holds.frames.inv.object_bounds alive
  have limit : vallocInitWindow.lo + 16 < 2 ^ 64 := by decide
  have pointer : wsub (q + 16) 16 = q := by
    rw [wsub_eq (by omega) (by omega), Nat.add_sub_cancel]
  obtain ⟨free', frames', spares, same⟩ := holds.frames.giveObject alive
  have real : q + 16 ≠ nullPointer := by
    unfold nullPointer
    omega
  have others : ∀ p ∈ held.erase (q + 16), ∀ o ∈ live, p = o + 16 → o ∈ live.erase q := by
    rintro p inRest o alive' rfl
    refine (List.mem_erase_of_ne ?_).mpr alive'
    rintro rfl
    exact holds.out_once real inRest
  obtain ⟨holds', carries⟩ := holds.steady frames' same rfl List.erase_sublist spares others
    (fun _ alive' => alive')
  refine ⟨_, live.erase q, free', ?_, holds', carries⟩
  intro fuel
  simp only [Stdlib.free, pointer, header, freeBy, path]

/-- Pages of malloc that are mapped elsewhere are not among those of a list of addresses. -/
theorem FramesInv.elsewhere (frames : FramesInv k live own runs slabsOf free list) {virts : List Nat} {x : Nat}
    (placed : ∀ v ∈ virts, Placed runs v) (distinct : virts.Pairwise (fun v w => pageBits v ≠ pageBits w))
    (placedX : Placed runs x) (away : ∀ v ∈ virts, pageBits x ≠ pageBits v) (isOwn : q ∈ own)
    (maps : MapsTo k.phys k.topLevel x q) : q ∉ mappedFrames k.phys k.topLevel virts := by
  intro member
  obtain ⟨_, v, inVirts, maps'⟩ := (frames.ownFrames placed distinct).2 q member
  exact away v inVirts (frames.single q isOwn x v placedX (placed v inVirts) maps maps')

/-- The state after a loop of free: the blocks at other addresses come through. -/
theorem Holds.carry_unmapped {own' list' rest virts : List Nat}
    (holds : Holds k held live own runs slabsOf free list) (placed : ∀ v ∈ virts, Placed runs v)
    (distinct : virts.Pairwise (fun v w => pageBits v ≠ pageBits w))
    (frames' : FramesInv k' live own' runs slabsOf free list') (spares : Spares k k' live own')
    (back : Returned k.phys k'.phys k.topLevel virts (mappedFrames k.phys k.topLevel virts))
    (own_iff : ∀ q, q ∈ own' ↔ q ∈ own ∧ q ∉ mappedFrames k.phys k.topLevel virts)
    (away : ∀ base size, base + 16 ∈ rest → LargeBlock k runs base size →
      ⟨base, runLength size⟩ ∈ k'.ranges.usedRanges.nodes ∧
      ∀ v ∈ runPages base size, ∀ w ∈ virts, pageBits v ≠ pageBits w) :
    Carries k k' rest live live runs runs := by
  have frames := holds.frames
  have tiling := frames.inv.tiling
  refine Carries.of_spares frames frames' spares (fun _ _ o alive _ => alive) (fun _ alive => alive)
    (fun _ member => member) ?_
  intro base size inRest block
  obtain ⟨node, apart⟩ := away base size inRest block
  refine ⟨node, ?_, ?_⟩
  · intro v member
    have region := paged_region (frames.paged (block.placed (block.page_inside tiling member)))
    rw [spares.topLevel, back.leaves v region, if_neg]
    rintro ⟨w, inVirts, same⟩
    exact apart v member w inVirts same
  · intro r isOwn maps
    have first := block.first tiling
    exact (own_iff r).mpr ⟨isOwn, frames.elsewhere placed distinct
      (block.placed (block.page_inside tiling first)) (apart base first) isOwn maps⟩

/-- Only a range that is split needs a node. -/
theorem vfreeNodes_zero {pm : Ranges} {vaddr : Nat} (code : (Vma.vfree pm vaddr size).1 ≤ 1) :
    vfreeNodes pm vaddr size = 0 := by
  unfold vfreeNodes
  split
  · omega
  · omega
  · rfl

theorem kfree_null (h : KHeap) : kfree h 0 = h := if_pos rfl

/-- free of a pointer made of NULL gives the pages of the lower half back that the header there
counts. No range is released. -/
theorem Holds.freeNull {fuel : Nat} (holds : Holds k held live own runs slabsOf free list)
    (ran : Stdlib.free fuel k nullPointer = some (.ok k')) :
    ∃ own' list', Holds k' (held.erase nullPointer) live own' runs slabsOf free list' ∧
      Carries k k' (held.erase nullPointer) live live runs runs := by
  have frames := holds.frames
  have tiling := frames.inv.tiling
  have pointer : wsub nullPointer 16 = 0 := by decide
  cases header : k.readWord 0 with
  | none =>
    simp only [Stdlib.free, pointer, header] at ran
    cases ran
  | some size =>
    simp only [Stdlib.free, pointer, header] at ran
    cases path : blockPath size with
    | slab =>
      rw [path] at ran
      have same : k' = k := by
        have result := Except.ok.inj (Option.some.inj ran)
        rw [kfree_null] at result
        exact result.symm
      subst same
      have carries : Carries k' k' (held.erase nullPointer) live live runs runs :=
        ⟨rfl, fun _ _ small => small, fun _ _ _ block => ⟨block, fun _ _ => rfl⟩⟩
      exact ⟨own, list, holds.carry frames List.erase_sublist carries holds.low, carries⟩
    | page =>
      rw [path] at ran
      have short := holds.low size header
      have lower : ∀ v ∈ runPages 0 size, v < 2 ^ 47 := by
        intro v member
        obtain ⟨i, small, rfl⟩ := (mem_run (by omega)).mp member
        omega
      have placed : ∀ v ∈ runPages 0 size, Placed runs v := fun v member => .inl (lower v member)
      have distinct := @run_distinct 0 size (by omega) (by decide) (fun v member => .inl (lower v member))
      obtain ⟨s', own', unmapped, back, own_iff, frames', spares⟩ := frames.unmapAll placed distinct
      have refused : Vma.vfree k.ranges 0 (wadd size 16) = (0, k.ranges) := by
        have none : k.ranges.usedRanges.find ⟨0, 0⟩ = none := by
          rw [tiling.sound_used.find_none]
          rintro ⟨span, member, inside⟩
          obtain ⟨r, listed, rfl⟩ := List.mem_map.mp member
          have low := (tiling.limits (List.mem_append_right _ listed)).1
          have start : vallocInitWindow.lo = 0xFFFFA00000000000 := rfl
          have below := inside.1
          simp only [PageRange.span] at below
          omega
        unfold Vma.vfree
        rw [none]
        split
        · rfl
        · rfl
      have result : k' = k.withPhys s' := by
        have nodes : vfreeNodes k.ranges 0 (wadd size 16) = 0 := vfreeNodes_zero (by rw [refused]; exact Nat.zero_le 1)
        simp only [freeBy, unmapped, kernelVfree, withPhys_ranges, nodes, mallocNodes, Option.map_some, Except.map,
          refused, Option.some.injEq, Except.ok.injEq] at ran
        exact ran.symm
      subst result
      have carries : Carries k (k.withPhys s') (held.erase nullPointer) live live runs runs := by
        refine holds.carry_unmapped placed distinct frames' spares back own_iff ?_
        intro base size' _ block
        exact ⟨block.node, fun v member w inVirts => block.page_lower tiling member (lower w inVirts)⟩
      refine ⟨own', _, holds.carry frames' List.erase_sublist carries ?_, carries⟩
      intro size' there
      have entry := back.leaves 0 (paged_region (.inl (by decide)))
      split at entry
      · -- the page with the header is gone
        rcases frames'.translate_cases (placed_zero runs) with ⟨_, none⟩ | ⟨q, isOwn, maps, _⟩
        · rw [Kernel.readWord, none] at there
          cases there
        · have present := (maps.looked frames'.inv.heap.pmm.layout (frames'.owned.used q isOwn)).1
          change isPresent (leaf s' k.topLevel 0) = true at present
          rw [entry, isPresent_zero] at present
          cases present
      · rename_i absent
        apply holds.low size'
        rw [← there]
        refine (frames.readWord_kept frames' spares (placed_zero runs) (placed_zero runs) (by decide) entry ?_).symm
        intro q isOwn maps
        refine (own_iff q).mpr ⟨isOwn, frames.elsewhere placed distinct (placed_zero runs) ?_ isOwn maps⟩
        exact fun v member same => absent ⟨v, member, same⟩

/-- The pages of two blocks are different pages. -/
theorem LargeBlock.pages_apart {other size' v w : Nat} (block : LargeBlock k runs base size)
    (block' : LargeBlock k runs other size') (tiling : Tiling vallocInitWindow k.ranges) (different : base ≠ other)
    (inV : v ∈ runPages base size) (inW : w ∈ runPages other size') (windows : ∀ r ∈ runs, ∀ x, Inside x r → InWindow x) :
    pageBits v ≠ pageBits w := by
  intro same
  have insideV := block.page_inside tiling inV
  have insideW := block'.page_inside tiling inW
  have page := (pageBits_window (windows _ block.run v insideV) (windows _ block'.run w insideW)).mp same
  have limit : vallocInitWindow.hi < 2 ^ 64 := by decide
  obtain ⟨alignedB, _, highB, _⟩ := block.limits tiling
  obtain ⟨alignedO, _, highO, _⟩ := block'.limits tiling
  obtain ⟨i, _, shapeV⟩ := (mem_run (by omega)).mp inV
  obtain ⟨j, _, shapeW⟩ := (mem_run (by omega)).mp inW
  have equal : v = w := by omega
  subst equal
  have nodes := tiling.unique (List.mem_append_right _ block.node) (List.mem_append_right _ block'.node) insideV insideW
  exact different (congrArg PageRange.vaddr nodes)

/-- The pages of a block are placed, and different. -/
theorem Holds.block_pages (holds : Holds k held live own runs slabsOf free list) (block : LargeBlock k runs base size) :
    (∀ v ∈ runPages base size, Placed runs v) ∧
      (runPages base size).Pairwise (fun v w => pageBits v ≠ pageBits w) := by
  have tiling := holds.frames.inv.tiling
  have limit : vallocInitWindow.hi < 2 ^ 64 := by decide
  obtain ⟨aligned, _, high, _⟩ := block.limits tiling
  have placed : ∀ v ∈ runPages base size, Placed runs v := fun v member =>
    block.placed (block.page_inside tiling member)
  exact ⟨placed, run_distinct (by omega) aligned (fun v member => holds.frames.paged (placed v member))⟩

/-- What free does to a block of pages and to what is around it. -/
structure Released (k k' : Kernel) (live own own' : List Nat) (base size : Nat) : Prop where
  spares : Spares k k' live own'
  own_iff : ∀ q, q ∈ own' ↔ q ∈ own ∧ q ∉ mappedFrames k.phys k.topLevel (runPages base size)
  back : Returned k.phys k'.phys k.topLevel (runPages base size)
    (mappedFrames k.phys k.topLevel (runPages base size))
  usedRanges : k'.ranges.usedRanges.nodes = k.ranges.usedRanges.nodes.erase ⟨base, runLength size⟩
  freeRanges : k'.ranges.freeRanges.nodes.Perm (⟨base, runLength size⟩ :: k.ranges.freeRanges.nodes)

/-- free of a block of pages: the three sizes it computes are those of malloc. -/
theorem Holds.freeLarge (holds : Holds k held live own runs slabsOf free list)
    (block : LargeBlock k runs base size) :
    ∃ k' own', (∀ fuel, Stdlib.free fuel k (base + 16) = some (.ok k')) ∧
      Holds k' (held.erase (base + 16)) live own' runs slabsOf free
        ((mappedFrames k.phys k.topLevel (runPages base size)).reverse.map (fun q => q + k.phys.hhdmOffset) ++ list) ∧
      Carries k k' (held.erase (base + 16)) live live runs runs ∧ Released k k' live own own' base size := by
  have frames := holds.frames
  have tiling := frames.inv.tiling
  have window : vallocInitWindow.lo = 0xFFFFA00000000000 ∧ vallocInitWindow.hi = 0xFFFFE00000000000 :=
    ⟨rfl, rfl⟩
  obtain ⟨aligned, low, high, positive⟩ := block.limits tiling
  obtain ⟨placed, distinct⟩ := holds.block_pages block
  obtain ⟨s', own', unmapped, back, own_iff, frames', spares⟩ := frames.unmapAll placed distinct
  have length := runLength_roundup block.rounds
  have node := block.node
  rw [length] at node
  obtain ⟨f, u, released, carve, nodes⟩ := tiling.vfree_whole block.rounds node
  rw [← length] at carve nodes
  have gone : ∀ x, Inside x (base, base + runLength size) → isPresent (leaf s' k.topLevel x) = false := by
    intro x inside
    have inRun := run_page (by omega) aligned inside
    have samePage : pageBits x = pageBits (x / 4096 * 4096) :=
      (pageBits_window (frames.window _ block.run x inside)
        (frames.window _ block.run _ (block.page_inside tiling inRun))).mpr (by omega)
    rw [back.leaves x (paged_region (frames.paged (block.placed inside))), if_pos ⟨_, inRun, samePage⟩]
    exact isPresent_zero
  have frames₂ := frames'.withRanges (frames'.inv.release carve aligned
    (tiling.aligned _ (List.mem_append_right _ block.node)).2 gone k.ranges.refused)
  generalize shape : ({ k.withPhys s' with ranges := ⟨f, u, k.ranges.refused⟩ } : Kernel) = k' at frames₂
  have spares' : Spares k k' live own' := by
    rw [← shape]
    exact ⟨spares.topLevel, spares.hhdm, spares.sizes, spares.words⟩
  have back' : Returned k.phys k'.phys k.topLevel (runPages base size)
      (mappedFrames k.phys k.topLevel (runPages base size)) := by
    rw [← shape]
    exact back
  have used' : k'.ranges.usedRanges.nodes = k.ranges.usedRanges.nodes.erase ⟨base, runLength size⟩ := by
    rw [← shape]
    exact nodes
  have real : base + 16 ≠ nullPointer := by
    unfold nullPointer
    omega
  have carries : Carries k k' (held.erase (base + 16)) live live runs runs := by
    refine holds.carry_unmapped placed distinct frames₂ spares' back' own_iff ?_
    intro other size' inRest block'
    have different : other ≠ base := by
      rintro rfl
      exact holds.out_once real inRest
    refine ⟨?_, fun v inV w inW => block'.pages_apart block tiling different inV inW frames.window⟩
    rw [used']
    refine (List.mem_erase_of_ne ?_).mpr block'.node
    exact fun same => different (congrArg PageRange.vaddr same)
  refine ⟨k', own', ?_, holds.carry frames₂ List.erase_sublist carries ?_, carries,
    ⟨spares', own_iff, back', used', ?_⟩⟩
  · intro fuel
    have pointer : wsub (base + 16) 16 = base := by
      rw [wsub_eq (by omega) (by omega), Nat.add_sub_cancel]
    have none : vfreeNodes k.ranges base (wadd size 16) = 0 := vfreeNodes_zero (by rw [released])
    simp only [Stdlib.free, pointer, block.header, block.path, freeBy, unmapped, kernelVfree, withPhys_ranges, none,
      mallocNodes, Option.map_some, Except.map, released]
    rw [← shape]
  · intro size' there
    apply holds.low size'
    rw [← there]
    have away : ∀ v ∈ runPages base size, pageBits 0 ≠ pageBits v := fun v member same =>
      block.page_lower tiling member (w := 0) (by decide) same.symm
    refine (frames.readWord_kept frames₂ spares' (placed_zero runs) (placed_zero runs) (by decide) ?_ ?_).symm
    · rw [spares'.topLevel, back'.leaves 0 (paged_region (.inl (by decide))), if_neg]
      rintro ⟨v, member, same⟩
      exact away v member same
    · intro q isOwn maps
      exact (own_iff q).mpr ⟨isOwn, frames.elsewhere placed distinct (placed_zero runs) away isOwn maps⟩
  · rw [← shape]
    exact carve.moved

end Frees

end EvalynOS.Stdlib
