import EvalynOS.Libc.Blocks

/-! What every call of malloc does to the blocks that are out. -/
namespace EvalynOS.Stdlib
open Lib Lib.Word Pmm Vmm Heap
open Vma (Ranges Tiling UsedAt FreeAt Carve PageRange roundup vallocInitWindow)

section Small

variable {k k' : Kernel} {runs : List (Nat × Nat)} {held live own list : List Nat}
  {slabsOf free : Nat → List Nat} {base fuel size p : Nat}

/-- Objects are in the direct map, below the window of valloc. -/
theorem KernelInv.object_bounds (inv : KernelInv k live runs slabsOf free list) (alive : p ∈ live) :
    0 < p ∧ p < vallocInitWindow.lo := by
  obtain ⟨c, member, home⟩ := inv.heap.homes p alive
  have objSize := (inv.heap.slabs c member _ home).objSize
  have positive := (slabSizes_bounds member).1
  change k.phys.mem (objSizeAt (slabOf p)) = c at objSize
  obtain ⟨low, high⟩ := inv.object_direct alive ⟨Nat.le_refl p, by omega⟩
  have start := inv.direct.start
  exact ⟨by omega, high⟩

/-- A pointer that is not out yet, or is made of NULL. -/
theorem Holds.add (holds : Holds k held live own runs slabsOf free list)
    (block : p = nullPointer ∨ SmallBlock k live p ∨ ∃ base size, p = base + 16 ∧ LargeBlock k runs base size)
    (fresh : p ≠ nullPointer → p ∉ held) : Holds k (p :: held) live own runs slabsOf free list := by
  refine ⟨holds.frames, ?_, ?_, holds.low⟩
  · intro r member
    rcases List.mem_cons.mp member with rfl | old
    · exact block
    · exact holds.blocks r old
  · by_cases null : p = nullPointer
    · rw [List.filter_cons_of_neg (by simp [null])]
      exact holds.once
    · rw [List.filter_cons_of_pos (by simp [null])]
      refine List.nodup_cons.mpr ⟨?_, holds.once⟩
      exact fun member => fresh null (List.mem_of_mem_filter member)

theorem placed_zero (runs : List (Nat × Nat)) : Placed runs 0 := .inl (by decide)

/-- Where the tables and the ranges stay the same, the blocks stay. -/
theorem Holds.steady {live' list' rest : List Nat} {slabsOf' free' : Nat → List Nat}
    (holds : Holds k held live own runs slabsOf free list)
    (frames' : FramesInv k' live' own runs slabsOf' free' list') (same : Steady k k')
    (ranges : k'.ranges.usedRanges.nodes = k.ranges.usedRanges.nodes) (fewer : rest.Sublist held)
    {live₀ : List Nat} (spares : Spares k k' live₀ own) (objects : ∀ p ∈ rest, ∀ q ∈ live, p = q + 16 → q ∈ live₀)
    (kept : ∀ q ∈ live₀, q ∈ live') :
    Holds k' rest live' own runs slabsOf' free' list' ∧ Carries k k' rest live live' runs runs := by
  have frames := holds.frames
  have carries : Carries k k' rest live live' runs runs := by
    refine Carries.of_spares frames frames' spares objects kept (fun _ member => member) ?_
    intro base size _ block
    refine ⟨ranges ▸ block.node, ?_, fun _ isOwn _ => isOwn⟩
    intro v member
    exact same.leaves v (paged_region (frames.paged (block.placed (block.page_inside frames.inv.tiling member))))
  refine ⟨holds.carry frames' fewer carries ?_, carries⟩
  intro size there
  apply holds.low size
  rw [← there]
  exact (frames.readWord_kept frames' spares (placed_zero runs) (placed_zero runs) (by decide)
    (same.leaves 0 (paged_region (.inl (by decide)))) (fun _ isOwn _ => isOwn)).symm

/-- malloc of an object. -/
theorem Holds.mallocSmall (holds : Holds k held live own runs slabsOf free list) (small : size ≤ 1024)
    (ran : slabMalloc fuel k size = some (.ok (p, k'))) :
    ∃ live' slabsOf' free' list', Holds k' (p :: held) live' own runs slabsOf' free' list' ∧
      Carries k k' held live live' runs runs := by
  have fits : size ≤ 1008 := by
    by_contra large
    cases (slabMalloc_noMem holds.frames.inv.heap (by omega) small fuel).symm.trans ran
  obtain ⟨q, c, slabsOf', free', list', rfl, frames', spares, block, isClass⟩ := holds.frames.takeObject fits ran
  have object : SmallBlock k' (q :: live) (q + 16) := by
    refine ⟨q, List.mem_cons_self, rfl, ?_⟩
    rw [block.header, block.objSize]
    exact isClass.2.1
  obtain ⟨holds', carries⟩ := holds.steady frames' block.same (by rw [block.ranges]) (List.Sublist.refl held) spares
    (fun _ _ q alive _ => alive) (fun r alive => List.mem_cons_of_mem q alive)
  refine ⟨q :: live, slabsOf', free', list', holds'.add (.inr (.inl object)) ?_, carries⟩
  intro _ member
  obtain ⟨positive, direct⟩ := frames'.inv.object_bounds List.mem_cons_self
  rcases holds.blocks _ member with null | ⟨r, alive, same, _⟩ | ⟨base, large, same, block'⟩
  · unfold nullPointer at null
    omega
  · cases Nat.add_right_cancel same
    exact block.dead alive
  · obtain ⟨_, window, _⟩ := block'.limits holds.frames.inv.tiling
    omega

end Small

section Reserve

variable {k k' : Kernel} {runs : List (Nat × Nat)} {live own list : List Nat} {slabsOf free : Nat → List Nat}
  {fuel size n b p : Nat}

/-- Where valloc finds nothing it needs no node. -/
theorem splitsRange_none (pm : Ranges) (n : Nat) (short : ∀ r ∈ pm.freeRanges.nodes, r.size < alignUp n pageSize) :
    splitsRange pm n = false := by
  have none : pm.freeRanges.nodes.find? (fun range => alignUp n pageSize ≤ range.size) = none := by
    rw [List.find?_eq_none]
    intro r member
    have less := short r member
    simp only [decide_eq_true_eq]
    omega
  unfold splitsRange
  rw [none]
  split
  · rfl
  · rfl

/-- valloc takes an object for the node of a split range, and changes the ranges. -/
theorem FramesInv.rangeNode (frames : FramesInv k live own runs slabsOf free list)
    (ran : kernelValloc fuel k n = some (.ok (b, k'))) :
    ∃ k₁ live' slabsOf' free' list', b = (Vma.valloc k.ranges n).1 ∧
      k' = { k₁ with ranges := (Vma.valloc k.ranges n).2 } ∧ k₁.ranges = k.ranges ∧
      (∀ p ∈ live, p ∈ live') ∧ FramesInv k₁ live' own runs slabsOf' free' list' ∧
      Spares k k₁ live own ∧ Steady k k₁ ∧ (splitsRange k.ranges n = false → k₁ = k) := by
  unfold kernelValloc at ran
  dsimp only at ran
  split at ran
  · rename_i splits
    obtain ⟨result, made, after⟩ := Option.map_eq_some_iff.mp ran
    cases result with
    | error e => cases after
    | ok pair =>
      obtain ⟨node, k₁⟩ := pair
      cases Except.ok.inj after
      obtain ⟨q, c, slabsOf', free', list', _, frames', spares, block, _⟩ := frames.takeObject (by decide) made
      refine ⟨k₁, q :: live, slabsOf', free', list', rfl, rfl, block.ranges, ?_, frames', spares, block.same, ?_⟩
      · exact fun r alive => List.mem_cons_of_mem q alive
      · intro whole
        rw [splits] at whole
        cases whole
  · cases Except.ok.inj (Option.some.inj ran)
    exact ⟨k, live, slabsOf, free, list, rfl, rfl, rfl, fun _ alive => alive, frames, Spares.refl k live own,
      ⟨rfl, rfl, rfl, fun _ page => page, fun _ used => used, fun _ _ => rfl, fun _ _ => rfl⟩, fun _ => rfl⟩

/-- valloc of a size that rounds to zero: the first free range is found, but nothing of it
is mapped. -/
theorem valloc_wraps (frames : FramesInv k live own runs slabsOf free list) (positive : n ≠ 0)
    (wraps : alignUp n pageSize = 0) {r : PageRange} {rest : List PageRange}
    (some_ : k.ranges.freeRanges.nodes = r :: rest) : (Vma.valloc k.ranges n).1 = r.vaddr ∧
      InWindow r.vaddr ∧ isPresent (leaf k.phys k.topLevel r.vaddr) = false := by
  have member : r ∈ k.ranges.freeRanges.nodes := by
    rw [some_]
    exact List.mem_cons_self
  obtain ⟨_, _, size⟩ := frames.inv.tiling.limits (List.mem_append_left _ member)
  have isFree : FreeAt k.ranges r.vaddr :=
    ⟨r.span, List.mem_map_of_mem member, Nat.le_refl _, Nat.lt_add_of_pos_right size⟩
  have found : k.ranges.freeRanges.nodes.find? (fun range => alignUp n pageSize ≤ range.size) = some r := by
    rw [some_, wraps]
    simp
  refine ⟨?_, freeAt_window frames.inv isFree, frames.inv.unmapped isFree⟩
  change k.ranges.freeRanges.nodes.find? (fun range => alignUp n Vma.pageSize ≤ range.size) = some r at found
  unfold Vma.valloc
  rw [if_neg positive]
  dsimp only
  rw [found, if_neg (by rw [some_]; exact List.cons_ne_nil _ _)]
  dsimp only
  split
  · rfl
  · rfl

/-- What valloc does with the size that malloc gives it: it carves a range, it fails, or the
size wraps and the answer is an address that is not mapped. -/
theorem FramesInv.valloc (frames : FramesInv k live own runs slabsOf free list) (small : n < 2 ^ 64)
    (ran : kernelValloc fuel k n = some (.ok (b, k'))) :
    (∃ r f u live' slabsOf' free' list', 1 ≤ n ∧ n + 4095 < 2 ^ 64 ∧ b = r.vaddr ∧
      Carve k.ranges.freeRanges.nodes f.nodes k.ranges.usedRanges.nodes u.nodes r ⟨r.vaddr, roundup n⟩ ∧
      k'.ranges = ⟨f, u, k.ranges.refused⟩ ∧ (∀ p ∈ live, p ∈ live') ∧
      FramesInv k' live' own runs slabsOf' free' list' ∧ Spares k k' live own ∧ Steady k k') ∨
    (b = 0 ∧ k' = k) ∨ (alignUp n pageSize = 0 ∧ k'.translate b = none) := by
  obtain ⟨k₁, live', slabsOf', free', list', rfl, rfl, ranges, more, frames', spares, same, whole⟩ :=
    frames.rangeNode ran
  by_cases zero : n = 0
  · subst zero
    refine .inr (.inl ⟨rfl, ?_⟩)
    rw [whole rfl]
    rfl
  by_cases rounds : n + 4095 < 2 ^ 64
  · rcases Vma.valloc_cases frames.inv.tiling (by omega) rounds with ⟨failed, short⟩ | ⟨r, f, u, answer, carve⟩
    · right; left
      rw [failed, whole]
      · exact ⟨rfl, rfl⟩
      · apply splitsRange_none
        intro r member
        change r.size < alignUp n Vma.pageSize
        rw [Vma.alignUp_roundup rounds]
        exact short r member
    · left
      have aligned := frames.inv.tiling.aligned r (List.mem_append_left _ carve.member)
      rw [answer]
      refine ⟨r, f, u, live', slabsOf', free', list', by omega, rounds, rfl, carve, rfl, more, ?_, ?_, ?_⟩
      · apply frames'.withRanges
        have carve' := carve
        rw [← ranges] at carve'
        exact frames'.inv.reserve carve' aligned.1 (Vma.roundup_dvd n) k.ranges.refused
      · exact ⟨spares.topLevel, spares.hhdm, spares.sizes, spares.words⟩
      · exact ⟨same.topLevel, same.hhdm, same.total, same.pages, same.used, same.lookup, same.leaves⟩
  · have wraps : alignUp n pageSize = 0 := by
      have shape : alignUp n (2 ^ 12) = wadd n (2 ^ 12 - 1) / 2 ^ 12 * 2 ^ 12 := alignUp_pow (by decide)
      have page : pageSize = 2 ^ 12 := by decide
      rw [page, shape]
      unfold wadd
      omega
    right
    match free : k.ranges.freeRanges.nodes with
    | [] =>
      left
      have failed : Vma.valloc k.ranges n = (0, k.ranges) := by
        unfold Vma.valloc
        rw [if_neg zero, if_pos free]
      rw [failed, whole (splitsRange_none k.ranges n (by simp [free]))]
      exact ⟨rfl, rfl⟩
    | r :: rest =>
      right
      obtain ⟨answer, inWindow, absent⟩ := valloc_wraps frames zero wraps free
      refine ⟨wraps, ?_⟩
      rw [answer]
      have paged : Paged r.vaddr := .inr inWindow
      have looked : k₁.translate r.vaddr = none := by
        rw [same.translate (.inr paged)]
        unfold Kernel.translate
        rw [if_neg (paged.not_direct frames.inv.direct), vmmGetPhys_eq, absent]
        rfl
      exact looked

end Reserve

section Header

variable {k k' : Kernel} {runs : List (Nat × Nat)} {held live own list : List Nat} {slabsOf free : Nat → List Nat}
  {fuel size base p h : Nat}

theorem pageMalloc_parts (ran : pageMalloc fuel k size = some (.ok (p, k'))) :
    ∃ b k₁ s, kernelValloc fuel k (wadd size 16) = some (.ok (b, k₁)) ∧
      mapNewPages k₁.topLevel pageFlags (runPages b size) k₁.phys = .ok s ∧
      (k₁.withPhys s).writeWord b size = .ok k' ∧ p = wadd b 16 := by
  obtain ⟨result, reserved, rest⟩ := Option.map_eq_some_iff.mp ran
  cases result with
  | error e => cases rest
  | ok pair =>
    obtain ⟨b, k₁⟩ := pair
    simp only [bind, Except.bind] at rest
    split at rest
    · cases rest
    · rename_i s mapped
      split at rest
      · cases rest
      · rename_i k₂ written
        cases Except.ok.inj rest
        exact ⟨b, k₁, s, reserved, mapped, written, rfl⟩

/-- The header is the first word of a page of malloc. -/
theorem FramesInv.writeHeader (frames : FramesInv k live own runs slabsOf free list) (placed : Placed runs h)
    (aligned : 4096 ∣ h) (ran : k.writeWord h size = .ok k') :
    ∃ q ∈ own, MapsTo k.phys k.topLevel h q ∧ FramesInv k' live own runs slabsOf free list ∧ Steady k k' ∧
      Spares k k' live (own.erase q) ∧ k'.readWord h = some size ∧ k'.ranges = k.ranges := by
  have start : h % pageSize = 0 := Nat.mod_eq_zero_of_dvd aligned
  rcases frames.translate_cases placed with ⟨_, none⟩ | ⟨q, isOwn, maps, _, there⟩
  · rw [Kernel.writeWord, none] at ran
    cases ran
  · rw [start, Nat.add_zero] at there
    rw [Kernel.writeWord, there] at ran
    cases Except.ok.inj ran
    have clients : ∀ a, ¬ MayWrite k.heap live own a →
        k.phys.mem.store (q + k.phys.hhdmOffset) size a = k.phys.mem a := by
      intro a outside
      apply Memory.store_other
      rintro rfl
      exact outside (.inr ⟨q, isOwn, first_word k.phys q⟩)
    obtain ⟨frames', same⟩ := frames.write clients
    refine ⟨q, isOwn, maps, frames', same, ⟨rfl, rfl, ?_, ?_⟩, ?_, rfl⟩
    · exact fun r alive => objSize_kept frames.inv.heap frames'.inv.heap alive
    · rintro a (⟨r, alive, inside⟩ | ⟨r, later, inFrame⟩)
      · apply Memory.store_other
        rintro rfl
        exact object_not_own frames.inv.heap frames.owned alive inside isOwn (first_word _ q)
      · obtain ⟨other, isOwn'⟩ := frames.owned.nodup.mem_erase_iff.mp later
        apply Memory.store_other
        rintro rfl
        exact other (frame_apart frames.inv.heap.pmm.layout (frames.owned.used r isOwn')
          (frames.owned.used q isOwn) inFrame (first_word _ q))
    · unfold Kernel.readWord
      rw [same.translate (.inr (frames.paged placed)), there, Option.map_some, withMem_phys]
      exact congrArg some (Memory.store_same _ _ _)

/-- The loop of malloc on a list of placed addresses. -/
theorem mapNewPages_mapped {virts : List Nat} {flags : Nat} {s' : Phys} (inv : KernelInv k live runs slabsOf free list)
    (paged : ∀ v ∈ virts, Paged v) (ran : mapNewPages k.topLevel flags virts k.phys = .ok s') :
    ∃ list', Inv s' list' ∧ Mapped k.phys s' k.topLevel kernelRegion virts flags := by
  rcases @mapNewPages_outcome k.phys k.topLevel flags kernelRegion list virts inv.heap.pmm inv.tree
    (fun v member => paged_region (paged v member)) with ⟨s, list', returned, inv', mapped⟩ | ⟨failed, _⟩
  · cases Except.ok.inj (returned.symm.trans ran)
    exact ⟨list', inv', mapped⟩
  · cases failed.symm.trans ran

theorem mapNewPages_append {top flags : Nat} {before after : List Nat} {s s' : Phys}
    (ran : mapNewPages top flags (before ++ after) s = .ok s') :
    ∃ s₁, mapNewPages top flags before s = .ok s₁ ∧ mapNewPages top flags after s₁ = .ok s' := by
  induction before generalizing s with
  | nil => exact ⟨s, rfl, ran⟩
  | cons v rest ih =>
    simp only [List.cons_append, mapNewPages, bind, Except.bind] at ran ⊢
    split at ran
    · cases ran
    · exact ih ran

/-- There are not enough pages for a run that leaves the lower half. -/
theorem KernelInv.lower_run {s' : Phys} {flags : Nat} (inv : KernelInv k live runs slabsOf free list)
    (ran : mapNewPages k.topLevel flags (runPages 0 size) k.phys = .ok s') : runLength size ≤ 2 ^ 47 := by
  have whole := runLength_eq size
  have below := runLength_lt size
  have length : (runPages 0 size).length = runLength size / 4096 := by
    change ((List.range (runLength size / 4096)).map (fun i => wadd 0 (i * 4096))).length = _
    rw [List.length_map, List.length_range]
  rw [← List.take_append_drop (2 ^ 32 + 1) (runPages 0 size)] at ran
  obtain ⟨s₁, first, _⟩ := mapNewPages_append ran
  have paged : ∀ v ∈ (runPages 0 size).take (2 ^ 32 + 1), Paged v := by
    intro v member
    obtain ⟨i, small, rfl⟩ := List.mem_take_iff_getElem.mp member
    have start : (runPages 0 size)[i] = wadd 0 (i * 4096) := by
      simp only [runPages, List.getElem_map, List.getElem_range]
      rfl
    left
    rw [start]
    unfold wadd
    omega
  obtain ⟨list', inv', mapped⟩ := mapNewPages_mapped inv paged first
  have cost := mapped.made.cost
  have total := mapped.kept.total
  have room := inv'.used_le
  have few := inv.direct.total
  rw [List.length_take, length] at cost
  omega

end Header

/-- The pages of a run were not mapped, and are mapped to pages that were not in use. -/
structure FreshRun (k k' : Kernel) (base size : Nat) : Prop where
  unmapped : ∀ v ∈ runPages base size, isPresent (leaf k.phys k.topLevel v) = false
  mapped : ∀ v ∈ runPages base size, ∃ q, MapsTo k'.phys k'.topLevel v q ∧ ¬ PageIs k.phys q .used ∧
    PageIs k'.phys q .used

section Large

variable {k k₁ k' : Kernel} {runs : List (Nat × Nat)} {held live live₁ own list list₁ : List Nat}
  {slabsOf slabsOf₁ free free₁ : Nat → List Nat} {fuel size base p : Nat} {s : Phys}

/-- Pages of the lower half and of the window are different, and so are a new run's and an old one's. -/
theorem LargeBlock.page_lower (block : LargeBlock k runs base size) (tiling : Tiling vallocInitWindow k.ranges)
    {v w : Nat} (member : v ∈ runPages base size) (lower : w < 2 ^ 47) : pageBits v ≠ pageBits w := by
  obtain ⟨_, low, high, _⟩ := block.limits tiling
  obtain ⟨start, stop⟩ := block.page_inside tiling member
  have bounds : vallocInitWindow.lo = 0xFFFFA00000000000 ∧ vallocInitWindow.hi = 0xFFFFE00000000000 :=
    ⟨rfl, rfl⟩
  simp only at start stop
  rw [Ne, pageBits_paged (.inr ⟨by omega, by omega⟩) (.inl lower)]
  omega

/-- When valloc fails the pages go to the lower half. The blocks there are lost; no other is. -/
theorem Holds.mallocNull (holds : Holds k held live own runs slabsOf free list)
    (ran : mapNewPages k.topLevel pageFlags (runPages 0 size) k.phys = .ok s)
    (written : (k.withPhys s).writeWord 0 size = .ok k') :
    ∃ own' list', Holds k' (nullPointer :: held) live own' runs slabsOf free list' ∧
      Carries k k' held live live runs runs := by
  have frames := holds.frames
  have tiling := frames.inv.tiling
  have short := frames.inv.lower_run ran
  have lower : ∀ v ∈ runPages 0 size, v < 2 ^ 47 := by
    intro v member
    obtain ⟨i, small, rfl⟩ := (mem_run (by omega)).mp member
    omega
  obtain ⟨list', inv', mapped⟩ := mapNewPages_mapped frames.inv (fun v member => .inl (lower v member)) ran
  have bounds : vallocInitWindow.lo = 0xFFFFA00000000000 ∧ vallocInitWindow.hi = 0xFFFFE00000000000 :=
    ⟨rfl, rfl⟩
  obtain ⟨frames₁, spares₁⟩ := frames.mapped inv' mapped
    (fun v member => ⟨.inl (lower v member), fun inWindow => by
      have below := lower v member
      unfold InWindow at inWindow
      omega⟩) frames.window (fun _ placed => .inl placed)
  obtain ⟨q, isOwn, maps, frames', same, spares', header, ranges⟩ :=
    frames₁.writeHeader (placed_zero runs) (by decide) written
  have later : ∀ r ∈ own.erase q, r ∈ (framesOf s k.topLevel (runPages 0 size) ++ own).erase q := by
    intro r member
    obtain ⟨other, old⟩ := frames.owned.nodup.mem_erase_iff.mp member
    exact (List.mem_erase_of_ne other).mpr (List.mem_append_right _ old)
  have spares : Spares k k' live (own.erase q) :=
    (spares₁.mono (fun _ alive => alive) (fun r member => List.mem_of_mem_erase member)).trans
      (spares'.mono (fun _ alive => alive) later)
  have carries : Carries k k' held live live runs runs := by
    refine Carries.of_spares frames frames' spares (fun _ _ q alive _ => alive) (fun _ alive => alive)
      (fun _ member => member) ?_
    intro base size' _ block
    have leaves : ∀ v ∈ runPages base size', leaf s k.topLevel v = leaf k.phys k.topLevel v := by
      intro v member
      have placed := block.placed (block.page_inside tiling member)
      exact mapped.others v (paged_region (frames.paged placed))
        (fun u inVirts => block.page_lower tiling member (lower u inVirts))
    refine ⟨by rw [ranges]; exact block.node, ?_, ?_⟩
    · intro v member
      rw [← leaves v member]
      exact same.leaves v (paged_region (frames.paged (block.placed (block.page_inside tiling member))))
    · intro r isOwn' maps'
      refine frames.owned.nodup.mem_erase_iff.mpr ⟨?_, isOwn'⟩
      rintro rfl
      have first := block.first tiling
      have placed := block.placed (block.page_inside tiling first)
      exact block.page_lower tiling first (w := 0) (by decide)
        (frames₁.single r isOwn base 0 placed (placed_zero runs) ((leaves base first).trans maps') maps)
  have low' : ∀ size', k'.readWord 0 = some size' → runLength size' ≤ 2 ^ 47 := by
    intro size' there
    cases Option.some.inj (header.symm.trans there)
    exact short
  have holds' := holds.carry frames' (List.Sublist.refl held) carries low'
  exact ⟨_, list', holds'.add (.inl rfl) (fun null => absurd rfl null), carries⟩

/-- A carved range becomes a new block, with pages of its own. -/
theorem Holds.mallocRun (holds : Holds k held live own runs slabsOf free list)
    (frames₁ : FramesInv k₁ live₁ own runs slabsOf₁ free₁ list₁) (spares₁ : Spares k k₁ live own)
    (same₁ : Steady k k₁) (more : ∀ p ∈ live, p ∈ live₁) {r : PageRange} {f u : Vma.VallocTree}
    (large : 1024 < size) (positive : 1 ≤ wadd size 16) (rounds : wadd size 16 + 4095 < 2 ^ 64)
    (carve : Carve k.ranges.freeRanges.nodes f.nodes k.ranges.usedRanges.nodes u.nodes r
      ⟨r.vaddr, roundup (wadd size 16)⟩) (ranges₁ : k₁.ranges = ⟨f, u, k.ranges.refused⟩)
    (ran : mapNewPages k₁.topLevel pageFlags (runPages r.vaddr size) k₁.phys = .ok s)
    (written : (k₁.withPhys s).writeWord r.vaddr size = .ok k') :
    ∃ own' runs' list', Holds k' ((r.vaddr + 16) :: held) live₁ own' runs' slabsOf₁ free₁ list' ∧
      Carries k k' held live live₁ runs runs' ∧ LargeBlock k' runs' r.vaddr size ∧
      FreshRun k k' r.vaddr size := by
  have frames := holds.frames
  have tiling := frames.inv.tiling
  have window : vallocInitWindow.lo = 0xFFFFA00000000000 ∧ vallocInitWindow.hi = 0xFFFFE00000000000 :=
    ⟨rfl, rfl⟩
  have length := runLength_roundup rounds
  rw [← length] at carve
  obtain ⟨low, stop, _⟩ := tiling.limits (List.mem_append_left _ carve.member)
  have aligned := (tiling.aligned r (List.mem_append_left _ carve.member)).1
  have fits : r.vaddr + runLength size ≤ r.vaddr + r.size := carve.high
  have isFree : ∀ x, Inside x (r.vaddr, r.vaddr + runLength size) → FreeAt k.ranges x := fun x inside =>
    ⟨r.span, List.mem_map_of_mem carve.member, inside.1, inside.2.trans_le fits⟩
  have pageIn : ∀ v ∈ runPages r.vaddr size, Inside v (r.vaddr, r.vaddr + runLength size) := by
    intro v member
    obtain ⟨i, small, rfl⟩ := (mem_run (by omega)).mp member
    exact ⟨Nat.le_add_right _ _, Nat.add_lt_add_left small _⟩
  have inWindow : ∀ x, Inside x (r.vaddr, r.vaddr + runLength size) → InWindow x := fun x inside =>
    freeAt_window frames.inv (isFree x inside)
  have used₁ : ∀ x, Inside x (r.vaddr, r.vaddr + runLength size) → UsedAt k₁.ranges x := by
    intro x inside
    rw [ranges₁]
    exact (carve.dst_covers x).mpr (.inl inside)
  obtain ⟨list', inv', mapped⟩ := mapNewPages_mapped frames₁.inv
    (fun v member => .inr (inWindow v (pageIn v member))) ran
  have window' : ∀ run ∈ (r.vaddr, r.vaddr + runLength size) :: runs, ∀ x, Inside x run → InWindow x := by
    intro run member x inside
    rcases List.mem_cons.mp member with rfl | old
    · exact inWindow x inside
    · exact frames.window run old x inside
  have placed' : ∀ x, Placed ((r.vaddr, r.vaddr + runLength size) :: runs) x →
      Placed runs x ∨ ∃ v ∈ runPages r.vaddr size, pageBits x = pageBits v := by
    rintro x (lower | ⟨run, member, inside⟩)
    · exact .inl (.inl lower)
    · rcases List.mem_cons.mp member with rfl | old
      · have inRun := run_page (by omega) aligned inside
        refine .inr ⟨x / 4096 * 4096, inRun, ?_⟩
        rw [pageBits_window (inWindow x inside) (inWindow _ (pageIn _ inRun))]
        omega
      · exact .inl (.inr ⟨run, old, inside⟩)
  obtain ⟨frames₂, spares₂⟩ := frames₁.mapped inv' mapped
    (fun v member => ⟨.inr (inWindow v (pageIn v member)), fun _ => used₁ v (pageIn v member)⟩) window' placed'
  have nonempty : Inside r.vaddr (r.vaddr, r.vaddr + runLength size) :=
    ⟨Nat.le_refl _, Nat.lt_add_of_pos_right carve.positive⟩
  obtain ⟨q, _, maps, frames', same, spares', header, ranges'⟩ :=
    frames₂.writeHeader (.inr ⟨_, List.mem_cons_self, nonempty⟩) aligned written
  have some_ : 0 < runLength size := carve.positive
  have first : r.vaddr ∈ runPages r.vaddr size := (mem_run (by omega)).mpr ⟨0, by omega, by omega⟩
  -- the page with the header is a new one
  have notOwn : q ∉ own := by
    intro isOwn
    obtain ⟨p, entry, used, unused, _⟩ := mapped.mapped r.vaddr first
    have usedQ := mapped.kept.used q (frames₁.owned.used q isOwn)
    rw [← MapsTo.unique (show MapsTo s k₁.topLevel r.vaddr q from maps) entry inv'.layout usedQ used] at unused
    exact unused (frames₁.owned.used q isOwn)
  have later : ∀ p ∈ own, p ∈ (framesOf s k₁.topLevel (runPages r.vaddr size) ++ own).erase q := by
    intro p isOwn
    refine (List.mem_erase_of_ne ?_).mpr (List.mem_append_right _ isOwn)
    rintro rfl
    exact notOwn isOwn
  have spares : Spares k k' live own :=
    (spares₁.trans (spares₂.mono more (fun _ isOwn => isOwn))).trans (spares'.mono more later)
  have nodes : ∀ m, m ∈ k'.ranges.usedRanges.nodes ↔
      m = ⟨r.vaddr, runLength size⟩ ∨ m ∈ k.ranges.usedRanges.nodes := by
    intro m
    rw [ranges', withPhys_ranges, ranges₁, carve.moved.mem_iff, List.mem_cons]
  have others : ∀ v, kernelRegion (pml4i v) → (∀ w ∈ runPages r.vaddr size, pageBits v ≠ pageBits w) →
      leaf k'.phys k'.topLevel v = leaf k.phys k.topLevel v := by
    intro v region different
    exact (same.leaves v region).trans ((mapped.others v region different).trans (same₁.leaves v region))
  have carries : Carries k k' held live live₁ runs ((r.vaddr, r.vaddr + runLength size) :: runs) := by
    refine Carries.of_spares frames frames' spares (fun _ _ q alive _ => alive) more
      (fun _ member => List.mem_cons_of_mem _ member) ?_
    intro base size' _ block
    refine ⟨(nodes _).mpr (.inr block.node), ?_, fun _ isOwn _ => isOwn⟩
    intro v member
    have inside := block.page_inside tiling member
    have inWindowV := frames.window _ block.run v inside
    refine others v (paged_region (.inr inWindowV)) ?_
    intro w inRun samePage
    have page := (pageBits_window inWindowV (inWindow w (pageIn w inRun))).mp samePage
    have usedV : UsedAt k.ranges v := ⟨PageRange.span ⟨base, runLength size'⟩, List.mem_map_of_mem block.node, inside⟩
    exact tiling.free_not_used (isFree w (pageIn w inRun)) (tiling.used_page page usedV)
  have low' : ∀ size', k'.readWord 0 = some size' → runLength size' ≤ 2 ^ 47 := by
    intro size' there
    apply holds.low size'
    rw [← there]
    refine (frames.readWord_kept frames' spares (placed_zero runs) (placed_zero _) (by decide) ?_
      (fun _ isOwn _ => isOwn)).symm
    refine others 0 (paged_region (.inl (by decide))) ?_
    intro w inRun samePage
    obtain ⟨start, _⟩ := inWindow w (pageIn w inRun)
    have page := (pageBits_paged (.inl (by decide)) (.inr (inWindow w (pageIn w inRun)))).mp samePage
    omega
  have entries : ∀ v ∈ runPages r.vaddr size, ∃ q, MapsTo k'.phys k'.topLevel v q ∧ ¬ PageIs k.phys q .used ∧
      PageIs k'.phys q .used := by
    intro v member
    obtain ⟨p, entry, used, unused, _⟩ := mapped.mapped v member
    refine ⟨p, ?_, fun before => unused (same₁.used p before), same.used p used⟩
    exact (same.leaves v (paged_region (.inr (inWindow v (pageIn v member))))).trans entry
  have block : LargeBlock k' ((r.vaddr, r.vaddr + runLength size) :: runs) r.vaddr size := by
    refine ⟨large, positive, rounds, List.mem_cons_self, (nodes _).mpr (.inl rfl), ?_, header⟩
    intro v member
    obtain ⟨p, entry, _, used⟩ := entries v member
    exact (entry.looked frames'.inv.heap.pmm.layout used).1
  refine ⟨_, _, list', (holds.carry frames' (List.Sublist.refl held) carries low').add
    (.inr (.inr ⟨_, _, rfl, block⟩)) ?_, carries, block, ?_, entries⟩
  · intro _ member
    rcases holds.blocks _ member with null | ⟨p, alive, equal, _⟩ | ⟨base, size', equal, old⟩
    · unfold nullPointer at null
      omega
    · have below := (frames.inv.object_bounds alive).2
      omega
    · have start : r.vaddr = base := Nat.add_right_cancel equal
      obtain ⟨_, _, _, positive'⟩ := old.limits tiling
      have usedBase : UsedAt k.ranges base :=
        ⟨PageRange.span ⟨base, runLength size'⟩, List.mem_map_of_mem old.node, Nat.le_refl _,
          Nat.lt_add_of_pos_right positive'⟩
      exact tiling.free_not_used (isFree r.vaddr nonempty) (start ▸ usedBase)
  · exact fun v member => frames.inv.unmapped (isFree v (pageIn v member))

/-- What the page branch of malloc does: a new block at the address valloc answers with, or
one more in the lower half. -/
theorem Holds.mallocPage (holds : Holds k held live own runs slabsOf free list) (large : 1024 < size)
    (ran : pageMalloc fuel k size = some (.ok (p, k'))) :
    ∃ live' own' runs' slabsOf' free' list', Holds k' (p :: held) live' own' runs' slabsOf' free' list' ∧
      Carries k k' held live live' runs runs' ∧
      ((Vma.valloc k.ranges (wadd size 16)).1 ≠ 0 → ∃ base, p = base + 16 ∧ LargeBlock k' runs' base size ∧
        FreshRun k k' base size) := by
  obtain ⟨b, k₁, s, reserved, mapped, written, rfl⟩ := pageMalloc_parts ran
  have window : vallocInitWindow.hi < 2 ^ 64 := by decide
  rcases holds.frames.valloc (Nat.mod_lt _ (by decide)) reserved with
    ⟨r, f, u, live₁, slabsOf₁, free₁, list₁, positive, rounds, rfl, carve, ranges₁, more, frames₁, spares₁, same₁⟩ |
    ⟨rfl, rfl⟩ | ⟨wraps, none⟩
  · obtain ⟨own', runs', list', holds', carries, block, fresh⟩ := holds.mallocRun frames₁ spares₁ same₁ more large
      positive rounds carve ranges₁ mapped written
    have stop := (block.limits holds'.frames.inv.tiling).2.2
    have pointer : wadd r.vaddr 16 = r.vaddr + 16 := by
      have most := runLength_eq size
      exact wadd_eq (by omega)
    rw [pointer]
    exact ⟨live₁, own', runs', slabsOf₁, free₁, list', holds', carries, fun _ => ⟨_, rfl, block, fresh⟩⟩
  · obtain ⟨own', list', holds', carries⟩ := holds.mallocNull mapped written
    refine ⟨live, own', runs, slabsOf, free, list', holds', carries, ?_⟩
    intro found
    obtain ⟨k₂, _, _, _, _, answer, _⟩ := holds.frames.rangeNode reserved
    exact absurd answer.symm found
  · have empty : runPages b size = [] := by
      change (List.range (runLength size / 4096)).map _ = []
      rw [show runLength size = 0 from wraps]
      rfl
    rw [empty] at mapped
    cases Except.ok.inj mapped
    change (k₁.withPhys k₁.phys).translate b = Option.none at none
    rw [Kernel.writeWord, none] at written
    cases written

theorem Holds.mallocAny (holds : Holds k held live own runs slabsOf free list)
    (ran : malloc fuel k size = some (.ok (p, k'))) :
    ∃ live' own' runs' slabsOf' free' list', Holds k' (p :: held) live' own' runs' slabsOf' free' list' ∧
      Carries k k' held live live' runs runs' := by
  by_cases small : size ≤ 1024
  · have path : blockPath size = .slab := if_pos small
    simp only [malloc, path] at ran
    obtain ⟨live', slabsOf', free', list', holds', carries⟩ := holds.mallocSmall small ran
    exact ⟨live', own, runs, slabsOf', free', list', holds', carries⟩
  · have path : blockPath size = .page := if_neg small
    simp only [malloc, path] at ran
    obtain ⟨live', own', runs', slabsOf', free', list', holds', carries, _⟩ :=
      holds.mallocPage (Nat.lt_of_not_le small) ran
    exact ⟨live', own', runs', slabsOf', free', list', holds', carries⟩

end Large

end EvalynOS.Stdlib
