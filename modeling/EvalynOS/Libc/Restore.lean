import EvalynOS.Libc.BlockFree

/-! Runs of malloc and free, and what callers write to their blocks. A large block that is
given back after such a run leaves no trace in the three memory managers but page tables. -/
namespace EvalynOS.Stdlib
open Lib Lib.Word Pmm Vmm Heap
open Vma (Ranges Tiling UsedAt FreeAt Carve PageRange roundup vallocInitWindow)

/- A word of a block that its caller may write: not the header. -/
def CallerWord (k : Kernel) (p a : Nat) : Prop :=
  ∃ x t, InBlock k p x ∧ p ≤ x ∧ k.translate x = some t ∧ a = 8 * (t / 8)

section Write

variable {k k' : Kernel} {runs : List (Nat × Nat)} {held live own list : List Nat}
  {slabsOf free : Nat → List Nat} {base size p q a x h fuel : Nat}

/-- Behind the pointer, no address is in the header of a page that begins with one. -/
theorem Holds.behind_header (holds : Holds k held live own runs slabsOf free list) (member : p ∈ held)
    (inBlock : InBlock k p x) (behind : p ≤ x) (placed : Placed runs x)
    (headed : h = 0 ∨ ∃ size, LargeBlock k runs h size) (same : pageBits x = pageBits h) : 16 ≤ x % 4096 := by
  have frames := holds.frames
  have tiling := frames.inv.tiling
  have window : vallocInitWindow.lo = 0xFFFFA00000000000 ∧ vallocInitWindow.hi = 0xFFFFE00000000000 :=
    ⟨rfl, rfl⟩
  have placedH : Placed runs h := by
    rcases headed with rfl | ⟨size, block⟩
    · exact placed_zero runs
    · obtain ⟨_, _, _, positive⟩ := block.limits tiling
      exact block.placed ⟨Nat.le_refl _, Nat.lt_add_of_pos_right positive⟩
  have page := (pageBits_paged (frames.paged placed) (frames.paged placedH)).mp same
  obtain ⟨size, header, _, high⟩ := inBlock
  rcases holds.blocks p member with rfl | ⟨q, alive, rfl, fits⟩ | ⟨base, size', rfl, block⟩
  · have lower := holds.null_lower header high
    change 16 ≤ x at behind
    rcases headed with rfl | ⟨_, block⟩
    · omega
    · obtain ⟨_, low, _⟩ := block.limits tiling
      omega
  · obtain ⟨there, path⟩ := SmallBlock.header frames.inv alive fits
    rw [Nat.add_sub_cancel, there] at header
    cases Option.some.inj header
    simp only [blockEnd, path] at high
    have direct := frames.inv.object_direct alive (show q ≤ x ∧ _ from ⟨by omega, by omega⟩)
    exact absurd direct ((frames.paged placed).not_direct frames.inv.direct)
  · rw [Nat.add_sub_cancel, block.header] at header
    cases Option.some.inj header
    simp only [blockEnd, block.path, Nat.add_sub_cancel] at high
    obtain ⟨aligned, low, stop, _⟩ := block.limits tiling
    rcases headed with rfl | ⟨_, block'⟩
    · omega
    · by_cases mine : base = h
      · omega
      · have inside : Inside x (base, base + runLength size) := ⟨by omega, high⟩
        have inRun := run_page (by omega) aligned inside
        have samePage : pageBits (x / 4096 * 4096) = pageBits x :=
          (pageBits_paged (frames.paged (block.placed (block.page_inside tiling inRun))) (frames.paged placed)).mpr
            (by omega)
        exact absurd (samePage.trans same)
          (block.pages_apart block' tiling mine inRun (block'.first tiling) frames.window)

/-- Callers write no header of a page. -/
theorem Holds.page_header (holds : Holds k held live own runs slabsOf free list) (member : p ∈ held)
    (callerWord : CallerWord k p a) (headed : h = 0 ∨ ∃ size, LargeBlock k runs h size) (placedH : Placed runs h)
    (isOwn : q ∈ own) (maps : MapsTo k.phys k.topLevel h q) : a ≠ q + k.phys.hhdmOffset := by
  rintro rfl
  have frames := holds.frames
  have layout := frames.inv.heap.pmm.layout
  obtain ⟨x, t, inBlock, behind, there, word⟩ := callerWord
  rcases holds.block_cases member inBlock with placed | ⟨o, alive, _, inside⟩
  · obtain ⟨r, isOwn', maps', rfl, ⟨i, whole⟩, inR⟩ := frames.placed_word placed there
    rw [← word] at inR
    cases frame_apart layout (frames.owned.used q isOwn) (frames.owned.used r isOwn') (first_word k.phys q) inR
    have offset := holds.behind_header member inBlock behind placed headed
      (frames.single q isOwn x h placed placedH maps' maps)
    have grain : x % pageSize = x % 4096 := rfl
    unfold pageSize at whole
    omega
  · cases Option.some.inj ((frames.inv.object_translate alive inside).symm.trans there)
    have aligned := frames.inv.object_aligned alive
    refine object_not_own frames.inv.heap frames.owned alive (a := q + k.phys.hhdmOffset) ?_ isOwn (first_word _ q)
    rw [word]
    change o ≤ 8 * (x / 8) ∧ 8 * (x / 8) < o + k.phys.mem (objSizeAt (slabOf o))
    omega

/-- Callers write no header of an object. -/
theorem Holds.object_header (holds : Holds k held live own runs slabsOf free list) (member : p ∈ held)
    (callerWord : CallerWord k p a) (alive : q ∈ live)
    (fits : k.phys.mem q + 16 ≤ k.phys.mem (objSizeAt (slabOf q))) : a ≠ q := by
  rintro rfl
  have frames := holds.frames
  have first : a ≤ a ∧ a < a + k.phys.mem (objSizeAt (slabOf a)) := by omega
  obtain ⟨x, t, inBlock, behind, there, word⟩ := callerWord
  rcases holds.block_cases member inBlock with placed | ⟨o, alive', rfl, inside⟩
  · obtain ⟨r, isOwn, _, _, _, inR⟩ := frames.placed_word placed there
    rw [← word] at inR
    exact object_not_own frames.inv.heap frames.owned alive first isOwn inR
  · cases Option.some.inj ((frames.inv.object_translate alive' inside).symm.trans there)
    have alignedO := frames.inv.object_aligned alive'
    have different : a ≠ o := by
      rintro rfl
      omega
    refine frames.inv.heap.live_apart alive alive' different first ?_
    change o ≤ a ∧ a < o + k.phys.mem (objSizeAt (slabOf o))
    omega

/-- Callers that write to their blocks leave every block a block. -/
theorem Holds.write (holds : Holds k held live own runs slabsOf free list) {m : Memory}
    (callers : ∀ a, (∀ p ∈ held, ¬ CallerWord k p a) → m a = k.phys.mem a) :
    Holds (k.withMem m) held live own runs slabsOf free list ∧
      Carries k (k.withMem m) held live live runs runs := by
  have frames := holds.frames
  have tiling := frames.inv.tiling
  have clients : ∀ a, ¬ MayWrite k.heap live own a → m a = k.phys.mem a := by
    intro a outside
    apply callers
    rintro p member ⟨x, t, inBlock, _, there, rfl⟩
    exact outside (holds.block_word member inBlock there)
  obtain ⟨frames', same⟩ := frames.write clients
  have headers : ∀ h, (h = 0 ∨ ∃ size, LargeBlock k runs h size) → Placed runs h → 4096 ∣ h →
      (k.withMem m).readWord h = k.readWord h := by
    intro h headed placed aligned
    have start : h % pageSize = 0 := Nat.mod_eq_zero_of_dvd aligned
    unfold Kernel.readWord
    rw [same.translate (.inr (frames.paged placed))]
    rcases frames.translate_cases placed with ⟨_, none⟩ | ⟨q, isOwn, maps, _, there⟩
    · rw [none]
      rfl
    · rw [there, start, Nat.add_zero]
      refine congrArg some (callers _ ?_)
      intro p member callerWord
      exact holds.page_header member callerWord headed placed isOwn maps rfl
  have carries : Carries k (k.withMem m) held live live runs runs := by
    refine ⟨rfl, ?_, ?_⟩
    · rintro p _ ⟨q, alive, rfl, fits⟩
      refine ⟨q, alive, rfl, ?_⟩
      have size := objSize_kept frames.inv.heap frames'.inv.heap alive
      have header : m q = k.phys.mem q :=
        callers q (fun p member callerWord => holds.object_header member callerWord alive fits rfl)
      change m q + 16 ≤ m (objSizeAt (slabOf q))
      change m (objSizeAt (slabOf q)) = k.phys.mem (objSizeAt (slabOf q)) at size
      omega
    · intro base size _ block
      have leaves : ∀ v ∈ runPages base size, leaf (k.withMem m).phys k.topLevel v = leaf k.phys k.topLevel v :=
        fun v member => same.leaves v (paged_region (frames.paged (block.placed (block.page_inside tiling member))))
      obtain ⟨aligned, _, _, positive⟩ := block.limits tiling
      refine ⟨⟨block.large, block.positive, block.rounds, block.run, block.node, ?_, ?_⟩, leaves⟩
      · intro v member
        exact (congrArg isPresent (leaves v member)).trans (block.pages v member)
      · rw [headers base (.inr ⟨size, block⟩)
          (block.placed ⟨Nat.le_refl _, Nat.lt_add_of_pos_right positive⟩) aligned]
        exact block.header
  refine ⟨holds.carry frames' (List.Sublist.refl held) carries ?_, carries⟩
  intro size there
  rw [headers 0 (.inl rfl) (placed_zero runs) (by decide)] at there
  exact holds.low size there

end Write

/- malloc, free and the writes of callers, with the pointers that are out. The block `mine` is
not given back. -/
inductive OtherCall (mine : Nat) : Kernel × List Nat → Kernel × List Nat → Prop where
  | malloc {k k' : Kernel} {held : List Nat} {fuel size p : Nat} :
      malloc fuel k size = some (.ok (p, k')) → OtherCall mine (k, held) (k', p :: held)
  | free {k k' : Kernel} {held : List Nat} {fuel p : Nat} : p ∈ held → p ≠ mine →
      free fuel k p = some (.ok k') → OtherCall mine (k, held) (k', held.erase p)
  | write {k : Kernel} {held : List Nat} {m : Memory} :
      (∀ a, (∀ p ∈ held, ¬ CallerWord k p a) → m a = k.phys.mem a) →
      OtherCall mine (k, held) (k.withMem m, held)

/- A kernel in which the pointers `held` are out. -/
def Sound (k : Kernel) (held : List Nat) : Prop :=
  ∃ live own runs slabsOf free list, Holds k held live own runs slabsOf free list

/- The block at `base` is out, on the pages `frames`. -/
def StillOut (base size : Nat) (frames : List Nat) (state : Kernel × List Nat) : Prop :=
  ∃ live own runs slabsOf free list, Holds state.1 state.2 live own runs slabsOf free list ∧
    base + 16 ∈ state.2 ∧ LargeBlock state.1 runs base size ∧
    mappedFrames state.1.phys state.1.topLevel (runPages base size) = frames

section Calls

variable {k k' : Kernel} {runs runs' : List (Nat × Nat)}
  {held held' rest live live' own own' list list' frames : List Nat} {slabsOf slabsOf' free free' : Nat → List Nat}
  {base size p x fuel : Nat} {state state' : Kernel × List Nat}

/-- free of any block that is out. -/
theorem Holds.freeAny (holds : Holds k held live own runs slabsOf free list) (member : p ∈ held)
    (ran : Stdlib.free fuel k p = some (.ok k')) :
    ∃ live' own' free' list', Holds k' (held.erase p) live' own' runs slabsOf free' list' ∧
      Carries k k' (held.erase p) live live' runs runs := by
  rcases holds.blocks p member with rfl | ⟨q, alive, rfl, fits⟩ | ⟨base, size, rfl, block⟩
  · obtain ⟨own', list', holds', carries⟩ := holds.freeNull ran
    exact ⟨live, own', free, list', holds', carries⟩
  · obtain ⟨k₁, live', free', returned, holds', carries⟩ := holds.freeSmall alive fits
    cases (returned fuel).symm.trans ran
    exact ⟨live', own, free', list, holds', carries⟩
  · obtain ⟨k₁, own', returned, holds', carries, _⟩ := holds.freeLarge block
    cases (returned fuel).symm.trans ran
    exact ⟨live, own', free, _, holds', carries⟩

theorem StillOut.carry (holds' : Holds k' held' live' own' runs' slabsOf' free' list')
    (carries : Carries k k' rest live live' runs runs') (inRest : base + 16 ∈ rest) (more : ∀ p ∈ rest, p ∈ held')
    (block : LargeBlock k runs base size) (pages : mappedFrames k.phys k.topLevel (runPages base size) = frames) :
    StillOut base size frames (k', held') := by
  obtain ⟨block', leaves⟩ := carries.large base size inRest block
  refine ⟨live', own', runs', slabsOf', free', list', holds', more _ inRest, block', ?_⟩
  rw [← pages, carries.topLevel]
  exact mappedFrames_congr (carries.topLevel ▸ leaves)

theorem StillOut.call (before : StillOut base size frames state) (call : OtherCall (base + 16) state state') :
    StillOut base size frames state' := by
  obtain ⟨live, own, runs, slabsOf, free, list, holds, inHeld, block, pages⟩ := before
  cases call with
  | malloc returned =>
    obtain ⟨live', own', runs', slabsOf', free', list', holds', carries⟩ := holds.mallocAny returned
    exact StillOut.carry holds' carries inHeld (fun p member => List.mem_cons_of_mem _ member) block pages
  | free member other returned =>
    obtain ⟨live', own', free', list', holds', carries⟩ := holds.freeAny member returned
    have later := (List.mem_erase_of_ne other.symm).mpr inHeld
    exact StillOut.carry holds' carries later (fun p member => member) block pages
  | write callers =>
    obtain ⟨holds', carries⟩ := holds.write callers
    exact StillOut.carry holds' carries inHeld (fun p member => member) block pages

theorem StillOut.calls (before : StillOut base size frames state)
    (calls : Relation.ReflTransGen (OtherCall (base + 16)) state state') : StillOut base size frames state' := by
  induction calls with
  | refl => exact before
  | tail _ call ih => exact ih.call call

end Calls

/-- malloc has mapped the addresses of a block to different pages that were not in use. -/
structure MapsRun (k k' : Kernel) (base size : Nat) (frames : List Nat) : Prop where
  aligned : pageSize ∣ base
  length : frames.length * pageSize = roundup (size + 16)
  unmapped : ∀ x, Inside x (blockRun base size) → isPresent (leaf k.phys k.topLevel x) = false
  mapped : ∀ i (small : i < frames.length), MapsTo k'.phys k'.topLevel (base + i * pageSize) frames[i]
  distinct : frames.Nodup
  fresh : ∀ q ∈ frames, ¬ PageIs k.phys q .used ∧ PageIs k'.phys q .used

/-- free has taken the block at `base` back: its addresses out of the page tables, its pages
`frames` to the free list, its range to the free ones. The other blocks are as they were. -/
structure Restores (k k' : Kernel) (base size : Nat) (frames rest : List Nat) : Prop where
  unmapped : ∀ x, Inside x (blockRun base size) → leaf k'.phys k'.topLevel x = 0
  others : ∀ x, Paged x → ¬ Inside x (blockRun base size) → leaf k'.phys k'.topLevel x = leaf k.phys k.topLevel x
  wasUsed : ∀ q ∈ frames, PageIs k.phys q .used
  states : ∀ q state, PageIs k'.phys q state ↔
    (q ∈ frames ∧ state = .free) ∨ (q ∉ frames ∧ PageIs k.phys q state)
  freelist : ∃ list, Threaded k.phys.mem k.phys.freelistHead list ∧
    Threaded k'.phys.mem k'.phys.freelistHead (frames.reverse.map (fun q => q + k.phys.hhdmOffset) ++ list)
  range : ⟨base, roundup (size + 16)⟩ ∈ k.ranges.usedRanges.nodes
  usedRanges : k'.ranges.usedRanges.nodes = k.ranges.usedRanges.nodes.erase ⟨base, roundup (size + 16)⟩
  freeRanges : k'.ranges.freeRanges.nodes.Perm (⟨base, roundup (size + 16)⟩ :: k.ranges.freeRanges.nodes)
  blocks : ∀ p ∈ rest, ∀ x, InBlock k p x → k'.translate x = k.translate x ∧
    ∀ t, k.translate x = some t → k'.phys.mem (8 * (t / 8)) = k.phys.mem (8 * (t / 8))
  sound : Sound k' rest

/- malloc gets such a block, and free takes it back after any other calls. -/
def GetsRun (fuel : Nat) (k : Kernel) (held : List Nat) (size : Nat) : Prop :=
  ∃ base k₁ frames, malloc fuel k size = some (.ok (base + 16, k₁)) ∧ MapsRun k k₁ base size frames ∧
    ∀ k₂ held₂, Relation.ReflTransGen (OtherCall (base + 16)) (k₁, (base + 16) :: held) (k₂, held₂) →
      ∃ k₃, (∀ fuel', Stdlib.free fuel' k₂ (base + 16) = some (.ok k₃)) ∧
        Restores k₂ k₃ base size frames (held₂.erase (base + 16))

section Large

variable {k k' : Kernel} {runs : List (Nat × Nat)} {held live own own' list frames : List Nat}
  {slabsOf free : Nat → List Nat} {base size p x : Nat}

/-- All pages of a block are mapped. -/
theorem Holds.block_frames (holds : Holds k held live own runs slabsOf free list) (block : LargeBlock k runs base size) :
    mappedFrames k.phys k.topLevel (runPages base size) = (runPages base size).map (vmmGetPhys k.phys k.topLevel) ∧
      ∀ v ∈ runPages base size, MapsTo k.phys k.topLevel v (vmmGetPhys k.phys k.topLevel v) := by
  have frames := holds.frames
  have layout := frames.inv.heap.pmm.layout
  have looked : ∀ v ∈ runPages base size, vmmGetPhys k.phys k.topLevel v ≠ 0 ∧
      MapsTo k.phys k.topLevel v (vmmGetPhys k.phys k.topLevel v) := by
    intro v member
    obtain ⟨q, isOwn, maps⟩ := frames.entries v (block.placed (block.page_inside frames.inv.tiling member))
      (block.pages v member)
    have used := frames.owned.used q isOwn
    rw [(maps.looked layout used).2]
    exact ⟨(layout.page_bounds used).2.1.ne', maps⟩
  refine ⟨List.filter_eq_self.mpr ?_, fun v member => (looked v member).2⟩
  intro q member
  obtain ⟨v, inRun, rfl⟩ := List.mem_map.mp member
  exact decide_eq_true (looked v inRun).1

/-- The addresses of a block are those of its pages. -/
theorem Holds.block_covers (holds : Holds k held live own runs slabsOf free list) (block : LargeBlock k runs base size)
    (paged : Paged x) :
    (∃ v ∈ runPages base size, pageBits x = pageBits v) ↔ Inside x (base, base + runLength size) := by
  have frames := holds.frames
  have tiling := frames.inv.tiling
  have window : vallocInitWindow.hi < 2 ^ 64 := by decide
  obtain ⟨aligned, _, high, _⟩ := block.limits tiling
  constructor
  · rintro ⟨v, member, same⟩
    have page := (pageBits_paged paged (frames.paged (block.placed (block.page_inside tiling member)))).mp same
    have whole := runLength_eq size
    obtain ⟨i, small, rfl⟩ := (mem_run (by omega)).mp member
    exact ⟨by omega, by change x < base + runLength size; omega⟩
  · intro inside
    have inRun := run_page (by omega) aligned inside
    refine ⟨_, inRun, ?_⟩
    rw [pageBits_paged paged (frames.paged (block.placed (block.page_inside tiling inRun)))]
    omega

/-- A block is on other pages than those of a block of pages. -/
theorem Holds.block_apart (holds : Holds k held live own runs slabsOf free list) (block : LargeBlock k runs base size)
    (member : p ∈ held) (other : p ≠ base + 16) (inBlock : InBlock k p x) :
    (Placed runs x ∧ ∀ v ∈ runPages base size, pageBits x ≠ pageBits v) ∨
      ∃ q ∈ live, q ≤ x ∧ x < q + k.phys.mem (objSizeAt (slabOf q)) := by
  have frames := holds.frames
  have tiling := frames.inv.tiling
  have window : vallocInitWindow.hi < 2 ^ 64 := by decide
  rcases holds.block_cases member inBlock with placed | ⟨q, alive, _, inside⟩
  · obtain ⟨size', header, low, high⟩ := inBlock
    rcases holds.blocks p member with rfl | ⟨q, alive, rfl, fits⟩ | ⟨base', _, rfl, block'⟩
    · have lower := holds.null_lower header high
      exact .inl ⟨placed, fun v inRun same => block.page_lower tiling inRun lower same.symm⟩
    · obtain ⟨there, path⟩ := SmallBlock.header frames.inv alive fits
      rw [Nat.add_sub_cancel] at header low
      cases Option.some.inj (there.symm.trans header)
      simp only [blockEnd, path] at high
      exact .inr ⟨q, alive, low, by omega⟩
    · rw [Nat.add_sub_cancel] at header low
      cases Option.some.inj (block'.header.symm.trans header)
      simp only [blockEnd, block'.path, Nat.add_sub_cancel] at high
      obtain ⟨aligned, _, stop, _⟩ := block'.limits tiling
      have inRun := run_page (by omega) aligned (show Inside x (base', base' + runLength size') from ⟨low, high⟩)
      have samePage : pageBits (x / 4096 * 4096) = pageBits x :=
        (pageBits_paged (frames.paged (block'.placed (block'.page_inside tiling inRun))) (frames.paged placed)).mpr
          (by omega)
      have different : base' ≠ base := fun same => other (by rw [same])
      exact .inl ⟨placed, fun v inRun' same =>
        block'.pages_apart block tiling different inRun inRun' frames.window (samePage.trans same)⟩
  · exact .inr ⟨q, alive, inside⟩

/-- What malloc leaves of a block that begins a run. -/
theorem Holds.mapsRun {k₀ : Kernel} (holds : Holds k held live own runs slabsOf free list)
    (block : LargeBlock k runs base size) (fits : size + 16 < 2 ^ 64) (fresh : FreshRun k₀ k base size) :
    MapsRun k₀ k base size (mappedFrames k.phys k.topLevel (runPages base size)) := by
  have frames := holds.frames
  have tiling := frames.inv.tiling
  have layout := frames.inv.heap.pmm.layout
  have window : vallocInitWindow.hi < 2 ^ 64 := by decide
  have whole := runLength_eq size
  have rounded := runLength_roundup block.rounds
  rw [wadd_eq fits] at rounded
  obtain ⟨aligned, _, high, _⟩ := block.limits tiling
  obtain ⟨placed, distinct⟩ := holds.block_pages block
  obtain ⟨shape, maps⟩ := holds.block_frames block
  have count : (runPages base size).length = runLength size / pageSize := by
    change ((List.range (runLength size / pageSize)).map _).length = _
    rw [List.length_map, List.length_range]
  have length : (mappedFrames k.phys k.topLevel (runPages base size)).length = runLength size / pageSize := by
    rw [shape, List.length_map, count]
  refine ⟨aligned, ?_, ?_, ?_, (frames.ownFrames placed distinct).1, ?_⟩
  · rw [length, ← rounded]
    unfold pageSize
    omega
  · intro x inside
    rw [blockRun, ← rounded] at inside
    obtain ⟨v, member, same⟩ := (holds.block_covers block (frames.paged (block.placed inside))).mpr inside
    rw [leaf_congr same]
    exact fresh.unmapped v member
  · intro i small
    have inRun : base + i * pageSize ∈ runPages base size := by
      rw [length] at small
      unfold pageSize at small
      exact (mem_run (by omega)).mpr ⟨i, by omega, rfl⟩
    have entry := maps _ inRun
    have here : (mappedFrames k.phys k.topLevel (runPages base size))[i] =
        vmmGetPhys k.phys k.topLevel (base + i * pageSize) := by
      rw [length] at small
      have start : wadd base (i * pageSize) = base + i * pageSize := by
        unfold pageSize at small ⊢
        exact wadd_eq (by omega)
      simp only [shape, List.getElem_map]
      simp only [runPages, List.getElem_map, List.getElem_range, start]
    rw [here]
    exact entry
  · intro q member
    obtain ⟨isOwn, v, inRun, entry⟩ := (frames.ownFrames placed distinct).2 q member
    obtain ⟨r, entry', unused, used⟩ := fresh.mapped v inRun
    cases entry.unique entry' layout (frames.owned.used q isOwn) used
    exact ⟨unused, used⟩

/-- The words of other blocks stay where they are, and stay as they are. -/
theorem Released.block_kept (holds : Holds k held live own runs slabsOf free list)
    (block : LargeBlock k runs base size) (released : Released k k' live own own' base size) (member : p ∈ held)
    (other : p ≠ base + 16) (inBlock : InBlock k p x) : k'.translate x = k.translate x ∧
      ∀ t, k.translate x = some t → k'.phys.mem (8 * (t / 8)) = k.phys.mem (8 * (t / 8)) := by
  have frames := holds.frames
  have spares := released.spares
  obtain ⟨placed, distinct⟩ := holds.block_pages block
  rcases holds.block_apart block member other inBlock with ⟨placedX, away⟩ | ⟨q, alive, inside⟩
  · have entry : leaf k'.phys k'.topLevel x = leaf k.phys k.topLevel x := by
      rw [spares.topLevel, released.back.leaves x (paged_region (frames.paged placedX)), if_neg]
      rintro ⟨v, inRun, same⟩
      exact away v inRun same
    refine ⟨?_, ?_⟩
    · unfold Kernel.translate
      rw [spares.hhdm, vmmGetPhys_eq, vmmGetPhys_eq, entry]
    · intro t there
      obtain ⟨q, isOwn, maps, _, _, inFrame⟩ := frames.placed_word placedX there
      have later := (released.own_iff q).mpr ⟨isOwn, frames.elsewhere placed distinct placedX away isOwn maps⟩
      exact spares.words _ (.inr ⟨q, later, inFrame⟩)
  · have direct := frames.inv.object_direct alive inside
    refine ⟨?_, ?_⟩
    · unfold Kernel.translate
      rw [spares.hhdm, if_pos direct, if_pos direct]
    · intro t there
      cases Option.some.inj ((frames.inv.object_translate alive inside).symm.trans there)
      have aligned := frames.inv.object_aligned alive
      refine spares.words _ (.inl ⟨q, alive, by omega, ?_⟩)
      change 8 * (x / 8) < q + k.phys.mem (objSizeAt (slabOf q))
      omega

/-- free of a block of pages, whatever its state. -/
theorem Holds.restores (holds : Holds k held live own runs slabsOf free list)
    (block : LargeBlock k runs base size) (fits : size + 16 < 2 ^ 64) :
    ∃ k', (∀ fuel, Stdlib.free fuel k (base + 16) = some (.ok k')) ∧
      Restores k k' base size (mappedFrames k.phys k.topLevel (runPages base size)) (held.erase (base + 16)) := by
  have frames := holds.frames
  have tiling := frames.inv.tiling
  have rounded := runLength_roundup block.rounds
  rw [wadd_eq fits] at rounded
  obtain ⟨placed, distinct⟩ := holds.block_pages block
  obtain ⟨_, low, _, _⟩ := block.limits tiling
  have real : base + 16 ≠ nullPointer := by
    have start : vallocInitWindow.lo = 0xFFFFA00000000000 := rfl
    unfold nullPointer
    omega
  obtain ⟨k', own', returned, holds', carries, released⟩ := holds.freeLarge block
  have topLevel := released.spares.topLevel
  refine ⟨k', returned, ⟨?_, ?_, ?_, released.back.states, ⟨list, frames.inv.heap.pmm.threaded,
    holds'.frames.inv.heap.pmm.threaded⟩, ?_, ?_, ?_, ?_, ⟨_, _, _, _, _, _, holds'⟩⟩⟩
  · intro x inside
    rw [blockRun, ← rounded] at inside
    have paged := frames.paged (block.placed inside)
    rw [topLevel, released.back.leaves x (paged_region paged), if_pos ((holds.block_covers block paged).mpr inside)]
  · intro x paged outside
    rw [blockRun, ← rounded] at outside
    rw [topLevel, released.back.leaves x (paged_region paged), if_neg]
    exact fun inPages => outside ((holds.block_covers block paged).mp inPages)
  · intro q member
    exact frames.owned.used q ((frames.ownFrames placed distinct).2 q member).1
  · exact rounded ▸ block.node
  · exact rounded ▸ released.usedRanges
  · exact rounded ▸ released.freeRanges
  · intro p inRest x inBlock
    refine released.block_kept holds block (List.mem_of_mem_erase inRest) ?_ inBlock
    rintro rfl
    exact holds.out_once real inRest

/-- malloc of pages gives new ones, and any other calls and free after it restore the frames, the
page tables and the ranges, unless there are fewer pages than malloc takes. -/
theorem malloc_free_restores (holds : Holds k held live own runs slabsOf free list) (large : 1024 < size)
    (fits : size + 16 + 4095 < 2 ^ 64) (found : (Vma.valloc k.ranges (size + 16)).1 ≠ 0) :
    ∃ steps, ∀ fuel, steps ≤ fuel →
      (k.phys.usedPages + pageCost k slabsOf free size ≤ k.phys.totalPages ∧ GetsRun fuel k held size) ∨
      (k.phys.totalPages < k.phys.usedPages + pageCost k slabsOf free size ∧
        malloc fuel k size = some (.error .outOfMemory)) := by
  have inv := holds.frames.inv
  have tiling := inv.tiling
  have sum : wadd size 16 = size + 16 := wadd_eq (by omega)
  have path : ∀ fuel, malloc fuel k size = pageMalloc fuel k size := by
    intro fuel
    have page : blockPath size = .page := if_neg (by omega)
    simp only [malloc, page]
  have room : ∃ r ∈ k.ranges.freeRanges.nodes, roundup (size + 16) ≤ r.size := by
    rcases Vma.valloc_cases tiling (show 1 ≤ size + 16 by omega) fits with ⟨failed, _⟩ | ⟨r, f, u, _, carve⟩
    · exact absurd (congrArg Prod.fst failed) found
    · have high : r.vaddr + roundup (size + 16) ≤ r.vaddr + r.size := carve.high
      exact ⟨r, carve.member, by omega⟩
  refine ⟨(slabsOf 128).length + 1, ?_⟩
  intro fuel enough
  rw [path]
  rcases pageMalloc_outcome inv room enough with
    ⟨base, k₁, nodes, own₁, slabsOf₁, free₁, list₁, returned, inv₁, _, _, _, _, total, used⟩ | ⟨failed, full⟩
  · left
    have most := inv₁.heap.pmm.used_le
    change k₁.phys.usedPages ≤ k₁.phys.totalPages at most
    refine ⟨by omega, base, k₁, mappedFrames k₁.phys k₁.topLevel (runPages base size), (path fuel).trans returned, ?_⟩
    obtain ⟨live', own', runs', slabsOf', free', list', holds₁, _, outcome⟩ := holds.mallocPage large returned
    obtain ⟨base', pointer, block, fresh⟩ := outcome (by rwa [sum])
    cases Nat.add_right_cancel pointer
    refine ⟨holds₁.mapsRun block (by omega) fresh, ?_⟩
    intro k₂ held₂ calls
    have before : StillOut base size (mappedFrames k₁.phys k₁.topLevel (runPages base size))
        (k₁, (base + 16) :: held) :=
      ⟨live', own', runs', slabsOf', free', list', holds₁, List.mem_cons_self, block, rfl⟩
    obtain ⟨_, _, _, _, _, _, holds₂, _, block₂, pages⟩ := before.calls calls
    rw [← pages]
    exact holds₂.restores block₂ (by omega)
  · exact .inr ⟨full, failed⟩

/-- A kernel that has not handed out anything, with nothing mapped. -/
theorem KernelInv.holds (inv : KernelInv k [] [] slabsOf free list)
    (unmapped : ∀ v, leaf k.phys k.topLevel v = 0) : Holds k [] [] [] [] slabsOf free list := by
  have absent : ∀ v, isPresent (leaf k.phys k.topLevel v) = false := by
    intro v
    rw [unmapped v]
    exact isPresent_zero
  have frames : FramesInv k [] [] [] slabsOf free list := by
    refine ⟨inv, ⟨List.nodup_nil, by simp, by simp⟩, fun q none => absurd none List.not_mem_nil, by simp, by simp, ?_⟩
    intro v _ present
    cases (absent v).symm.trans present
  refine ⟨frames, by simp, by simp, ?_⟩
  intro size header
  rcases frames.translate_cases (placed_zero []) with ⟨_, none⟩ | ⟨q, none, _⟩
  · rw [Kernel.readWord, none] at header
    cases header
  · cases none

theorem kernelMap_holds : ∃ k slabsOf free list, Holds k [] [] [] [] slabsOf free list ∧
    k.ranges = vallocInitWindow.fresh ∧ k.phys.usedPages + 57 = k.phys.totalPages := by
  obtain ⟨s, k, slabsOf, free, list, boots, ran, inv, ranges, room⟩ := kernelMap_boots
  obtain ⟨s', list', boots', inv', hhdm, _⟩ := kernelMap_pmm
  cases boots.symm.trans boots'
  have offset : pageSize ∣ s.hhdmOffset := by
    rw [hhdm]
    decide
  exact ⟨k, slabsOf, free, list, inv.holds (boot_unmapped inv' offset ran), ranges, room⟩

/-- A kernel that has just booted. -/
theorem malloc_free_restores_booted : ∃ k slabsOf free list, Holds k [] [] [] [] slabsOf free list ∧
    ∃ steps, ∀ fuel, steps ≤ fuel → GetsRun fuel k [] 2000 := by
  obtain ⟨k, slabsOf, free, list, holds, ranges, room⟩ := kernelMap_holds
  have found : (Vma.valloc k.ranges (2000 + 16)).1 ≠ 0 := by
    rw [ranges]
    decide
  obtain ⟨steps, outcome⟩ := malloc_free_restores holds (show 1024 < 2000 by decide) (by decide) found
  refine ⟨k, slabsOf, free, list, holds, steps, ?_⟩
  intro fuel enough
  have cost := pageCost_onePage (k := k) slabsOf free
  rcases outcome fuel enough with ⟨_, gets⟩ | ⟨full, _⟩
  · exact gets
  · omega

/-- It has no pages for 64 of them and a header, though valloc has a range. -/
theorem malloc_runs_out : ∃ k slabsOf free list, Holds k [] [] [] [] slabsOf free list ∧
    (Vma.valloc k.ranges (0x40000 + 16)).1 ≠ 0 ∧
    ∃ steps, ∀ fuel, steps ≤ fuel → malloc fuel k 0x40000 = some (.error .outOfMemory) := by
  obtain ⟨k, slabsOf, free, list, holds, ranges, room⟩ := kernelMap_holds
  have inv := holds.frames.inv
  have range : ∃ r ∈ k.ranges.freeRanges.nodes, roundup (0x40000 + 16) ≤ r.size := by
    rw [ranges]
    exact ⟨_, List.mem_cons_self, by decide⟩
  refine ⟨k, slabsOf, free, list, holds, ?_, (slabsOf 128).length + 1, ?_⟩
  · rw [ranges]
    decide
  · intro fuel enough
    rcases pageMalloc_outcome inv range enough with
      ⟨_, k₁, _, _, _, _, _, _, inv₁, _, _, _, _, total, used⟩ | ⟨failed, _⟩
    · have most := inv₁.heap.pmm.used_le
      change k₁.phys.usedPages ≤ k₁.phys.totalPages at most
      have pages : (runPages (Vma.valloc k.ranges (0x40000 + 16)).1 0x40000).length = 65 := runPages_length (by decide)
      unfold pageCost at used
      dsimp only at used
      omega
    · exact failed

end Large

end EvalynOS.Stdlib
