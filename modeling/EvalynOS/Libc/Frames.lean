import EvalynOS.Libc.Contract

/-! The pages behind the large blocks of malloc, and what the heap, the loops over the tables
and the range allocator do to them. -/
namespace EvalynOS.Stdlib
open Lib Lib.Word Pmm Vmm Heap
open Vma (Ranges Tiling UsedAt FreeAt Carve PageRange roundup vallocInitWindow)

/- The entry that malloc makes for the page `q`. -/
def MapsTo (s : Phys) (top v q : Nat) : Prop := leaf s top v = q ||| (ptePresent ||| pageFlags)

/- The addresses that only malloc maps: those of its runs, and the lower half, where it gets
when valloc fails. -/
def Placed (runs : List (Nat × Nat)) (v : Nat) : Prop := v < 2 ^ 47 ∨ ∃ r ∈ runs, Inside v r

/-- The pages `own` are those that malloc has mapped at these addresses, none of them twice. -/
structure FramesInv (k : Kernel) (live own : List Nat) (runs : List (Nat × Nat))
    (slabsOf free : Nat → List Nat) (list : List Nat) : Prop where
  inv : KernelInv k live [] slabsOf free list
  owned : Owned k.heap own slabsOf
  noTable : NoTable k own
  window : ∀ r ∈ runs, ∀ x, Inside x r → InWindow x
  single : ∀ q ∈ own, ∀ v w, Placed runs v → Placed runs w → MapsTo k.phys k.topLevel v q →
    MapsTo k.phys k.topLevel w q → pageBits v = pageBits w
  entries : ∀ v, Placed runs v → isPresent (leaf k.phys k.topLevel v) = true →
    ∃ q ∈ own, MapsTo k.phys k.topLevel v q

/-- The words of the objects `live` and of the pages `own` are as they were. -/
structure Spares (k k' : Kernel) (live own : List Nat) : Prop where
  topLevel : k'.topLevel = k.topLevel
  hhdm : k'.phys.hhdmOffset = k.phys.hhdmOffset
  sizes : ∀ p ∈ live, k'.phys.mem (objSizeAt (slabOf p)) = k.phys.mem (objSizeAt (slabOf p))
  words : ∀ a, MayWrite k.heap live own a → k'.phys.mem a = k.phys.mem a

section Entries

variable {s : Phys} {list : List Nat} {top q r v w : Nat}

theorem pageBits_paged (pagedV : Paged v) (pagedW : Paged w) : pageBits v = pageBits w ↔ v / 4096 = w / 4096 := by
  have bounds : vallocInitWindow.lo = 0xFFFFA00000000000 ∧ vallocInitWindow.hi = 0xFFFFE00000000000 :=
    ⟨rfl, rfl⟩
  unfold Paged at pagedV pagedW
  rw [pageBits_eq, pageBits_eq]
  omega

theorem MapsTo.looked (maps : MapsTo s top v q) (layout : Layout s.hhdmOffset s.tables)
    (used : PageIs s q .used) : isPresent (leaf s top v) = true ∧ vmmGetPhys s top v = q := by
  obtain ⟨aligned, _, _, physical⟩ := layout.page_bounds used
  obtain ⟨present, address⟩ := pageFlags_isFlags.entry aligned physical
  rw [← show leaf s top v = _ from maps] at present address
  exact ⟨present, by rw [vmmGetPhys_eq, if_pos present, address]⟩

/-- An entry leads to one page. -/
theorem MapsTo.unique (maps : MapsTo s top v q) (other : MapsTo s top v r)
    (layout : Layout s.hhdmOffset s.tables) (usedQ : PageIs s q .used) (usedR : PageIs s r .used) : q = r :=
  (maps.looked layout usedQ).2.symm.trans (other.looked layout usedR).2

theorem MapsTo.of_page (maps : MapsTo s top v q) (same : pageBits w = pageBits v) : MapsTo s top w q :=
  (leaf_congr same).trans maps

end Entries

section Spared

variable {k k₁ k' : Kernel} {live live' own own' list list' : List Nat} {runs : List (Nat × Nat)}
  {slabsOf slabsOf' free free' : Nat → List Nat}

theorem mayWrite_mono {h : KHeap} {a : Nat} (mayWrite : MayWrite h live' own' a) (objects : ∀ p ∈ live', p ∈ live)
    (pages : ∀ q ∈ own', q ∈ own) : MayWrite h live own a := by
  rcases mayWrite with ⟨p, alive, inside⟩ | ⟨q, isOwn, inside⟩
  · exact .inl ⟨p, objects p alive, inside⟩
  · exact .inr ⟨q, pages q isOwn, inside⟩

theorem Spares.refl (k : Kernel) (live own : List Nat) : Spares k k live own :=
  ⟨rfl, rfl, fun _ _ => rfl, fun _ _ => rfl⟩

theorem Spares.mono (spares : Spares k k' live own) (objects : ∀ p ∈ live', p ∈ live)
    (pages : ∀ q ∈ own', q ∈ own) : Spares k k' live' own' :=
  ⟨spares.topLevel, spares.hhdm, fun p alive => spares.sizes p (objects p alive),
    fun a mayWrite => spares.words a (mayWrite_mono mayWrite objects pages)⟩

theorem Spares.mayWrite (spares : Spares k k' live own) {a : Nat} (mayWrite : MayWrite k.heap live own a) :
    MayWrite k'.heap live own a := by
  rcases mayWrite with ⟨p, alive, low, high⟩ | ⟨q, isOwn, low, high⟩
  · refine .inl ⟨p, alive, low, ?_⟩
    have size := spares.sizes p alive
    change a < p + k'.phys.mem (objSizeAt (slabOf p))
    rwa [size]
  · have offset := spares.hhdm
    refine .inr ⟨q, isOwn, ?_, ?_⟩
    · change q + k'.phys.hhdmOffset ≤ a
      rwa [offset]
    · change a < q + k'.phys.hhdmOffset + pageSize
      rwa [offset]

theorem Spares.trans (one : Spares k k₁ live own) (two : Spares k₁ k' live own) : Spares k k' live own where
  topLevel := two.topLevel.trans one.topLevel
  hhdm := two.hhdm.trans one.hhdm
  sizes := fun p alive => (two.sizes p alive).trans (one.sizes p alive)
  words := fun a mayWrite => (two.words a (one.mayWrite mayWrite)).trans (one.words a mayWrite)

/-- A word of a live object is in no page that others hold. -/
theorem object_not_own {h : KHeap} (heap : HeapInv h live slabsOf free list) (owned : Owned h own slabsOf)
    {p q a : Nat} (alive : p ∈ live) (inside : p ≤ a ∧ a < p + h.phys.mem (objSizeAt (slabOf p)))
    (isOwn : q ∈ own) : ¬ InFrame h.phys q a := by
  intro inFrame
  obtain ⟨r, c, member, home, used, address, inSlab⟩ := live_frame heap alive inside
  have same := frame_apart heap.pmm.layout (owned.used q isOwn) used inFrame inSlab
  exact owned.notSlab q isOwn c member (by rw [same]; exact address ▸ home)

theorem FramesInv.paged (frames : FramesInv k live own runs slabsOf free list) {v : Nat} (placed : Placed runs v) :
    Paged v := by
  rcases placed with lower | ⟨r, member, inside⟩
  · exact .inl lower
  · exact .inr (frames.window r member v inside)

/-- Where the tables stay the same, so do the mappings. -/
theorem FramesInv.steady (frames : FramesInv k live own runs slabsOf free list)
    (inv' : KernelInv k' live' [] slabsOf' free' list') (owned' : Owned k'.heap own slabsOf')
    (same : Steady k k') : FramesInv k' live' own runs slabsOf' free' list' := by
  have maps : ∀ v q, Placed runs v → (MapsTo k'.phys k'.topLevel v q ↔ MapsTo k.phys k.topLevel v q) := by
    intro v q placed
    unfold MapsTo
    rw [same.leaves v (paged_region (frames.paged placed))]
  refine ⟨inv', owned', ?_, frames.window, ?_, ?_⟩
  · intro q isOwn path valid there
    rw [same.lookup path valid, same.hhdm] at there
    exact frames.noTable q isOwn path valid there
  · intro q isOwn v w placedV placedW mapsV mapsW
    exact frames.single q isOwn v w placedV placedW ((maps v q placedV).mp mapsV) ((maps w q placedW).mp mapsW)
  · intro v placed present
    rw [same.leaves v (paged_region (frames.paged placed))] at present
    obtain ⟨q, isOwn, mapped⟩ := frames.entries v placed present
    exact ⟨q, isOwn, (maps v q placed).mpr mapped⟩

end Spared

section Objects

variable {k k' : Kernel} {live own list : List Nat} {runs : List (Nat × Nat)} {slabsOf free : Nat → List Nat}

/-- Handing out an object changes no word of a block. -/
theorem taken_words {h : KHeap} (heap : HeapInv h live slabsOf free list) (owned : Owned h own slabsOf)
    {c p a : Nat} {s' : Phys} {slabsOf' : Nat → List Nat} (taken : Taken h slabsOf c p s' slabsOf')
    (mayWrite : MayWrite h live own a) : s'.mem a = h.phys.mem a := by
  rcases mayWrite with ⟨q, alive, low, high⟩ | ⟨q, isOwn, inFrame⟩
  · obtain ⟨d, member, home⟩ := heap.homes q alive
    rw [(heap.slabs d member _ home).objSize] at high
    obtain ⟨start, stop⟩ := slot_bounds (heap.live_slot alive member home)
    exact taken.bodies d member _ home a (by omega) (by omega)
  · exact taken.mem q (owned.used q isOwn) (owned.notSlab q isOwn) a inFrame

theorem slabMalloc_mono {fuel more : Nat} (order : fuel ≤ more) {size : Nat}
    {result : Except Panic (Nat × Kernel)} (returned : slabMalloc fuel k size = some result) :
    slabMalloc more k size = some result := by
  unfold slabMalloc at returned ⊢
  obtain ⟨inner, found, rfl⟩ := Option.map_eq_some_iff.mp returned
  rw [kmalloc_mono order found]
  rfl

/-- malloc of an object, with any fuel that is enough. -/
theorem KernelInv.takeObject (inv : KernelInv k live runs slabsOf free list) (owned : Owned k.heap own slabsOf)
    {fuel size p : Nat} (small : size ≤ 1008) (ran : slabMalloc fuel k size = some (.ok (p, k'))) :
    ∃ q c slabsOf' free' list', p = q + 16 ∧ KernelInv k' (q :: live) runs slabsOf' free' list' ∧
      Owned k'.heap own slabsOf' ∧ Spares k k' live own ∧ SlabBlock k k' live q c size ∧ IsClass (size + 16) c := by
  obtain ⟨c, isClass, outcome⟩ := slabMalloc_taken inv small
  have later := slabMalloc_mono (Nat.le_max_left fuel ((slabsOf c).length + 1)) ran
  rcases outcome (max fuel ((slabsOf c).length + 1)) (by omega) with
    ⟨q, s', slabsOf', free', list', taken, returned, inv', block, _⟩ | ⟨failed, _⟩
  · cases Option.some.inj (returned.symm.trans later)
    have heap := inv.heap
    have owned' := owned.taken taken
    have owned₂ : Owned ((k.withPhys s').withMem (s'.mem.store q size)).heap own slabsOf' :=
      ⟨owned'.nodup, owned'.used, owned'.notSlab⟩
    refine ⟨q, c, slabsOf', free', list', rfl, inv', owned₂, ?_, block, isClass⟩
    have sizes : ∀ r ∈ live, ((k.withPhys s').withMem (s'.mem.store q size)).phys.mem (objSizeAt (slabOf r)) =
        k.phys.mem (objSizeAt (slabOf r)) := by
      intro r alive
      obtain ⟨d, member, home⟩ := heap.homes r alive
      exact (inv'.heap.slabs d member _ (taken.old d member _ home)).objSize.trans
        (heap.slabs d member _ home).objSize.symm
    refine ⟨rfl, block.same.hhdm, sizes, ?_⟩
    intro a mayWrite
    refine Eq.trans (Memory.store_other _ ?_) (taken_words heap owned taken mayWrite)
    rintro rfl
    -- the first word of the object is in no other block
    have positive := (slabSizes_bounds isClass.1).1
    have objSize := block.objSize
    have first : a ≤ a ∧ a < a + ((k.withPhys s').withMem (s'.mem.store a size)).phys.mem
        (objSizeAt (slabOf a)) := by omega
    rcases mayWrite with ⟨r, alive, low, high⟩ | ⟨r, isOwn, inFrame⟩
    · have size' := sizes r alive
      change a < r + k.phys.mem (objSizeAt (slabOf r)) at high
      rw [← size'] at high
      refine inv'.heap.live_apart (List.mem_cons_of_mem _ alive) List.mem_cons_self ?_ ⟨low, high⟩ first
      rintro rfl
      exact block.dead alive
    · exact object_not_own inv'.heap owned₂ List.mem_cons_self first isOwn
        ((inFrame_congr block.same.hhdm).mpr inFrame)
  · cases failed.symm.trans later

theorem FramesInv.takeObject (frames : FramesInv k live own runs slabsOf free list) {fuel size p : Nat}
    (small : size ≤ 1008) (ran : slabMalloc fuel k size = some (.ok (p, k'))) :
    ∃ q c slabsOf' free' list', p = q + 16 ∧ FramesInv k' (q :: live) own runs slabsOf' free' list' ∧
      Spares k k' live own ∧ SlabBlock k k' live q c size ∧ IsClass (size + 16) c := by
  obtain ⟨q, c, slabsOf', free', list', place, inv', owned', spares, block, isClass⟩ :=
    frames.inv.takeObject frames.owned small ran
  exact ⟨q, c, slabsOf', free', list', place, frames.steady inv' owned' block.same, spares, block, isClass⟩

/-- A change inside one slab is none of the tables. -/
theorem KernelInv.inSlab {live' : List Nat} {free' : Nat → List Nat}
    (inv : KernelInv k live runs slabsOf free list) {m : Memory} {c slab : Nat}
    (heap' : HeapInv (k.heap.withMem m) live' slabsOf free' list) (member : c ∈ slabSizes)
    (here : slab ∈ slabsOf c) (outside : ∀ a, ¬ (slab ≤ a ∧ a < slab + pageSize) → m a = k.phys.mem a) :
    KernelInv (k.withMem m) live' runs slabsOf free' list ∧ Steady k (k.withMem m) := by
  have tables : ∀ path q, Valid kernelRegion path →
      descend (child k.phys) k.topLevel path = some (q + k.phys.hhdmOffset) → PageIs k.phys q .used →
      ∀ a, InFrame k.phys q a → m a = k.phys.mem a := by
    intro path q valid there used a inFrame
    apply outside
    intro inside
    obtain ⟨r, usedR, rfl⟩ := inv.heap.frames c member slab here
    cases frame_apart inv.heap.pmm.layout used usedR inFrame inside
    exact inv.apart path _ valid there c member here
  obtain ⟨tree, lookup, _, leaves⟩ := @Tree.frame k.phys (k.withMem m).phys k.topLevel kernelRegion
    inv.tree rfl (fun _ used => used) tables
  have same : Steady k (k.withMem m) :=
    ⟨rfl, rfl, rfl, fun _ page => page, fun _ used => used, lookup, leaves⟩
  exact ⟨inv.steady same heap' tree rfl (fun _ _ _ there => .inl there), same⟩

/-- kfree gives one object back and changes no word of the other blocks. -/
theorem FramesInv.giveObject (frames : FramesInv k live own runs slabsOf free list) {q : Nat} (alive : q ∈ live) :
    ∃ free', FramesInv { k with heap := kfree k.heap q } (live.erase q) own runs slabsOf free' list ∧
      Spares k { k with heap := kfree k.heap q } (live.erase q) own ∧
      Steady k { k with heap := kfree k.heap q } := by
  have heap := frames.inv.heap
  have distinct := heap.live_nodup
  obtain ⟨c, member, home⟩ := heap.homes q alive
  obtain ⟨m, result, heap', frame⟩ := kfree_spec heap alive distinct member home
  obtain ⟨low, high⟩ := slot_bounds (heap.live_slot alive member home)
  have outside : ∀ a, ¬ (slabOf q ≤ a ∧ a < slabOf q + pageSize) → m a = k.phys.mem a := by
    intro a notHere
    apply frame
    · rintro rfl
      exact notHere (by unfold objectsAt pageSize; omega)
    · rintro rfl
      exact notHere (by unfold objAmAt pageSize; omega)
    · intro inside
      exact notHere (by omega)
  obtain ⟨inv', same⟩ := frames.inv.inSlab heap' member home outside
  have shape : ({ k with heap := kfree k.heap q } : Kernel) = k.withMem m := by
    rw [result]
    rfl
  rw [shape]
  have owned' : Owned (k.withMem m).heap own slabsOf :=
    ⟨frames.owned.nodup, frames.owned.used, frames.owned.notSlab⟩
  refine ⟨_, frames.steady inv' owned' same, ⟨rfl, rfl, ?_, ?_⟩, same⟩
  · intro p later
    obtain ⟨d, member', home'⟩ := heap.homes p (List.mem_of_mem_erase later)
    exact (heap'.slabs d member' _ home').objSize.trans (heap.slabs d member' _ home').objSize.symm
  · rintro a (⟨p, later, inside⟩ | ⟨r, isOwn, inFrame⟩)
    · obtain ⟨different, there⟩ := distinct.mem_erase_iff.mp later
      have apart := heap.live_apart there alive different inside
      rw [(heap.slabs c member _ home).objSize] at apart
      obtain ⟨d, member', home'⟩ := heap.homes p there
      rw [(heap.slabs d member' _ home').objSize] at inside
      obtain ⟨low', high'⟩ := slot_bounds (heap.live_slot there member' home')
      unfold headerSize at low'
      by_cases sameSlab : slabOf p = slabOf q
      · rw [sameSlab] at low' high'
        exact frame a (by unfold objectsAt; omega) (by unfold objAmAt; omega) apart
      · apply outside
        intro inPage
        exact heap.slab_apart member home member' home' sameSlab inPage (by omega)
    · apply outside
      intro inPage
      obtain ⟨t, used, address⟩ := heap.frames c member _ home
      have sameFrame := frame_apart heap.pmm.layout (frames.owned.used r isOwn) used inFrame
        (by unfold InFrame; omega)
      exact frames.owned.notSlab r isOwn c member (by rw [sameFrame]; exact address ▸ home)

/-- Clients change what they hold. -/
theorem FramesInv.write (frames : FramesInv k live own runs slabsOf free list) {m : Memory}
    (clients : ∀ a, ¬ MayWrite k.heap live own a → m a = k.phys.mem a) :
    FramesInv (k.withMem m) live own runs slabsOf free list ∧ Steady k (k.withMem m) := by
  obtain ⟨inv', same⟩ := frames.inv.write frames.owned frames.noTable clients
  exact ⟨frames.steady inv' ⟨frames.owned.nodup, frames.owned.used, frames.owned.notSlab⟩ same, same⟩

end Objects

section Maps

variable {k : Kernel} {live own list list' virts : List Nat} {runs runs' : List (Nat × Nat)}
  {slabsOf free : Nat → List Nat} {s s' : Phys}

/-- What is mapped after the loop of malloc. -/
theorem framesOf_mapped {top : Nat} {region : Nat → Prop} (layout : Layout s'.hhdmOffset s'.tables)
    (mapped : Mapped s s' top region virts pageFlags) :
    (∀ v ∈ virts, ∃ q ∈ framesOf s' top virts, MapsTo s' top v q) ∧
    ∀ q ∈ framesOf s' top virts, ∃ v ∈ virts, MapsTo s' top v q ∧ PageIs s' q .used ∧ ¬ PageIs s q .used ∧
      ∀ path, Valid region path → descend (child s') top path ≠ some (q + s.hhdmOffset) := by
  constructor
  · intro v member
    obtain ⟨q, entry, used, _⟩ := mapped.mapped v member
    have looked := (MapsTo.looked entry layout used).2
    exact ⟨q, List.mem_dedup.mpr (List.mem_map.mpr ⟨v, member, looked⟩), entry⟩
  · intro q member
    obtain ⟨v, inVirts, rfl⟩ := List.mem_map.mp (List.mem_dedup.mp member)
    obtain ⟨q, entry, used, unused, _, notTable⟩ := mapped.mapped v inVirts
    have looked := (MapsTo.looked entry layout used).2
    rw [looked]
    exact ⟨v, inVirts, entry, used, unused, notTable⟩

/-- Work on the tables changes no word of a block. -/
theorem kept_words (frames : FramesInv k live own runs slabsOf free list)
    (kept : Kept k.phys s' k.topLevel kernelRegion) {a : Nat} (mayWrite : MayWrite k.heap live own a) :
    s'.mem a = k.phys.mem a := by
  rcases mayWrite with ⟨p, alive, inside⟩ | ⟨q, isOwn, inFrame⟩
  · obtain ⟨r, c, member, home, used, address, inSlab⟩ := live_frame frames.inv.heap alive inside
    refine kept.mem r used ?_ a inSlab
    intro path valid there
    exact frames.inv.apart path _ valid there c member (address ▸ home)
  · exact kept.mem q (frames.owned.used q isOwn) (frames.noTable q isOwn) a inFrame

/-- The loop of malloc adds its pages to those that were mapped before. -/
theorem FramesInv.mapped (frames : FramesInv k live own runs slabsOf free list) (inv' : Inv s' list')
    (mapped : Mapped k.phys s' k.topLevel kernelRegion virts pageFlags)
    (reserved : ∀ v ∈ virts, Paged v ∧ (InWindow v → UsedAt k.ranges v))
    (window : ∀ r ∈ runs', ∀ x, Inside x r → InWindow x)
    (placed : ∀ v, Placed runs' v → Placed runs v ∨ ∃ u ∈ virts, pageBits v = pageBits u) :
    FramesInv (k.withPhys s') live (framesOf s' k.topLevel virts ++ own) runs' slabsOf free list' ∧
      Spares k (k.withPhys s') live own := by
  have kept := mapped.kept
  have layout := frames.inv.heap.pmm.layout
  obtain ⟨heap', apart'⟩ := frames.inv.kept inv' kept
  obtain ⟨entered, new⟩ := framesOf_mapped inv'.layout mapped
  have paged' : ∀ v, Placed runs' v → Paged v := by
    rintro v (lower | ⟨r, member, inside⟩)
    · exact .inl lower
    · exact .inr (window r member v inside)
  -- an entry is one of the new ones, or it was there before
  have cases_ : ∀ v, Placed runs' v →
      (∃ u ∈ virts, pageBits v = pageBits u ∧ ∃ q ∈ framesOf s' k.topLevel virts, MapsTo s' k.topLevel u q) ∨
      (Placed runs v ∧ leaf s' k.topLevel v = leaf k.phys k.topLevel v) := by
    intro v isPlaced
    by_cases hit : ∃ u ∈ virts, pageBits v = pageBits u
    · obtain ⟨u, member, same⟩ := hit
      exact .inl ⟨u, member, same, entered u member⟩
    · refine .inr ⟨(placed v isPlaced).resolve_right hit, ?_⟩
      exact mapped.others v (paged_region (paged' v isPlaced)) (fun u member same => hit ⟨u, member, same⟩)
  have kernel : KernelInv (k.withPhys s') live [] slabsOf free list' := by
    refine ⟨heap', mapped.tree, apart', frames.inv.tiling, ?_, frames.inv.direct.kept kept.hhdm kept.total kept.pages,
      fun r none => absurd none List.not_mem_nil⟩
    intro v low high present
    by_cases hit : ∃ u ∈ virts, pageBits v = pageBits u
    · obtain ⟨u, member, same⟩ := hit
      obtain ⟨paged, used⟩ := reserved u member
      have page := (pageBits_paged (.inr ⟨low, high⟩) paged).mp same
      have bounds : vallocInitWindow.lo = 0xFFFFA00000000000 ∧ vallocInitWindow.hi = 0xFFFFE00000000000 :=
        ⟨rfl, rfl⟩
      have inWindow : InWindow u := by
        rcases paged with lower | inWindow
        · omega
        · exact inWindow
      exact frames.inv.tiling.used_page page.symm (used inWindow)
    · apply frames.inv.reserved v low high
      rw [← mapped.others v (paged_region (.inr ⟨low, high⟩)) (fun u member same => hit ⟨u, member, same⟩)]
      exact present
  have usedNew : ∀ q ∈ framesOf s' k.topLevel virts, PageIs s' q .used ∧ ¬ PageIs k.phys q .used := by
    intro q isNew
    obtain ⟨_, _, _, used, unused, _⟩ := new q isNew
    exact ⟨used, unused⟩
  have unique : ∀ v q r, MapsTo s' k.topLevel v q → MapsTo s' k.topLevel v r → PageIs s' q .used →
      PageIs s' r .used → q = r := fun _ _ _ mapsQ mapsR usedQ usedR =>
    mapsQ.unique mapsR inv'.layout usedQ usedR
  have usedAll : ∀ q ∈ framesOf s' k.topLevel virts ++ own, PageIs s' q .used := by
    intro q member
    rcases List.mem_append.mp member with isNew | isOwn
    · exact (usedNew q isNew).1
    · exact kept.used q (frames.owned.used q isOwn)
  have old_own : ∀ v q, Placed runs v → leaf s' k.topLevel v = leaf k.phys k.topLevel v →
      MapsTo s' k.topLevel v q → PageIs s' q .used → q ∈ own := by
    intro v q old same maps used
    have present := (maps.looked inv'.layout used).1
    rw [same] at present
    obtain ⟨r, isOwn, maps'⟩ := frames.entries v old present
    rw [unique v q r maps (same.trans maps') used (kept.used r (frames.owned.used r isOwn))]
    exact isOwn
  refine ⟨⟨kernel, ⟨?_, usedAll, ?_⟩, ?_, window, ?_, ?_⟩, ⟨rfl, kept.hhdm, ?_, ?_⟩⟩
  · refine List.nodup_append.mpr ⟨List.nodup_dedup _, frames.owned.nodup, ?_⟩
    rintro q isNew r isOwn rfl
    exact (usedNew q isNew).2 (frames.owned.used q isOwn)
  · intro q member c isClass isSlab
    change q + s'.hhdmOffset ∈ slabsOf c at isSlab
    rw [kept.hhdm] at isSlab
    rcases List.mem_append.mp member with isNew | isOwn
    · obtain ⟨r, usedR, address⟩ := frames.inv.heap.frames c isClass _ isSlab
      cases Nat.add_right_cancel address
      exact (usedNew q isNew).2 usedR
    · exact frames.owned.notSlab q isOwn c isClass isSlab
  · intro q member path valid there
    change descend (child s') k.topLevel path = some (q + s'.hhdmOffset) at there
    rw [kept.hhdm] at there
    rcases List.mem_append.mp member with isNew | isOwn
    · obtain ⟨_, _, _, _, _, notTable⟩ := new q isNew
      exact notTable path valid there
    · rcases kept.tables path _ valid there with old | ⟨r, unused, address⟩
      · exact frames.noTable q isOwn path valid old
      · cases Nat.add_right_cancel address
        exact unused (frames.owned.used q isOwn)
  · intro q member v w placedV placedW mapsV mapsW
    change MapsTo s' k.topLevel v q at mapsV
    change MapsTo s' k.topLevel w q at mapsW
    have usedQ := usedAll q member
    rcases cases_ v placedV with ⟨u, inVirts, sameV, p, isNew, maps⟩ | ⟨oldV, leafV⟩
    · have first := unique u q p (mapsV.of_page sameV.symm) maps usedQ (usedNew p isNew).1
      rcases cases_ w placedW with ⟨x, inVirts', sameW, r, isNew', maps'⟩ | ⟨oldW, leafW⟩
      · have second := unique x q r (mapsW.of_page sameW.symm) maps' usedQ (usedNew r isNew').1
        by_contra different
        obtain ⟨y, z, apart, entryY, entryZ, usedY, usedZ⟩ := mapped.distinct u inVirts x inVirts'
          (fun same => different (sameV.trans (same.trans sameW.symm)))
        exact apart ((unique u y p entryY maps usedY (usedNew p isNew).1).trans (first.symm.trans
          (second.trans (unique x r z maps' entryZ (usedNew r isNew').1 usedZ))))
      · have isOwn := old_own w q oldW leafW mapsW usedQ
        exact absurd (frames.owned.used q isOwn) (first ▸ (usedNew p isNew).2)
    · have isOwn := old_own v q oldV leafV mapsV usedQ
      rcases cases_ w placedW with ⟨x, inVirts', sameW, r, isNew', maps'⟩ | ⟨oldW, leafW⟩
      · have second := unique x q r (mapsW.of_page sameW.symm) maps' usedQ (usedNew r isNew').1
        exact absurd (frames.owned.used q isOwn) (second ▸ (usedNew r isNew').2)
      · exact frames.single q isOwn v w oldV oldW (leafV.symm.trans mapsV) (leafW.symm.trans mapsW)
  · intro v isPlaced present
    rcases cases_ v isPlaced with ⟨u, _, same, q, isNew, maps⟩ | ⟨old, same⟩
    · exact ⟨q, List.mem_append_left _ isNew, maps.of_page same⟩
    · change isPresent (leaf s' k.topLevel v) = true at present
      rw [same] at present
      obtain ⟨q, isOwn, maps⟩ := frames.entries v old present
      exact ⟨q, List.mem_append_right _ isOwn, same.trans maps⟩
  · intro p alive
    exact objSize_kept frames.inv.heap heap' alive
  · exact fun a mayWrite => kept_words frames kept mayWrite

end Maps

section Ranges

variable {k : Kernel} {live own list : List Nat} {runs : List (Nat × Nat)} {slabsOf free : Nat → List Nat}

/-- A range without mappings goes back to the free ones. -/
theorem KernelInv.release (inv : KernelInv k live runs slabsOf free list) {r m : PageRange}
    {f u : Vma.VallocTree} (carve : Carve k.ranges.usedRanges.nodes u.nodes
      k.ranges.freeRanges.nodes f.nodes r m) (start : Vma.pageSize ∣ m.vaddr) (size : Vma.pageSize ∣ m.size)
    (gone : ∀ x, Inside x m.span → isPresent (leaf k.phys k.topLevel x) = false) (refused : List PageRange) :
    KernelInv { k with ranges := ⟨f, u, refused⟩ } live runs slabsOf free list where
  heap := inv.heap
  tree := inv.tree
  apart := inv.apart
  tiling := inv.tiling.of_free carve start size
  reserved := by
    intro v low high present
    refine (carve.src_covers inv.tiling.swapped v).mpr ⟨inv.reserved v low high present, ?_⟩
    intro inside
    cases (gone v inside).symm.trans present
  direct := inv.direct
  runs := inv.runs

/-- The mappings do not depend on the ranges. -/
theorem FramesInv.withRanges (frames : FramesInv k live own runs slabsOf free list) {ranges : Ranges}
    (inv' : KernelInv { k with ranges := ranges } live [] slabsOf free list) :
    FramesInv { k with ranges := ranges } live own runs slabsOf free list :=
  ⟨inv', frames.owned, frames.noTable, frames.window, frames.single, frames.entries⟩

end Ranges

end EvalynOS.Stdlib
