import EvalynOS.Memory.Heap
import EvalynOS.Memory.PmmInvariant

/-! What holds of the slabs between calls, and what taking an object, giving one back and
adding a slab do to it. -/
namespace EvalynOS.Heap
open Lib Lib.Word Pmm

/-- The objects of a slab, from the lowest on. -/
def slots (slab size : Nat) : List Nat :=
  (List.range ((pageSize - headerSize) / size)).map (fun i => slab + headerSize + i * size)

/-- A slab whose free objects are `free` and whose live ones are `live`. -/
structure SlabAt (m : Memory) (slab size : Nat) (free live : List Nat) : Prop where
  objSize : m (objSizeAt slab) = size
  amount : m (objAmAt slab) = free.length
  threaded : Threaded m (m (objectsAt slab)) free
  split : (free ++ live).Perm (slots slab size)

def liveIn (live : List Nat) (slab : Nat) : List Nat := live.filter (fun p => slabOf p = slab)

/-- The slabs of each class in chain order, their free lists, and the live objects. -/
structure HeapInv (h : KHeap) (live : List Nat) (slabsOf free : Nat → List Nat) (list : List Nat) :
    Prop where
  pmm : Inv h.phys list
  offset : pageSize ∣ h.phys.hhdmOffset
  sizes : h.caches.map SlabCache.size = slabSizes
  chains : ∀ cache ∈ h.caches, Threaded h.phys.mem cache.slabs (slabsOf cache.size) ∧
    slabsOf cache.size ≠ []
  distinct : ∀ c ∈ slabSizes, (slabsOf c).Nodup
  frames : ∀ c ∈ slabSizes, ∀ slab ∈ slabsOf c, ∃ q, PageIs h.phys q .used ∧
    slab = q + h.phys.hhdmOffset
  slabs : ∀ c ∈ slabSizes, ∀ slab ∈ slabsOf c,
    SlabAt h.phys.mem slab c (free slab) (liveIn live slab)
  homes : ∀ p ∈ live, ∃ c ∈ slabSizes, slabOf p ∈ slabsOf c

theorem slabSizes_bounds {c : Nat} (member : c ∈ slabSizes) : 32 ≤ c ∧ c ≤ 1024 := by
  simp only [slabSizes, List.mem_cons, List.not_mem_nil, or_false] at member
  omega

section Slots

variable {slab size p q : Nat}

theorem mem_slots : p ∈ slots slab size ↔
    ∃ i, i < (pageSize - headerSize) / size ∧ p = slab + headerSize + i * size := by
  simp only [slots, List.mem_map, List.mem_range]
  constructor
  · rintro ⟨i, bound, rfl⟩
    exact ⟨i, bound, rfl⟩
  · rintro ⟨i, bound, rfl⟩
    exact ⟨i, bound, rfl⟩

/-- An object lies behind the header and inside the page. -/
theorem slot_bounds (member : p ∈ slots slab size) :
    slab + headerSize ≤ p ∧ p + size ≤ slab + pageSize := by
  obtain ⟨i, bound, rfl⟩ := mem_slots.mp member
  refine ⟨Nat.le_add_right _ _, ?_⟩
  have fits : (i + 1) * size ≤ pageSize - headerSize :=
    Nat.le_trans (Nat.mul_le_mul_right size bound) (Nat.div_mul_le_self _ _)
  rw [Nat.add_mul, Nat.one_mul] at fits
  unfold pageSize headerSize at *
  omega

/-- Two objects do not overlap. -/
theorem slot_apart (one : p ∈ slots slab size) (two : q ∈ slots slab size) (different : p ≠ q) :
    p + size ≤ q ∨ q + size ≤ p := by
  obtain ⟨i, _, rfl⟩ := mem_slots.mp one
  obtain ⟨j, _, rfl⟩ := mem_slots.mp two
  rcases Nat.lt_trichotomy i j with below | same | above
  · left
    have step := Nat.mul_le_mul_right size below
    rw [Nat.succ_mul] at step
    omega
  · exact absurd (by rw [same]) different
  · right
    have step := Nat.mul_le_mul_right size above
    rw [Nat.succ_mul] at step
    omega

theorem slots_nodup (positive : 0 < size) : (slots slab size).Nodup := by
  refine List.nodup_range.map ?_
  intro i j same
  have equal : i * size = j * size := by
    simp only at same
    omega
  exact Nat.eq_of_mul_eq_mul_right positive equal

theorem slabOf_slot (aligned : pageSize ∣ slab) (bound : slab + pageSize ≤ 2 ^ 64)
    (positive : 0 < size) (member : p ∈ slots slab size) : slabOf p = slab := by
  obtain ⟨low, high⟩ := slot_bounds member
  unfold slabOf
  have rounded := alignDown_pow (x := p) (k := 12) (by decide) (by omega)
  simp only [Nat.reducePow] at rounded
  unfold pageSize headerSize at *
  rw [rounded]
  omega

end Slots

section Slab

variable {m m' : Memory} {slab size : Nat} {free live : List Nat}

theorem SlabAt.nodup (here : SlabAt m slab size free live) (positive : 0 < size) :
    (free ++ live).Nodup := here.split.nodup_iff.mpr (slots_nodup positive)

theorem SlabAt.mem_free {p : Nat} (here : SlabAt m slab size free live) (member : p ∈ free) :
    p ∈ slots slab size := here.split.mem_iff.mp (List.mem_append_left _ member)

/-- A slab depends on its header and on the first words of its free objects. -/
theorem SlabAt.congr (here : SlabAt m slab size free live)
    (sizeSame : m' (objSizeAt slab) = m (objSizeAt slab))
    (amountSame : m' (objAmAt slab) = m (objAmAt slab))
    (objectsSame : m' (objectsAt slab) = m (objectsAt slab)) (links : ∀ p ∈ free, m' p = m p) :
    SlabAt m' slab size free live :=
  ⟨sizeSame.trans here.objSize, amountSame.trans here.amount,
    objectsSame.symm ▸ here.threaded.congr links, here.split⟩

/-- Whatever leaves the words of the page alone leaves the slab alone. -/
theorem SlabAt.page_congr (here : SlabAt m slab size free live)
    (agree : ∀ a, slab ≤ a → a < slab + pageSize → m' a = m a) (positive : 0 < size) :
    SlabAt m' slab size free live := by
  have header : ∀ k, k < 32 → m' (slab + k) = m (slab + k) := fun k small =>
    agree _ (Nat.le_add_right _ _) (by unfold pageSize; omega)
  refine here.congr (header 8 (by decide)) (header 16 (by decide)) (header 24 (by decide)) ?_
  intro p member
  obtain ⟨low, high⟩ := slot_bounds (here.mem_free member)
  exact agree p (by omega) (by omega)

end Slab

section Heaps

variable {h : KHeap} {live list : List Nat} {slabsOf free : Nat → List Nat} {c slab p : Nat}

/-- The heap with another memory. -/
def KHeap.withMem (h : KHeap) (m : Memory) : KHeap := { h with phys := { h.phys with mem := m } }

theorem HeapInv.slab_bounds (heap : HeapInv h live slabsOf free list) (member : c ∈ slabSizes)
    (here : slab ∈ slabsOf c) : pageSize ∣ slab ∧ 0 < slab ∧ slab + pageSize < 2 ^ 64 := by
  obtain ⟨q, used, rfl⟩ := heap.frames c member slab here
  obtain ⟨aligned, positive, mapped, _⟩ := heap.pmm.layout.page_bounds used
  exact ⟨Nat.dvd_add aligned heap.offset, by omega, by omega⟩

/-- A slab is a page. -/
theorem HeapInv.slabs_le (heap : HeapInv h live slabsOf free list) (member : c ∈ slabSizes) :
    (slabsOf c).length ≤ h.phys.totalPages := by
  have pages : ∀ slab ∈ slabsOf c, slab - h.phys.hhdmOffset + h.phys.hhdmOffset = slab ∧
      PageIs h.phys (slab - h.phys.hhdmOffset) .used := by
    intro slab here
    obtain ⟨q, used, rfl⟩ := heap.frames c member slab here
    rw [Nat.add_sub_cancel]
    exact ⟨rfl, used⟩
  have distinct : ((slabsOf c).map (· - h.phys.hhdmOffset)).Nodup := by
    refine (heap.distinct c member).map_on ?_
    intro one hereOne two hereTwo same
    rw [← (pages one hereOne).1, ← (pages two hereTwo).1, same]
  have bound := heap.pmm.pages_le distinct (by
    intro p here
    obtain ⟨slab, listed, rfl⟩ := List.mem_map.mp here
    exact ⟨.used, (pages slab listed).2⟩)
  rwa [List.length_map] at bound

/-- The pages of different slabs share no word. -/
theorem HeapInv.slab_apart (heap : HeapInv h live slabsOf free list) {c' other a : Nat}
    (member : c ∈ slabSizes) (here : slab ∈ slabsOf c) (member' : c' ∈ slabSizes)
    (there : other ∈ slabsOf c') (different : other ≠ slab) (inside : slab ≤ a ∧ a < slab + pageSize) :
    ¬ (other ≤ a ∧ a < other + pageSize) := by
  obtain ⟨k, rfl⟩ := (heap.slab_bounds member here).1
  obtain ⟨l, rfl⟩ := (heap.slab_bounds member' there).1
  unfold pageSize at *
  omega

theorem HeapInv.class_unique (heap : HeapInv h live slabsOf free list) {c' : Nat}
    (member : c ∈ slabSizes) (here : slab ∈ slabsOf c) (member' : c' ∈ slabSizes)
    (there : slab ∈ slabsOf c') : c = c' :=
  (heap.slabs c member slab here).objSize.symm.trans (heap.slabs c' member' slab there).objSize

theorem HeapInv.slabOf_slot (heap : HeapInv h live slabsOf free list) (member : c ∈ slabSizes)
    (here : slab ∈ slabsOf c) (object : p ∈ slots slab c) : slabOf p = slab := by
  obtain ⟨aligned, _, bound⟩ := heap.slab_bounds member here
  have positive := slabSizes_bounds member
  exact Heap.slabOf_slot aligned (Nat.le_of_lt bound) (by omega) object

/-- A live object is one of the slots of its slab. -/
theorem HeapInv.live_slot (heap : HeapInv h live slabsOf free list) (alive : p ∈ live)
    (member : c ∈ slabSizes) (here : slabOf p ∈ slabsOf c) : p ∈ slots (slabOf p) c := by
  apply (heap.slabs c member _ here).split.mem_iff.mp
  apply List.mem_append_right
  simp [liveIn, alive]

/-- The bytes of different live objects are different. -/
theorem HeapInv.live_apart (heap : HeapInv h live slabsOf free list) {q a : Nat} (one : p ∈ live)
    (two : q ∈ live) (different : p ≠ q) (inP : p ≤ a ∧ a < p + h.phys.mem (objSizeAt (slabOf p))) :
    ¬ (q ≤ a ∧ a < q + h.phys.mem (objSizeAt (slabOf q))) := by
  obtain ⟨c, member, home⟩ := heap.homes p one
  obtain ⟨d, member', home'⟩ := heap.homes q two
  have slotP := heap.live_slot one member home
  have slotQ := heap.live_slot two member' home'
  rw [(heap.slabs c member _ home).objSize] at inP
  rw [(heap.slabs d member' _ home').objSize]
  by_cases same : slabOf q = slabOf p
  · rw [same] at home' slotQ
    cases heap.class_unique member home member' home'
    have apart := slot_apart slotP slotQ different
    omega
  · obtain ⟨lowP, highP⟩ := slot_bounds slotP
    obtain ⟨lowQ, highQ⟩ := slot_bounds slotQ
    have apart := @HeapInv.slab_apart h live list slabsOf free c _ heap d _ a member home member' home' same
      (by omega)
    omega

/-- A free object is not live. -/
theorem HeapInv.free_dead (heap : HeapInv h live slabsOf free list) (member : c ∈ slabSizes)
    (here : slab ∈ slabsOf c) (isFree : p ∈ free slab) : p ∉ live := by
  intro alive
  have at_ := heap.slabs c member slab here
  have home := heap.slabOf_slot member here (at_.mem_free isFree)
  have distinct := at_.nodup (Nat.lt_of_lt_of_le (by decide) (slabSizes_bounds member).1)
  refine (List.nodup_append.mp distinct).2.2 p isFree p ?_ rfl
  simp [liveIn, alive, home]

/-- No object is handed out twice. -/
theorem HeapInv.live_nodup (heap : HeapInv h live slabsOf free list) : live.Nodup := by
  refine List.nodup_iff_count_le_one.mpr ?_
  intro p
  by_cases alive : p ∈ live
  · obtain ⟨c, member, home⟩ := heap.homes p alive
    have distinct := (heap.slabs c member _ home).nodup
      (Nat.lt_of_lt_of_le (by decide) (slabSizes_bounds member).1)
    have once := List.nodup_iff_count_le_one.mp (List.nodup_append.mp distinct).2.1 p
    rwa [liveIn, List.count_filter (by simp)] at once
  · rw [List.count_eq_zero.mpr alive]
    exact Nat.zero_le _

/-- A word in the page of a slab belongs to a page in use. -/
theorem HeapInv.write (heap : HeapInv h live slabsOf free list) {m : Memory}
    (own : ∀ a, (∀ c ∈ slabSizes, ∀ slab ∈ slabsOf c, ¬ (slab ≤ a ∧ a < slab + pageSize)) →
      m a = h.phys.mem a) : Inv (h.withMem m).phys list := by
  apply heap.pmm.write
  intro a outside
  apply own
  intro c member slab here inside
  obtain ⟨q, used, rfl⟩ := heap.frames c member slab here
  exact outside q used inside

/-- A change inside one slab: the other slabs and all chains are as before. -/
theorem HeapInv.update_slab (heap : HeapInv h live slabsOf free list) {m : Memory}
    {live' freeHere : List Nat} (member : c ∈ slabSizes) (here : slab ∈ slabsOf c)
    (outside : ∀ a, ¬ (slab ≤ a ∧ a < slab + pageSize) → m a = h.phys.mem a)
    (chain : m slab = h.phys.mem slab) (at_ : SlabAt m slab c freeHere (liveIn live' slab))
    (others : ∀ other, other ≠ slab → liveIn live' other = liveIn live other)
    (homes : ∀ p ∈ live', p ∈ live ∨ slabOf p = slab) :
    HeapInv (h.withMem m) live' slabsOf (Function.update free slab freeHere) list := by
  refine ⟨heap.write ?_, heap.offset, heap.sizes, ?_, heap.distinct, heap.frames, ?_, ?_⟩
  · intro a none
    exact outside a (none c member slab here)
  · intro cache inCaches
    obtain ⟨threaded, nonempty⟩ := heap.chains cache inCaches
    have inSizes : cache.size ∈ slabSizes := heap.sizes ▸ List.mem_map_of_mem inCaches
    refine ⟨threaded.congr ?_, nonempty⟩
    intro other there
    by_cases same : other = slab
    · rw [same]
      exact chain
    · apply outside
      intro inside
      exact heap.slab_apart member here inSizes there same inside
        ⟨Nat.le_refl _, Nat.lt_add_of_pos_right (by decide)⟩
  · intro c' member' other there
    by_cases same : other = slab
    · subst same
      cases heap.class_unique member here member' there
      rw [Function.update_self]
      exact at_
    · rw [Function.update_of_ne same, others other same]
      apply (heap.slabs c' member' other there).page_congr
      · intro a low high
        apply outside
        intro inside
        exact heap.slab_apart member here member' there same inside ⟨low, high⟩
      · exact Nat.lt_of_lt_of_le (by decide) (slabSizes_bounds member').1
  · intro q alive
    rcases homes q alive with old | new
    · exact heap.homes q old
    · exact ⟨c, member, new ▸ here⟩

/-- The first free object is taken: the header changes, and nothing else. -/
theorem HeapInv.take (heap : HeapInv h live slabsOf free list) (member : c ∈ slabSizes)
    (here : slab ∈ slabsOf c) {rest : List Nat} (shape : free slab = p :: rest) {m : Memory}
    (objects : m (objectsAt slab) = h.phys.mem p) (amount : m (objAmAt slab) = rest.length)
    (frame : ∀ a, a ≠ objectsAt slab → a ≠ objAmAt slab → m a = h.phys.mem a) :
    HeapInv (h.withMem m) (p :: live) slabsOf (Function.update free slab rest) list := by
  have at_ := heap.slabs c member slab here
  rw [shape] at at_
  have object := at_.mem_free List.mem_cons_self
  have home := heap.slabOf_slot member here object
  apply heap.update_slab member here
  · intro a outside
    apply frame
    · rintro rfl
      exact outside (by unfold objectsAt pageSize; omega)
    · rintro rfl
      exact outside (by unfold objAmAt pageSize; omega)
  · exact frame slab (by unfold objectsAt; omega) (by unfold objAmAt; omega)
  · have rest_threaded := (Threaded.cons_iff.mp at_.threaded).2.2
    refine ⟨?_, amount, ?_, ?_⟩
    · rw [frame (objSizeAt slab) (by unfold objSizeAt objectsAt; omega)
        (by unfold objSizeAt objAmAt; omega)]
      exact at_.objSize
    · rw [objects]
      apply rest_threaded.congr
      intro q inRest
      have low := (slot_bounds (at_.mem_free (List.mem_cons_of_mem _ inRest))).1
      unfold headerSize at low
      exact frame q (by unfold objectsAt; omega) (by unfold objAmAt; omega)
    · have perm := at_.split
      have liveHere : liveIn (p :: live) slab = p :: liveIn live slab := by simp [liveIn, home]
      rw [liveHere]
      exact List.perm_middle.trans perm
  · intro other different
    simp [liveIn, home, Ne.symm different]
  · intro q alive
    rcases List.mem_cons.mp alive with rfl | old
    · exact .inr home
    · exact .inl old

/-- A live object goes back to the front of its slab's list. -/
theorem HeapInv.give (heap : HeapInv h live slabsOf free list) (alive : p ∈ live)
    (distinct : live.Nodup) (member : c ∈ slabSizes) (here : slabOf p ∈ slabsOf c) {m : Memory}
    (objects : m (objectsAt (slabOf p)) = p)
    (amount : m (objAmAt (slabOf p)) = (free (slabOf p)).length + 1)
    (link : m p = h.phys.mem (objectsAt (slabOf p)))
    (frame : ∀ a, a ≠ objectsAt (slabOf p) → a ≠ objAmAt (slabOf p) → ¬ (p ≤ a ∧ a < p + c) →
      m a = h.phys.mem a) :
    HeapInv (h.withMem m) (live.erase p) slabsOf
      (Function.update free (slabOf p) (p :: free (slabOf p))) list := by
  have object := heap.live_slot alive member here
  obtain ⟨low, high⟩ := slot_bounds object
  obtain ⟨aligned, positive, _⟩ := heap.slab_bounds member here
  have at_ := heap.slabs c member _ here
  have positiveC := (slabSizes_bounds member).1
  generalize home : slabOf p = slab at *
  have notFree : p ∉ free slab := fun isFree => heap.free_dead member here isFree alive
  unfold headerSize at low
  apply heap.update_slab member here
  · intro a outside
    apply frame
    · rintro rfl
      exact outside (by unfold objectsAt pageSize; omega)
    · rintro rfl
      exact outside (by unfold objAmAt pageSize; omega)
    · intro inside
      exact outside (by omega)
  · exact frame slab (by unfold objectsAt; omega) (by unfold objAmAt; omega) (by omega)
  · refine ⟨?_, amount, ?_, ?_⟩
    · rw [frame (objSizeAt slab) (by unfold objSizeAt objectsAt; omega)
        (by unfold objSizeAt objAmAt; omega) (by unfold objSizeAt; omega)]
      exact at_.objSize
    · rw [objects]
      refine Threaded.cons_iff.mpr ⟨rfl, by omega, ?_⟩
      rw [link]
      apply at_.threaded.congr
      intro q isFree
      have objectQ := at_.mem_free isFree
      have lowQ := (slot_bounds objectQ).1
      unfold headerSize at lowQ
      have different : q ≠ p := by
        rintro rfl
        exact notFree isFree
      have apart := slot_apart objectQ object different
      exact frame q (by unfold objectsAt; omega) (by unfold objAmAt; omega) (by omega)
    · have perm : (liveIn live slab).Perm (p :: liveIn (live.erase p) slab) := by
        have erased := (List.perm_cons_erase alive).filter (fun q => slabOf q = slab)
        rwa [List.filter_cons_of_pos (by simp [home])] at erased
      have whole := at_.split
      exact (List.perm_middle.symm.trans (perm.symm.append_left _)).trans whole
  · intro other different
    unfold liveIn
    rw [distinct.erase_eq_filter, List.filter_filter]
    apply List.filter_congr
    intro q _
    by_cases there : slabOf q = other
    · have notP : q ≠ p := by
        rintro rfl
        exact different (there.symm.trans home)
      simp [there, notP]
    · simp [there]
  · intro q later
    exact .inl (List.mem_of_mem_erase later)

end Heaps

end EvalynOS.Heap
