import EvalynOS.Memory.HeapOps
import EvalynOS.Memory.PmmRuns

/-! kmalloc, kfree and setup_heap, and what holds of the slabs in every run of them. -/
namespace EvalynOS.Heap
open Lib Lib.Word Pmm

/-- The smallest class that holds `size` bytes. -/
def IsClass (size c : Nat) : Prop := c ∈ slabSizes ∧ size ≤ c ∧ ∀ d ∈ slabSizes, size ≤ d → c ≤ d

section Fuel

/-- A loop that has returned returns the same with more fuel. -/
theorem allocateWithSlab_mono {fuel more : Nat} (order : fuel ≤ more) {s : Phys} {slab : Nat}
    {result : Except Panic (Nat × Phys)} (returned : allocateWithSlab fuel s slab = some result) :
    allocateWithSlab more s slab = some result := by
  induction fuel generalizing more s slab with
  | zero => cases returned
  | succ fuel ih =>
    obtain ⟨more, rfl⟩ : ∃ k, more = k + 1 := ⟨more - 1, by omega⟩
    by_cases empty : s.mem (objectsAt slab) = 0
    · by_cases last : s.mem slab = 0
      · cases made : newSlab s (s.mem (objSizeAt slab)) with
        | error e =>
          simp only [allocateWithSlab, empty, last, made, ne_eq, not_true_eq_false, ↓reduceIte]
            at returned ⊢
          exact returned
        | ok pair =>
          simp only [allocateWithSlab, empty, last, made, ne_eq, not_true_eq_false, ↓reduceIte]
            at returned ⊢
          exact ih (by omega) returned
      · simp only [allocateWithSlab, empty, last, ne_eq, not_true_eq_false, not_false_eq_true,
          ↓reduceIte] at returned ⊢
        exact ih (by omega) returned
    · simp only [allocateWithSlab, empty, ne_eq, not_false_eq_true, ↓reduceIte] at returned ⊢
      exact returned

theorem kmalloc_mono {fuel more : Nat} (order : fuel ≤ more) {h : KHeap} {size : Nat}
    {result : Except Panic (Nat × KHeap)} (returned : kmalloc fuel h size = some result) :
    kmalloc more h size = some result := by
  unfold kmalloc at returned ⊢
  split at returned
  · exact returned
  · rename_i cache _
    obtain ⟨inner, found, rfl⟩ := Option.map_eq_some_iff.mp returned
    rw [allocateWithSlab_mono order found]
    rfl

end Fuel

section Calls

variable {h : KHeap} {live list : List Nat} {slabsOf free : Nat → List Nat} {c p size : Nat}

/-- The search of kmalloc stops at the smallest class. -/
theorem kmalloc_class (heap : HeapInv h live slabsOf free list) (small : size ≤ 1024) :
    ∃ cache ∈ h.caches, IsClass size cache.size ∧
      h.caches.find? (fun cache => size ≤ cache.size) = some cache := by
  have largest : 1024 ∈ h.caches.map SlabCache.size := by
    rw [heap.sizes]
    decide
  obtain ⟨big, inCaches, isLargest⟩ := List.mem_map.mp largest
  cases search : h.caches.find? (fun cache => size ≤ cache.size) with
  | none =>
    have refused := List.find?_eq_none.mp search big inCaches
    simp only [decide_eq_true_eq] at refused
    omega
  | some cache =>
    obtain ⟨fits, before, after, split, refused⟩ := List.find?_eq_some_iff_append.mp search
    refine ⟨cache, List.mem_of_find?_eq_some search, ⟨?_, of_decide_eq_true fits, ?_⟩, rfl⟩
    · rw [← heap.sizes]
      exact List.mem_map_of_mem (List.mem_of_find?_eq_some search)
    · intro d inSizes holds
      have order : slabSizes.Pairwise (· ≤ ·) := by decide
      rw [← heap.sizes, split, List.map_append, List.map_cons] at order inSizes
      rcases List.mem_append.mp inSizes with earlier | rest
      · obtain ⟨other, inBefore, rfl⟩ := List.mem_map.mp earlier
        have tooSmall := refused other inBefore
        simp only [Bool.not_eq_true', decide_eq_false_iff_not] at tooSmall
        exact absurd holds tooSmall
      · rcases List.mem_cons.mp rest with rfl | later
        · exact Nat.le_refl _
        · exact List.rel_of_pairwise_cons (List.pairwise_append.mp order).2.1 later

/-- With fuel for the slabs of its class kmalloc returns, with an object that was not live
or because the memory is used up. -/
theorem kmalloc_outcome (heap : HeapInv h live slabsOf free list) (small : size ≤ 1024) :
    ∃ c, IsClass size c ∧ ∀ fuel, (slabsOf c).length < fuel →
      (∃ p s' slabsOf' free' list', kmalloc fuel h size = some (.ok (p, { h with phys := s' })) ∧
        HeapInv { h with phys := s' } (p :: live) slabsOf' free' list' ∧ p ∉ live ∧
        Taken h slabsOf c p s' slabsOf' ∧ s'.usedPages = h.phys.usedPages + slabCost slabsOf free c) ∨
      (kmalloc fuel h size = some (.error .outOfMemory) ∧
        h.phys.totalPages < h.phys.usedPages + slabCost slabsOf free c) := by
  obtain ⟨cache, inCaches, isClass, search⟩ := kmalloc_class heap small
  refine ⟨cache.size, isClass, ?_⟩
  intro fuel enough
  have call : kmalloc fuel h size = (allocateWithSlab fuel h.phys cache.slabs).map (fun result =>
      result.map (fun pair => (pair.1, { h with phys := pair.2 }))) := by
    rw [kmalloc, search]
  obtain ⟨chain, nonempty⟩ := heap.chains cache inCaches
  obtain ⟨slab, after, split⟩ := List.exists_cons_of_ne_nil nonempty
  rw [split] at chain enough
  obtain ⟨first, _, _⟩ := Threaded.cons_iff.mp chain
  rw [call, first]
  rcases @allocateWithSlab_outcome h live list slabsOf free cache.size slab heap isClass.1 [] after split
      (fun other none => by cases none) fuel enough with handed | ⟨failed, full⟩
  · left
    obtain ⟨p, s', slabsOf', free', list', result, rest⟩ := handed
    refine ⟨p, s', slabsOf', free', list', ?_, rest⟩
    rw [result]
    rfl
  · right
    refine ⟨?_, full⟩
    rw [failed]
    rfl

/-- kfree puts a live object in front of the free list of its slab, and changes nothing
but the object and two words of the header. -/
theorem kfree_spec (heap : HeapInv h live slabsOf free list) (alive : p ∈ live)
    (distinct : live.Nodup) (member : c ∈ slabSizes) (here : slabOf p ∈ slabsOf c) :
    ∃ m, kfree h p = h.withMem m ∧
      HeapInv (h.withMem m) (live.erase p) slabsOf
        (Function.update free (slabOf p) (p :: free (slabOf p))) list ∧
      ∀ a, a ≠ objectsAt (slabOf p) → a ≠ objAmAt (slabOf p) → ¬ (p ≤ a ∧ a < p + c) →
        m a = h.phys.mem a := by
  have object := heap.live_slot alive member here
  obtain ⟨low, high⟩ := slot_bounds object
  have at_ := heap.slabs c member _ here
  have positiveC := (slabSizes_bounds member).1
  have positive := (heap.slab_bounds member here).2.1
  have length : (free (slabOf p)).length < 4096 := by
    have whole := at_.split.length_eq
    rw [List.length_append, slots, List.length_map, List.length_range] at whole
    have few : (pageSize - headerSize) / c ≤ pageSize - headerSize := Nat.div_le_self _ _
    unfold pageSize headerSize at few whole
    omega
  generalize home : slabOf p = slab at *
  unfold headerSize at low
  have amountSum : wadd (free slab).length 1 = (free slab).length + 1 := wadd_eq (by omega)
  -- the words of the header survive the memset
  have cleared : ∀ a, a < p → h.phys.mem.clear p c a = h.phys.mem a := fun a below =>
    Memory.clear_outside (by omega)
  have objectsWord := cleared (objectsAt slab) (by unfold objectsAt; omega)
  have amountWord := cleared (objAmAt slab) (by unfold objAmAt; omega)
  let linked : Memory := if h.phys.mem (objectsAt slab) = 0 then h.phys.mem.clear p c
    else (h.phys.mem.clear p c).store p (h.phys.mem (objectsAt slab))
  have linkedAt : linked p = h.phys.mem (objectsAt slab) := by
    simp only [linked]
    split
    · rename_i null
      rw [null]
      exact Memory.clear_inside (Nat.le_refl _) (by omega)
    · exact Memory.store_same _ _ _
  have linkedElse : ∀ a, ¬ (p ≤ a ∧ a < p + c) → linked a = h.phys.mem a := by
    intro a outside
    simp only [linked]
    split
    · exact Memory.clear_outside outside
    · rw [Memory.store_other _ (by omega)]
      exact Memory.clear_outside outside
  have different : objAmAt slab ≠ objectsAt slab := by
    unfold objAmAt objectsAt
    omega
  have amountHere : (linked.store (objectsAt slab) p) (objAmAt slab) = (free slab).length := by
    rw [Memory.store_other _ different, linkedElse _ (by unfold objAmAt; omega), at_.amount]
  let m := (linked.store (objectsAt slab) p).store (objAmAt slab) ((free slab).length + 1)
  have call : kfree h p = h.withMem m := by
    have nonnull : p ≠ 0 := by omega
    simp only [kfree, nonnull, ↓reduceIte, home, at_.objSize, objectsWord, m, KHeap.withMem]
    rw [← amountSum, ← amountHere]
  have frame : ∀ a, a ≠ objectsAt slab → a ≠ objAmAt slab → ¬ (p ≤ a ∧ a < p + c) →
      m a = h.phys.mem a := by
    intro a notObjects notAm outside
    simp only [m]
    rw [Memory.store_other _ notAm, Memory.store_other _ notObjects]
    exact linkedElse a outside
  have link : m p = h.phys.mem (objectsAt slab) := by
    simp only [m]
    rw [Memory.store_other _ (by unfold objAmAt; omega), Memory.store_other _ (by unfold objectsAt; omega)]
    exact linkedAt
  have head : m (objectsAt slab) = p := by
    simp only [m]
    rw [Memory.store_other _ (Ne.symm different), Memory.store_same]
  subst home
  exact ⟨m, call, heap.give alive distinct member here head (Memory.store_same _ _ _) link frame, frame⟩

end Calls

section Clients

variable {h : KHeap} {live own list : List Nat} {slabsOf free : Nat → List Nat} {c p : Nat}

/-- The words that belong to clients: those of live objects, and those of the pages
other parts of the kernel hold. -/
def MayWrite (h : KHeap) (live own : List Nat) (a : Nat) : Prop :=
  (∃ p ∈ live, p ≤ a ∧ a < p + h.phys.mem (objSizeAt (slabOf p))) ∨ ∃ q ∈ own, InFrame h.phys q a

/-- The pages held by other parts of the kernel are in use and not slabs. -/
structure Owned (h : KHeap) (own : List Nat) (slabsOf : Nat → List Nat) : Prop where
  nodup : own.Nodup
  used : ∀ q ∈ own, PageIs h.phys q .used
  notSlab : ∀ q ∈ own, ∀ c ∈ slabSizes, q + h.phys.hhdmOffset ∉ slabsOf c

/-- The heap takes no page that others hold. -/
theorem Owned.taken (owned : Owned h own slabsOf) {s' : Phys} {slabsOf' : Nat → List Nat}
    (taken : Taken h slabsOf c p s' slabsOf') : Owned { h with phys := s' } own slabsOf' := by
  refine ⟨owned.nodup, fun q isOwn => taken.used q (owned.used q isOwn), ?_⟩
  intro q isOwn d member there
  rw [taken.hhdm] at there
  rcases taken.new d member _ there with old | ⟨r, notUsed, address⟩
  · exact owned.notSlab q isOwn d member old
  · have same : q = r := by omega
    exact notUsed (same ▸ owned.used q isOwn)

/-- Whatever clients write, a word of a slab changes only inside its live objects. -/
theorem HeapInv.client_word (heap : HeapInv h live slabsOf free list) (owned : Owned h own slabsOf)
    {m : Memory} (clients : ∀ a, ¬ MayWrite h live own a → m a = h.phys.mem a) {slab a : Nat}
    (member : c ∈ slabSizes) (here : slab ∈ slabsOf c) (inside : slab ≤ a ∧ a < slab + pageSize)
    (dead : ∀ p ∈ live, slabOf p = slab → ¬ (p ≤ a ∧ a < p + c)) : m a = h.phys.mem a := by
  apply clients
  rintro (⟨p, alive, inObject⟩ | ⟨q, isOwn, inPage⟩)
  · obtain ⟨c', member', home⟩ := heap.homes p alive
    rw [(heap.slabs c' member' _ home).objSize] at inObject
    obtain ⟨low, high⟩ := slot_bounds (heap.live_slot alive member' home)
    by_cases same : slabOf p = slab
    · rw [same] at home
      cases heap.class_unique member here member' home
      exact dead p alive same inObject
    · exact heap.slab_apart member here member' home same inside (by omega)
  · obtain ⟨r, used, rfl⟩ := heap.frames c member slab here
    have same := frame_apart heap.pmm.layout (owned.used q isOwn) used inPage inside
    exact owned.notSlab q isOwn c member (same ▸ here)

theorem HeapInv.client_write (heap : HeapInv h live slabsOf free list) (owned : Owned h own slabsOf)
    {m : Memory} (clients : ∀ a, ¬ MayWrite h live own a → m a = h.phys.mem a) :
    HeapInv (h.withMem m) live slabsOf free list := by
  have headers : ∀ c ∈ slabSizes, ∀ slab ∈ slabsOf c, ∀ k, k < headerSize →
      m (slab + k) = h.phys.mem (slab + k) := by
    intro c member slab here k small
    unfold headerSize at small
    apply heap.client_word owned clients member here (by unfold pageSize; omega)
    rintro p alive rfl inside
    have low := (slot_bounds (heap.live_slot alive member here)).1
    unfold headerSize at low
    omega
  refine ⟨heap.pmm.write ?_, heap.offset, heap.sizes, ?_, heap.distinct, heap.frames, ?_, heap.homes⟩
  · intro a outside
    apply clients
    rintro (⟨p, alive, inObject⟩ | ⟨q, isOwn, inPage⟩)
    · obtain ⟨c, member, home⟩ := heap.homes p alive
      rw [(heap.slabs c member _ home).objSize] at inObject
      obtain ⟨low, high⟩ := slot_bounds (heap.live_slot alive member home)
      obtain ⟨r, used, address⟩ := heap.frames c member _ home
      exact outside r used (by unfold InFrame; omega)
    · exact outside q (owned.used q isOwn) inPage
  · intro cache inCaches
    obtain ⟨threaded, nonempty⟩ := heap.chains cache inCaches
    have inSizes : cache.size ∈ slabSizes := heap.sizes ▸ List.mem_map_of_mem inCaches
    refine ⟨threaded.congr ?_, nonempty⟩
    intro slab here
    exact headers cache.size inSizes slab here 0 (by decide)
  · intro c member slab here
    have at_ := heap.slabs c member slab here
    have positive := Nat.lt_of_lt_of_le (show 0 < 32 by decide) (slabSizes_bounds member).1
    refine at_.congr (headers c member slab here 8 (by decide)) (headers c member slab here 16 (by decide))
      (headers c member slab here 24 (by decide)) ?_
    intro p isFree
    have object := at_.mem_free isFree
    obtain ⟨low, high⟩ := slot_bounds object
    apply heap.client_word owned clients member here (by omega)
    rintro q alive rfl inside
    have different : p ≠ q := by
      rintro rfl
      exact heap.free_dead member here isFree alive
    have apart := slot_apart object (heap.live_slot alive member here) different
    omega

end Clients

section Setup

/-- Caches with one slab each, all of it free, in pages that were not in use. -/
structure FreshCaches (s : Phys) (sizes : List Nat) (caches : List SlabCache) (s' : Phys) : Prop where
  classes : caches.map SlabCache.size = sizes
  hhdm : s'.hhdmOffset = s.hhdmOffset
  total : s'.totalPages = s.totalPages
  usedPages : s'.usedPages = s.usedPages + sizes.length
  known : Pages s s'
  used : ∀ q, PageIs s q .used → PageIs s' q .used
  mem : ∀ q, PageIs s q .used → ∀ a, InFrame s q a → s'.mem a = s.mem a
  pages : ∀ cache ∈ caches, ∃ q, ¬ PageIs s q .used ∧ PageIs s' q .used ∧
    cache.slabs = q + s.hhdmOffset
  shapes : ∀ cache ∈ caches, s'.mem cache.slabs = 0 ∧
    SlabAt s'.mem cache.slabs cache.size (slots cache.slabs cache.size).reverse []

theorem initCaches_outcome {sizes : List Nat} (known : ∀ c ∈ sizes, c ∈ slabSizes) {s : Phys}
    {list : List Nat} (inv : Inv s list) :
    (∃ caches s' list', initCaches sizes s = .ok (caches, s') ∧ Inv s' list' ∧
      FreshCaches s sizes caches s') ∨
    (initCaches sizes s = .error .outOfMemory ∧ s.totalPages < s.usedPages + sizes.length) := by
  induction sizes generalizing s list with
  | nil =>
    refine .inl ⟨[], s, list, rfl, inv, rfl, rfl, rfl, rfl, fun _ page => page, fun _ used => used, fun _ _ _ _ => rfl,
      ?_, ?_⟩
    · intro cache member
      cases member
    · intro cache member
      cases member
  | cons c sizes ih =>
    have member := known c List.mem_cons_self
    rcases newSlab_outcome inv member with ⟨slab, s₁, list₁, made, inv₁, isNew⟩ | ⟨failed, full⟩
    · rcases ih (fun d later => known d (List.mem_cons_of_mem _ later)) inv₁ with
        ⟨caches, s₂, list₂, rest, inv₂, fresh⟩ | ⟨failed, full⟩
      · left
        refine ⟨⟨c, slab⟩ :: caches, s₂, list₂, ?_, inv₂, ?_, fresh.hhdm.trans isNew.hhdm,
          fresh.total.trans isNew.total, ?_, fun q page => isNew.pages q (fresh.known q page),
          fun q used => fresh.used q (isNew.used q used), ?_, ?_, ?_⟩
        · simp only [initCaches, made, rest, bind, Except.bind]
        · rw [List.map_cons, fresh.classes]
        · rw [fresh.usedPages, isNew.usedPages, List.length_cons]
          omega
        · intro q used a inQ
          rw [fresh.mem q (isNew.used q used) a (by unfold InFrame; rw [isNew.hhdm]; exact inQ)]
          exact isNew.mem q used a inQ
        · intro cache inCaches
          rcases List.mem_cons.mp inCaches with rfl | later
          · obtain ⟨q, notUsed, used, address⟩ := isNew.page
            exact ⟨q, notUsed, fresh.used q used, address⟩
          · obtain ⟨q, notUsed, used, address⟩ := fresh.pages cache later
            exact ⟨q, fun before => notUsed (isNew.used q before), used, isNew.hhdm ▸ address⟩
        · intro cache inCaches
          rcases List.mem_cons.mp inCaches with rfl | later
          · obtain ⟨q, _, used, address⟩ := isNew.page
            have kept : ∀ a, slab ≤ a → a < slab + pageSize → s₂.mem a = s₁.mem a := by
              intro a low high
              apply fresh.mem q used
              unfold InFrame
              rw [isNew.hhdm]
              omega
            refine ⟨(kept slab (Nat.le_refl _) (Nat.lt_add_of_pos_right (by decide))).trans isNew.chain,
              isNew.shape.page_congr kept ?_⟩
            exact Nat.lt_of_lt_of_le (by decide) (slabSizes_bounds member).1
          · exact fresh.shapes cache later
      · right
        rw [isNew.total, isNew.usedPages] at full
        refine ⟨?_, by rw [List.length_cons]; omega⟩
        simp only [initCaches, made, failed, bind, Except.bind]
    · right
      refine ⟨?_, by rw [List.length_cons]; omega⟩
      simp only [initCaches, failed, bind, Except.bind]

/- The slab of each class right after setup_heap. -/
def firstSlab (caches : List SlabCache) (c : Nat) : List Nat :=
  ((caches.find? (fun cache => cache.size = c)).map SlabCache.slabs).toList

theorem mem_firstSlab {caches : List SlabCache} {c slab : Nat} (here : slab ∈ firstSlab caches c) :
    ∃ cache ∈ caches, cache.size = c ∧ cache.slabs = slab := by
  simp only [firstSlab, Option.mem_toList, Option.map_eq_some_iff] at here
  obtain ⟨cache, found, rfl⟩ := here
  exact ⟨cache, List.mem_of_find?_eq_some found, by simpa using List.find?_some found, rfl⟩

theorem firstSlab_eq {caches : List SlabCache} (distinct : (caches.map SlabCache.size).Nodup)
    {cache : SlabCache} (member : cache ∈ caches) : firstSlab caches cache.size = [cache.slabs] := by
  cases found : caches.find? (fun other => other.size = cache.size) with
  | none =>
    have refused := List.find?_eq_none.mp found cache member
    simp at refused
  | some other =>
    have same : other.size = cache.size := by simpa using List.find?_some found
    have equal := List.inj_on_of_nodup_map distinct (List.mem_of_find?_eq_some found) member same
    rw [firstSlab, found, equal]
    rfl

/-- setup_heap makes the invariant true, without any live object. -/
theorem setupHeap_outcome {s : Phys} {list : List Nat} (inv : Inv s list)
    (offset : pageSize ∣ s.hhdmOffset) :
    (∃ h slabsOf free list', setupHeap s = .ok h ∧ HeapInv h [] slabsOf free list' ∧
      FreshCaches s slabSizes h.caches h.phys ∧
      ∀ c ∈ slabSizes, ∀ slab ∈ slabsOf c, ∃ q, ¬ PageIs s q .used ∧ slab = q + s.hhdmOffset) ∨
    (setupHeap s = .error .outOfMemory ∧ s.totalPages < s.usedPages + 6) := by
  rcases initCaches_outcome (fun c member => member) inv with
    ⟨caches, s', list', result, inv', fresh⟩ | ⟨failed, full⟩
  · left
    have distinct : (caches.map SlabCache.size).Nodup := by
      rw [fresh.classes]
      decide
    have pages : ∀ c, ∀ slab ∈ firstSlab caches c, ∃ q, ¬ PageIs s q .used ∧ PageIs s' q .used ∧
        slab = q + s.hhdmOffset := by
      intro c slab here
      obtain ⟨cache, inCaches, _, rfl⟩ := mem_firstSlab here
      exact fresh.pages cache inCaches
    refine ⟨⟨s', caches⟩, firstSlab caches,
      fun slab => (slots slab (s'.mem (objSizeAt slab))).reverse, list', ?_, ?_, fresh, ?_⟩
    · simp only [setupHeap, result, bind, Except.bind]
    · refine ⟨inv', fresh.hhdm ▸ offset, fresh.classes, ?_, ?_, ?_, ?_, ?_⟩
      · intro cache inCaches
        rw [firstSlab_eq distinct inCaches]
        obtain ⟨q, _, used, address⟩ := fresh.pages cache inCaches
        have positive := (inv'.layout.page_bounds used).2.1
        refine ⟨Threaded.cons_iff.mpr ⟨rfl, by omega, ?_⟩, List.cons_ne_nil _ _⟩
        rw [(fresh.shapes cache inCaches).1]
        exact Threaded.nil
      · intro c _
        unfold firstSlab
        cases (caches.find? (fun cache => cache.size = c)) with
        | none => exact List.nodup_nil
        | some cache => exact List.nodup_singleton _
      · intro c _ slab here
        obtain ⟨q, _, used, address⟩ := pages c slab here
        exact ⟨q, used, address.trans (by rw [fresh.hhdm])⟩
      · intro c _ slab here
        obtain ⟨cache, inCaches, rfl, rfl⟩ := mem_firstSlab here
        have shape := (fresh.shapes cache inCaches).2
        rw [shape.objSize]
        exact shape
      · intro p alive
        cases alive
    · intro c _ slab here
      obtain ⟨q, notUsed, _, address⟩ := pages c slab here
      exact ⟨q, notUsed, address⟩
  · refine .inr ⟨?_, full⟩
    simp only [setupHeap, failed, bind, Except.bind]

end Setup

/-- The heap, its live objects and the pages other parts of the kernel hold, after any
sequence of calls, of writes of clients to what they hold, and of allocations and frees of
pages by others. -/
inductive Reach (h₀ : KHeap) (own₀ : List Nat) : KHeap → List Nat → List Nat → Prop where
  | start : Reach h₀ own₀ h₀ [] own₀
  | kmalloc {h h' : KHeap} {live own : List Nat} {fuel size p : Nat} : Reach h₀ own₀ h live own →
      size ≤ 1024 → kmalloc fuel h size = some (.ok (p, h')) → Reach h₀ own₀ h' (p :: live) own
  | kfree {h : KHeap} {live own : List Nat} {p : Nat} : Reach h₀ own₀ h live own → p ∈ live →
      Reach h₀ own₀ (kfree h p) (live.erase p) own
  | write {h : KHeap} {live own : List Nat} {m : Memory} : Reach h₀ own₀ h live own →
      (∀ a, ¬ MayWrite h live own a → m a = h.phys.mem a) → Reach h₀ own₀ (h.withMem m) live own
  | allocate {h : KHeap} {live own : List Nat} {q : Nat} {s' : Phys} : Reach h₀ own₀ h live own →
      allocatePage h.phys = .ok (q, s') → Reach h₀ own₀ { h with phys := s' } live (q :: own)
  | free {h : KHeap} {live own : List Nat} {q : Nat} {s' : Phys} : Reach h₀ own₀ h live own → q ∈ own →
      freePage h.phys q = .ok s' → Reach h₀ own₀ { h with phys := s' } live (own.erase q)

section Runs

variable {h h' : KHeap} {live own list : List Nat} {slabsOf free : Nat → List Nat}

/-- What every state of a run has. -/
def RunInv (h : KHeap) (live own : List Nat) : Prop :=
  ∃ slabsOf free list, HeapInv h live slabsOf free list ∧ Owned h own slabsOf ∧ live.Nodup

theorem kmalloc_keeps {fuel size p : Nat} (before : RunInv h live own) (small : size ≤ 1024)
    (returned : kmalloc fuel h size = some (.ok (p, h'))) : RunInv h' (p :: live) own := by
  obtain ⟨slabsOf, free, list, heap, owned, distinct⟩ := before
  obtain ⟨c, _, outcome⟩ := kmalloc_outcome heap small
  have later := kmalloc_mono (Nat.le_max_left fuel ((slabsOf c).length + 1)) returned
  rcases outcome (max fuel ((slabsOf c).length + 1)) (by omega) with
    ⟨q, s', slabsOf', free', list', result, heap', fresh, taken, _⟩ | ⟨failed, _⟩
  · cases Option.some.inj (result.symm.trans later)
    exact ⟨slabsOf', free', list', heap', owned.taken taken, List.nodup_cons.mpr ⟨fresh, distinct⟩⟩
  · cases failed.symm.trans later

theorem kfree_keeps {p : Nat} (before : RunInv h live own) (alive : p ∈ live) :
    RunInv (kfree h p) (live.erase p) own := by
  obtain ⟨slabsOf, free, list, heap, owned, distinct⟩ := before
  obtain ⟨c, member, home⟩ := heap.homes p alive
  obtain ⟨m, result, heap', _⟩ := kfree_spec heap alive distinct member home
  rw [result]
  exact ⟨slabsOf, _, list, heap', ⟨owned.nodup, owned.used, owned.notSlab⟩, distinct.erase p⟩

theorem allocate_keeps {q : Nat} {s' : Phys} (before : RunInv h live own)
    (returned : allocatePage h.phys = .ok (q, s')) : RunInv { h with phys := s' } live (q :: own) := by
  obtain ⟨slabsOf, free, list, heap, owned, distinct⟩ := before
  rcases allocatePage_outcome heap.pmm with ⟨r, s, list', result, inv', allocated⟩ | ⟨failed, _⟩
  · cases Except.ok.inj (result.symm.trans returned)
    obtain ⟨state, page, unused⟩ := allocated.fresh
    have notUsed : ¬ PageIs h.phys q .used := fun used => unused (heap.pmm.layout.page_unique page used)
    have heap' := heap.frame inv' allocated.hhdm (fun r used _ => (allocated.owned r).mpr (.inr used)) ?_
    · refine ⟨slabsOf, free, list', heap', ⟨?_, ?_, ?_⟩, distinct⟩
      · exact List.nodup_cons.mpr ⟨fun isOwn => notUsed (owned.used q isOwn), owned.nodup⟩
      · intro r isOwn
        apply (allocated.owned r).mpr
        rcases List.mem_cons.mp isOwn with rfl | old
        · exact .inl rfl
        · exact .inr (owned.used r old)
      · intro r isOwn c member there
        have there' : r + h.phys.hhdmOffset ∈ slabsOf c := allocated.hhdm ▸ there
        rcases List.mem_cons.mp isOwn with rfl | old
        · obtain ⟨k, used, address⟩ := heap.frames c member _ there'
          have same : r = k := by omega
          exact notUsed (same ▸ used)
        · exact owned.notSlab r old c member there'
    · intro c member slab here a low high
      obtain ⟨r, used, rfl⟩ := heap.frames c member slab here
      exact allocated.frame r used a ⟨low, high⟩
  · cases failed.symm.trans returned

theorem free_keeps {q : Nat} {s' : Phys} (before : RunInv h live own) (isOwn : q ∈ own)
    (returned : freePage h.phys q = .ok s') : RunInv { h with phys := s' } live (own.erase q) := by
  obtain ⟨slabsOf, free, list, heap, owned, distinct⟩ := before
  obtain ⟨s, result, inv', freed⟩ := freePage_spec heap.pmm (owned.used q isOwn)
  cases Except.ok.inj (result.symm.trans returned)
  have notSlab := owned.notSlab q isOwn
  have heap' := heap.frame inv' freed.hhdm ?_ ?_
  · refine ⟨slabsOf, free, _, heap', ⟨owned.nodup.erase q, ?_, ?_⟩, distinct⟩
    · intro r later
      obtain ⟨different, old⟩ := owned.nodup.mem_erase_iff.mp later
      exact (freed.pages r .used).mpr (.inr ⟨different, owned.used r old⟩)
    · intro r later c member there
      exact owned.notSlab r (List.mem_of_mem_erase later) c member (freed.hhdm ▸ there)
  · rintro r used ⟨c, member, there⟩
    apply (freed.pages r .used).mpr
    refine .inr ⟨?_, used⟩
    rintro rfl
    exact notSlab c member there
  · intro c member slab here a low high
    obtain ⟨r, used, rfl⟩ := heap.frames c member slab here
    apply freed.mem
    rintro rfl
    have same := frame_apart heap.pmm.layout (owned.used q isOwn) used (first_word _ q) ⟨low, high⟩
    exact notSlab c member (same ▸ here)

theorem reach_keeps {h₀ : KHeap} {own₀ : List Nat} (start : RunInv h₀ [] own₀)
    (reach : Reach h₀ own₀ h live own) : RunInv h live own := by
  induction reach with
  | start => exact start
  | kmalloc _ small returned ih => exact kmalloc_keeps ih small returned
  | kfree _ alive ih => exact kfree_keeps ih alive
  | write _ clients ih =>
    obtain ⟨slabsOf, free, list, heap, owned, distinct⟩ := ih
    exact ⟨slabsOf, free, list, heap.client_write owned clients,
      ⟨owned.nodup, owned.used, owned.notSlab⟩, distinct⟩
  | allocate _ returned ih => exact allocate_keeps ih returned
  | free _ isOwn returned ih => exact free_keeps ih isOwn returned

theorem setupHeap_runInv {s : Phys} (inv : Inv s list) (offset : pageSize ∣ s.hhdmOffset)
    (distinct : own.Nodup) (held : ∀ q ∈ own, PageIs s q .used) (sets : setupHeap s = .ok h) :
    RunInv h [] own := by
  rcases setupHeap_outcome inv offset with ⟨h', slabsOf, free, list', result, heap, fresh, pages⟩ | ⟨failed, _⟩
  · cases Except.ok.inj (result.symm.trans sets)
    refine ⟨slabsOf, free, list', heap, ⟨distinct, ?_, ?_⟩, List.nodup_nil⟩
    · intro q isOwn
      exact fresh.used q (held q isOwn)
    · intro q isOwn c member there
      obtain ⟨r, notUsed, address⟩ := pages c member _ there
      rw [fresh.hhdm] at address
      have same : q = r := by omega
      exact notUsed (same ▸ held q isOwn)
  · cases failed.symm.trans sets

end Runs

/-- In every state after setup_heap(): each slab is divided between its free list and the
live objects, kmalloc returns an object of the smallest class that was not live or finds
the memory used up, and kfree puts an object back on the slab it came from. -/
theorem slabs_divided {hhdmOffset : Nat} {memmap : List MemmapEntry} {mem : Memory} {s₀ s : Phys}
    {h₀ h : KHeap} {own₀ own live : List Nat} (limine : LimineMap hhdmOffset memmap)
    (offset : pageSize ∣ s.hhdmOffset) (boots : setupPmm hhdmOffset memmap mem = .ok s₀)
    (pages : Pmm.Reach s₀ s) (distinct : own₀.Nodup) (held : ∀ q ∈ own₀, PageIs s q .used)
    (sets : setupHeap s = .ok h₀) (reach : Reach h₀ own₀ h live own) :
    (∃ slabsOf free : Nat → List Nat,
      (∀ cache ∈ h.caches, Threaded h.phys.mem cache.slabs (slabsOf cache.size)) ∧
      (∀ c ∈ slabSizes, ∀ slab ∈ slabsOf c, h.phys.mem (objSizeAt slab) = c ∧
        Threaded h.phys.mem (h.phys.mem (objectsAt slab)) (free slab) ∧ (free slab).Nodup ∧
        h.phys.mem (objAmAt slab) = (free slab).length ∧
        (free slab ++ liveIn live slab).Perm (slots slab c)) ∧
      (∀ p ∈ live, ∃ c ∈ slabSizes, slabOf p ∈ slabsOf c ∧
        Threaded (kfree h p).phys.mem ((kfree h p).phys.mem (objectsAt (slabOf p)))
          (p :: free (slabOf p)))) ∧
    live.Nodup ∧
    ∀ size ≤ 1024, ∃ c steps, IsClass size c ∧ ∀ fuel, steps ≤ fuel →
      (∃ p h', kmalloc fuel h size = some (.ok (p, h')) ∧ p ∉ live ∧ p ∈ slots (slabOf p) c ∧
        slabOf p + headerSize ≤ p ∧ p + c ≤ slabOf p + pageSize ∧
        h'.phys.mem (objSizeAt (slabOf p)) = c) ∨
      (kmalloc fuel h size = some (.error .outOfMemory) ∧
        h.phys.usedPages = h.phys.totalPages) := by
  obtain ⟨list₀, inv₀⟩ := setupPmm_inv limine boots
  obtain ⟨list, inv⟩ := reach_inv inv₀ pages
  obtain ⟨slabsOf, free, list', heap, _, nodup⟩ :=
    reach_keeps (setupHeap_runInv inv offset distinct held sets) reach
  refine ⟨⟨slabsOf, free, fun cache inCaches => (heap.chains cache inCaches).1, ?_, ?_⟩, nodup, ?_⟩
  · intro c member slab here
    have at_ := heap.slabs c member slab here
    have positive := Nat.lt_of_lt_of_le (show 0 < 32 by decide) (slabSizes_bounds member).1
    exact ⟨at_.objSize, at_.threaded, (List.nodup_append.mp (at_.nodup positive)).1, at_.amount, at_.split⟩
  · intro p alive
    obtain ⟨c, member, home⟩ := heap.homes p alive
    obtain ⟨m, result, heap', _⟩ := kfree_spec heap alive nodup member home
    have at_ := heap'.slabs c member _ home
    rw [Function.update_self] at at_
    rw [result]
    exact ⟨c, member, home, at_.threaded⟩
  · intro size small
    obtain ⟨c, isClass, outcome⟩ := kmalloc_outcome heap small
    refine ⟨c, (slabsOf c).length + 1, isClass, ?_⟩
    intro fuel enough
    rcases outcome fuel enough with
      ⟨p, s', slabsOf', free', list'', result, heap', fresh, taken, _⟩ | ⟨failed, full⟩
    · obtain ⟨slab, here, object⟩ := taken.object
      have home := heap'.slabOf_slot isClass.1 here object
      rw [← home] at object here
      obtain ⟨low, high⟩ := slot_bounds object
      exact .inl ⟨p, _, result, fresh, object, low, high, (heap'.slabs c isClass.1 _ here).objSize⟩
    · have room := heap.pmm.used_le
      have cost := slabCost_le slabsOf free c
      exact .inr ⟨failed, by omega⟩

/-- The small machine has pages for the heap, and some to spare. -/
theorem smallHeap : ∃ s₀ h₀, setupPmm 0xFFFF800000000000 smallMap (fun _ => 7) = .ok s₀ ∧
    pageSize ∣ s₀.hhdmOffset ∧ setupHeap s₀ = .ok h₀ ∧ h₀.phys.usedPages < h₀.phys.totalPages := by
  obtain ⟨s₀, boots, offset, total, used⟩ : ∃ s₀,
      setupPmm 0xFFFF800000000000 smallMap (fun _ => 7) = .ok s₀ ∧
      s₀.hhdmOffset = 0xFFFF800000000000 ∧ s₀.totalPages = 17 ∧ s₀.usedPages = 0 :=
    ⟨_, rfl, rfl, rfl, rfl⟩
  have aligned : pageSize ∣ s₀.hhdmOffset := by
    rw [offset]
    decide
  obtain ⟨list, inv⟩ := setupPmm_inv smallMap_limine boots
  rcases setupHeap_outcome inv aligned with ⟨h₀, _, _, _, sets, _, fresh, _⟩ | ⟨_, full⟩
  · refine ⟨s₀, h₀, boots, aligned, sets, ?_⟩
    rw [fresh.usedPages, fresh.total, total, used]
    decide
  · omega

theorem slabs_divided_small : ∃ h₀ h : KHeap, ∃ p, Reach h₀ [] h [p] [] ∧
    ∃ free, Threaded (kfree h p).phys.mem ((kfree h p).phys.mem (objectsAt (slabOf p))) (p :: free) := by
  obtain ⟨s₀, h₀, boots, offset, sets, room⟩ := smallHeap
  obtain ⟨list, inv⟩ := setupPmm_inv smallMap_limine boots
  obtain ⟨slabsOf, free, list', heap, _⟩ :=
    setupHeap_runInv inv offset List.nodup_nil (fun q member => by cases member) sets
  obtain ⟨c, _, outcome⟩ := kmalloc_outcome heap (show 100 ≤ 1024 by decide)
  rcases outcome ((slabsOf c).length + 1) (Nat.lt_succ_self _) with ⟨p, s', _, _, _, result, _⟩ | ⟨_, full⟩
  · have reach := Reach.kmalloc (@Reach.start h₀ []) (by decide) result
    obtain ⟨⟨slabsOf', free', _, _, freed⟩, _⟩ := slabs_divided smallMap_limine offset boots
      Pmm.Reach.start List.nodup_nil (fun q member => by cases member) sets reach
    obtain ⟨_, _, _, back⟩ := freed p List.mem_cons_self
    exact ⟨h₀, _, p, reach, free' (slabOf p), back⟩
  · have cost := slabCost_le slabsOf free c
    omega

end EvalynOS.Heap
