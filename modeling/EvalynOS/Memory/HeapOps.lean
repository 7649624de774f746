import EvalynOS.Memory.HeapInvariant

/-! The functions of memory/heap.c under the invariant: new_slab, allocate_with_slab,
kmalloc, kfree and setup_heap. -/
namespace EvalynOS.Heap
open Lib Lib.Word Pmm

section NewSlab

theorem linkObjects_spec {base size : Nat} (nonnull : base ≠ 0) (positive : 0 < size) (count i : Nat)
    {m : Memory} {prev : Nat} {l : List Nat} (threaded : Threaded m prev l)
    (fresh : ∀ j, i ≤ j → j < i + count → base + j * size ∉ l) :
    Threaded (linkObjects base size count i m prev).1 (linkObjects base size count i m prev).2
      (((List.range' i count).map (fun j => base + j * size)).reverse ++ l) ∧
    ∀ a, (∀ j, i ≤ j → j < i + count → a ≠ base + j * size) →
      (linkObjects base size count i m prev).1 a = m a := by
  induction count generalizing i m prev l with
  | zero => exact ⟨threaded, fun a _ => rfl⟩
  | succ count ih =>
    have notHere := fresh i (Nat.le_refl _) (by omega)
    have pushed := threaded.push (show base + i * size ≠ 0 by omega) notHere
    have later : ∀ j, i + 1 ≤ j → j < i + 1 + count → base + j * size ∉ (base + i * size) :: l := by
      intro j low high member
      rcases List.mem_cons.mp member with same | old
      · have equal : j * size = i * size := by omega
        have index := Nat.eq_of_mul_eq_mul_right positive equal
        omega
      · exact fresh j (by omega) (by omega) old
    obtain ⟨chain, frame⟩ := ih (i + 1) pushed later
    refine ⟨?_, ?_⟩
    · rw [List.range'_succ, List.map_cons, List.reverse_cons, List.append_assoc]
      exact chain
    · intro a outside
      have here := @Memory.store_other m _ a prev (outside i (Nat.le_refl _) (by omega))
      rw [← here]
      exact frame a (fun j low high => outside j (by omega) (by omega))

/-- On a page of zeros the writes of new_slab make a slab with every object free. -/
theorem initSlab_spec {m : Memory} {slab c : Nat} (member : c ∈ slabSizes) (positive : 0 < slab)
    (zero : ∀ a, slab ≤ a → a < slab + pageSize → m a = 0) :
    SlabAt (initSlab m slab c) slab c (slots slab c).reverse [] ∧ initSlab m slab c slab = 0 ∧
      ∀ a, ¬ (slab ≤ a ∧ a < slab + pageSize) → initSlab m slab c a = m a := by
  obtain ⟨sizeLow, sizeHigh⟩ := slabSizes_bounds member
  have amountIs : ∃ amount, (pageSize - headerSize) / c = amount + 1 := by
    apply Nat.exists_eq_add_of_le'
    rw [Nat.le_div_iff_mul_le (by omega)]
    unfold pageSize headerSize
    omega
  obtain ⟨amount, amountIs⟩ := amountIs
  generalize headerIs : (m.store (objSizeAt slab) c).store (objAmAt slab) (amount + 1) = m₁
  have written : initSlab m slab c = (linkObjects (slab + headerSize) c amount 1 m₁
      (slab + headerSize)).1.store (objectsAt slab)
      (linkObjects (slab + headerSize) c amount 1 m₁ (slab + headerSize)).2 := by
    simp only [initSlab, amountIs, headerIs, Nat.add_sub_cancel]
  have before : ∀ a, a ≠ objAmAt slab → a ≠ objSizeAt slab → m₁ a = m a := by
    intro a notAm notSize
    rw [← headerIs, Memory.store_other _ notAm, Memory.store_other _ notSize]
  have start : Threaded m₁ (slab + headerSize) [slab + headerSize] := by
    refine Threaded.cons_iff.mpr ⟨rfl, by omega, ?_⟩
    have word : m₁ (slab + headerSize) = 0 := by
      unfold headerSize at *
      rw [before _ (by unfold objAmAt; omega) (by unfold objSizeAt; omega)]
      exact zero _ (by omega) (by unfold pageSize; omega)
    rw [word]
    exact Threaded.nil
  have apartFirst : ∀ j, 1 ≤ j → j < 1 + amount → slab + headerSize + j * c ∉ [slab + headerSize] := by
    intro j low _ inside
    have same := List.mem_singleton.mp inside
    have step : 1 * c ≤ j * c := Nat.mul_le_mul_right c low
    omega
  obtain ⟨threaded, frame⟩ := @linkObjects_spec (slab + headerSize) c (by omega) (by omega) amount 1 m₁
    (slab + headerSize) [slab + headerSize] start apartFirst
  rw [written]
  generalize linkObjects (slab + headerSize) c amount 1 m₁ (slab + headerSize) = linked at threaded frame
  have objects : ∀ j, j < amount + 1 → slab + headerSize ≤ slab + headerSize + j * c ∧
      slab + headerSize + j * c + c ≤ slab + pageSize := fun j below =>
    slot_bounds (mem_slots.mpr ⟨j, amountIs.symm ▸ below, rfl⟩)
  have header : ∀ a, a < slab + headerSize → linked.1 a = m₁ a := by
    intro a low
    apply frame
    intro j _ below same
    have bounds := objects j (by omega)
    omega
  have all : ((List.range' 1 amount).map (fun j => slab + headerSize + j * c)).reverse ++
      [slab + headerSize] = (slots slab c).reverse := by
    simp [slots, amountIs, List.range_eq_range', List.range'_succ]
  refine ⟨⟨?_, ?_, ?_, ?_⟩, ?_, ?_⟩
  · rw [Memory.store_other _ (by unfold objSizeAt objectsAt; omega),
      header _ (by unfold objSizeAt headerSize; omega), ← headerIs,
      Memory.store_other _ (by unfold objSizeAt objAmAt; omega), Memory.store_same]
  · rw [Memory.store_other _ (by unfold objAmAt objectsAt; omega),
      header _ (by unfold objAmAt headerSize; omega), ← headerIs, Memory.store_same,
      List.length_reverse, slots, List.length_map, List.length_range, amountIs]
  · rw [Memory.store_same, ← all]
    apply threaded.congr
    intro a inside
    rw [all, List.mem_reverse] at inside
    have low := (slot_bounds inside).1
    unfold headerSize at low
    exact Memory.store_other _ (by unfold objectsAt; omega)
  · rw [List.append_nil]
    exact List.reverse_perm _
  · rw [Memory.store_other _ (by unfold objectsAt; omega), header _ (by unfold headerSize; omega),
      before _ (by unfold objAmAt; omega) (by unfold objSizeAt; omega)]
    exact zero _ (Nat.le_refl _) (by unfold pageSize; omega)
  · intro a outside
    have far : a < slab ∨ slab + pageSize ≤ a := by omega
    unfold pageSize at far
    rw [Memory.store_other _ (by unfold objectsAt; omega)]
    have untouched : linked.1 a = m₁ a := by
      apply frame
      rintro j _ below rfl
      have bounds := objects j (by omega)
      exact outside (by omega)
    rw [untouched, before _ (by unfold objAmAt; omega) (by unfold objSizeAt; omega)]

/-- A slab in a page that was not in use; nothing in use changes. -/
structure NewSlab (s : Phys) (c slab : Nat) (s' : Phys) : Prop where
  hhdm : s'.hhdmOffset = s.hhdmOffset
  total : s'.totalPages = s.totalPages
  usedPages : s'.usedPages = s.usedPages + 1
  pages : Pages s s'
  used : ∀ q, PageIs s q .used → PageIs s' q .used
  page : ∃ q, ¬ PageIs s q .used ∧ PageIs s' q .used ∧ slab = q + s.hhdmOffset
  mem : ∀ q, PageIs s q .used → ∀ a, InFrame s q a → s'.mem a = s.mem a
  chain : s'.mem slab = 0
  shape : SlabAt s'.mem slab c (slots slab c).reverse []

variable {s : Phys} {list : List Nat} {c : Nat}

theorem newSlab_outcome (inv : Inv s list) (member : c ∈ slabSizes) :
    (∃ slab s' list', newSlab s c = .ok (slab, s') ∧ Inv s' list' ∧ NewSlab s c slab s') ∨
      (newSlab s c = .error .outOfMemory ∧ s.usedPages = s.totalPages) := by
  rcases allocatePage_outcome inv with ⟨q, s₁, list₁, returned, inv₁, allocated⟩ | ⟨failed, full⟩
  · left
    obtain ⟨state, page, unused⟩ := allocated.fresh
    obtain ⟨_, positive, mapped, _⟩ := inv.layout.page_bounds page
    have notUsed : ¬ PageIs s q .used := fun used => unused (inv.layout.page_unique page used)
    have usedQ : PageIs s₁ q .used := (allocated.owned q).mpr (.inl rfl)
    have address : wadd q s₁.hhdmOffset = q + s.hhdmOffset := by
      rw [allocated.hhdm, wadd_eq (by omega)]
    generalize slabIs : q + s.hhdmOffset = slab at address
    have inPage : ∀ a, slab ≤ a → a < slab + pageSize → InFrame s q a := by
      intro a low high
      unfold InFrame
      omega
    obtain ⟨shape, chain, elsewhere⟩ := @initSlab_spec s₁.mem slab c member (by omega)
      (fun a low high => allocated.zero a (inPage a low high))
    refine ⟨slab, { s₁ with mem := initSlab s₁.mem slab c }, list₁, ?_, ?_, allocated.hhdm,
      allocated.total, allocated.usedPages, fun r => (allocated.pages r).mp,
      fun r used => (allocated.owned r).mpr (.inr used),
      ⟨q, notUsed, usedQ, slabIs.symm⟩, ?_, chain, shape⟩
    · simp only [newSlab, returned, bind, Except.bind, address]
    · apply inv₁.write
      intro a outside
      apply elsewhere
      intro inside
      apply outside q usedQ
      unfold InFrame
      rw [allocated.hhdm]
      omega
    · intro r usedR a inR
      rw [← allocated.frame r usedR a inR]
      apply elsewhere
      intro inside
      have same := frame_apart inv.layout usedR page inR (inPage a inside.1 inside.2)
      exact notUsed (same ▸ usedR)
  · exact .inr ⟨by simp only [newSlab, failed, bind, Except.bind], full⟩

end NewSlab

section Grow

variable {h : KHeap} {live list list' : List Nat} {slabsOf free : Nat → List Nat} {c slab : Nat}

/-- The heap does not depend on the other pages. -/
theorem HeapInv.frame (heap : HeapInv h live slabsOf free list) {s' : Phys} (inv' : Inv s' list')
    (hhdm : s'.hhdmOffset = h.phys.hhdmOffset)
    (used : ∀ q, PageIs h.phys q .used → (∃ c ∈ slabSizes, q + h.phys.hhdmOffset ∈ slabsOf c) →
      PageIs s' q .used)
    (mem : ∀ c ∈ slabSizes, ∀ slab ∈ slabsOf c, ∀ a, slab ≤ a → a < slab + pageSize →
      s'.mem a = h.phys.mem a) : HeapInv { h with phys := s' } live slabsOf free list' := by
  refine ⟨inv', hhdm ▸ heap.offset, heap.sizes, ?_, heap.distinct, ?_, ?_, heap.homes⟩
  · intro cache inCaches
    obtain ⟨threaded, nonempty⟩ := heap.chains cache inCaches
    have inSizes : cache.size ∈ slabSizes := heap.sizes ▸ List.mem_map_of_mem inCaches
    refine ⟨threaded.congr ?_, nonempty⟩
    intro other there
    exact mem cache.size inSizes other there other (Nat.le_refl _) (Nat.lt_add_of_pos_right (by decide))
  · intro c member slab here
    obtain ⟨q, usedQ, rfl⟩ := heap.frames c member slab here
    exact ⟨q, used q usedQ ⟨c, member, here⟩, by rw [hhdm]⟩
  · intro c member slab here
    apply (heap.slabs c member slab here).page_congr (mem c member slab here)
    exact Nat.lt_of_lt_of_le (by decide) (slabSizes_bounds member).1

/-- A new slab hung behind the last one of its class. -/
theorem HeapInv.grow (heap : HeapInv h live slabsOf free list) (member : c ∈ slabSizes)
    {before : List Nat} (last : slabsOf c = before ++ [slab]) {new : Nat} {freeNew : List Nat}
    (frame : ∃ q, PageIs h.phys q .used ∧ new = q + h.phys.hhdmOffset)
    (fresh : ∀ c ∈ slabSizes, new ∉ slabsOf c) (shape : SlabAt h.phys.mem new c freeNew [])
    (chain : h.phys.mem new = 0) :
    HeapInv (h.withMem (h.phys.mem.store slab new)) live
      (Function.update slabsOf c (slabsOf c ++ [new])) (Function.update free new freeNew) list := by
  have here : slab ∈ slabsOf c := by
    rw [last]
    simp
  have different : new ≠ slab := fun same => fresh c member (same ▸ here)
  have positive : 0 < new := by
    obtain ⟨q, used, rfl⟩ := frame
    have bounds := heap.pmm.layout.page_bounds used
    omega
  -- the only word that changes is the chain word of the slab
  have headers : ∀ other, pageSize ∣ other → ∀ k, 0 < k → k < pageSize →
      h.phys.mem.store slab new (other + k) = h.phys.mem (other + k) := by
    intro other aligned k low high
    apply Memory.store_other
    obtain ⟨i, rfl⟩ := aligned
    obtain ⟨j, rfl⟩ := (heap.slab_bounds member here).1
    unfold pageSize at *
    omega
  have shapes : ∀ other size freeHere liveHere, pageSize ∣ other → 0 < size →
      SlabAt h.phys.mem other size freeHere liveHere →
      SlabAt (h.phys.mem.store slab new) other size freeHere liveHere := by
    intro other size freeHere liveHere aligned positiveSize at_
    refine at_.congr (headers other aligned 8 (by decide) (by decide))
      (headers other aligned 16 (by decide) (by decide)) (headers other aligned 24 (by decide) (by decide)) ?_
    intro p isFree
    obtain ⟨low, high⟩ := slot_bounds (at_.mem_free isFree)
    obtain ⟨k, rfl⟩ := Nat.exists_eq_add_of_le (Nat.le_trans (Nat.le_add_right _ _) low)
    unfold headerSize at low
    exact headers other aligned k (by omega) (by omega)
  have alignedNew : pageSize ∣ new := by
    obtain ⟨q, used, rfl⟩ := frame
    exact Nat.dvd_add (heap.pmm.layout.page_bounds used).1 heap.offset
  have notNew : ∀ c' ∈ slabSizes, ∀ other ∈ slabsOf c', other ≠ new := by
    rintro c' member' other there rfl
    exact fresh c' member' there
  have old : ∀ c' other, other ∈ Function.update slabsOf c (slabsOf c ++ [new]) c' →
      other ∈ slabsOf c' ∨ (c' = c ∧ other = new) := by
    intro c' other there
    by_cases same : c' = c
    · subst same
      rw [Function.update_self] at there
      rcases List.mem_append.mp there with before | added
      · exact .inl before
      · exact .inr ⟨rfl, List.mem_singleton.mp added⟩
    · rw [Function.update_of_ne same] at there
      exact .inl there
  refine ⟨heap.write ?_, heap.offset, heap.sizes, ?_, ?_, ?_, ?_, ?_⟩
  · intro a outside
    apply Memory.store_other
    rintro rfl
    exact outside c member a here ⟨Nat.le_refl _, Nat.lt_add_of_pos_right (by decide)⟩
  · intro cache inCaches
    obtain ⟨threaded, nonempty⟩ := heap.chains cache inCaches
    have inSizes : cache.size ∈ slabSizes := heap.sizes ▸ List.mem_map_of_mem inCaches
    by_cases same : cache.size = c
    · rw [same, Function.update_self]
      rw [same, last] at threaded
      rw [last, List.append_assoc]
      refine ⟨threaded.snoc ?_ (Memory.store_same _ _ _) (by omega) ?_, by simp⟩
      · intro other inBefore
        apply Memory.store_other
        rintro rfl
        have nodup := heap.distinct c member
        rw [last] at nodup
        exact (List.nodup_append.mp nodup).2.2 other inBefore other (List.mem_singleton.mpr rfl) rfl
      · rw [← chain]
        exact Memory.store_other _ different
    · rw [Function.update_of_ne same]
      refine ⟨threaded.congr ?_, nonempty⟩
      intro other there
      apply Memory.store_other
      rintro rfl
      exact same (heap.class_unique inSizes there member here)
  · intro c' member'
    by_cases same : c' = c
    · subst same
      rw [Function.update_self, List.nodup_append]
      refine ⟨heap.distinct c' member', List.nodup_singleton _, ?_⟩
      intro other there added isNew
      rw [List.mem_singleton.mp isNew]
      exact notNew c' member' other there
    · rw [Function.update_of_ne same]
      exact heap.distinct c' member'
  · intro c' member' other there
    rcases old c' other there with before | ⟨_, rfl⟩
    · exact heap.frames c' member' other before
    · exact frame
  · intro c' member' other there
    have positiveC := Nat.lt_of_lt_of_le (show 0 < 32 by decide) (slabSizes_bounds member').1
    rcases old c' other there with before | ⟨rfl, rfl⟩
    · rw [Function.update_of_ne (notNew c' member' other before)]
      exact shapes other c' _ _ (heap.slab_bounds member' before).1 positiveC
        (heap.slabs c' member' other before)
    · have none : liveIn live other = [] := by
        rw [liveIn, List.filter_eq_nil_iff]
        intro p alive
        obtain ⟨c'', member'', home⟩ := heap.homes p alive
        rw [decide_eq_true_eq]
        rintro rfl
        exact fresh c'' member'' home
      rw [Function.update_self, none]
      exact shapes other c' _ _ alignedNew positiveC shape
  · intro p alive
    obtain ⟨c', member', home⟩ := heap.homes p alive
    refine ⟨c', member', ?_⟩
    by_cases same : c' = c
    · subst same
      rw [Function.update_self]
      exact List.mem_append_left _ home
    · rw [Function.update_of_ne same]
      exact home

end Grow

/-- The pages a request of class `c` takes: one when no slab of the class has a free object. -/
def slabCost (slabsOf free : Nat → List Nat) (c : Nat) : Nat :=
  if (slabsOf c).all (fun slab => (free slab).isEmpty) then 1 else 0

/-- What handing out an object of class `c` changes besides the lists: outside the headers
of slabs no word in use changes. -/
structure Taken (h : KHeap) (slabsOf : Nat → List Nat) (c p : Nat) (s' : Phys)
    (slabsOf' : Nat → List Nat) : Prop where
  hhdm : s'.hhdmOffset = h.phys.hhdmOffset
  total : s'.totalPages = h.phys.totalPages
  pages : Pages h.phys s'
  used : ∀ q, PageIs h.phys q .used → PageIs s' q .used
  mem : ∀ q, PageIs h.phys q .used → (∀ c ∈ slabSizes, q + h.phys.hhdmOffset ∉ slabsOf c) →
    ∀ a, InFrame h.phys q a → s'.mem a = h.phys.mem a
  bodies : ∀ c ∈ slabSizes, ∀ slab ∈ slabsOf c, ∀ a, slab + headerSize ≤ a → a < slab + pageSize →
    s'.mem a = h.phys.mem a
  old : ∀ c ∈ slabSizes, ∀ slab ∈ slabsOf c, slab ∈ slabsOf' c
  new : ∀ c ∈ slabSizes, ∀ slab ∈ slabsOf' c, slab ∈ slabsOf c ∨
    ∃ q, ¬ PageIs h.phys q .used ∧ slab = q + h.phys.hhdmOffset
  object : ∃ slab ∈ slabsOf' c, p ∈ slots slab c

section Allocate

variable {h : KHeap} {live list : List Nat} {slabsOf free : Nat → List Nat} {c slab : Nat}

/-- Both branches that return an object unlink the first one. -/
theorem allocateWithSlab_pop (heap : HeapInv h live slabsOf free list) (member : c ∈ slabSizes)
    (here : slab ∈ slabsOf c) {p : Nat} {rest : List Nat} (shape : free slab = p :: rest) (fuel : Nat) :
    ∃ m, allocateWithSlab (fuel + 1) h.phys slab = some (.ok (p, { h.phys with mem := m })) ∧
      m (objectsAt slab) = h.phys.mem p ∧ m (objAmAt slab) = rest.length ∧
      ∀ a, a ≠ objectsAt slab → a ≠ objAmAt slab → m a = h.phys.mem a := by
  have at_ := heap.slabs c member slab here
  rw [shape] at at_
  obtain ⟨objects, nonnull, _⟩ := Threaded.cons_iff.mp at_.threaded
  have different : objAmAt slab ≠ objectsAt slab := by
    unfold objAmAt objectsAt
    omega
  have amount : wsub (h.phys.mem (objAmAt slab)) 1 = rest.length := by
    have short : (p :: rest).length ≤ (slots slab c).length := by
      have whole := at_.split.length_eq
      rw [List.length_append] at whole
      omega
    have slotsLength : (slots slab c).length ≤ 4096 := by
      rw [slots, List.length_map, List.length_range]
      exact Nat.le_trans (Nat.div_le_self _ _) (by decide)
    rw [at_.amount, wsub_eq (by omega) (by simp), List.length_cons, Nat.add_sub_cancel]
  by_cases last : h.phys.mem p = 0
  · refine ⟨(h.phys.mem.store (objAmAt slab) rest.length).store (objectsAt slab) 0, ?_, ?_, ?_, ?_⟩
    · simp [allocateWithSlab, objects, nonnull, last, amount]
    · rw [Memory.store_same, last]
    · rw [Memory.store_other _ different, Memory.store_same]
    · intro a notObjects notAm
      rw [Memory.store_other _ notObjects, Memory.store_other _ notAm]
  · refine ⟨(h.phys.mem.store (objectsAt slab) (h.phys.mem p)).store (objAmAt slab) rest.length,
      ?_, ?_, ?_, ?_⟩
    · simp [allocateWithSlab, objects, nonnull, last, Memory.store_other _ different, amount]
    · rw [Memory.store_other _ (Ne.symm different), Memory.store_same]
    · exact Memory.store_same _ _ _
    · intro a notObjects notAm
      rw [Memory.store_other _ notAm, Memory.store_other _ notObjects]

theorem take_taken (heap : HeapInv h live slabsOf free list) (member : c ∈ slabSizes)
    (here : slab ∈ slabsOf c) {p : Nat} (object : p ∈ slots slab c) {m : Memory}
    (frame : ∀ a, a ≠ objectsAt slab → a ≠ objAmAt slab → m a = h.phys.mem a) :
    Taken h slabsOf c p { h.phys with mem := m } slabsOf := by
  refine ⟨rfl, rfl, fun _ page => page, fun _ used => used, ?_, ?_, fun _ _ _ there => there,
    fun _ _ _ there => .inl there, slab, here, object⟩
  · intro q used notSlab a inQ
    obtain ⟨r, usedR, rfl⟩ := heap.frames c member slab here
    have outside : ¬ InFrame h.phys r a := by
      intro inR
      have same := frame_apart heap.pmm.layout used usedR inQ inR
      exact notSlab c member (same ▸ here)
    apply frame
    · rintro rfl
      exact outside (by unfold InFrame objectsAt pageSize; omega)
    · rintro rfl
      exact outside (by unfold InFrame objAmAt pageSize; omega)
  · intro c' member' other there a low high
    obtain ⟨k, aligned⟩ := (heap.slab_bounds member' there).1
    obtain ⟨l, aligned'⟩ := (heap.slab_bounds member here).1
    unfold headerSize at low
    unfold pageSize at *
    exact frame a (by unfold objectsAt; omega) (by unfold objAmAt; omega)

/-- An object was handed out. -/
def HandsOut (h : KHeap) (live : List Nat) (slabsOf free : Nat → List Nat) (c : Nat)
    (result : Option (Except Panic (Nat × Phys))) : Prop :=
  ∃ p s' slabsOf' free' list', result = some (.ok (p, s')) ∧
    HeapInv { h with phys := s' } (p :: live) slabsOf' free' list' ∧ p ∉ live ∧
    Taken h slabsOf c p s' slabsOf' ∧ s'.usedPages = h.phys.usedPages + slabCost slabsOf free c

theorem slabCost_le (slabsOf free : Nat → List Nat) (c : Nat) : slabCost slabsOf free c ≤ 1 := by
  unfold slabCost
  split <;> omega

theorem slabCost_zero (here : slab ∈ slabsOf c) (some_free : free slab ≠ []) :
    slabCost slabsOf free c = 0 := by
  apply if_neg
  intro full
  have empty := List.all_eq_true.mp full slab here
  exact some_free (List.isEmpty_iff.mp empty)

theorem slabCost_one (full : ∀ slab ∈ slabsOf c, free slab = []) : slabCost slabsOf free c = 1 := by
  apply if_pos
  rw [List.all_eq_true]
  intro slab here
  rw [full slab here]
  rfl

theorem allocateWithSlab_found (heap : HeapInv h live slabsOf free list) (member : c ∈ slabSizes)
    (here : slab ∈ slabsOf c) {p : Nat} {rest : List Nat} (shape : free slab = p :: rest) (fuel : Nat) :
    HandsOut h live slabsOf free c (allocateWithSlab (fuel + 1) h.phys slab) := by
  obtain ⟨m, result, objects, amount, frame⟩ := allocateWithSlab_pop heap member here shape fuel
  have isFree : p ∈ free slab := by
    rw [shape]
    exact List.mem_cons_self
  have object := (heap.slabs c member slab here).mem_free isFree
  refine ⟨p, _, slabsOf, _, list, result, heap.take member here shape objects amount frame,
    heap.free_dead member here isFree, take_taken heap member here object frame, ?_⟩
  rw [slabCost_zero here (shape ▸ List.cons_ne_nil p rest)]
  rfl

theorem mem_update_append {new other c' : Nat} :
    other ∈ Function.update slabsOf c (slabsOf c ++ [new]) c' ↔
      other ∈ slabsOf c' ∨ (c' = c ∧ other = new) := by
  by_cases same : c' = c
  · subst same
    simp
  · simp [same]

/-- Taking an object from a slab that was hung in just before. -/
theorem Taken.of_grown (heap : HeapInv h live slabsOf free list) (member : c ∈ slabSizes)
    (here : slab ∈ slabsOf c) {new p : Nat} {s₁ s' : Phys} (isNew : NewSlab h.phys c new s₁)
    (taken : Taken { h with phys := { s₁ with mem := s₁.mem.store slab new } }
      (Function.update slabsOf c (slabsOf c ++ [new])) c p s'
      (Function.update slabsOf c (slabsOf c ++ [new]))) :
    Taken h slabsOf c p s' (Function.update slabsOf c (slabsOf c ++ [new])) := by
  obtain ⟨q, notUsed, usedQ, address⟩ := isNew.page
  have hhdm := isNew.hhdm
  have notChain : ∀ a, a ≠ slab → s₁.mem.store slab new a = s₁.mem a := fun a other =>
    Memory.store_other _ other
  refine ⟨taken.hhdm.trans hhdm, taken.total.trans isNew.total,
    fun r page => isNew.pages r (taken.pages r page), fun r used => taken.used r (isNew.used r used), ?_, ?_, ?_, ?_, taken.object⟩
  · intro r usedR notSlab a inR
    obtain ⟨k, usedK, address'⟩ := heap.frames c member slab here
    have notSlabWord : a ≠ slab := by
      rintro rfl
      have inK : InFrame h.phys k a := by
        unfold InFrame pageSize
        omega
      have equal := frame_apart heap.pmm.layout usedR usedK inR inK
      exact notSlab c member (by rw [equal, ← address']; exact here)
    rw [← isNew.mem r usedR a inR, ← notChain a notSlabWord]
    refine taken.mem r (isNew.used r usedR) ?_ a ?_
    · intro c' member' there
      have there' : r + h.phys.hhdmOffset ∈ Function.update slabsOf c (slabsOf c ++ [new]) c' :=
        hhdm ▸ there
      rcases mem_update_append.mp there' with old | ⟨_, same⟩
      · exact notSlab c' member' old
      · have equal : r = q := by omega
        exact notUsed (equal ▸ usedR)
    · have inR₁ : InFrame s₁ r a := by
        unfold InFrame
        rw [hhdm]
        exact inR
      exact inR₁
  · intro c' member' other there a low high
    have kept := taken.bodies c' member' other (mem_update_append.mpr (.inl there)) a low high
    obtain ⟨r, usedR, address'⟩ := heap.frames c' member' other there
    have notSlabWord : a ≠ slab := by
      obtain ⟨k, aligned⟩ := (heap.slab_bounds member' there).1
      obtain ⟨l, aligned'⟩ := (heap.slab_bounds member here).1
      unfold headerSize at low
      unfold pageSize at *
      omega
    refine kept.trans ((notChain a notSlabWord).trans (isNew.mem r usedR a ?_))
    unfold InFrame
    omega
  · exact fun c' _ other there => mem_update_append.mpr (.inl there)
  · intro c' _ other there
    rcases mem_update_append.mp there with old | ⟨_, rfl⟩
    · exact .inl old
    · exact .inr ⟨q, notUsed, address⟩

/-- The last slab of a chain is full: a new one is made, or the memory is. -/
theorem allocateWithSlab_last (heap : HeapInv h live slabsOf free list) (member : c ∈ slabSizes)
    {before : List Nat} (split : slabsOf c = before ++ [slab]) (full : ∀ slab ∈ slabsOf c, free slab = [])
    (last : h.phys.mem slab = 0) (fuel : Nat) :
    HandsOut h live slabsOf free c (allocateWithSlab (fuel + 2) h.phys slab) ∨
      (allocateWithSlab (fuel + 2) h.phys slab = some (.error .outOfMemory) ∧
        h.phys.totalPages < h.phys.usedPages + slabCost slabsOf free c) := by
  have here : slab ∈ slabsOf c := by
    rw [split]
    simp
  have size := (heap.slabs c member slab here).objSize
  have empty : h.phys.mem (objectsAt slab) = 0 :=
    (heap.slabs c member slab here).threaded.null_iff.mpr (full slab here)
  have cost := slabCost_one full
  rcases newSlab_outcome heap.pmm member with ⟨new, s₁, list₁, made, inv₁, isNew⟩ | ⟨failed, none⟩
  · left
    have step : allocateWithSlab (fuel + 2) h.phys slab =
        allocateWithSlab (fuel + 1) { s₁ with mem := s₁.mem.store slab new } new := by
      conv_lhs => unfold allocateWithSlab
      simp only [empty, last, size, made, ne_eq, not_true_eq_false, ↓reduceIte]
    obtain ⟨q, notUsed, usedQ, address⟩ := isNew.page
    have slabFrame : ∀ c ∈ slabSizes, ∀ slab ∈ slabsOf c, ∀ a, slab ≤ a → a < slab + pageSize →
        s₁.mem a = h.phys.mem a := by
      intro c' member' other there a low high
      obtain ⟨r, usedR, rfl⟩ := heap.frames c' member' other there
      exact isNew.mem r usedR a ⟨low, high⟩
    have fresh : ∀ c ∈ slabSizes, new ∉ slabsOf c := by
      intro c' member' there
      obtain ⟨r, usedR, same⟩ := heap.frames c' member' new there
      have equal : q = r := by omega
      exact notUsed (equal ▸ usedR)
    have framed := heap.frame inv₁ isNew.hhdm (fun q used _ => isNew.used q used) slabFrame
    have grown := framed.grow member split ⟨q, usedQ, by rw [address, isNew.hhdm]⟩ fresh isNew.shape
      isNew.chain
    have newHere : new ∈ Function.update slabsOf c (slabsOf c ++ [new]) c :=
      mem_update_append.mpr (.inr ⟨rfl, rfl⟩)
    obtain ⟨p, rest, objects⟩ : ∃ p rest, (slots new c).reverse = p :: rest := by
      apply List.exists_cons_of_ne_nil
      have positive : 0 < (pageSize - headerSize) / c := by
        apply Nat.div_pos _ (Nat.lt_of_lt_of_le (by decide) (slabSizes_bounds member).1)
        exact Nat.le_trans (slabSizes_bounds member).2 (by decide)
      rw [Ne, List.reverse_eq_nil_iff, slots, List.map_eq_nil_iff, List.range_eq_nil]
      omega
    have shape : Function.update free new (slots new c).reverse new = p :: rest := by
      rw [Function.update_self, objects]
    have isFree : p ∈ Function.update free new (slots new c).reverse new := by
      rw [shape]
      exact List.mem_cons_self
    have object := (grown.slabs c member new newHere).mem_free isFree
    obtain ⟨m, result, objectsWord, amount, frame⟩ := allocateWithSlab_pop grown member newHere shape fuel
    rw [step]
    exact ⟨p, _, _, _, list₁, result, grown.take member newHere shape objectsWord amount frame,
      grown.free_dead member newHere isFree,
      (take_taken grown member newHere object frame).of_grown heap member here isNew,
      isNew.usedPages.trans (by rw [cost])⟩
  · right
    refine ⟨?_, by omega⟩
    unfold allocateWithSlab
    simp only [empty, last, size, failed, ne_eq, not_true_eq_false, ↓reduceIte]

/-- From any slab of a chain the loop finds a free object, or adds a slab, or runs out of
memory; it passes each later slab at most once. -/
theorem allocateWithSlab_outcome (heap : HeapInv h live slabsOf free list) (member : c ∈ slabSizes)
    {before after : List Nat} (split : slabsOf c = before ++ slab :: after)
    (scanned : ∀ other ∈ before, free other = []) {fuel : Nat} (enough : after.length + 1 < fuel) :
    HandsOut h live slabsOf free c (allocateWithSlab fuel h.phys slab) ∨
      (allocateWithSlab fuel h.phys slab = some (.error .outOfMemory) ∧
        h.phys.totalPages < h.phys.usedPages + slabCost slabsOf free c) := by
  induction after generalizing slab before fuel with
  | nil =>
    have here : slab ∈ slabsOf c := by
      rw [split]
      simp
    obtain ⟨fuel, rfl⟩ : ∃ k, fuel = k + 2 := ⟨fuel - 2, by simp only [List.length_nil] at enough; omega⟩
    cases shape : free slab with
    | cons p rest => exact .inl (allocateWithSlab_found heap member here shape (fuel + 1))
    | nil =>
      have full : ∀ other ∈ slabsOf c, free other = [] := by
        intro other there
        rw [split] at there
        rcases List.mem_append.mp there with earlier | isLast
        · exact scanned other earlier
        · rw [List.mem_singleton.mp isLast]
          exact shape
      have last : h.phys.mem slab = 0 := by
        obtain ⟨cache, inCaches, rfl⟩ := List.mem_map.mp (heap.sizes.symm ▸ member)
        have chain := (heap.chains cache inCaches).1
        rw [split] at chain
        exact (chain.suffix).2.null_iff.mpr rfl
      exact allocateWithSlab_last heap member split full last fuel
  | cons next after ih =>
    have here : slab ∈ slabsOf c := by
      rw [split]
      simp
    obtain ⟨fuel, rfl⟩ : ∃ k, fuel = k + 1 := ⟨fuel - 1, by omega⟩
    cases shape : free slab with
    | cons p rest => exact .inl (allocateWithSlab_found heap member here shape fuel)
    | nil =>
      have at_ := heap.slabs c member slab here
      rw [shape] at at_
      have empty : h.phys.mem (objectsAt slab) = 0 := at_.threaded.null_iff.mpr rfl
      have link : h.phys.mem slab = next ∧ next ≠ 0 := by
        obtain ⟨cache, inCaches, rfl⟩ := List.mem_map.mp (heap.sizes.symm ▸ member)
        have chain := (heap.chains cache inCaches).1
        rw [split] at chain
        obtain ⟨same, nonnull, _⟩ := Threaded.cons_iff.mp (chain.suffix).2
        exact ⟨same, nonnull⟩
      have step : allocateWithSlab (fuel + 1) h.phys slab = allocateWithSlab fuel h.phys next := by
        conv_lhs => unfold allocateWithSlab
        simp only [empty, link.1, link.2, ne_eq, not_true_eq_false, not_false_eq_true, ↓reduceIte]
      rw [step]
      have split' : slabsOf c = (before ++ [slab]) ++ next :: after := by
        rw [split, List.append_assoc]
        rfl
      refine ih split' ?_ (by simp only [List.length_cons] at enough; omega)
      intro other there
      rcases List.mem_append.mp there with earlier | isThis
      · exact scanned other earlier
      · rw [List.mem_singleton.mp isThis]
        exact shape

end Allocate

end EvalynOS.Heap
