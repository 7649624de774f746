import EvalynOS.Libc.Stdlib
import EvalynOS.Memory.HeapRuns
import EvalynOS.Memory.VmaRuns

/-! What holds of the kernel's memory between calls, and what the steps of malloc do to it. -/
namespace EvalynOS.Stdlib
open Lib Lib.Word Pmm Vmm Heap
open Vma (Ranges Tiling UsedAt FreeAt Carve PageRange roundup vallocInitWindow)

/- The entries of the top level for the lower half and for the window of valloc. -/
def kernelRegion (i : Nat) : Prop := i < 256 ∨ (320 ≤ i ∧ i < 448)

/-- The address map of vma.h: the direct map of at most 16 TB begins with the upper half and ends
below the window of valloc. -/
structure DirectMap (s : Phys) : Prop where
  start : 0xFFFF800000000000 ≤ s.hhdmOffset
  stop : ∀ q, (∃ state, PageIs s q state) → q + pageSize + s.hhdmOffset ≤ vallocInitWindow.lo
  total : s.totalPages ≤ 2 ^ 32

/- Addresses that are looked up in the tables: those of the lower half and of the window. -/
def Paged (v : Nat) : Prop := v < 2 ^ 47 ∨ (vallocInitWindow.lo ≤ v ∧ v < vallocInitWindow.hi)

/-- The live objects of the slab heap, the runs of pages that were handed out, and how the
heap, the tables and the ranges of the kernel fit together. -/
structure KernelInv (k : Kernel) (live : List Nat) (runs : List (Nat × Nat))
    (slabsOf free : Nat → List Nat) (list : List Nat) : Prop where
  heap : HeapInv k.heap live slabsOf free list
  tree : Tree k.phys k.topLevel kernelRegion
  apart : ∀ path t, Valid kernelRegion path → descend (child k.phys) k.topLevel path = some t →
    ∀ c ∈ slabSizes, t ∉ slabsOf c
  tiling : Tiling vallocInitWindow k.ranges
  reserved : ∀ v, vallocInitWindow.lo ≤ v → v < vallocInitWindow.hi →
    isPresent (leaf k.phys k.topLevel v) = true → UsedAt k.ranges v
  direct : DirectMap k.phys
  runs : ∀ r ∈ runs, ∀ x, Inside x r → Paged x ∧ isPresent (leaf k.phys k.topLevel x) = true

section Addresses

theorem paged_region {v : Nat} (paged : Paged v) : kernelRegion (pml4i v) := by
  have bounds : vallocInitWindow.lo = 0xFFFFA00000000000 ∧ vallocInitWindow.hi = 0xFFFFE00000000000 :=
    ⟨rfl, rfl⟩
  unfold Paged at paged
  unfold kernelRegion pml4i
  simp only [index_eq_mod, Nat.shiftRight_eq_div_pow]
  omega

variable {s : Phys} {v : Nat}

/-- Nothing that is looked up in the tables is in the direct map. -/
theorem Paged.not_direct (paged : Paged v) (direct : DirectMap s) :
    ¬ (s.hhdmOffset ≤ v ∧ v < vallocInitWindow.lo) := by
  have start := direct.start
  rcases paged with lower | ⟨window, _⟩
  · omega
  · omega

theorem DirectMap.kept (direct : DirectMap s) {s' : Phys} (hhdm : s'.hhdmOffset = s.hhdmOffset)
    (total : s'.totalPages = s.totalPages) (pages : Pages s s') : DirectMap s' where
  start := hhdm ▸ direct.start
  stop := fun q page => hhdm ▸ direct.stop q (pages q page)
  total := total ▸ direct.total

end Addresses

section Steps

variable {k k' : Kernel} {live live' own list list' : List Nat} {runs : List (Nat × Nat)}
  {slabsOf slabsOf' free free' : Nat → List Nat}

@[simp] theorem withMem_phys (k : Kernel) (m : Memory) : (k.withMem m).phys = { k.phys with mem := m } := rfl
@[simp] theorem withMem_topLevel (k : Kernel) (m : Memory) : (k.withMem m).topLevel = k.topLevel := rfl
@[simp] theorem withMem_ranges (k : Kernel) (m : Memory) : (k.withMem m).ranges = k.ranges := rfl
@[simp] theorem withPhys_phys (k : Kernel) (s : Phys) : (k.withPhys s).phys = s := rfl
@[simp] theorem withPhys_topLevel (k : Kernel) (s : Phys) : (k.withPhys s).topLevel = k.topLevel := rfl
@[simp] theorem withPhys_ranges (k : Kernel) (s : Phys) : (k.withPhys s).ranges = k.ranges := rfl

/-- The tables are the same, and what was in use still is. -/
structure Steady (k k' : Kernel) : Prop where
  topLevel : k'.topLevel = k.topLevel
  hhdm : k'.phys.hhdmOffset = k.phys.hhdmOffset
  total : k'.phys.totalPages = k.phys.totalPages
  pages : Pages k.phys k'.phys
  used : ∀ q, PageIs k.phys q .used → PageIs k'.phys q .used
  lookup : ∀ path, Valid kernelRegion path →
    descend (child k'.phys) k'.topLevel path = descend (child k.phys) k.topLevel path
  leaves : ∀ v, kernelRegion (pml4i v) → leaf k'.phys k'.topLevel v = leaf k.phys k.topLevel v

/- The addresses whose lookup is known: those of the direct map, and those of the tables. -/
def Seen (k : Kernel) (x : Nat) : Prop :=
  (k.phys.hhdmOffset ≤ x ∧ x < vallocInitWindow.lo) ∨ Paged x

theorem Steady.translate (same : Steady k k') {x : Nat} (seen : Seen k x) :
    k'.translate x = k.translate x := by
  unfold Kernel.translate
  rw [same.hhdm]
  rcases seen with direct | paged
  · rw [if_pos direct, if_pos direct]
  · rw [vmmGetPhys_eq, vmmGetPhys_eq, same.leaves x (paged_region paged)]

/-- Only the heap has to be looked at where the tables stay the same. -/
theorem KernelInv.steady (inv : KernelInv k live runs slabsOf free list) (same : Steady k k')
    (heap' : HeapInv k'.heap live' slabsOf' free' list')
    (tree' : Tree k'.phys k'.topLevel kernelRegion) (ranges : k'.ranges = k.ranges)
    (new : ∀ c ∈ slabSizes, ∀ slab ∈ slabsOf' c, slab ∈ slabsOf c ∨
      ∃ q, ¬ PageIs k.phys q .used ∧ slab = q + k.phys.hhdmOffset) :
    KernelInv k' live' runs slabsOf' free' list' where
  heap := heap'
  tree := tree'
  apart := by
    intro path t valid here c member isSlab
    rw [same.lookup path valid] at here
    rcases new c member t isSlab with old | ⟨q, unused, address⟩
    · exact inv.apart path t valid here c member old
    · obtain ⟨r, used, address'⟩ := inv.tree.frames path t valid here
      have equal : q = r := by omega
      exact unused (equal ▸ used)
  tiling := ranges ▸ inv.tiling
  reserved := by
    intro v low high present
    rw [same.leaves v (paged_region (.inr ⟨low, high⟩))] at present
    exact ranges ▸ inv.reserved v low high present
  direct := inv.direct.kept same.hhdm same.total same.pages
  runs := by
    intro r member x inside
    obtain ⟨paged, present⟩ := inv.runs r member x inside
    refine ⟨paged, ?_⟩
    rw [same.leaves x (paged_region paged)]
    exact present

/-- A live object lies in the page of a slab. -/
theorem live_frame {h : KHeap} (heap : HeapInv h live slabsOf free list) {p a : Nat} (alive : p ∈ live)
    (inside : p ≤ a ∧ a < p + h.phys.mem (objSizeAt (slabOf p))) :
    ∃ q c, c ∈ slabSizes ∧ slabOf p ∈ slabsOf c ∧ PageIs h.phys q .used ∧
      slabOf p = q + h.phys.hhdmOffset ∧ InFrame h.phys q a := by
  obtain ⟨c, member, home⟩ := heap.homes p alive
  rw [(heap.slabs c member _ home).objSize] at inside
  obtain ⟨low, high⟩ := slot_bounds (heap.live_slot alive member home)
  obtain ⟨q, used, address⟩ := heap.frames c member _ home
  exact ⟨q, c, member, home, used, address, by unfold InFrame; omega⟩

/-- The bytes of a live object are in the direct map. -/
theorem KernelInv.object_direct (inv : KernelInv k live runs slabsOf free list) {p a : Nat}
    (alive : p ∈ live) (inside : p ≤ a ∧ a < p + k.phys.mem (objSizeAt (slabOf p))) :
    k.phys.hhdmOffset ≤ a ∧ a < vallocInitWindow.lo := by
  obtain ⟨q, _, _, _, used, _, low, high⟩ := live_frame inv.heap alive inside
  have stop := inv.direct.stop q ⟨.used, used⟩
  change q + k.phys.hhdmOffset ≤ a at low
  change a < q + k.phys.hhdmOffset + pageSize at high
  omega

/-- Clients that write to what they hold change no table and no lookup. -/
theorem KernelInv.write (inv : KernelInv k live runs slabsOf free list) (owned : Owned k.heap own slabsOf)
    (notTable : ∀ q ∈ own, ∀ path, Valid kernelRegion path →
      descend (child k.phys) k.topLevel path ≠ some (q + k.phys.hhdmOffset))
    {m : Memory} (clients : ∀ a, ¬ MayWrite k.heap live own a → m a = k.phys.mem a) :
    KernelInv (k.withMem m) live runs slabsOf free list ∧ Steady k (k.withMem m) := by
  have tables : ∀ path q, Valid kernelRegion path →
      descend (child k.phys) k.topLevel path = some (q + k.phys.hhdmOffset) →
      PageIs k.phys q .used → ∀ a, InFrame k.phys q a → m a = k.phys.mem a := by
    intro path q valid here usedQ a inQ
    apply clients
    rintro (⟨p, alive, inObject⟩ | ⟨r, isOwn, inPage⟩)
    · obtain ⟨r, c, member, home, usedR, address, inR⟩ := live_frame inv.heap alive inObject
      have same := frame_apart inv.heap.pmm.layout usedQ usedR inQ inR
      exact inv.apart path _ valid here c member (by rw [same]; exact address ▸ home)
    · have same := frame_apart inv.heap.pmm.layout usedQ (owned.used r isOwn) inQ inPage
      exact notTable r isOwn path valid (same ▸ here)
  obtain ⟨tree, lookup, _, leaves⟩ := @Tree.frame k.phys (k.withMem m).phys k.topLevel kernelRegion
    inv.tree rfl (fun _ used => used) tables
  have same : Steady k (k.withMem m) :=
    ⟨rfl, rfl, rfl, fun _ page => page, fun _ used => used, lookup, leaves⟩
  refine ⟨inv.steady same (inv.heap.client_write owned clients) tree rfl ?_, same⟩
  exact fun _ _ _ here => .inl here

/-- An object is taken from a slab of the heap. -/
theorem KernelInv.taken (inv : KernelInv k live runs slabsOf free list) {c q : Nat} {s' : Phys}
    (heap' : HeapInv { k.heap with phys := s' } live' slabsOf' free' list')
    (taken : Taken k.heap slabsOf c q s' slabsOf') :
    KernelInv (k.withPhys s') live' runs slabsOf' free' list' ∧ Steady k (k.withPhys s') := by
  obtain ⟨tree, lookup, _, leaves⟩ := @Tree.frame k.phys s' k.topLevel kernelRegion inv.tree taken.hhdm
    taken.used (fun path r valid here used => taken.mem r used (inv.apart path _ valid here))
  have same : Steady k (k.withPhys s') :=
    ⟨rfl, taken.hhdm, taken.total, taken.pages, taken.used, lookup, leaves⟩
  exact ⟨inv.steady same heap' tree rfl taken.new, same⟩

end Steps

section Slab

variable {k : Kernel} {live list : List Nat} {runs : List (Nat × Nat)} {slabsOf free : Nat → List Nat}

/-- An object `q` of class `c` was handed out, with `size` in its header. -/
structure SlabBlock (k k' : Kernel) (live : List Nat) (q c size : Nat) : Prop where
  same : Steady k k'
  ranges : k'.ranges = k.ranges
  dead : q ∉ live
  objSize : k'.phys.mem (objSizeAt (slabOf q)) = c
  header : k'.phys.mem q = size
  aligned : 16 ∣ q

theorem slot_aligned {slab c q : Nat} (aligned : pageSize ∣ slab) (member : c ∈ slabSizes)
    (object : q ∈ slots slab c) : 16 ∣ q := by
  obtain ⟨i, _, rfl⟩ := mem_slots.mp object
  have multiple : 16 ∣ c := by
    have all : ∀ d ∈ slabSizes, 16 ∣ d := by decide
    exact all c member
  have whole : 16 ∣ slab := Nat.dvd_trans (by decide) aligned
  have part : 16 ∣ i * c := Nat.dvd_trans multiple (Nat.dvd_mul_left _ _)
  unfold headerSize
  omega

/-- The object is taken from a slab, and its first word is written. -/
theorem slabMalloc_taken (inv : KernelInv k live runs slabsOf free list) {size : Nat}
    (small : size ≤ 1008) :
    ∃ c, IsClass (size + 16) c ∧ ∀ fuel, (slabsOf c).length < fuel →
      (∃ q s' slabsOf' free' list', Taken k.heap slabsOf c q s' slabsOf' ∧
        slabMalloc fuel k size = some (.ok (q + 16, (k.withPhys s').withMem (s'.mem.store q size))) ∧
        KernelInv ((k.withPhys s').withMem (s'.mem.store q size)) (q :: live) runs slabsOf' free' list' ∧
        SlabBlock k ((k.withPhys s').withMem (s'.mem.store q size)) live q c size ∧
        s'.usedPages = k.phys.usedPages + slabCost slabsOf free c) ∨
      (slabMalloc fuel k size = some (.error .outOfMemory) ∧
        k.phys.totalPages < k.phys.usedPages + slabCost slabsOf free c) := by
  have sum : wadd size 16 = size + 16 := wadd_eq (by omega)
  obtain ⟨c, isClass, outcome⟩ := @kmalloc_outcome k.heap live list slabsOf free (size + 16) inv.heap (by omega)
  refine ⟨c, isClass, ?_⟩
  intro fuel enough
  rcases outcome fuel enough with ⟨q, s', slabsOf', free', list', ran, heap', dead, taken, cost⟩ | ⟨failed, full⟩
  · left
    obtain ⟨inv', same⟩ := inv.taken heap' taken
    obtain ⟨slab, here, object⟩ := taken.object
    have home := heap'.slabOf_slot isClass.1 here object
    have objSize : s'.mem (objSizeAt (slabOf q)) = c := by
      rw [home]
      exact (heap'.slabs c isClass.1 slab here).objSize
    have positive := (slabSizes_bounds isClass.1).1
    have first : q ≤ q ∧ q < q + s'.mem (objSizeAt (slabOf q)) := by omega
    have direct := inv'.object_direct List.mem_cons_self first
    have translated : (k.withPhys s').translate q = some q := if_pos direct
    have bound : vallocInitWindow.lo + 16 < 2 ^ 64 := by decide
    have end_ : wadd q 16 = q + 16 := wadd_eq (by omega)
    have low := (slot_bounds object).1
    -- the header of the block is a word of a live object
    have owned : Owned (k.withPhys s').heap [] slabsOf' := ⟨List.nodup_nil, by simp, by simp⟩
    have clients : ∀ a, ¬ MayWrite (k.withPhys s').heap (q :: live) [] a →
        s'.mem.store q size a = s'.mem a := by
      intro a outside
      apply Memory.store_other
      rintro rfl
      exact outside (.inl ⟨a, List.mem_cons_self, first⟩)
    obtain ⟨inv₂, same₂⟩ := inv'.write owned (by simp) clients
    refine ⟨q, s', slabsOf', free', list', taken, ?_, inv₂, ?_, cost⟩
    · have written : Kernel.writeWord { k with heap := { k.heap with phys := s' } } q size =
          .ok ((k.withPhys s').withMem (s'.mem.store q size)) := by
        change Kernel.writeWord (k.withPhys s') q size = _
        simp only [Kernel.writeWord, translated]
        rfl
      unfold slabMalloc
      rw [sum, ran]
      simp only [Option.map_some, bind, Except.bind, written, end_]
    · refine ⟨⟨rfl, same.hhdm, same.total, same.pages, same.used, ?_, ?_⟩, rfl, dead, ?_,
        Memory.store_same _ _ _, slot_aligned (heap'.slab_bounds isClass.1 here).1 isClass.1 object⟩
      · exact fun path valid => (same₂.lookup path valid).trans (same.lookup path valid)
      · exact fun v inside => (same₂.leaves v inside).trans (same.leaves v inside)
      · change (s'.mem.store q size) (objSizeAt (slabOf q)) = c
        rw [Memory.store_other, objSize]
        rw [home]
        unfold objSizeAt
        unfold headerSize at low
        omega
  · right
    refine ⟨?_, full⟩
    unfold slabMalloc
    rw [sum, failed]
    rfl

theorem slabMalloc_outcome (inv : KernelInv k live runs slabsOf free list) {size : Nat}
    (small : size ≤ 1008) :
    ∃ c, IsClass (size + 16) c ∧ ∀ fuel, (slabsOf c).length < fuel →
      (∃ q k' slabsOf' free' list', slabMalloc fuel k size = some (.ok (q + 16, k')) ∧
        KernelInv k' (q :: live) runs slabsOf' free' list' ∧ SlabBlock k k' live q c size ∧
        k'.phys.usedPages = k.phys.usedPages + slabCost slabsOf free c) ∨
      (slabMalloc fuel k size = some (.error .outOfMemory) ∧
        k.phys.totalPages < k.phys.usedPages + slabCost slabsOf free c) := by
  obtain ⟨c, isClass, outcome⟩ := slabMalloc_taken inv small
  refine ⟨c, isClass, ?_⟩
  intro fuel enough
  rcases outcome fuel enough with ⟨q, s', slabsOf', free', list', _, ran, inv', block, cost⟩ | failed
  · exact .inl ⟨q, _, slabsOf', free', list', ran, inv', block, cost⟩
  · exact .inr failed

end Slab

end EvalynOS.Stdlib
