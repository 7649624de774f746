import EvalynOS.Libc.Boot
import EvalynOS.Libc.PageMalloc

/-! When malloc and calloc are honest about the size that was asked for. -/
namespace EvalynOS.Stdlib
open Lib Lib.Word Pmm Vmm Heap
open Vma (Ranges Tiling UsedAt FreeAt Carve PageRange roundup vallocInitWindow)

/-- The addresses from `start` to `stop` are in one object, which is live now. -/
def InObject (k' : Kernel) (live : List Nat) (runs : List (Nat × Nat)) (start stop : Nat) : Prop :=
  ∃ q slabsOf free list, KernelInv k' (q :: live) runs slabsOf free list ∧ q ∉ live ∧
    q ≤ start ∧ stop ≤ q + k'.phys.mem (objSizeAt (slabOf q))

/-- They are in one run of new pages; a range node may be live now too. -/
def InRun (k k' : Kernel) (live : List Nat) (runs : List (Nat × Nat)) (start stop : Nat) : Prop :=
  ∃ run nodes slabsOf free list, KernelInv k' (nodes ++ live) (run :: runs) slabsOf free list ∧
    (∀ x, Inside x run → NewAddress k k' x) ∧ run.1 ≤ start ∧ stop ≤ run.2

/-- A pointer to `size` bytes behind a header, apart from all other blocks. free takes the
branch for the size that was asked for. -/
structure Grants (k : Kernel) (live : List Nat) (runs : List (Nat × Nat)) (size p : Nat) (k' : Kernel) :
    Prop where
  start : 16 ≤ p
  source : InObject k' live runs (p - 16) (p + size) ∨ InRun k k' live runs (p - 16) (p + size)
  apartObjects : ∀ q ∈ live, ∀ x, p - 16 ≤ x → x < p + size →
    ¬ (q ≤ x ∧ x < q + k'.phys.mem (objSizeAt (slabOf q)))
  apartRuns : ∀ r ∈ runs, ∀ x, p - 16 ≤ x → x < p + size → ¬ Inside x r
  path : ∀ fuel, free fuel k' p = freeBy fuel k' (p - 16) size (blockPath size)

/-- The call returns, with NULL and nothing changed or with such a pointer. -/
def Honest (k : Kernel) (live : List Nat) (runs : List (Nat × Nat)) (size : Nat)
    (result : Option (Except Panic (Nat × Kernel))) : Prop :=
  ∃ p k', result = some (.ok (p, k')) ∧ ((p = 0 ∧ k' = k) ∨ Grants k live runs size p k')

/-- The size with its header fits a class of the slab heap that has an object or a page
left, or it is above 1024 and there is a free range and enough pages for it. -/
def MallocFits (k : Kernel) (slabsOf free : Nat → List Nat) (size : Nat) : Prop :=
  (size ≤ 1008 ∧ ∀ c, IsClass (size + 16) c →
    k.phys.usedPages + slabCost slabsOf free c ≤ k.phys.totalPages) ∨
  (1024 < size ∧ (∃ r ∈ k.ranges.freeRanges.nodes, roundup (size + 16) ≤ r.size) ∧
    k.phys.usedPages + pageCost k slabsOf free size ≤ k.phys.totalPages)

section Blocks

variable {k k' : Kernel} {live live' own list list' : List Nat} {runs runs' : List (Nat × Nat)}
  {slabsOf slabsOf' free free' : Nat → List Nat} {size p : Nat}

/-- What was handed out: writable bytes behind a header they do not reach. -/
structure Block (k : Kernel) (live own : List Nat) (slabsOf : Nat → List Nat) (size p : Nat) : Prop where
  start : 16 ≤ p
  stop : p + size < 2 ^ 64
  owned : Owned k.heap own slabsOf
  noTable : NoTable k own
  seen : ∀ x, p - 16 ≤ x → x < p + size → Seen k x
  bytes : ∀ x, p ≤ x → x < p + size → ∃ t, k.translate x = some t ∧
    MayWrite k.heap live own (8 * (t / 8)) ∧ k.translate (p - 16) ≠ some (8 * (t / 8))
  header : k.readWord (p - 16) = some size

/-- Where the block is from. -/
def Source (k k' : Kernel) (live live' : List Nat) (runs runs' : List (Nat × Nat)) (size p : Nat) : Prop :=
  (∃ q, live' = q :: live ∧ runs' = runs ∧ q ∉ live ∧ q ≤ p - 16 ∧
    p + size ≤ q + k'.phys.mem (objSizeAt (slabOf q))) ∨
  ∃ run nodes, live' = nodes ++ live ∧ runs' = run :: runs ∧
    (∀ x, Inside x run → NewAddress k k' x) ∧ run.1 ≤ p - 16 ∧ p + size ≤ run.2

/-- The sizes of live objects stay where the slabs stay. -/
theorem objSize_kept {h h' : KHeap} (heap : HeapInv h live slabsOf free list)
    (heap' : HeapInv h' live slabsOf free' list') {q : Nat} (alive : q ∈ live) :
    h'.phys.mem (objSizeAt (slabOf q)) = h.phys.mem (objSizeAt (slabOf q)) := by
  obtain ⟨c, member, home⟩ := heap.homes q alive
  rw [(heap.slabs c member _ home).objSize, (heap'.slabs c member _ home).objSize]

/-- A block is apart from the blocks there were. -/
theorem source_apart (inv : KernelInv k live runs slabsOf free list) {x : Nat}
    (source : InObject k' live runs (p - 16) (p + size) ∨ InRun k k' live runs (p - 16) (p + size))
    (low : p - 16 ≤ x) (high : x < p + size) :
    (∀ q ∈ live, ¬ (q ≤ x ∧ x < q + k'.phys.mem (objSizeAt (slabOf q)))) ∧ ∀ r ∈ runs, ¬ Inside x r := by
  rcases source with ⟨q, _, _, _, inv', dead, start, stop⟩ | ⟨run, nodes, _, _, _, inv', new, start, stop⟩
  · have inObject : q ≤ x ∧ x < q + k'.phys.mem (objSizeAt (slabOf q)) := by omega
    constructor
    · intro r alive
      refine inv'.heap.live_apart List.mem_cons_self (List.mem_cons_of_mem _ alive) ?_ inObject
      rintro rfl
      exact dead alive
    · intro r member inside
      have paged := (inv'.runs r member x inside).1
      exact paged.not_direct inv'.direct (inv'.object_direct List.mem_cons_self inObject)
  · have inRun : Inside x run := ⟨by omega, by omega⟩
    constructor
    · intro q alive inObject
      have paged := (inv'.runs run List.mem_cons_self x inRun).1
      exact paged.not_direct inv'.direct (inv'.object_direct (List.mem_append_right _ alive) inObject)
    · intro r member inside
      have present := (inv.runs r member x inside).2
      rw [(new x inRun).unmapped] at present
      cases present

/-- A block is granted, whatever its clients have written behind the header. -/
theorem Block.grants (inv : KernelInv k live runs slabsOf free list)
    (inv' : KernelInv k' live' runs' slabsOf' free' list') (block : Block k' live' own slabsOf' size p)
    (source : Source k k' live live' runs runs' size p) {m : Memory}
    (clients : ∀ a, ¬ MayWrite k'.heap live' own a → m a = k'.phys.mem a)
    (header : ∀ a, k'.translate (p - 16) = some a → m a = k'.phys.mem a) :
    Grants k live runs size p (k'.withMem m) := by
  obtain ⟨inv₂, same⟩ := inv'.write block.owned block.noTable clients
  have start := block.start
  have stop := block.stop
  have from_ : InObject (k'.withMem m) live runs (p - 16) (p + size) ∨
      InRun k (k'.withMem m) live runs (p - 16) (p + size) := by
    rcases source with ⟨q, rfl, rfl, dead, low, high⟩ | ⟨run, nodes, rfl, rfl, new, low, high⟩
    · left
      refine ⟨q, slabsOf', free', list', inv₂, dead, low, ?_⟩
      have kept := objSize_kept inv'.heap inv₂.heap List.mem_cons_self
      change p + size ≤ q + m (objSizeAt (slabOf q))
      change m (objSizeAt (slabOf q)) = k'.phys.mem (objSizeAt (slabOf q)) at kept
      omega
    · right
      refine ⟨run, nodes, slabsOf', free', list', inv₂, ?_, low, high⟩
      intro x inside
      have old := new x inside
      refine ⟨old.free, old.reserved, old.unmapped, ?_⟩
      rw [same.translate (.inr (inv'.runs run List.mem_cons_self x inside).1)]
      exact old.mapped
  refine ⟨start, from_, ?_, ?_, ?_⟩
  · intro q alive x low high
    exact (source_apart inv from_ low high).1 q alive
  · intro r member x low high
    exact (source_apart inv from_ low high).2 r member
  · intro fuel
    have pointer : wsub p 16 = p - 16 := wsub_eq (by omega) start
    obtain ⟨a, there, value⟩ := Option.map_eq_some_iff.mp block.header
    have word : (k'.withMem m).readWord (p - 16) = some size := by
      unfold Kernel.readWord
      rw [same.translate (block.seen _ (Nat.le_refl _) (by omega)), there]
      simp only [Option.map_some, withMem_phys, header a there, value]
    simp only [Stdlib.free, pointer, word]

end Blocks

section Zeroing

variable {k : Kernel} {live own list : List Nat} {runs : List (Nat × Nat)}
  {slabsOf free : Nat → List Nat} {size p : Nat}

/-- The words a memset writes belong to the client, and the header is none of them. -/
theorem zeroBytes_spec (inv : KernelInv k live runs slabsOf free list) (owned : Owned k.heap own slabsOf)
    (noTable : NoTable k own) {count addr header : Nat} (bound : addr + count < 2 ^ 64)
    (bytes : ∀ x, addr ≤ x → x < addr + count → Seen k x ∧ ∃ t, k.translate x = some t ∧
      MayWrite k.heap live own (8 * (t / 8)) ∧ header ≠ 8 * (t / 8))
    {m : Memory} (clients : ∀ a, ¬ MayWrite k.heap live own a → m a = k.phys.mem a) :
    ∃ m', (k.withMem m).zeroBytes count addr = .ok (k.withMem m') ∧ m' header = m header ∧
      ∀ a, ¬ MayWrite k.heap live own a → m' a = k.phys.mem a := by
  induction count generalizing addr m with
  | zero => exact ⟨m, rfl, rfl, clients⟩
  | succ count ih =>
    obtain ⟨seen, t, there, mayWrite, apart⟩ := bytes addr (Nat.le_refl _) (by omega)
    have looked : (k.withMem m).translate addr = some t := by
      rw [(inv.write owned noTable clients).2.translate seen]
      exact there
    have next : wadd addr 1 = addr + 1 := wadd_eq (by omega)
    have outside : ∀ a, a ≠ 8 * (t / 8) → m.writeBytes t 1 (fun _ => 0) a = m a := by
      intro a different
      apply if_neg
      omega
    have clients₁ : ∀ a, ¬ MayWrite k.heap live own a →
        m.writeBytes t 1 (fun _ => 0) a = k.phys.mem a := by
      intro a notMine
      rw [outside a (fun same => notMine (same ▸ mayWrite))]
      exact clients a notMine
    obtain ⟨m', ran, kept, clients'⟩ := @ih (addr + 1) (by omega)
      (fun x low high => bytes x (by omega) (by omega)) _ clients₁
    refine ⟨m', ?_, kept.trans (outside header apart), clients'⟩
    simp only [Kernel.zeroBytes, looked, next]
    exact ran

theorem Block.zeroBytes (inv : KernelInv k live runs slabsOf free list)
    (block : Block k live own slabsOf size p) :
    ∃ m, k.zeroBytes size p = .ok (k.withMem m) ∧
      (∀ a, ¬ MayWrite k.heap live own a → m a = k.phys.mem a) ∧
      ∀ a, k.translate (p - 16) = some a → m a = k.phys.mem a := by
  obtain ⟨header, there, _⟩ := Option.map_eq_some_iff.mp block.header
  have bytes : ∀ x, p ≤ x → x < p + size → Seen k x ∧ ∃ t, k.translate x = some t ∧
      MayWrite k.heap live own (8 * (t / 8)) ∧ header ≠ 8 * (t / 8) := by
    intro x low high
    obtain ⟨t, looked, mayWrite, apart⟩ := block.bytes x low high
    refine ⟨block.seen x (by omega) high, t, looked, mayWrite, ?_⟩
    rintro rfl
    exact apart there
  obtain ⟨m, ran, kept, clients⟩ := zeroBytes_spec inv block.owned block.noTable block.stop bytes
    (m := k.phys.mem) (fun _ _ => rfl)
  refine ⟨m, ran, clients, ?_⟩
  intro a looked
  cases Option.some.inj (there.symm.trans looked)
  exact kept

end Zeroing

section Sizes

variable {k : Kernel} {live list : List Nat} {runs : List (Nat × Nat)} {slabsOf free : Nat → List Nat}
  {size : Nat}

/-- An object that was handed out is a block behind its header. -/
theorem SlabBlock.block {k' : Kernel} {slabsOf' free' : Nat → List Nat} {list' : List Nat} {q c : Nat}
    (inv' : KernelInv k' (q :: live) runs slabsOf' free' list') (holds : size + 16 ≤ c)
    (object : SlabBlock k k' live q c size) :
    Block k' (q :: live) [] slabsOf' size (q + 16) ∧ Source k k' live (q :: live) runs runs size (q + 16) := by
  have limit : vallocInitWindow.lo < 2 ^ 64 := by decide
  have objSize := object.objSize
  have inside : ∀ x, q ≤ x → x < q + 16 + size → q ≤ x ∧ x < q + k'.phys.mem (objSizeAt (slabOf q)) := by
    intro x low high
    omega
  have direct : ∀ x, q ≤ x → x < q + 16 + size → k'.phys.hhdmOffset ≤ x ∧ x < vallocInitWindow.lo :=
    fun x low high => inv'.object_direct List.mem_cons_self (inside x low high)
  have looked : ∀ x, q ≤ x → x < q + 16 + size → k'.translate x = some x :=
    fun x low high => if_pos (direct x low high)
  have last := direct (q + 15 + size) (by omega) (by omega)
  have aligned := object.aligned
  refine ⟨⟨by omega, by omega, ⟨List.nodup_nil, by simp, by simp⟩, ?_, ?_, ?_, ?_⟩,
    .inl ⟨q, rfl, rfl, object.dead, by omega, by omega⟩⟩
  · intro r member
    cases member
  · intro x low high
    exact .inl (direct x (by omega) high)
  · intro x low high
    refine ⟨x, looked x (by omega) high, .inl ⟨q, List.mem_cons_self, inside _ (by omega) (by omega)⟩, ?_⟩
    rw [looked _ (by omega) (by omega)]
    intro same
    rw [Option.some.injEq] at same
    omega
  · unfold Kernel.readWord
    rw [looked _ (by omega) (by omega), Option.map_some, Nat.add_sub_cancel, object.header]

/-- So is a run of new pages. -/
theorem RunBlock.block {k' : Kernel} {nodes own : List Nat} {slabsOf' free' : Nat → List Nat}
    {list' : List Nat} {base : Nat} (inv : KernelInv k live runs slabsOf free list)
    (inv' : KernelInv k' (nodes ++ live) (blockRun base size :: runs) slabsOf' free' list')
    (owned : Owned k'.heap own slabsOf') (noTable : NoTable k' own) (run : RunBlock k k' own base size)
    (new : ∀ x, Inside x (blockRun base size) → NewAddress k k' x) :
    Block k' (nodes ++ live) own slabsOf' size (base + 16) ∧
      Source k k' live (nodes ++ live) runs (blockRun base size :: runs) size (base + 16) := by
  have limit : vallocInitWindow.hi < 2 ^ 64 := by decide
  have whole := Vma.le_roundup (size + 16)
  have inside : ∀ x, base ≤ x → x < base + 16 + size → Inside x (blockRun base size) := by
    intro x low high
    exact ⟨low, by simp only [blockRun]; omega⟩
  have last := freeAt_window inv (new _ (inside (base + 15 + size) (by omega) (by omega))).free
  unfold InWindow at last
  refine ⟨⟨by omega, by omega, owned, noTable, ?_, ?_, ?_⟩, .inr ⟨blockRun base size, nodes, rfl, rfl, new, ?_⟩⟩
  · intro x low high
    exact .inr (inv'.runs _ List.mem_cons_self x (inside x (by omega) high)).1
  · intro x low high
    obtain ⟨q, isOwn, _, usedQ, looked⟩ := run.pages x (inside x (by omega) high)
    have aligned : pageSize ∣ q + k'.phys.hhdmOffset :=
      Nat.dvd_add (inv'.heap.pmm.layout.page_bounds usedQ).1 inv'.heap.offset
    refine ⟨_, looked, .inr ⟨q, isOwn, word_inFrame aligned x⟩, ?_⟩
    rw [Nat.add_sub_cancel]
    exact run.apart x _ (inside x (by omega) high) low looked
  · rw [Nat.add_sub_cancel]
    exact run.header
  · simp only [blockRun]
    omega

/-- With fuel for the slabs, malloc hands out a block of every size that fits. -/
theorem malloc_block (inv : KernelInv k live runs slabsOf free list) (fits : MallocFits k slabsOf free size) :
    ∃ steps, ∀ fuel, steps ≤ fuel → ∃ p k' live' own runs' slabsOf' free' list',
      malloc fuel k size = some (.ok (p, k')) ∧ KernelInv k' live' runs' slabsOf' free' list' ∧
      Block k' live' own slabsOf' size p ∧ Source k k' live live' runs runs' size p := by
  rcases fits with ⟨small, room⟩ | ⟨large, range, room⟩
  · have path : blockPath size = .slab := if_pos (by omega)
    obtain ⟨c, isClass, outcome⟩ := slabMalloc_outcome inv small
    refine ⟨(slabsOf c).length + 1, ?_⟩
    intro fuel enough
    rcases outcome fuel enough with ⟨q, k', slabsOf', free', list', ran, inv', object, _⟩ | ⟨_, full⟩
    · obtain ⟨block, source⟩ := object.block inv' isClass.2.1
      refine ⟨q + 16, k', q :: live, [], runs, slabsOf', free', list', ?_, inv', block, source⟩
      simp only [malloc, path, ran]
    · have enoughPages := room c isClass
      omega
  · have path : blockPath size = .page := if_neg (by omega)
    refine ⟨(slabsOf 128).length + 1, ?_⟩
    intro fuel enough
    rcases pageMalloc_outcome inv range enough with
      ⟨base, k', nodes, own, slabsOf', free', list', ran, inv', owned, noTable, run, new, _, _⟩ | ⟨_, full⟩
    · obtain ⟨block, source⟩ := run.block inv inv' owned noTable new
      refine ⟨base + 16, k', nodes ++ live, own, _, slabsOf', free', list', ?_, inv', block, source⟩
      simp only [malloc, path, ran]
    · omega

theorem isClass_unique {c d : Nat} (one : IsClass size c) (two : IsClass size d) : c = d :=
  Nat.le_antisymm (one.2.2 d two.1 two.2.1) (two.2.2 c one.1 one.2.1)

/-- Between 1009 and 1024 the size passes the test of malloc, and with the header no class
holds it. -/
theorem slabMalloc_noMem (heap : HeapInv k.heap live slabsOf free list) (low : 1008 < size) (high : size ≤ 1024)
    (fuel : Nat) : slabMalloc fuel k size = some (.error .noMem) := by
  have sum : wadd size 16 = size + 16 := wadd_eq (by omega)
  have search : k.heap.caches.find? (fun cache => size + 16 ≤ cache.size) = none := by
    rw [List.find?_eq_none]
    intro cache inCaches
    have member : cache.size ∈ slabSizes := heap.sizes ▸ List.mem_map_of_mem inCaches
    have largest := (slabSizes_bounds member).2
    simp only [decide_eq_true_eq]
    omega
  simp only [slabMalloc, sum, kmalloc, search]
  rfl

/-- valloc answers with the start of a free range, or with 0. -/
theorem valloc_start (pm : Ranges) (size : Nat) :
    (Vma.valloc pm size).1 = 0 ∨ ∃ r ∈ pm.freeRanges.nodes, (Vma.valloc pm size).1 = r.vaddr := by
  unfold Vma.valloc
  split
  · exact .inl rfl
  · dsimp only
    split
    · exact .inl rfl
    · split
      · exact .inl rfl
      · rename_i r found
        right
        refine ⟨r, List.mem_of_find?_eq_some found, ?_⟩
        split
        · rfl
        · rfl

theorem pageMalloc_pointer {fuel p : Nat} {k' : Kernel} (ran : pageMalloc fuel k size = some (.ok (p, k'))) :
    p = wadd (Vma.valloc k.ranges (wadd size 16)).1 16 := by
  obtain ⟨result, reserved, rest⟩ := Option.map_eq_some_iff.mp ran
  cases result with
  | error e => cases rest
  | ok pair =>
    obtain ⟨block, k₁⟩ := pair
    have start : block = (Vma.valloc k.ranges (wadd size 16)).1 := by
      unfold kernelValloc at reserved
      dsimp only at reserved
      split at reserved
      · obtain ⟨node, made, after⟩ := Option.map_eq_some_iff.mp reserved
        cases node with
        | error e => cases after
        | ok pair =>
          cases Except.ok.inj after
          rfl
      · cases Except.ok.inj (Option.some.inj reserved)
        rfl
    simp only [bind, Except.bind] at rest
    split at rest
    · cases rest
    · split at rest
      · cases rest
      · cases Except.ok.inj rest
        rw [start]

/-- A pointer that was granted shows that the size fits. -/
theorem mallocFits_of_granted (inv : KernelInv k live runs slabsOf free list) {steps : Nat}
    (returns : ∀ fuel, steps ≤ fuel → ∃ p k', malloc fuel k size = some (.ok (p, k')) ∧
      (p = 0 ∨ ∃ k'', Grants k live runs size p k'')) : MallocFits k slabsOf free size := by
  have window : vallocInitWindow.lo = 0xFFFFA00000000000 ∧ vallocInitWindow.hi = 0xFFFFE00000000000 :=
    ⟨rfl, rfl⟩
  by_cases large : size ≤ 1024
  · have path : blockPath size = .slab := if_pos large
    by_cases small : size ≤ 1008
    · obtain ⟨c, isClass, outcome⟩ := slabMalloc_outcome inv small
      obtain ⟨p, k', ran, _⟩ := returns (max steps ((slabsOf c).length + 1)) (by omega)
      simp only [malloc, path] at ran
      rcases outcome (max steps ((slabsOf c).length + 1)) (by omega) with
        ⟨q, k₁, _, _, _, _, inv₁, block, cost⟩ | ⟨failed, _⟩
      · refine .inl ⟨small, ?_⟩
        intro d isClass'
        cases isClass_unique isClass isClass'
        have room := inv₁.heap.pmm.used_le
        change k₁.phys.usedPages ≤ k₁.phys.totalPages at room
        rw [cost, block.same.total] at room
        exact room
      · cases failed.symm.trans ran
    · obtain ⟨p, k', ran, _⟩ := returns steps (Nat.le_refl _)
      simp only [malloc, path] at ran
      cases (slabMalloc_noMem inv.heap (by omega) large steps).symm.trans ran
  · have path : blockPath size = .page := if_neg large
    obtain ⟨p, k', ran, granted⟩ := returns (max steps ((slabsOf 128).length + 1)) (by omega)
    simp only [malloc, path] at ran
    have pointer := pageMalloc_pointer ran
    have range : ∃ r ∈ k.ranges.freeRanges.nodes, roundup (size + 16) ≤ r.size := by
      rcases granted with null | ⟨k'', granted⟩
      · rcases valloc_start k.ranges (wadd size 16) with zero | ⟨r, member, start⟩
        · rw [zero, null] at pointer
          cases pointer
        · obtain ⟨low, high, _⟩ := inv.tiling.limits (List.mem_append_left _ member)
          rw [start, wadd_eq (by omega)] at pointer
          omega
      · have start := granted.start
        rcases granted.source with ⟨q, _, _, _, inv', _, low, high⟩ | ⟨run, _, _, _, _, _, new, low, high⟩
        · obtain ⟨c, member, home⟩ := inv'.heap.homes q List.mem_cons_self
          have objSize := (inv'.heap.slabs c member _ home).objSize
          have largest := (slabSizes_bounds member).2
          change k''.phys.mem (objSizeAt (slabOf q)) = c at objSize
          omega
        -- the first and the last byte were free, so nothing wraps
        · have first := freeAt_window inv (new (p - 16) ⟨by omega, by omega⟩).free
          have last := freeAt_window inv (new (p + size - 1) ⟨by omega, by omega⟩).free
          unfold InWindow at first last
          have sum : wadd size 16 = size + 16 := wadd_eq (by omega)
          rw [sum] at pointer
          rcases Vma.valloc_cases inv.tiling (show 1 ≤ size + 16 by omega) (by omega) with
            ⟨failed, _⟩ | ⟨r, f, u, _, carve⟩
          · rw [failed] at pointer
            have sixteen : p = 16 := pointer
            omega
          · have inside : r.vaddr + roundup (size + 16) ≤ r.vaddr + r.size := carve.high
            exact ⟨r, carve.member, by omega⟩
    refine .inr ⟨by omega, range, ?_⟩
    rcases @pageMalloc_outcome k live list runs slabsOf free size inv range
        (max steps ((slabsOf 128).length + 1)) (by omega) with
      ⟨_, k₁, _, _, _, _, _, _, inv₁, _, _, _, _, total, cost⟩ | ⟨failed, _⟩
    · have room := inv₁.heap.pmm.used_le
      change k₁.phys.usedPages ≤ k₁.phys.totalPages at room
      omega
    · cases failed.symm.trans ran

theorem malloc_honest_iff (inv : KernelInv k live runs slabsOf free list) (size : Nat) :
    (∃ steps, ∀ fuel, steps ≤ fuel → Honest k live runs size (malloc fuel k size)) ↔
      MallocFits k slabsOf free size := by
  constructor
  · rintro ⟨steps, honest⟩
    refine @mallocFits_of_granted k live list runs slabsOf free _ inv steps ?_
    intro fuel enough
    obtain ⟨p, k', ran, ⟨null, _⟩ | granted⟩ := honest fuel enough
    · exact ⟨p, k', ran, .inl null⟩
    · exact ⟨p, k', ran, .inr ⟨k', granted⟩⟩
  · intro fits
    obtain ⟨steps, blocks⟩ := malloc_block inv fits
    refine ⟨steps, ?_⟩
    intro fuel enough
    obtain ⟨p, k', _, _, _, _, _, _, ran, inv', block, source⟩ := blocks fuel enough
    exact ⟨p, k', ran, .inr (block.grants inv inv' source (m := k'.phys.mem) (fun _ _ => rfl) (fun _ _ => rfl))⟩

/-- The test of calloc finds the products that are no size_t. -/
theorem calloc_eq (fuel : Nat) (k : Kernel) (nmemb size : Nat) :
    calloc fuel k nmemb size =
      if nmemb = 0 ∨ size = 0 then malloc fuel k (nmemb * size)
      else if 2 ^ 64 ≤ nmemb * size then some (.ok (0, k))
      else (malloc fuel k (nmemb * size)).map (fun result => do
        let (ptr, k) ← result
        let k ← k.zeroBytes (nmemb * size) ptr
        .ok (ptr, k)) := by
  unfold calloc
  by_cases zero : nmemb = 0 ∨ size = 0
  · rw [if_pos zero, if_pos zero, Nat.mul_eq_zero.mpr zero]
  · rw [if_neg zero, if_neg zero]
    have overflow : sizeMax / size < nmemb ↔ 2 ^ 64 ≤ nmemb * size := by
      rw [Nat.div_lt_iff_lt_mul (by omega)]
      unfold sizeMax
      omega
    by_cases large : 2 ^ 64 ≤ nmemb * size
    · rw [if_pos (overflow.mpr large), if_pos large]
    · rw [if_neg (fun small => large (overflow.mp small)), if_neg large]
      simp only [Nat.mod_eq_of_lt (Nat.lt_of_not_le large)]

theorem calloc_honest_iff (inv : KernelInv k live runs slabsOf free list) (nmemb size : Nat) :
    (∃ steps, ∀ fuel, steps ≤ fuel → Honest k live runs (nmemb * size) (calloc fuel k nmemb size)) ↔
      2 ^ 64 ≤ nmemb * size ∨ MallocFits k slabsOf free (nmemb * size) := by
  by_cases zero : nmemb = 0 ∨ size = 0
  · have product : nmemb * size = 0 := Nat.mul_eq_zero.mpr zero
    simp only [calloc_eq, if_pos zero, product]
    rw [malloc_honest_iff inv]
    simp
  by_cases large : 2 ^ 64 ≤ nmemb * size
  · simp only [calloc_eq, zero, large, ↓reduceIte, true_or, iff_true]
    exact ⟨0, fun _ _ => ⟨0, k, rfl, .inl ⟨rfl, rfl⟩⟩⟩
  simp only [calloc_eq, zero, large, ↓reduceIte, false_or]
  constructor
  · rintro ⟨steps, honest⟩
    refine @mallocFits_of_granted k live list runs slabsOf free _ inv steps ?_
    intro fuel enough
    obtain ⟨p, k', ran, granted⟩ := honest fuel enough
    obtain ⟨result, returned, rest⟩ := Option.map_eq_some_iff.mp ran
    cases result with
    | error e => cases rest
    | ok pair =>
      obtain ⟨q, k₁⟩ := pair
      simp only [bind, Except.bind] at rest
      split at rest
      · cases rest
      · cases Except.ok.inj rest
        rcases granted with ⟨null, _⟩ | granted
        · exact ⟨p, k₁, returned, .inl null⟩
        · exact ⟨p, k₁, returned, .inr ⟨k', granted⟩⟩
  · intro fits
    obtain ⟨steps, blocks⟩ := malloc_block inv fits
    refine ⟨steps, ?_⟩
    intro fuel enough
    obtain ⟨p, k', _, _, _, _, _, _, ran, inv', block, source⟩ := blocks fuel enough
    obtain ⟨m, zeroed, clients, header⟩ := block.zeroBytes inv'
    refine ⟨p, k'.withMem m, ?_, .inr (block.grants inv inv' source clients header)⟩
    simp only [ran, zeroed, Option.map_some, bind, Except.bind]

end Sizes

/-- malloc is honest about exactly the sizes that fit, and calloc is when the product fits
or is no size_t: sizes from 1009 to 1024 panic in kmalloc, and sizes that no free range
holds are never answered with NULL. -/
theorem malloc_honest {k : Kernel} {live list : List Nat} {runs : List (Nat × Nat)}
    {slabsOf free : Nat → List Nat} (inv : KernelInv k live runs slabsOf free list) :
    (∀ size, (∃ steps, ∀ fuel, steps ≤ fuel → Honest k live runs size (malloc fuel k size)) ↔
      MallocFits k slabsOf free size) ∧
    ∀ nmemb size, (∃ steps, ∀ fuel, steps ≤ fuel →
        Honest k live runs (nmemb * size) (calloc fuel k nmemb size)) ↔
      2 ^ 64 ≤ nmemb * size ∨ MallocFits k slabsOf free (nmemb * size) :=
  ⟨malloc_honest_iff inv, calloc_honest_iff inv⟩

/-- A block of one page takes at most a page for a node and three for tables besides. -/
theorem pageCost_onePage {k : Kernel} (slabsOf free : Nat → List Nat) : pageCost k slabsOf free 2000 ≤ 5 := by
  have node := slabCost_le slabsOf free 128
  have onePage : (runPages (Vma.valloc k.ranges (2000 + 16)).1 2000).length = 1 :=
    runPages_length (by decide)
  have tables := card_missingTables_le k.phys k.topLevel (runPages (Vma.valloc k.ranges (2000 + 16)).1 2000)
  have nodes : nodeCost k slabsOf free (2000 + 16) ≤ 1 := by
    unfold nodeCost
    split
    · exact node
    · exact Nat.zero_le _
  unfold pageCost
  dsimp only
  omega

/-- A kernel that has just booted has room for a large block and for a small one. -/
theorem malloc_honest_booted : ∃ k slabsOf free list, KernelInv k [] [] slabsOf free list ∧
    (∃ steps, ∀ fuel, steps ≤ fuel → Honest k [] [] 2000 (malloc fuel k 2000)) ∧
    ∃ steps, ∀ fuel, steps ≤ fuel → Honest k [] [] (4 * 200) (calloc fuel k 4 200) := by
  obtain ⟨_, k, slabsOf, free, list, _, _, inv, ranges, room⟩ := kernelMap_boots
  refine ⟨k, slabsOf, free, list, inv, ((malloc_honest inv).1 2000).mpr (.inr ⟨by decide, ?_, ?_⟩),
    ((malloc_honest inv).2 4 200).mpr (.inr (.inl ⟨by decide, ?_⟩))⟩
  · rw [ranges]
    exact ⟨_, List.mem_cons_self, by decide⟩
  · have cost := @pageCost_onePage k slabsOf free
    omega
  · intro c _
    have cost := slabCost_le slabsOf free c
    omega

/-- It panics for 1009 bytes, with pages and ranges left. -/
theorem malloc_panics : ∃ s k slabsOf free list,
    setupPmm 0xFFFF800000000000 kernelMap (fun _ => 7) = .ok s ∧ boot s = .ok k ∧
    KernelInv k [] [] slabsOf free list ∧ k.phys.usedPages < k.phys.totalPages ∧
    k.ranges = vallocInitWindow.fresh ∧
    ∀ fuel, malloc fuel k 1009 = some (.error .noMem) ∧ ¬ Honest k [] [] 1009 (malloc fuel k 1009) := by
  obtain ⟨s, k, slabsOf, free, list, boots, ran, inv, ranges, room⟩ := kernelMap_boots
  refine ⟨s, k, slabsOf, free, list, boots, ran, inv, by omega, ranges, ?_⟩
  intro fuel
  have failed : malloc fuel k 1009 = some (.error .noMem) :=
    slabMalloc_noMem inv.heap (by decide) (by decide) fuel
  refine ⟨failed, ?_⟩
  rintro ⟨p, k', returned, _⟩
  cases failed.symm.trans returned

end EvalynOS.Stdlib
