import EvalynOS.Acpi.Nodes

/-! What acpi_parse_madt leaves behind, for tables of well-formed entries. -/
namespace EvalynOS.Topology
open Lib Lib.Word Pmm Vmm Heap Stdlib
open Vma (UsedAt FreeAt PageRange vallocInitWindow)
open Acpi (read32 entryType entryLength headerLength IrqOveride MadtEntry LaidOut Walked extent)

/-- Two pages at addresses that were free and not mapped before; they are reserved now, and
mapped to the physical pages of `first` and `second` as registers. -/
def Registers (k₀ k : Kernel) (address first second : Nat) : Prop :=
  ∀ x, Inside x (address, address + 8192) →
    FreeAt k₀.ranges x ∧ isPresent (leaf k₀.phys k₀.topLevel x) = false ∧ UsedAt k.ranges x ∧
    leaf k.phys k.topLevel x =
      (if x < address + 4096 then first else second) &&& pteMask ||| (ptePresent ||| mmioFlags)

section Hang

variable {α β : Type} {view : Lib.Memory → Nat → α} {view' : Lib.Memory → Nat → β}
  {next next' size size' head head₂ tail tail₂ p : Nat} {k : Kernel} {live list l l₂ : List Nat}
  {values : List α} {values₂ : List β} {runs : List (Nat × Nat)} {slabsOf free : Nat → List Nat} {m : Lib.Memory}

/-- A new node is filled and hung into its list; the other list stays. -/
theorem hang (inv : KernelInv k live runs slabsOf free list) (block : IsBlock k live p size)
    (nodes : Nodes view next size k live head tail l values) (own : Local view next size) (inside : next < size)
    (other : Nodes view' next' size' k live head₂ tail₂ l₂ values₂) (own' : Local view' next' size')
    (inside' : next' < size') (fresh : p ∉ l) (fresh₂ : p ∉ l₂) (apart : ∀ q ∈ l₂, q ∉ l)
    (outside : ∀ a, ¬ (p ≤ a ∧ a < p + size) → m a = k.phys.mem a) (stop : m (p + next) = 0) :
    ∃ head' m', append (k.withMem m) head tail p next = .ok (head', p, k.withMem m') ∧
      Nodes view next size (k.withMem m') live head' p (l ++ [p]) (values ++ [view m p]) ∧
      Nodes view' next' size' (k.withMem m') live head₂ tail₂ l₂ values₂ ∧
      KernelInv (k.withMem m') live runs slabsOf free list ∧ Advances k (k.withMem m') := by
  have clients : ∀ a, ¬ MayWrite k.heap live [] a → m a = k.phys.mem a := by
    intro a not
    apply outside
    rintro ⟨low, high⟩
    exact not (block.mayWrite low high)
  obtain ⟨inv₁, same₁, sizes₁⟩ := store_keeps inv clients
  have all : ∀ q ∈ live, q ∈ live := fun _ alive => alive
  have words : ∀ q room, IsBlock k live q room → q ≠ p → ∀ off, off < room →
      (k.withMem m).phys.mem (q + off) = k.phys.mem (q + off) := by
    intro q room blockQ different off small
    exact outside _ (blockQ.apart block inv different (Nat.le_add_right q off) (by omega))
  have nodes₁ : Nodes view next size (k.withMem m) live head tail l values := by
    apply nodes.frame own inside all sizes₁
    intro q member
    apply words q size (nodes.blocks q member)
    rintro rfl
    exact fresh member
  have other₁ : Nodes view' next' size' (k.withMem m) live head₂ tail₂ l₂ values₂ := by
    apply other.frame own' inside' all sizes₁
    intro q member
    apply words q size' (other.blocks q member)
    rintro rfl
    exact fresh₂ member
  obtain ⟨head', m', ran, nodes', inv', same', sizes', words'⟩ :=
    nodes₁.append own inside inv₁ (block.kept all sizes₁) fresh stop
  refine ⟨head', m', ran, nodes', ?_, inv', (advances_of_steady same₁ rfl).trans (advances_of_steady same' rfl)⟩
  apply other₁.frame own' inside' all sizes'
  exact fun q member => words' q size' (other₁.blocks q member) (apart q member)

/-- The block that malloc has handed out is no node yet. -/
theorem fresh_block {k' : Kernel} {q c asked : Nat} (nodes : Nodes view next size k live head tail l values)
    (block : SlabBlock k k' live q c asked) : q + 16 ∉ l := by
  intro member
  obtain ⟨r, alive, same, _⟩ := nodes.blocks _ member
  cases Nat.add_right_cancel same
  exact block.dead alive

theorem isBlock_new {k' : Kernel} {q c asked : Nat} (block : SlabBlock k k' live q c asked) (fits : asked + 16 ≤ c) :
    IsBlock k' (q :: live) (q + 16) asked :=
  ⟨q, List.mem_cons_self, rfl, block.aligned, block.objSize.symm ▸ fits⟩

end Hang

section Adding

theorem malloc_slab {k : Kernel} {size fuel : Nat} (small : size ≤ 1024) :
    malloc fuel k size = slabMalloc fuel k size := by
  unfold malloc blockPath
  rw [if_pos small]

variable {s : State} {live list l l₂ : List Nat} {values : List (Nat × Nat)} {values₂ : List IrqOveride}
  {runs : List (Nat × Nat)} {slabsOf free : Nat → List Nat} {fuel : Nat}

theorem addOveride_outcome (inv : KernelInv s.kernel live runs slabsOf free list)
    (enough : s.kernel.phys.totalPages < fuel)
    (ioapics : Nodes ioapicAt 16 24 s.kernel live s.ioapicHead s.ioapicTail l values)
    (overides : Nodes overideAt 8 16 s.kernel live s.irqOverideHead s.irqOverideTail l₂ values₂)
    (apart : ∀ q ∈ l, q ∉ l₂) {irq gsi : Nat} (bound : irq < 256) :
    (∃ node head k' live' slabsOf' free' list',
      addOveride fuel s irq gsi =
        call (some (.ok { s with kernel := k', irqOverideHead := head, irqOverideTail := node })) ∧
      KernelInv k' live' runs slabsOf' free' list' ∧
      Nodes ioapicAt 16 24 k' live' s.ioapicHead s.ioapicTail l values ∧
      Nodes overideAt 8 16 k' live' head node (l₂ ++ [node]) (values₂ ++ [⟨irq, gsi % 256⟩]) ∧
      node ∉ l ∧ Advances s.kernel k' ∧ k'.phys.usedPages ≤ s.kernel.phys.usedPages + 8) ∨
    (addOveride fuel s irq gsi = call (some (.error .outOfMemory)) ∧
      s.kernel.phys.totalPages < s.kernel.phys.usedPages + 8) := by
  unfold addOveride
  rw [malloc_slab (show 16 ≤ 1024 by decide)]
  rcases slab_outcome inv enough (show 16 ≤ 1008 by decide) with
    ⟨q, c, k₁, slabsOf₁, free₁, list₁, ran, inv₁, spares, block, fits, cost⟩ | ⟨failed, full⟩
  · left
    have isBlock := isBlock_new block fits
    have more : ∀ r ∈ live, r ∈ q :: live := fun r alive => List.mem_cons_of_mem q alive
    have aligned : 8 ∣ q + 16 := by
      have whole := isBlock.bounds.2
      omega
    have fresh := fresh_block ioapics block
    obtain ⟨head, m, hung, overides', ioapics', inv', advances⟩ := hang inv₁ isBlock
      (overides.keeps overideAt_local (by decide) more spares) overideAt_local (by decide)
      (ioapics.keeps ioapicAt_local (by decide) more spares) ioapicAt_local (by decide)
      (fresh_block overides block) fresh apart
      (fun a outside => @overideNode_outside k₁.phys.mem (q + 16) irq gsi a aligned outside) overideNode_link
    rw [overideNode_value aligned bound] at overides'
    refine ⟨q + 16, head, _, q :: live, slabsOf₁, free₁, list₁, ?_, inv', ioapics', overides', fresh,
      (advances_of_steady block.same block.ranges).trans advances, ?_⟩
    · rw [ran, call_ok]
      dsimp only
      rw [overideNode_stored (fun a low high => isBlock.direct inv₁ low high), hung, act_ok]
      rfl
    · change k₁.phys.usedPages ≤ _
      omega
  · right
    rw [failed]
    exact ⟨rfl, by omega⟩

/-- The window and the two mappings. -/
theorem mapWindow_outcome {k : Kernel} (inv : KernelInv k live runs slabsOf free list)
    (enough : k.phys.totalPages < fuel) (first second : Nat) :
    (∃ address k₁ s₂ s₃ more slabsOf' free' list',
      kernelValloc fuel k (pageSize * 2) = some (.ok (address, k₁)) ∧
      vmmMapPage k₁.phys k₁.topLevel address first mmioFlags = .ok s₂ ∧
      vmmMapPage s₂ k₁.topLevel (wadd address pageSize) second mmioFlags = .ok s₃ ∧
      KernelInv (k₁.withPhys s₃) (more ++ live) runs slabsOf' free' list' ∧ Advances k (k₁.withPhys s₃) ∧
      Spares k (k₁.withPhys s₃) live [] ∧
      (address = 0 ∧ (∀ r ∈ k.ranges.freeRanges.nodes, r.size < 8192) ∨
        Registers k (k₁.withPhys s₃) address first second) ∧
      s₃.usedPages ≤ k.phys.usedPages + 7) ∨
    ((kernelValloc fuel k (pageSize * 2) = some (.error .outOfMemory) ∨
      ∃ address k₁, kernelValloc fuel k (pageSize * 2) = some (.ok (address, k₁)) ∧
        (vmmMapPage k₁.phys k₁.topLevel address first mmioFlags = .error .outOfMemory ∨
        ∃ s₂, vmmMapPage k₁.phys k₁.topLevel address first mmioFlags = .ok s₂ ∧
          vmmMapPage s₂ k₁.topLevel (wadd address pageSize) second mmioFlags = .error .outOfMemory)) ∧
      k.phys.totalPages < k.phys.usedPages + 7) := by
  rcases window_outcome inv enough with
    ⟨address, k₁, more, slabsOf₁, free₁, list₁, ran₁, inv₁, advances₁, spares₁, aligned, place, cost₁⟩ | ⟨failed, full⟩
  case inr => exact .inr ⟨.inl failed, by omega⟩
  have bottom : vallocInitWindow.lo = 0xFFFFA00000000000 ∧ vallocInitWindow.hi = 0xFFFFE00000000000 := ⟨rfl, rfl⟩
  have page : ∀ x, Inside x (address, address + 8192) → Paged x ∧ (InWindow x → UsedAt k₁.ranges x) := by
    intro x inside
    rcases place with ⟨null, _⟩ | reserved
    · have low : x < 2 ^ 47 := by
        have high : x < address + 8192 := inside.2
        omega
      refine ⟨.inl low, ?_⟩
      rintro ⟨start, _⟩
      omega
    · exact ⟨.inr (freeAt_window inv (reserved x inside).1), fun _ => (reserved x inside).2⟩
  have next : wadd address pageSize = address + 4096 := by
    have paged := (page address ⟨Nat.le_refl _, Nat.lt_add_of_pos_right (by decide)⟩).1
    unfold pageSize
    apply wadd_eq
    rcases paged with low | ⟨_, high⟩
    · omega
    · omega
  obtain ⟨paged₁, reserved₁⟩ := page address ⟨Nat.le_refl _, Nat.lt_add_of_pos_right (by decide)⟩
  obtain ⟨paged₂, reserved₂⟩ := page (address + 4096) ⟨Nat.le_add_right _ _, Nat.add_lt_add_left (by decide) _⟩
  have total₁ := advances₁.total
  rcases mapPage_outcome inv₁ paged₁ reserved₁ first mmioFlags with
    ⟨s₂, list₂, ran₂, inv₂, spares₂, total₂, cost₂, leaves₂⟩ | ⟨failed, full⟩
  case inr => exact .inr ⟨.inr ⟨address, k₁, ran₁, .inl failed⟩, by omega⟩
  rcases mapPage_outcome inv₂ paged₂ reserved₂ second mmioFlags with
    ⟨s₃, list₃, ran₃, inv₃, spares₃, total₃, cost₃, leaves₃⟩ | ⟨failed, full⟩
  case inr =>
    rw [← next] at failed
    refine .inr ⟨.inr ⟨address, k₁, ran₁, .inr ⟨s₂, ran₂, failed⟩⟩, ?_⟩
    simp only [withPhys_phys] at full
    omega
  left
  simp only [withPhys_phys, withPhys_topLevel] at ran₃ total₃ cost₃ leaves₃
  have alive : ∀ p ∈ live, p ∈ more ++ live := fun p member => List.mem_append_right _ member
  have spares : Spares k (k₁.withPhys s₃) live [] :=
    spares₁.trans ((spares₂.trans spares₃).mono alive (by simp))
  have advances : Advances k (k₁.withPhys s₃) := by
    refine ⟨advances₁.topLevel, by rw [withPhys_phys]; omega, advances₁.used, advances₁.free, ?_⟩
    intro x inWindow used
    have elsewhere : x / 4096 ≠ address / 4096 ∧ x / 4096 ≠ (address + 4096) / 4096 := by
      rcases place with ⟨null, _⟩ | reserved
      · have low := inWindow.1
        omega
      -- a page of the window was free
      · have free₁ := (reserved address ⟨Nat.le_refl _, Nat.lt_add_of_pos_right (by decide)⟩).1
        have free₂ := (reserved (address + 4096) ⟨Nat.le_add_right _ _, Nat.add_lt_add_left (by decide) _⟩).1
        constructor
        · intro same
          exact inv.tiling.free_not_used free₁ (inv.tiling.used_page same used)
        · intro same
          exact inv.tiling.free_not_used free₂ (inv.tiling.used_page same used)
    rw [← advances₁.leaves x inWindow used]
    change leaf s₃ k₁.topLevel x = _
    rw [leaves₃ x (.inr inWindow), if_neg elsewhere.2, leaves₂ x (.inr inWindow), if_neg elsewhere.1]
  refine ⟨address, k₁, s₂, s₃, more, slabsOf₁, free₁, list₃, ran₁, ran₂, by rw [next]; exact ran₃, inv₃, advances,
    spares, ?_, by omega⟩
  rcases place with null | reserved
  · exact .inl null
  · right
    intro x inside
    obtain ⟨isFree, used⟩ := reserved x inside
    have inWindow := freeAt_window inv isFree
    refine ⟨isFree, inv.unmapped isFree, used, ?_⟩
    obtain ⟨low, high⟩ := inside
    simp only at low high
    obtain ⟨n, rfl⟩ := aligned
    change leaf s₃ k₁.topLevel x = _
    rw [leaves₃ x (.inr inWindow)]
    by_cases lower : x < 4096 * n + 4096
    · rw [if_neg (by omega), leaves₂ x (.inr inWindow), if_pos (by omega), if_pos lower]
    · rw [if_pos (by omega), if_neg lower]

theorem addIoapic_outcome (inv : KernelInv s.kernel live runs slabsOf free list)
    (enough : s.kernel.phys.totalPages < fuel)
    (ioapics : Nodes ioapicAt 16 24 s.kernel live s.ioapicHead s.ioapicTail l values)
    (overides : Nodes overideAt 8 16 s.kernel live s.irqOverideHead s.irqOverideTail l₂ values₂)
    (apart : ∀ q ∈ l, q ∉ l₂) (physical : Nat) {gsib : Nat} (bound : gsib < 2 ^ 32) :
    (∃ address node head k' live' slabsOf' free' list',
      addIoapic fuel s physical gsib = call (some (.ok { s with
        kernel := k', ioapicHead := head, ioapicTail := node, ioapicCount := (s.ioapicCount + 1) % 2 ^ 32 })) ∧
      KernelInv k' live' runs slabsOf' free' list' ∧
      Nodes ioapicAt 16 24 k' live' head node (l ++ [node]) (values ++ [(address, gsib)]) ∧
      Nodes overideAt 8 16 k' live' s.irqOverideHead s.irqOverideTail l₂ values₂ ∧
      node ∉ l₂ ∧ Advances s.kernel k' ∧
      (address = 0 ∧ (∀ r ∈ s.kernel.ranges.freeRanges.nodes, r.size < 8192) ∨
        Registers s.kernel k' address physical ((physical + pageSize) % 2 ^ 32)) ∧
      k'.phys.usedPages ≤ s.kernel.phys.usedPages + 8) ∨
    (addIoapic fuel s physical gsib = call (some (.error .outOfMemory)) ∧
      s.kernel.phys.totalPages < s.kernel.phys.usedPages + 8) := by
  unfold addIoapic
  rcases mapWindow_outcome inv enough physical ((physical + pageSize) % 2 ^ 32) with
    ⟨address, k₁, s₂, s₃, more, slabsOf₁, free₁, list₁, ran₁, ran₂, ran₃, inv₁, advances₁, spares₁, place, cost₁⟩ |
    ⟨failed, full⟩
  case inr =>
    right
    refine ⟨?_, by omega⟩
    rcases failed with failed | ⟨address, k₁, ran₁, failed | ⟨s₂, ran₂, failed⟩⟩
    · rw [failed, call_error]
    · rw [ran₁, call_ok]
      dsimp only
      rw [failed, act_error]
    · rw [ran₁, call_ok]
      dsimp only
      rw [ran₂, act_ok, failed, act_error]
  have total₁ := advances₁.total
  simp only [withPhys_phys] at total₁
  rw [ran₁, call_ok]
  dsimp only
  rw [ran₂, act_ok, ran₃, act_ok, malloc_slab (show 24 ≤ 1024 by decide)]
  rcases slab_outcome inv₁ (show (k₁.withPhys s₃).phys.totalPages < fuel by rw [withPhys_phys]; omega)
      (show 24 ≤ 1008 by decide) with
    ⟨q, c, k₂, slabsOf₂, free₂, list₂, ran₄, inv₂, spares₂, block, fits, cost₂⟩ | ⟨failed, full⟩
  case inr =>
    right
    simp only [withPhys_phys] at full
    rw [failed, call_error]
    exact ⟨rfl, by omega⟩
  left
  simp only [withPhys_phys] at cost₂
  have isBlock := isBlock_new block fits
  have alive : ∀ r ∈ live, r ∈ more ++ live := fun r member => List.mem_append_right more member
  have alive' : ∀ r ∈ more ++ live, r ∈ q :: (more ++ live) := fun r member => List.mem_cons_of_mem q member
  have aligned : 8 ∣ q + 16 := by
    have whole := isBlock.bounds.2
    omega
  have ioapics₁ := ioapics.keeps ioapicAt_local (by decide) alive spares₁
  have overides₁ := overides.keeps overideAt_local (by decide) alive spares₁
  have fresh := fresh_block overides₁ block
  obtain ⟨head, m, hung, ioapics', overides', inv', advances₂⟩ := hang inv₂ isBlock
    (ioapics₁.keeps ioapicAt_local (by decide) alive' spares₂) ioapicAt_local (by decide)
    (overides₁.keeps overideAt_local (by decide) alive' spares₂) overideAt_local (by decide)
    (fresh_block ioapics₁ block) fresh (fun r member there => apart r there member)
    (fun a outside => @ioapicNode_outside k₂.phys.mem (q + 16) address gsib a aligned outside) ioapicNode_link
  rw [ioapicNode_value aligned bound] at ioapics'
  have advances := (advances_of_steady block.same block.ranges).trans advances₂
  refine ⟨address, q + 16, head, _, _, slabsOf₂, free₂, list₂, ?_, inv', ioapics', overides', fresh,
    advances₁.trans advances, ?_, ?_⟩
  · rw [ran₄, call_ok]
    dsimp only
    rw [ioapicNode_stored (fun a low high => isBlock.direct inv₂ low high), hung, act_ok]
    rfl
  · rcases place with null | registers
    · exact .inl null
    · right
      intro x inside
      obtain ⟨isFree, unmapped, used, mapped⟩ := registers x inside
      exact ⟨isFree, unmapped, advances.used x used,
        (advances.leaves x (freeAt_window inv isFree) used).trans mapped⟩
  · change k₂.phys.usedPages ≤ _
    omega

end Adding

/- Windows of two pages that share no address. -/
def Apart (a b : Nat) : Prop := a + 8192 ≤ b ∨ b + 8192 ≤ a

/-- The state has the lists of the walk `w` in its nodes, and each window from valloc has the
registers of its controller; valloc gives 0 when it fails. -/
structure Tracks (k₀ : Kernel) (runs : List (Nat × Nat)) (s : State) (w : Acpi.Walk) (live l l₂ : List Nat)
    (slabsOf free : Nat → List Nat) (list : List Nat) : Prop where
  inv : KernelInv s.kernel live runs slabsOf free list
  advances : Advances k₀ s.kernel
  ptr : s.ptr = w.ptr
  ioapics : Nodes ioapicAt 16 24 s.kernel live s.ioapicHead s.ioapicTail l
    (w.ioapics.map (fun ioapic => (ioapic.address, ioapic.gsib)))
  overides : Nodes overideAt 8 16 s.kernel live s.irqOverideHead s.irqOverideTail l₂ w.overides
  apart : ∀ q ∈ l, q ∉ l₂
  count : s.ioapicCount = w.ioapics.length % 2 ^ 32
  windows : ∀ ioapic ∈ w.ioapics, ioapic.address ≠ 0 →
    Registers k₀ s.kernel ioapic.address ioapic.physical ((ioapic.physical + pageSize) % 2 ^ 32)
  disjoint : w.ioapics.Pairwise (fun a b => a.address ≠ 0 → b.address ≠ 0 → Apart a.address b.address)

section Tracking

variable {k₀ : Kernel} {runs : List (Nat × Nat)} {s : State} {w : Acpi.Walk} {m : Acpi.Memory}
  {live live₀ l l₂ list list₀ : List Nat} {slabsOf slabsOf₀ free free₀ : Nat → List Nat} {fuel : Nat}

theorem tracks_start {k : Kernel} (inv : KernelInv k live runs slabsOf free list) :
    Tracks k runs (start k) Acpi.start live [] [] slabsOf free list where
  inv := inv
  advances := Advances.refl k
  ptr := rfl
  ioapics := Nodes.empty k live
  overides := Nodes.empty k live
  apart := by simp
  count := rfl
  windows := by simp [Acpi.start]
  disjoint := List.Pairwise.nil

theorem read32_lt (m : Acpi.Memory) (p : Nat) : read32 m p < 2 ^ 32 := by
  have byte := fun a => (m a).toNat_lt
  have zero := byte p
  have one := byte (p + 1)
  have two := byte (p + 2)
  have three := byte (p + 3)
  unfold read32
  omega

theorem Registers.later {k k' : Kernel} {address first second : Nat} (registers : Registers k₀ k address first second)
    (inv₀ : KernelInv k₀ live₀ runs slabsOf₀ free₀ list₀) (advances : Advances k k') :
    Registers k₀ k' address first second := by
  intro x inside
  obtain ⟨isFree, unmapped, used, mapped⟩ := registers x inside
  exact ⟨isFree, unmapped, advances.used x used,
    (advances.leaves x (freeAt_window inv₀ isFree) used).trans mapped⟩

/-- What was free at some time was free, and not mapped, at first. -/
theorem Registers.earlier {k k' : Kernel} {address first second : Nat} (registers : Registers k k' address first second)
    (inv₀ : KernelInv k₀ live₀ runs slabsOf₀ free₀ list₀) (advances : Advances k₀ k) :
    Registers k₀ k' address first second := by
  intro x inside
  obtain ⟨isFree, _, used, mapped⟩ := registers x inside
  have free₀ := advances.free x isFree
  exact ⟨free₀, inv₀.unmapped free₀, used, mapped⟩

/-- A window of used pages shares no address with one that was free. -/
theorem Registers.apart {k k' : Kernel} {old new first second first' second' : Nat}
    (registers : Registers k₀ k old first second) (inv : KernelInv k live runs slabsOf free list)
    (registers' : Registers k k' new first' second') : Apart old new := by
  by_contra overlap
  unfold Apart at overlap
  have inOld : Inside (max old new) (old, old + 8192) := ⟨Nat.le_max_left _ _, by simp only; omega⟩
  have inNew : Inside (max old new) (new, new + 8192) := ⟨Nat.le_max_right _ _, by simp only; omega⟩
  exact inv.tiling.free_not_used (registers' _ inNew).1 (registers _ inOld).2.2.1

/-- The entry at the pointer is interpreted as the walk does it, with some window. -/
theorem Tracks.interpret (tracks : Tracks k₀ runs s w live l l₂ slabsOf free list)
    (inv₀ : KernelInv k₀ live₀ runs slabsOf₀ free₀ list₀) (enough : k₀.phys.totalPages < fuel) (m : Acpi.Memory) :
    (∃ s' window live' l' l₂' slabsOf' free' list', interpret fuel m s = call (some (.ok s')) ∧
      Tracks k₀ runs s' (Acpi.interpret m window w) live' l' l₂' slabsOf' free' list' ∧
      s'.kernel.phys.usedPages ≤ s.kernel.phys.usedPages + 8) ∨
    (interpret fuel m s = call (some (.error .outOfMemory)) ∧
      k₀.phys.totalPages < s.kernel.phys.usedPages + 8) := by
  have total := tracks.advances.total
  have ptr := tracks.ptr
  unfold Topology.interpret
  rw [ptr]
  cases kind : entryType (m w.ptr) with
  | ioapic =>
    simp only
    rcases addIoapic_outcome tracks.inv (total ▸ enough) tracks.ioapics tracks.overides tracks.apart
        (read32 m (w.ptr + 4)) (read32_lt m (w.ptr + 8)) with
      ⟨address, node, head, k', live', slabsOf', free', list', ran, inv', ioapics', overides', fresh, advances, place,
        cost⟩ | ⟨failed, full⟩
    case inr => exact .inr ⟨failed, by omega⟩
    left
    have walk : Acpi.interpret m (fun _ => address) w = { w with
        ioapics := w.ioapics ++ [⟨address, read32 m (w.ptr + 4), read32 m (w.ptr + 8)⟩]
        reads := w.reads ++ Acpi.field (w.ptr + 4) 4 ++ Acpi.field (w.ptr + 8) 4 } := by
      unfold Acpi.interpret
      rw [kind]
    refine ⟨_, fun _ => address, live', l ++ [node], l₂, slabsOf', free', list', ran, ?_, cost⟩
    rw [walk]
    refine ⟨inv', tracks.advances.trans advances, ptr, ?_, overides', ?_, ?_, ?_, ?_⟩
    · rw [List.map_append]
      exact ioapics'
    · intro q member
      rcases List.mem_append.mp member with old | new
      · exact tracks.apart q old
      · cases List.mem_singleton.mp new
        exact fresh
    · simp only [tracks.count, List.length_append, List.length_singleton]
      omega
    · intro ioapic member nonnull
      rcases List.mem_append.mp member with old | new
      · exact (tracks.windows ioapic old nonnull).later inv₀ advances
      · cases List.mem_singleton.mp new
        rcases place with ⟨null, _⟩ | registers
        · exact absurd null nonnull
        · exact registers.earlier inv₀ tracks.advances
    · refine List.pairwise_append.mpr ⟨tracks.disjoint, List.pairwise_singleton _ _, ?_⟩
      intro a memberA b memberB nonnullA nonnullB
      cases List.mem_singleton.mp memberB
      rcases place with ⟨null, _⟩ | registers
      · exact absurd null nonnullB
      · exact (tracks.windows a memberA nonnullA).apart tracks.inv registers
  | isrOverride =>
    simp only
    by_cases moved : (m (w.ptr + 3)).toNat ≠ read32 m (w.ptr + 4)
    case pos =>
      rw [if_pos moved]
      rcases addOveride_outcome tracks.inv (total ▸ enough) tracks.ioapics tracks.overides tracks.apart
          (m (w.ptr + 3)).toNat_lt with
        ⟨node, head, k', live', slabsOf', free', list', ran, inv', ioapics', overides', fresh, advances, cost⟩ |
        ⟨failed, full⟩
      case inr => exact .inr ⟨failed, by omega⟩
      left
      have walk : Acpi.interpret m (fun _ => 0) w = { w with
          overides := w.overides ++ [⟨(m (w.ptr + 3)).toNat, read32 m (w.ptr + 4) % 256⟩]
          reads := w.reads ++ Acpi.field (w.ptr + 3) 1 ++ Acpi.field (w.ptr + 4) 4 } := by
        unfold Acpi.interpret
        simp only [kind, if_pos moved]
      refine ⟨_, fun _ => 0, live', l, l₂ ++ [node], slabsOf', free', list', ran, ?_, cost⟩
      rw [walk]
      refine ⟨inv', tracks.advances.trans advances, ptr, ioapics', overides', ?_, tracks.count, ?_, tracks.disjoint⟩
      · intro q member there
        rcases List.mem_append.mp there with old | new
        · exact tracks.apart q member old
        · cases List.mem_singleton.mp new
          exact fresh member
      · exact fun ioapic member nonnull => (tracks.windows ioapic member nonnull).later inv₀ advances
    case neg =>
      rw [if_neg moved]
      left
      have walk : Acpi.interpret m (fun _ => 0) w =
          { w with reads := w.reads ++ Acpi.field (w.ptr + 3) 1 ++ Acpi.field (w.ptr + 4) 4 } := by
        unfold Acpi.interpret
        simp only [kind, if_neg moved]
      refine ⟨s, fun _ => 0, live, l, l₂, slabsOf, free, list, rfl, ?_, Nat.le_add_right _ _⟩
      rw [walk]
      exact ⟨tracks.inv, tracks.advances, ptr, tracks.ioapics, tracks.overides, tracks.apart, tracks.count,
        tracks.windows, tracks.disjoint⟩
  | _ =>
    left
    have walk : Acpi.interpret m (fun _ => 0) w = w := by
      unfold Acpi.interpret
      rw [kind]
    refine ⟨s, fun _ => 0, live, l, l₂, slabsOf, free, list, rfl, ?_, Nat.le_add_right _ _⟩
    rw [walk]
    exact tracks

/-- The loop over the rest of the entries. -/
theorem Tracks.parse {done rest : List MadtEntry} {turns : Nat}
    (tracks : Tracks k₀ runs s w live l l₂ slabsOf free list)
    (inv₀ : KernelInv k₀ live₀ runs slabsOf₀ free₀ list₀) (enough : k₀.phys.totalPages < fuel)
    (laid : LaidOut m (done ++ rest)) (walked : Walked done w) (long : rest.length < turns) :
    (∃ s' w' live' l' l₂' slabsOf' free' list', acpiParseMadt fuel m turns s = call (some (.ok s')) ∧
      Tracks k₀ runs s' w' live' l' l₂' slabsOf' free' list' ∧ Walked (done ++ rest) w') ∨
    (acpiParseMadt fuel m turns s = call (some (.error .outOfMemory)) ∧
      k₀.phys.totalPages < s.kernel.phys.usedPages + 8 * rest.length) := by
  induction rest generalizing s w live l l₂ slabsOf free list done turns with
  | nil =>
    left
    obtain ⟨turns, rfl⟩ : ∃ n, turns = n + 1 := ⟨turns - 1, by simp only [List.length_nil] at long; omega⟩
    rw [List.append_nil] at laid ⊢
    have last := walked.last laid
    rw [← tracks.ptr] at last
    refine ⟨s, w, live, l, l₂, slabsOf, free, list, ?_, tracks, walked⟩
    rw [acpiParseMadt, if_neg last]
    rfl
  | cons e rest ih =>
    obtain ⟨turns, rfl⟩ : ∃ n, turns = n + 1 := ⟨turns - 1, by omega⟩
    simp only [List.length_cons] at long ⊢
    obtain ⟨header, fits, length⟩ := walked.inside laid
    have reads : Tracks k₀ runs s { w with reads := w.reads ++ Acpi.field (w.ptr + 1) 1 ++ Acpi.field w.ptr 1 }
        live l l₂ slabsOf free list :=
      ⟨tracks.inv, tracks.advances, tracks.ptr, tracks.ioapics, tracks.overides, tracks.apart, tracks.count,
        tracks.windows, tracks.disjoint⟩
    have ptr := tracks.ptr
    rw [acpiParseMadt, if_pos (by rw [ptr]; exact header), if_neg (by rw [ptr]; exact Nat.not_lt.mpr fits)]
    rcases reads.interpret inv₀ enough m with
      ⟨s', window, live', l', l₂', slabsOf', free', list', ran, tracks', cost⟩ | ⟨failed, full⟩
    case inr =>
      right
      rw [failed]
      exact ⟨rfl, by omega⟩
    obtain ⟨_, walked'⟩ := walked.turn laid window
    have turn : (Acpi.turn m window w).2 =
        { Acpi.interpret m window
            { w with reads := w.reads ++ Acpi.field (w.ptr + 1) 1 ++ Acpi.field w.ptr 1 } with
          ptr := w.ptr + entryLength m w.ptr } := by
      unfold Acpi.turn
      simp only [if_pos header, if_neg (Nat.not_lt.mpr fits), Acpi.interpret_ptr]
    have same : s'.ptr = w.ptr := tracks'.ptr.trans (Acpi.interpret_ptr _ _ _)
    have moved : Tracks k₀ runs { s' with ptr := s'.ptr + entryLength m s'.ptr } (Acpi.turn m window w).2
        live' l' l₂' slabsOf' free' list' := by
      rw [turn]
      exact ⟨tracks'.inv, tracks'.advances, by rw [same], tracks'.ioapics, tracks'.overides, tracks'.apart,
        tracks'.count, tracks'.windows, tracks'.disjoint⟩
    rw [← List.singleton_append, ← List.append_assoc] at laid ⊢
    rw [ran, call_ok]
    rcases ih moved laid walked' (show rest.length < turns by omega) with outcome | ⟨failed, full⟩
    · exact .inl outcome
    · exact .inr ⟨failed, by simp only at full; omega⟩

end Tracking

/-- The lists from the two heads, in the order of the table, and the windows of the controllers. -/
structure Recovered (k₀ : Kernel) (s : State) (entries : List MadtEntry) (ioapics overides : List Nat) : Prop where
  ioapicList : Queue (fun p => s.kernel.phys.mem (p + 16)) s.ioapicHead s.ioapicTail ioapics
  overideList : Queue (fun p => s.kernel.phys.mem (p + 8)) s.irqOverideHead s.irqOverideTail overides
  count : s.ioapicCount = (entries.filterMap MadtEntry.controller?).length
  controllers : List.Forall₂ (fun p controller => (ioapicAt s.kernel.phys.mem p).2 = controller.2 ∧
    Registers k₀ s.kernel (ioapicAt s.kernel.phys.mem p).1 controller.1 (controller.1 + pageSize))
    ioapics (entries.filterMap MadtEntry.controller?)
  overides : overides.map (overideAt s.kernel.phys.mem) = entries.filterMap MadtEntry.overide?
  disjoint : (ioapics.map (fun p => (ioapicAt s.kernel.phys.mem p).1)).Pairwise Apart

/- No call of valloc has failed. -/
def Allocated (s : State) : Prop :=
  ∀ ioapics, Threaded (fun p => s.kernel.phys.mem (p + 16)) s.ioapicHead ioapics →
    ∀ p ∈ ioapics, (ioapicAt s.kernel.phys.mem p).1 ≠ 0

section Claim

variable {k₀ : Kernel} {runs : List (Nat × Nat)} {s : State} {w : Acpi.Walk} {m : Acpi.Memory}
  {live live₀ l l₂ list list₀ : List Nat} {slabsOf slabsOf₀ free free₀ : Nat → List Nat} {fuel : Nat}
  {entries : List MadtEntry}

theorem controllers_length (laid : LaidOut m entries) : (entries.filterMap MadtEntry.controller?).length < 2 ^ 32 := by
  have few := List.length_filterMap_le MadtEntry.controller? entries
  have each : ∀ l : List MadtEntry, l.length ≤ extent l := by
    intro l
    induction l with
    | nil => exact Nat.le_refl 0
    | cons e l ih =>
      have least : 2 ≤ e.length := Nat.le_add_left 2 _
      rw [Acpi.extent_cons, List.length_cons]
      omega
  have all := each entries
  have total := laid.total
  have bound := read32_lt m 4
  unfold headerLength at total
  omega

theorem controller_lt {controller : Nat × Nat} (member : controller ∈ entries.filterMap MadtEntry.controller?) :
    controller.1 < 2 ^ 32 := by
  obtain ⟨e, _, described⟩ := List.mem_filterMap.mp member
  cases e with
  | ioapic id reserved address gsib =>
    rw [← Option.some.inj described]
    exact address.toNat_lt
  | isrOverride => cases described
  | other => cases described

/- The second page of a controller behind the last page of 32 bits. -/
theorem entry_wraps {physical : Nat} (bound : physical < 2 ^ 32)
    (same : (physical + pageSize) % 2 ^ 32 &&& pteMask ||| (ptePresent ||| mmioFlags) =
      physical + pageSize &&& pteMask ||| (ptePresent ||| mmioFlags)) : physical + pageSize < 2 ^ 32 := by
  by_contra beyond
  have size : pageSize = 4096 := rfl
  have high := congrArg (fun entry => entry.testBit 32) same
  have flags : (ptePresent ||| mmioFlags).testBit 32 = false := by decide
  have mask : pteMask.testBit 32 = true := by decide
  have low : ((physical + pageSize) % 2 ^ 32).testBit 32 = false := Nat.testBit_lt_two_pow (Nat.mod_lt _ (by decide))
  have top : (physical + pageSize).testBit 32 = true := by
    rw [Nat.testBit_eq_decide_div_mod_eq]
    simp only [decide_eq_true_eq]
    omega
  simp only [Nat.testBit_or, Nat.testBit_and, flags, mask, low, top] at high
  cases high

/- The partner of an element of the second list. -/
theorem partner {α β : Type} {R S : α → β → Prop} {as : List α} {bs : List β} {b : β} (one : List.Forall₂ R as bs)
    (two : List.Forall₂ S as bs) (member : b ∈ bs) : ∃ a ∈ as, R a b ∧ S a b := by
  induction one with
  | nil => cases member
  | cons here _ ih =>
    obtain ⟨here', rest⟩ := List.forall₂_cons.mp two
    rcases List.mem_cons.mp member with rfl | later
    · exact ⟨_, List.mem_cons_self, here, here'⟩
    · obtain ⟨a, inRest, both⟩ := ih rest later
      exact ⟨a, List.mem_cons_of_mem _ inRest, both⟩

theorem Tracks.recovered_iff (tracks : Tracks k₀ runs s w live l l₂ slabsOf free list) (laid : LaidOut m entries)
    (walked : Walked entries w) (allocated : Allocated s) :
    (∃ ioapics overides, Recovered k₀ s entries ioapics overides) ↔
      ∀ controller ∈ entries.filterMap MadtEntry.controller?, controller.1 + pageSize < 2 ^ 32 := by
  have nonnull := allocated l tracks.ioapics.queue.list
  have paired : List.Forall₂ (fun p ioapic => ioapicAt s.kernel.phys.mem p = (ioapic.address, ioapic.gsib)) l
      w.ioapics := by
    have values := tracks.ioapics.values
    rw [← List.forall₂_eq_eq_eq, List.forall₂_map_left_iff, List.forall₂_map_right_iff] at values
    exact values
  have granted : ∀ ioapic ∈ w.ioapics, ioapic.address ≠ 0 := by
    intro ioapic member
    obtain ⟨p, inList, same, _⟩ := partner paired paired member
    have given := nonnull p inList
    rwa [same] at given
  constructor
  · rintro ⟨ioapics, overides, recovered⟩ controller member
    cases recovered.ioapicList.list.unique tracks.ioapics.queue.list
    have found := recovered.controllers
    rw [← walked.ioapics] at found member
    rw [List.forall₂_map_right_iff] at found
    obtain ⟨ioapic, inWalk, rfl⟩ := List.mem_map.mp member
    obtain ⟨p, _, same, _, registers⟩ := partner paired found inWalk
    rw [same] at registers
    have actual := tracks.windows ioapic inWalk (granted ioapic inWalk)
    -- the page behind the first one
    have second : Inside (ioapic.address + 4096) (ioapic.address, ioapic.address + 8192) :=
      ⟨Nat.le_add_right _ _, by simp only; omega⟩
    have entry := (actual _ second).2.2.2.symm.trans (registers _ second).2.2.2
    rw [if_neg (Nat.lt_irrefl _), if_neg (Nat.lt_irrefl _)] at entry
    rw [walked.ioapics] at member
    exact entry_wraps (controller_lt member) entry
  · intro small
    have length : w.ioapics.length = (entries.filterMap MadtEntry.controller?).length := by
      rw [← walked.ioapics, List.length_map]
    refine ⟨l, l₂, tracks.ioapics.queue, tracks.overides.queue, ?_, ?_, tracks.overides.values.trans walked.overides, ?_⟩
    · rw [tracks.count, length, Nat.mod_eq_of_lt (controllers_length laid)]
    · rw [← walked.ioapics] at small ⊢
      rw [List.forall₂_map_right_iff, List.forall₂_iff_zip]
      refine ⟨paired.length_eq, ?_⟩
      intro p ioapic member
      have same := (List.forall₂_iff_zip.mp paired).2 member
      have inWalk := (List.of_mem_zip member).2
      have bound := small _ (List.mem_map_of_mem inWalk)
      have registers := tracks.windows ioapic inWalk (granted ioapic inWalk)
      rw [Nat.mod_eq_of_lt bound] at registers
      rw [same]
      exact ⟨rfl, registers⟩
    · have addresses : l.map (fun p => (ioapicAt s.kernel.phys.mem p).1) = w.ioapics.map Acpi.Ioapic.address := by
        have values := congrArg (List.map Prod.fst) tracks.ioapics.values
        rw [List.map_map, List.map_map] at values
        exact values
      rw [addresses, List.pairwise_map]
      refine tracks.disjoint.imp_of_mem ?_
      exact fun memberA memberB apart => apart (granted _ memberA) (granted _ memberB)

/-- With room and enough pages a single controller is added. -/
theorem single_controller {id reserved : UInt8} {address gsib : UInt32}
    (laid : LaidOut m [.ioapic id reserved address gsib]) (inv₀ : KernelInv k₀ live₀ runs slabsOf₀ free₀ list₀)
    (enough : k₀.phys.totalPages < fuel) (room : ∃ r ∈ k₀.ranges.freeRanges.nodes, 8192 ≤ r.size)
    (pages : k₀.phys.usedPages + 8 ≤ k₀.phys.totalPages) :
    ∃ s, acpiParseMadt fuel m 2 (start k₀) = call (some (.ok s)) ∧ Allocated s := by
  have first : LaidOut m ([] ++ MadtEntry.ioapic id reserved address gsib :: []) := laid
  obtain ⟨header, fits, length⟩ := Acpi.walked_start.inside first
  have kind : entryType (m 44) = .ioapic := by
    rw [show m 44 = 1 from first.byte (j := 0) rfl]
    rfl
  have turn : interpret fuel m (start k₀) = addIoapic fuel (start k₀) (read32 m 48) (read32 m 52) := by
    unfold interpret
    rw [show entryType (m (start k₀).ptr) = .ioapic from kind]
    rfl
  rcases @addIoapic_outcome (start k₀) live₀ list₀ [] [] [] [] runs slabsOf₀ free₀ fuel inv₀ enough
      (Nodes.empty k₀ live₀) (Nodes.empty k₀ live₀) (by simp) (read32 m 48) (read32 m 52) (read32_lt m 52) with
    ⟨window, node, head, k', live', slabsOf', free', list', ran, inv', ioapics', _, _, _, place, _⟩ | ⟨_, full⟩
  case inr =>
    change k₀.phys.totalPages < k₀.phys.usedPages + 8 at full
    omega
  refine ⟨⟨44 + entryLength m 44, k', head, node, 1, 0, 0⟩, ?_, ?_⟩
  · have last := laid.total
    rw [Acpi.extent_cons, ← length] at last
    change headerLength m = 44 + (entryLength m 44 + 0) at last
    rw [acpiParseMadt, if_pos (show (start k₀).ptr + 2 ≤ headerLength m from header),
      if_neg (show ¬ headerLength m < (start k₀).ptr + entryLength m (start k₀).ptr from Nat.not_lt.mpr fits), turn,
      ran, call_ok, acpiParseMadt, if_neg]
    · rfl
    · change ¬ (44 + entryLength m 44 + 2 ≤ headerLength m)
      omega
  · intro ioapics threaded p member
    cases threaded.unique ioapics'.queue.list
    have same : p = node := List.mem_singleton.mp member
    rw [same]
    have value : ioapicAt k'.phys.mem node = (window, read32 m 52) := (List.cons.inj ioapics'.values).1
    rw [value]
    rintro rfl
    rcases place with ⟨_, none⟩ | registers
    · obtain ⟨r, member, large⟩ := room
      have small := none r member
      omega
    · have low := (freeAt_window inv₀ (registers 0 ⟨Nat.le_refl _, by decide⟩).1).1
      have bottom : vallocInitWindow.lo = 0xFFFFA00000000000 := rfl
      omega

/-- When valloc and malloc succeed the walk recovers the topology exactly when no controller has
its registers in the last page of 32 bits. -/
theorem topology_recovered_iff (laid : LaidOut m entries) (inv₀ : KernelInv k₀ live₀ runs slabsOf₀ free₀ list₀)
    (enough : k₀.phys.totalPages < fuel) {turns : Nat} (long : entries.length < turns) :
    (∃ s, acpiParseMadt fuel m turns (start k₀) = call (some (.ok s)) ∧ (Allocated s →
      ((∃ ioapics overides, Recovered k₀ s entries ioapics overides) ↔
        ∀ controller ∈ entries.filterMap MadtEntry.controller?, controller.1 + pageSize < 2 ^ 32))) ∨
    (acpiParseMadt fuel m turns (start k₀) = call (some (.error .outOfMemory)) ∧
      k₀.phys.totalPages < k₀.phys.usedPages + 8 * entries.length) := by
  rcases (tracks_start inv₀).parse inv₀ enough laid Acpi.walked_start long with
    ⟨s, w, live, l, l₂, slabsOf, free, list, ran, tracks, walked⟩ | failed
  · exact .inl ⟨s, ran, fun allocated => tracks.recovered_iff laid walked allocated⟩
  · exact .inr failed

/- A table with one controller. -/
def oneController (address : UInt32) : List MadtEntry := [.ioapic 0 0 address 0]

theorem oneController_laid (address : UInt32) : LaidOut (Acpi.tableOf (oneController address)) (oneController address) :=
  Acpi.laidOut_tableOf (show 44 + (12 + 0) < 2 ^ 32 by decide)

theorem fresh_room : ∃ r ∈ vallocInitWindow.fresh.freeRanges.nodes, 8192 ≤ r.size :=
  ⟨⟨0xFFFFA00000000000, 0x400000000000⟩, by decide, by decide⟩

theorem topology_recovered_iff_one : ∃ k slabsOf free list s, KernelInv k [] [] slabsOf free list ∧
    acpiParseMadt (k.phys.totalPages + 1) (Acpi.tableOf (oneController 0xFEC00000)) 2 (start k) =
      call (some (.ok s)) ∧
    ∃ ioapics overides, Recovered k s (oneController 0xFEC00000) ioapics overides := by
  obtain ⟨_, k, slabsOf, free, list, _, _, inv, ranges, pages⟩ := kernelMap_boots
  have laid := oneController_laid 0xFEC00000
  have enough := Nat.lt_succ_self k.phys.totalPages
  obtain ⟨s, ran, allocated⟩ := single_controller laid inv enough (ranges ▸ fresh_room) (by omega)
  refine ⟨k, slabsOf, free, list, s, inv, ran, ?_⟩
  rcases topology_recovered_iff laid inv enough (show (oneController 0xFEC00000).length < 2 by decide) with
    ⟨s', ran', recovered⟩ | ⟨failed, _⟩
  · cases Except.ok.inj (Option.some.inj (ran.symm.trans ran'))
    exact (recovered allocated).mpr (by decide)
  · cases ran.symm.trans failed

/-- The second page of a controller in the last page of 32 bits is the first page of memory. -/
theorem topology_last_page : ∃ k slabsOf free list s, KernelInv k [] [] slabsOf free list ∧
    LaidOut (Acpi.tableOf (oneController 0xFFFFF000)) (oneController 0xFFFFF000) ∧
    acpiParseMadt (k.phys.totalPages + 1) (Acpi.tableOf (oneController 0xFFFFF000)) 2 (start k) =
      call (some (.ok s)) ∧ Allocated s ∧
    ¬ ∃ ioapics overides, Recovered k s (oneController 0xFFFFF000) ioapics overides := by
  obtain ⟨_, k, slabsOf, free, list, _, _, inv, ranges, pages⟩ := kernelMap_boots
  have laid := oneController_laid 0xFFFFF000
  have enough := Nat.lt_succ_self k.phys.totalPages
  obtain ⟨s, ran, allocated⟩ := single_controller laid inv enough (ranges ▸ fresh_room) (by omega)
  refine ⟨k, slabsOf, free, list, s, inv, laid, ran, allocated, ?_⟩
  rcases (tracks_start inv).parse inv enough (show LaidOut _ ([] ++ oneController 0xFFFFF000) from laid)
      Acpi.walked_start (show (oneController 0xFFFFF000).length < 2 by decide) with
    ⟨s', w, live, l, l₂, slabsOf', free', list', ran', tracks, walked⟩ | ⟨failed, _⟩
  · cases Except.ok.inj (Option.some.inj (ran.symm.trans ran'))
    rw [tracks.recovered_iff laid walked allocated]
    decide
  · cases ran.symm.trans failed

end Claim

end EvalynOS.Topology
