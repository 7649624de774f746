import EvalynOS.Acpi.Entries
import EvalynOS.Libc.BlockMalloc

/-! acpi_parse_madt with what it does to the kernel: the windows that it takes from valloc, the
mappings of the controllers' registers there, and the nodes of the two lists. -/
namespace EvalynOS.Topology
open Lib Lib.Word Pmm Vmm Heap Stdlib
open Vma (UsedAt FreeAt PageRange roundup vallocInitWindow)
open Acpi (read32 entryType entryLength headerLength IrqOveride MadtEntry LaidOut Walked extent)

/- Calls that may run out of steps, or stop the kernel. -/
abbrev Call (α : Type) := ExceptT Panic Option α

def call {α : Type} (result : Option (Except Panic α)) : Call α := result

def act {α : Type} (result : Except Panic α) : Call α := call (some result)

/- PTE_PRESENT | PTE_WRITABLE | PTE_NX | PTE_PCD | PTE_PWT -/
def mmioFlags : Nat := ptePresent ||| pteWritable ||| pteNx ||| ptePcd ||| ptePwt

/- A store of less than a word. -/
def writeBytes (k : Kernel) (addr size value : Nat) : Except Panic Kernel :=
  match k.translate addr with
  | none => .error .pageFault
  | some a => .ok (k.withMem (k.phys.mem.writeBytes a size (fun i => value / 256 ^ i)))

/- The walk's pointer, the kernel, and the variables of the two lists. -/
structure State where
  ptr : Nat
  kernel : Kernel
  ioapicHead : Nat
  ioapicTail : Nat
  ioapicCount : Nat
  irqOverideHead : Nat
  irqOverideTail : Nat

def start (k : Kernel) : State := ⟨44, k, 0, 0, 0, 0, 0⟩

/- The branches that hang a node with its link at `next` into a list. -/
def append (k : Kernel) (head tail node next : Nat) : Except Panic (Nat × Nat × Kernel) :=
  if head = 0 then .ok (node, node, k)
  else do
    let k ← k.writeWord (tail + next) node
    .ok (head, node, k)

/- MADT_TYPE_IOAPIC. The address of the second page is a sum of 32 bits. -/
def addIoapic (fuel : Nat) (s : State) (ioapicAddress gsib : Nat) : Call State := do
  let (address, k) ← call (kernelValloc fuel s.kernel (pageSize * 2))
  let phys ← act (vmmMapPage k.phys k.topLevel address ioapicAddress mmioFlags)
  let phys ← act (vmmMapPage phys k.topLevel (wadd address pageSize)
    ((ioapicAddress + pageSize) % 2 ^ 32) mmioFlags)
  let (ioapic, k) ← call (malloc fuel (k.withPhys phys) 24)
  let k ← act (k.writeWord ioapic address)
  let k ← act (writeBytes k (ioapic + 8) 4 gsib)
  let k ← act (k.writeWord (ioapic + 16) 0)
  let (head, tail, k) ← act (append k s.ioapicHead s.ioapicTail ioapic 16)
  return { s with
    kernel := k, ioapicHead := head, ioapicTail := tail, ioapicCount := (s.ioapicCount + 1) % 2 ^ 32 }

/- MADT_TYPE_ISR_OVERRIDE with a source that is not its gsi. -/
def addOveride (fuel : Nat) (s : State) (irq gsi : Nat) : Call State := do
  let (overide, k) ← call (malloc fuel s.kernel 16)
  let k ← act (writeBytes k overide 1 irq)
  let k ← act (writeBytes k (overide + 1) 1 gsi)
  let k ← act (k.writeWord (overide + 8) 0)
  let (head, tail, k) ← act (append k s.irqOverideHead s.irqOverideTail overide 8)
  return { s with kernel := k, irqOverideHead := head, irqOverideTail := tail }

def interpret (fuel : Nat) (m : Acpi.Memory) (s : State) : Call State :=
  match entryType (m s.ptr) with
  | .ioapic => addIoapic fuel s (read32 m (s.ptr + 4)) (read32 m (s.ptr + 8))
  | .isrOverride =>
    let source := (m (s.ptr + 3)).toNat
    let gsi := read32 m (s.ptr + 4)
    if source ≠ gsi then addOveride fuel s source gsi else return s
  | _ => return s

/- acpi_parse_madt with the table that acpi_find_sdt has found. -/
def acpiParseMadt (fuel : Nat) (m : Acpi.Memory) : (turns : Nat) → State → Call State
  | 0, _ => call none
  | turns + 1, s =>
    if s.ptr + 2 ≤ headerLength m then
      if headerLength m < s.ptr + entryLength m s.ptr then return s
      else do
        let s ← interpret fuel m s
        acpiParseMadt fuel m turns { s with ptr := s.ptr + entryLength m s.ptr }
    else return s

section Calls

variable {α β : Type} {a : α} {next : α → Call β}

@[simp] theorem call_ok : (call (some (.ok a)) >>= next) = next a := rfl
@[simp] theorem act_ok : (act (.ok a) >>= next) = next a := rfl
@[simp] theorem call_error {e : Panic} : (call (some (.error e)) >>= next) = call (some (.error e)) := rfl
@[simp] theorem act_error {e : Panic} : (act (.error e) >>= next) = call (some (.error e)) := rfl

end Calls

/-- No used range becomes free, and no page of a used range is mapped anew. -/
structure Advances (k k' : Kernel) : Prop where
  topLevel : k'.topLevel = k.topLevel
  total : k'.phys.totalPages = k.phys.totalPages
  used : ∀ x, UsedAt k.ranges x → UsedAt k'.ranges x
  free : ∀ x, FreeAt k'.ranges x → FreeAt k.ranges x
  leaves : ∀ x, InWindow x → UsedAt k.ranges x → leaf k'.phys k'.topLevel x = leaf k.phys k.topLevel x

section Keeping

variable {k k₁ k' : Kernel} {live live' list : List Nat} {runs : List (Nat × Nat)}
  {slabsOf free : Nat → List Nat} {v flags : Nat}

theorem Advances.refl (k : Kernel) : Advances k k :=
  ⟨rfl, rfl, fun _ old => old, fun _ old => old, fun _ _ _ => rfl⟩

theorem Advances.trans (one : Advances k k₁) (two : Advances k₁ k') : Advances k k' where
  topLevel := two.topLevel.trans one.topLevel
  total := two.total.trans one.total
  used := fun x old => two.used x (one.used x old)
  free := fun x left => one.free x (two.free x left)
  leaves := fun x inside old => (two.leaves x inside (one.used x old)).trans (one.leaves x inside old)

theorem advances_of_steady (same : Steady k k') (ranges : k'.ranges = k.ranges) : Advances k k' where
  topLevel := same.topLevel
  total := same.total
  used := fun _ old => ranges ▸ old
  free := fun _ left => ranges ▸ left
  leaves := fun x inside _ => same.leaves x (paged_region (.inr inside))

theorem noOwn (h : KHeap) (slabsOf : Nat → List Nat) : Owned h [] slabsOf := ⟨List.nodup_nil, by simp, by simp⟩

/- An entry that vmm_map_page has made. -/
theorem made_present (phys flags : Nat) : isPresent (phys &&& pteMask ||| (ptePresent ||| flags)) = true := by
  rw [isPresent_eq]
  simp [ptePresent]

/-- vmm_map_page at an address whose page is reserved, or in the lower half. -/
theorem mapPage_outcome (inv : KernelInv k live runs slabsOf free list) (paged : Paged v)
    (reserved : InWindow v → UsedAt k.ranges v) (phys flags : Nat) :
    (∃ s' list', vmmMapPage k.phys k.topLevel v phys flags = .ok s' ∧
      KernelInv (k.withPhys s') live runs slabsOf free list' ∧ Spares k (k.withPhys s') live [] ∧
      s'.totalPages = k.phys.totalPages ∧ s'.usedPages ≤ k.phys.usedPages + 3 ∧
      ∀ w, Paged w → leaf s' k.topLevel w =
        if w / 4096 = v / 4096 then phys &&& pteMask ||| (ptePresent ||| flags) else leaf k.phys k.topLevel w) ∨
    (vmmMapPage k.phys k.topLevel v phys flags = .error .outOfMemory ∧
      k.phys.totalPages < k.phys.usedPages + 3) := by
  have cost : (missingTables k.phys k.topLevel [v]).card ≤ 3 := card_missingTables_le k.phys k.topLevel [v]
  rcases @vmmMapPage_outcome k.phys k.topLevel kernelRegion list inv.heap.pmm inv.tree v (paged_region paged)
      phys flags with ⟨s', list', ran, inv', set, made⟩ | ⟨failed, full⟩
  · left
    have kept := set.kept
    have leaves : ∀ w, Paged w → leaf s' k.topLevel w =
        if w / 4096 = v / 4096 then phys &&& pteMask ||| (ptePresent ||| flags) else leaf k.phys k.topLevel w := by
      intro w pagedW
      rw [set.leaves w (paged_region pagedW)]
      simp only [pageBits_paged pagedW paged]
    obtain ⟨heap', apart'⟩ := inv.kept inv' kept
    refine ⟨s', list', ran, ⟨heap', set.tree, apart', inv.tiling, ?_,
      inv.direct.kept kept.hhdm kept.total kept.pages, ?_⟩, ⟨rfl, kept.hhdm, ?_, ?_⟩, kept.total, ?_, leaves⟩
    · intro w low high present
      change isPresent (leaf s' k.topLevel w) = true at present
      rw [leaves w (.inr ⟨low, high⟩)] at present
      split at present
      · rename_i samePage
        have inWindow : InWindow v := by
          rcases paged with lower | inside
          · have bottom : vallocInitWindow.lo = 0xFFFFA00000000000 := rfl
            omega
          · exact inside
        exact inv.tiling.used_page samePage.symm (reserved inWindow)
      · exact inv.reserved w low high present
    · intro r member x inside
      obtain ⟨pagedX, present⟩ := inv.runs r member x inside
      refine ⟨pagedX, ?_⟩
      change isPresent (leaf s' k.topLevel x) = true
      rw [leaves x pagedX]
      split
      · exact made_present phys flags
      · exact present
    · exact fun p alive => objSize_kept inv.heap heap' alive
    · rintro a (⟨p, alive, inside⟩ | ⟨q, none, _⟩)
      · obtain ⟨q, c, member, home, usedQ, address, inFrame⟩ := live_frame inv.heap alive inside
        exact kept.mem q usedQ (fun path valid there => inv.apart path _ valid there c member
          (address ▸ home)) a inFrame
      · cases none
    · rw [made.cost]
      omega
  · exact .inr ⟨failed, by omega⟩

theorem slabCost_le (c : Nat) : slabCost slabsOf free c ≤ 1 := by
  unfold slabCost
  split
  · exact Nat.le_refl 1
  · exact Nat.zero_le 1

/-- malloc of an object. -/
theorem slab_outcome (inv : KernelInv k live runs slabsOf free list) {fuel size : Nat}
    (enough : k.phys.totalPages < fuel) (small : size ≤ 1008) :
    (∃ q c k' slabsOf' free' list', slabMalloc fuel k size = some (.ok (q + 16, k')) ∧
      KernelInv k' (q :: live) runs slabsOf' free' list' ∧ Spares k k' live [] ∧ SlabBlock k k' live q c size ∧
      size + 16 ≤ c ∧ k'.phys.usedPages ≤ k.phys.usedPages + 1) ∨
    (slabMalloc fuel k size = some (.error .outOfMemory) ∧ k.phys.totalPages < k.phys.usedPages + 1) := by
  obtain ⟨c, isClass, outcome⟩ := slabMalloc_outcome inv small
  have cost : slabCost slabsOf free c ≤ 1 := slabCost_le c
  have slabs := inv.heap.slabs_le isClass.1
  change _ ≤ k.phys.totalPages at slabs
  rcases outcome fuel (by omega) with ⟨q, k', _, _, _, ran, _, _, used⟩ | ⟨failed, full⟩
  · left
    obtain ⟨q', c', slabsOf', free', list', place, inv', _, spares, block, fits⟩ :=
      inv.takeObject (noOwn k.heap slabsOf) small ran
    cases Nat.add_right_cancel place
    exact ⟨q, c', k', slabsOf', free', list', ran, inv', spares, block, fits.2.1, by omega⟩
  · exact .inr ⟨failed, by omega⟩

/-- valloc of two pages: an address whose pages were free and are used now, or 0. -/
theorem window_outcome (inv : KernelInv k live runs slabsOf free list) {fuel : Nat}
    (enough : k.phys.totalPages < fuel) :
    (∃ address k' more slabsOf' free' list', kernelValloc fuel k (pageSize * 2) = some (.ok (address, k')) ∧
      KernelInv k' (more ++ live) runs slabsOf' free' list' ∧ Advances k k' ∧ Spares k k' live [] ∧ 4096 ∣ address ∧
      (address = 0 ∧ (∀ r ∈ k.ranges.freeRanges.nodes, r.size < 8192) ∨
        ∀ x, Inside x (address, address + 8192) → FreeAt k.ranges x ∧ UsedAt k'.ranges x) ∧
      k'.phys.usedPages ≤ k.phys.usedPages + 1) ∨
    (kernelValloc fuel k (pageSize * 2) = some (.error .outOfMemory) ∧
      k.phys.totalPages < k.phys.usedPages + 1) := by
  unfold kernelValloc
  have rounded : roundup (pageSize * 2) = 8192 := by decide
  rcases Vma.valloc_cases inv.tiling (show 1 ≤ pageSize * 2 by decide) (by decide) with
    ⟨failed, short⟩ | ⟨r, f, u, answer, carve⟩
  · left
    rw [rounded] at short
    have whole : splitsRange k.ranges (pageSize * 2) = false := splitsRange_none k.ranges _ (by
      intro r member
      have less := short r member
      have size : alignUp (pageSize * 2) pageSize = 8192 := by decide
      omega)
    rw [whole, failed]
    exact ⟨0, k, [], slabsOf, free, list, rfl, inv, Advances.refl k, Spares.refl k live [],
      Nat.dvd_zero _, .inl ⟨rfl, short⟩, Nat.le_succ _⟩
  · have aligned := inv.tiling.aligned r (List.mem_append_left _ carve.member)
    have high := carve.high
    rw [answer]
    rw [rounded] at carve high
    -- with a kernel that has the node of the rest, or needs none
    have carved : ∀ (k₁ : Kernel) (more : List Nat) (slabsOf₁ free₁ : Nat → List Nat) (list₁ : List Nat),
        KernelInv k₁ (more ++ live) runs slabsOf₁ free₁ list₁ → Steady k k₁ → Spares k k₁ live [] →
        k₁.ranges = k.ranges →
        KernelInv { k₁ with ranges := ⟨f, u, k.ranges.refused⟩ } (more ++ live) runs slabsOf₁ free₁ list₁ ∧
        Advances k { k₁ with ranges := ⟨f, u, k.ranges.refused⟩ } ∧
        Spares k { k₁ with ranges := ⟨f, u, k.ranges.refused⟩ } live [] := by
      intro k₁ more slabsOf₁ free₁ list₁ inv₁ same spares ranges
      have carve₁ := carve
      rw [← ranges] at carve₁
      refine ⟨inv₁.reserve carve₁ aligned.1 (show 4096 ∣ 8192 by decide) _,
        ⟨same.topLevel, same.total, ?_, ?_, ?_⟩, spares.topLevel, spares.hhdm, spares.sizes, spares.words⟩
      · exact fun x old => (carve.dst_covers x).mpr (.inr old)
      · exact fun x left => ((carve.src_covers inv.tiling.tiles x).mp left).1
      · exact fun x inside _ => same.leaves x (paged_region (.inr inside))
    have reserved : ∀ x, Inside x (r.vaddr, r.vaddr + 8192) →
        FreeAt k.ranges x ∧ UsedAt ⟨f, u, k.ranges.refused⟩ x := fun x inside =>
      ⟨⟨r.span, List.mem_map_of_mem carve.member, inside.1, inside.2.trans_le high⟩,
        (carve.dst_covers x).mpr (.inl inside)⟩
    by_cases splits : splitsRange k.ranges (pageSize * 2) = true
    · simp only [splits, ↓reduceIte]
      rcases slab_outcome inv enough (show rangeNodeSize ≤ 1008 by decide) with
        ⟨q, c, k₁, slabsOf₁, free₁, list₁, ran, inv₁, spares, block, _, cost⟩ | ⟨failed, full⟩
      · left
        obtain ⟨inv', advances, spares'⟩ := carved k₁ [q] slabsOf₁ free₁ list₁ inv₁ block.same spares block.ranges
        refine ⟨r.vaddr, _, [q], slabsOf₁, free₁, list₁, ?_, inv', advances, spares', aligned.1,
          .inr reserved, cost⟩
        rw [ran]
        rfl
      · right
        refine ⟨?_, full⟩
        rw [failed]
        rfl
    · simp only [splits, Bool.false_eq_true, ↓reduceIte]
      left
      have same : Steady k k :=
        ⟨rfl, rfl, rfl, fun _ page => page, fun _ used => used, fun _ _ => rfl, fun _ _ => rfl⟩
      obtain ⟨inv', advances, spares⟩ := carved k [] slabsOf free list inv same (Spares.refl k live []) rfl
      exact ⟨r.vaddr, _, [], slabsOf, free, list, rfl, inv', advances, spares, aligned.1, .inr reserved, Nat.le_succ _⟩

end Keeping

end EvalynOS.Topology
