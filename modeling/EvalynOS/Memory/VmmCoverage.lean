import EvalynOS.Memory.VmmDirect

/-! What the direct map of setup_vmm covers, and how its pages are cached. Both depend on how
the ends of the entries are rounded and on which entries share a large page. -/
namespace EvalynOS.Vmm
open Lib Lib.Word Pmm
open Process (ProgramHeader programHeaders imageBoot imageBoot_segment)

/- The physical address that the processor makes of an address. -/
def translate (s : Phys) (top v : Nat) : Option Nat := (pageWalk s top v).map (· + v % pageSize)

/- Every described byte is found at its place in the direct map. -/
def Covered (s : Phys) (top : Nat) (memmap : List MemmapEntry) : Prop :=
  ∀ e ∈ memmap, ∀ p, e.base ≤ p → p < e.base + e.length → translate s top (s.hhdmOffset + p) = some p

/- Where an entry ends behind its own large pages, the next large page is another entry's. -/
def EndsCovered (size : Nat) (memmap : List MemmapEntry) : Prop :=
  ∀ e ∈ memmap, 0 < e.length → widenedEnd size e < e.base + e.length →
    ∃ other ∈ memmap, Widened size (widenedEnd size e) other

/- The page at this address lies in the entry. -/
structure PageInside (page : Nat) (e : MemmapEntry) : Prop where
  aligned : pageSize ∣ page
  low : e.base ≤ page
  high : page + pageSize ≤ e.base + e.length

/- Every whole page is mapped, and PTE_PCD is set for framebuffers only. -/
def CachedByEntry (s : Phys) (top : Nat) (memmap : List MemmapEntry) : Prop :=
  ∀ e ∈ memmap, ∀ page, PageInside page e → translate s top (s.hhdmOffset + page) = some page ∧
    ∃ entry left, walk s top (indices (s.hhdmOffset + page)) = some (entry, left) ∧
      (entry &&& ptePcd ≠ 0 ↔ e.type = .framebuffer)

/- The last entry whose large pages hold a page is a framebuffer when the page's own is. -/
def LastAgrees (size : Nat) (memmap : List MemmapEntry) : Prop :=
  ∀ e ∈ memmap, ∀ page, PageInside page e → ∀ last, lastWidened size page memmap = some last →
    (last.type = .framebuffer ↔ e.type = .framebuffer)

section Leaves

variable {size p offset : Nat} {boot : BootInfo} {e : MemmapEntry} {memmap : List MemmapEntry}

theorem entryFlags_cases (boot : BootInfo) (e : MemmapEntry) :
    boot.entryFlags e = (ptePresent ||| pteWritable ||| pteNx) ∨
      boot.entryFlags e = (ptePresent ||| pteWritable ||| pteNx) ||| (ptePcd ||| ptePat) := by
  unfold BootInfo.entryFlags
  simp only
  split
  · exact .inr rfl
  · exact .inl rfl

theorem leafEntry_big (big : BigPage size) (phys flags : Nat) :
    leafEntry size phys flags = phys &&& pteMask ||| (ptePresent ||| ptePs ||| flags) := if_pos (Or.symm big)

theorem BigPage.place (big : BigPage size) (bound : p < 2 ^ 48) :
    pageSize ∣ p / size * size ∧ p / size * size < 2 ^ 52 := by
  have small := Nat.div_mul_le_self p size
  refine ⟨?_, by omega⟩
  apply Dvd.dvd.mul_left
  rcases big with rfl | rfl <;> decide

/- The address of a large page is kept by the entry. -/
theorem masked_large (big : BigPage size) (bound : p < 2 ^ 48) : p / size * size &&& pteMask = p / size * size :=
  page_mask (big.place bound).1 (big.place bound).2

/-- The processor takes an address of the direct map to its place. -/
theorem bigLeaf_address (big : BigPage size) (gigabytes : jumboPageSize ∣ offset) (bound : p < 2 ^ 48)
    (boot : BootInfo) (e : MemmapEntry) :
    leafAddress (offset + p) (bigLeaf size (boot.entryFlags e) p) = some (p / pageSize * pageSize) := by
  have masked := masked_large big bound
  obtain ⟨m, isOffset⟩ := gigabytes
  rcases big with rfl | rfl
  · have flags : (ptePresent ||| ptePs ||| boot.entryFlags e) &&& (2 ^ 52 - 2 ^ 21) = 0 := by
      rcases entryFlags_cases boot e with plain | framebuffer
      · rw [plain]
        decide
      · rw [framebuffer]
        decide
    have field := @field_lor 21 52 (p / largePageSize * largePageSize) _ (by decide) (Dvd.intro_left _ rfl)
      (by unfold largePageSize; omega) flags
    have mask : largeMask = 2 ^ 52 - 2 ^ 21 := by decide
    have depth : leafDepth largePageSize = 3 := by decide
    unfold bigLeaf
    rw [leafEntry_big (.inl rfl), masked, depth]
    simp only [Nat.reduceSub, leafAddress]
    rw [mask, field]
    refine congrArg some ?_
    unfold largePageSize pageSize jumboPageSize at *
    omega
  · have flags : (ptePresent ||| ptePs ||| boot.entryFlags e) &&& (2 ^ 52 - 2 ^ 30) = 0 := by
      rcases entryFlags_cases boot e with plain | framebuffer
      · rw [plain]
        decide
      · rw [framebuffer]
        decide
    have field := @field_lor 30 52 (p / jumboPageSize * jumboPageSize) _ (by decide) (Dvd.intro_left _ rfl)
      (by unfold jumboPageSize; omega) flags
    have mask : jumboMask = 2 ^ 52 - 2 ^ 30 := by decide
    have depth : leafDepth jumboPageSize = 2 := by decide
    unfold bigLeaf
    rw [leafEntry_big (.inr rfl), masked, depth]
    simp only [Nat.reduceSub, leafAddress]
    rw [mask, field]
    refine congrArg some ?_
    unfold pageSize jumboPageSize at *
    omega

/-- PTE_PCD is what the entry of the memory map asks for. -/
theorem bigLeaf_uncached (big : BigPage size) (bound : p < 2 ^ 48) (hardware : boot.hypervisor = false) :
    (bigLeaf size (boot.entryFlags e) p).1 &&& ptePcd ≠ 0 ↔ e.type = .framebuffer := by
  obtain ⟨aligned, physical⟩ := @BigPage.place size p big bound
  have bit : ptePcd = 2 ^ 4 := by decide
  have value : (bigLeaf size (boot.entryFlags e) p).1.testBit 4 = decide (e.type = .framebuffer) := by
    unfold bigLeaf
    rw [leafEntry_big big, masked_large big bound, entry_bit aligned physical (by decide)]
    unfold BootInfo.entryFlags
    by_cases framebuffer : e.type = .framebuffer
    · simp only [hardware, framebuffer]
      decide
    · simp only [framebuffer, and_false, if_false, decide_false]
      decide
  rw [bit, Nat.and_two_pow, value]
  by_cases framebuffer : e.type = .framebuffer
  · simp [framebuffer]
  · simp [framebuffer]

theorem lastWidened_some {last : MemmapEntry} (found : lastWidened size p memmap = some last) :
    last ∈ memmap ∧ Widened size p last := by
  have widened := List.find?_some found
  exact ⟨List.mem_reverse.mp (List.mem_of_find?_eq_some found), by simpa using widened⟩

theorem lastWidened_isSome (member : e ∈ memmap) (widened : Widened size p e) :
    ∃ last, lastWidened size p memmap = some last := by
  apply Option.isSome_iff_exists.mp
  unfold lastWidened
  rw [List.find?_isSome]
  exact ⟨e, List.mem_reverse.mpr member, by simpa using widened⟩

end Leaves

section Ends

variable {size p : Nat} {e other : MemmapEntry}

/-- The large pages of an entry end less than a page before it does. -/
theorem widenedEnd_near (big : BigPage size) (nonempty : 0 < e.length) :
    e.base ≤ widenedEnd size e ∧ e.base + e.length < widenedEnd size e + pageSize := by
  unfold widenedEnd pageSize
  rcases big with rfl | rfl
  · unfold largePageSize
    omega
  · unfold jumboPageSize
    omega

theorem widenedEnd_aligned (size : Nat) (e : MemmapEntry) : size ∣ widenedEnd size e := Dvd.intro_left _ rfl

theorem PageInside.widened (big : BigPage size) (inside : PageInside p e) : Widened size p e := by
  have start : widenedStart size e ≤ e.base := Nat.div_mul_le_self e.base size
  have low := inside.low
  have high := inside.high
  refine ⟨by omega, ?_⟩
  obtain ⟨-, ends⟩ := @widenedEnd_near size e big (by unfold pageSize at *; omega)
  omega

/-- What begins a large page of an entry lies in it with all its bytes. -/
theorem Widened.next {start : Nat} (aligned : size ∣ start) (widened : Widened size start other) (low : start ≤ p)
    (high : p < start + size) : Widened size p other := by
  obtain ⟨a, rfl⟩ := aligned
  obtain ⟨b, ends⟩ := widenedEnd_aligned size other
  obtain ⟨first, last⟩ := widened
  refine ⟨by omega, ?_⟩
  rw [ends] at last ⊢
  have fewer : a + 1 ≤ b := Nat.lt_of_mul_lt_mul_left last
  have whole := Nat.mul_le_mul_left size fewer
  rw [Nat.mul_succ] at whole
  omega

end Ends

section Direct

variable {boot : BootInfo} {s s' : Phys} {top : Nat} {list : List Nat}

theorem direct_leaf (inv : Inv s list) (direct : DirectMapped s.hhdmOffset boot.memmap)
    (window : InKernelWindow (programHeaders boot.executable)) (ran : setupVmm boot s = .ok (top, s')) {p : Nat}
    (bound : p < 2 ^ 44) : walk s' top (indices (s'.hhdmOffset + p)) = directLeaf boot boot.memmap p := by
  obtain ⟨hhdm, walks⟩ := setupVmm_walk inv direct window ran
  rw [hhdm]
  have below := direct.belowKernel
  exact walks p (by omega)

/-- An address is mapped to its place exactly when it is in a large page of an entry. -/
theorem direct_translate (inv : Inv s list) (direct : DirectMapped s.hhdmOffset boot.memmap)
    (window : InKernelWindow (programHeaders boot.executable)) (ran : setupVmm boot s = .ok (top, s')) {p : Nat}
    (bound : p < 2 ^ 44) : translate s' top (s'.hhdmOffset + p) = some p ↔
      ∃ e ∈ boot.memmap, Widened boot.biggestPage p e := by
  have hhdm := (setupVmm_walk inv direct window ran).1
  have gigabytes := direct.gigabytes
  rw [← hhdm] at gigabytes
  unfold translate
  rw [pageWalk_eq, direct_leaf inv direct window ran bound, directLeaf]
  constructor
  · intro mapped
    cases found : lastWidened boot.biggestPage p boot.memmap with
    | none =>
      rw [found] at mapped
      cases mapped
    | some last => exact ⟨last, lastWidened_some found⟩
  · rintro ⟨e, member, widened⟩
    obtain ⟨last, found⟩ := lastWidened_isSome member widened
    rw [found, Option.map_some, Option.bind_some,
      bigLeaf_address (biggestPage_big boot) gigabytes (by omega) boot last, Option.map_some]
    refine congrArg some ?_
    obtain ⟨m, offset⟩ := gigabytes
    unfold pageSize jumboPageSize at *
    omega

end Direct

/-! The machine of `Stdlib.kernelMap`, with more entries in its memory map. -/

def bootOn (memmap : List MemmapEntry) : BootInfo := { imageBoot with memmap := memmap, hypervisor := false }

theorem bootOn_window (memmap : List MemmapEntry) :
    InKernelWindow (programHeaders (bootOn memmap).executable) := by
  change InKernelWindow (programHeaders imageBoot.executable)
  unfold InKernelWindow
  decide +kernel

theorem bootOn_boots {rest : List MemmapEntry} (noRegion : ∀ e ∈ rest, isUsableRegion e = false)
    (cheap : regionsCost (bootOn (Stdlib.kernelMap ++ rest)) 0xFFFF800000000000 (Stdlib.kernelMap ++ rest) ≤ 60) :
    ∃ s₀ list s top, setupPmm 0xFFFF800000000000 (Stdlib.kernelMap ++ rest) (fun _ => 7) = .ok s₀ ∧ Inv s₀ list ∧
      s₀.hhdmOffset = 0xFFFF800000000000 ∧ setupVmm (bootOn (Stdlib.kernelMap ++ rest)) s₀ = .ok (top, s) := by
  obtain ⟨s₀, list, boots, inv, hhdm, used, total, _⟩ := Stdlib.kernelMap_pmm
  have segments : segmentsCost (programHeaders imageBoot.executable) = 3 := by decide +kernel
  rw [← setupPmm_append noRegion] at boots
  refine ⟨s₀, list, ?_⟩
  rcases setupVmm_outcome inv (bootOn (Stdlib.kernelMap ++ rest)) imageBoot_segment rfl (by decide) (by decide)
    (by decide) with ⟨top, s, _, _, ran, _⟩ | ⟨_, full⟩ | ⟨_, refused⟩
  · exact ⟨s, top, boots, inv, hhdm, ran⟩
  · change _ < _ + segmentsCost (programHeaders imageBoot.executable) + regionsCost _ _ (Stdlib.kernelMap ++ rest) at full
    rw [hhdm, segments] at full
    omega
  · have accepted : Process.verifyElf64 imageBoot.executable = true := by decide +kernel
    cases accepted.symm.trans refused

section Coverage

variable {boot : BootInfo} {s s' : Phys} {top : Nat} {list : List Nat}

/-- setup_vmm maps every described byte to its place in the direct map exactly when no entry
ends behind its own large pages in a large page that is no entry's. -/
theorem hhdm_covered_iff (inv : Inv s list) (direct : DirectMapped s.hhdmOffset boot.memmap)
    (window : InKernelWindow (programHeaders boot.executable)) (ran : setupVmm boot s = .ok (top, s')) :
    Covered s' top boot.memmap ↔ EndsCovered boot.biggestPage boot.memmap := by
  have big := biggestPage_big boot
  constructor
  · intro covered e member nonempty behind
    have ends := direct.described e member
    apply (direct_translate inv direct window ran (by omega)).mp
    exact covered e member _ (widenedEnd_near big nonempty).1 behind
  · intro ends e member p low high
    have described := direct.described e member
    apply (direct_translate inv direct window ran (by omega)).mpr
    have start : widenedStart boot.biggestPage e ≤ e.base := Nat.div_mul_le_self e.base boot.biggestPage
    by_cases inside : p < widenedEnd boot.biggestPage e
    · exact ⟨e, member, by omega, inside⟩
    · have near := (@widenedEnd_near boot.biggestPage e big (by omega)).2
      obtain ⟨other, inMap, widened⟩ := ends e member (by omega) (by omega)
      have page : pageSize ≤ boot.biggestPage := by
        rcases big with size | size <;> rw [size] <;> decide
      exact ⟨other, inMap, widened.next (widenedEnd_aligned _ e) (by omega) (by omega)⟩

/- With the kernel's map alone. -/
theorem hhdm_covered_kernelMap : ∃ s₀ s top,
    setupPmm 0xFFFF800000000000 Stdlib.kernelMap (fun _ => 7) = .ok s₀ ∧
    setupVmm (bootOn Stdlib.kernelMap) s₀ = .ok (top, s) ∧ Covered s top Stdlib.kernelMap := by
  obtain ⟨s₀, list, s, top, boots, inv, hhdm, ran⟩ := @bootOn_boots [] (by simp) (by decide +kernel)
  rw [List.append_nil] at boots ran
  refine ⟨s₀, s, top, boots, ran, ?_⟩
  apply (hhdm_covered_iff inv ?_ (bootOn_window _) ran).mpr
  · unfold EndsCovered
    decide +kernel
  · rw [hhdm]
    exact ⟨by decide, by decide, by decide, by decide⟩

/- Two kilobytes to either side of the end of a large page. -/
def straddlingMap : List MemmapEntry := Stdlib.kernelMap ++ [⟨0x3FF800, 0x1000, .reserved⟩]

/-- The second half of such an entry is not mapped. -/
theorem hhdm_uncovered : ∃ s₀ list s top,
    setupPmm 0xFFFF800000000000 straddlingMap (fun _ => 7) = .ok s₀ ∧ Inv s₀ list ∧
    DirectMapped s₀.hhdmOffset straddlingMap ∧ setupVmm (bootOn straddlingMap) s₀ = .ok (top, s) ∧
    translate s top (s.hhdmOffset + 0x400000) = none ∧ ¬ Covered s top straddlingMap := by
  obtain ⟨s₀, list, s, top, boots, inv, hhdm, ran⟩ :=
    @bootOn_boots [⟨0x3FF800, 0x1000, .reserved⟩] (by decide) (by decide +kernel)
  have direct : DirectMapped s₀.hhdmOffset straddlingMap := by
    rw [hhdm]
    exact ⟨by decide, by decide, by decide, by decide⟩
  have missing : translate s top (s.hhdmOffset + 0x400000) = none := by
    have nobody : lastWidened largePageSize 0x400000 straddlingMap = none := by decide +kernel
    have leaf := direct_leaf inv direct (bootOn_window _) ran (by decide : 0x400000 < 2 ^ 44)
    have size : (bootOn straddlingMap).biggestPage = largePageSize := rfl
    unfold translate
    rw [pageWalk_eq, leaf]
    change ((((lastWidened largePageSize 0x400000 straddlingMap).map _).bind _).map _) = _
    rw [nobody]
    rfl
  refine ⟨s₀, list, s, top, boots, inv, direct, ran, missing, ?_⟩
  intro covered
  have mapped := covered ⟨0x3FF800, 0x1000, .reserved⟩ (by decide) 0x400000 (by decide) (by decide)
  rw [missing] at mapped
  cases mapped

end Coverage

section Caching

variable {boot : BootInfo} {s s' : Phys} {top size : Nat} {list : List Nat} {memmap : List MemmapEntry}

/-- Framebuffers whose large pages are their own are always told apart. -/
theorem lastAgrees_of_apart (big : BigPage size) (apart : ∀ e ∈ memmap, ∀ other ∈ memmap,
    e.type = .framebuffer → other.type ≠ .framebuffer →
      widenedEnd size e ≤ widenedStart size other ∨ widenedEnd size other ≤ widenedStart size e) :
    LastAgrees size memmap := by
  intro e member page inside last found
  obtain ⟨inMap, lastLow, lastHigh⟩ := lastWidened_some found
  obtain ⟨low, high⟩ := inside.widened big
  constructor
  · intro framebuffer
    by_contra plain
    have separate := apart last inMap e member framebuffer plain
    omega
  · intro framebuffer
    by_contra plain
    have separate := apart e member last inMap framebuffer plain
    omega

/-- On hardware, setup_vmm caches every page as its entry asks for exactly when the last
entry of the map over each page is of the same kind. -/
theorem hhdm_caching_iff (inv : Inv s list) (direct : DirectMapped s.hhdmOffset boot.memmap)
    (window : InKernelWindow (programHeaders boot.executable)) (hardware : boot.hypervisor = false)
    (ran : setupVmm boot s = .ok (top, s')) :
    CachedByEntry s' top boot.memmap ↔ LastAgrees boot.biggestPage boot.memmap := by
  have big := biggestPage_big boot
  have inMemory : ∀ e ∈ boot.memmap, ∀ page, PageInside page e → page < 2 ^ 44 := by
    intro e member page inside
    have described := direct.described e member
    have high := inside.high
    unfold pageSize at high
    omega
  have ends : ∀ e ∈ boot.memmap, ∀ page, PageInside page e → ∀ last,
      lastWidened boot.biggestPage page boot.memmap = some last →
      walk s' top (indices (s'.hhdmOffset + page)) = some (bigLeaf boot.biggestPage (boot.entryFlags last) page) := by
    intro e member page inside last found
    rw [direct_leaf inv direct window ran (inMemory e member page inside), directLeaf, found, Option.map_some]
  constructor
  · intro cached e member page inside last found
    obtain ⟨-, entry, left, walked, kind⟩ := cached e member page inside
    have same := Option.some.inj (walked.symm.trans (ends e member page inside last found))
    have uncached := @bigLeaf_uncached boot.biggestPage page boot last big
      (Nat.lt_trans (inMemory e member page inside) (by decide)) hardware
    rw [← same] at uncached
    exact uncached.symm.trans kind
  · intro agrees e member page inside
    obtain ⟨last, found⟩ := lastWidened_isSome member (inside.widened big)
    refine ⟨?_, _, _, ends e member page inside last found, ?_⟩
    · apply (direct_translate inv direct window ran (inMemory e member page inside)).mpr
      exact ⟨e, member, inside.widened big⟩
    · rw [← agrees e member page inside last found]
      exact bigLeaf_uncached big (Nat.lt_trans (inMemory e member page inside) (by decide)) hardware

/- A framebuffer in a large page of its own. -/
theorem hhdm_caching_framebuffer : ∃ s₀ s top,
    setupPmm 0xFFFF800000000000 (Stdlib.kernelMap ++ [⟨0x40000000, 0x200000, .framebuffer⟩]) (fun _ => 7) = .ok s₀ ∧
    setupVmm (bootOn (Stdlib.kernelMap ++ [⟨0x40000000, 0x200000, .framebuffer⟩])) s₀ = .ok (top, s) ∧
    CachedByEntry s top (Stdlib.kernelMap ++ [⟨0x40000000, 0x200000, .framebuffer⟩]) := by
  obtain ⟨s₀, list, s, top, boots, inv, hhdm, ran⟩ :=
    @bootOn_boots [⟨0x40000000, 0x200000, .framebuffer⟩] (by decide) (by decide +kernel)
  refine ⟨s₀, s, top, boots, ran, ?_⟩
  apply (hhdm_caching_iff inv ?_ (bootOn_window _) rfl ran).mpr
  · apply lastAgrees_of_apart (biggestPage_big _)
    decide +kernel
  · rw [hhdm]
    exact ⟨by decide, by decide, by decide, by decide⟩

/- A framebuffer behind the usable memory, in its last large page. -/
def sharedMap : List MemmapEntry := Stdlib.kernelMap ++ [⟨0x300000, 0x1000, .framebuffer⟩]

/-- The usable memory in that large page is mapped with PTE_PCD. -/
theorem hhdm_uncached_memory : ∃ s₀ list s top,
    setupPmm 0xFFFF800000000000 sharedMap (fun _ => 7) = .ok s₀ ∧ Inv s₀ list ∧
    sharedMap.Pairwise (fun a b => a.base + a.length ≤ b.base ∨ b.base + b.length ≤ a.base) ∧
    DirectMapped s₀.hhdmOffset sharedMap ∧ setupVmm (bootOn sharedMap) s₀ = .ok (top, s) ∧
    (∃ entry left, walk s top (indices (s.hhdmOffset + 0x200000)) = some (entry, left) ∧ entry &&& ptePcd ≠ 0) ∧
    ¬ CachedByEntry s top sharedMap := by
  obtain ⟨s₀, list, s, top, boots, inv, hhdm, ran⟩ :=
    @bootOn_boots [⟨0x300000, 0x1000, .framebuffer⟩] (by decide) (by decide +kernel)
  have direct : DirectMapped s₀.hhdmOffset sharedMap := by
    rw [hhdm]
    exact ⟨by decide, by decide, by decide, by decide⟩
  have found : lastWidened largePageSize 0x200000 sharedMap = some ⟨0x300000, 0x1000, .framebuffer⟩ := by
    decide +kernel
  have leaf := direct_leaf inv direct (bootOn_window _) ran (by decide : 0x200000 < 2 ^ 44)
  have uncached := (@bigLeaf_uncached largePageSize 0x200000 (bootOn sharedMap) ⟨0x300000, 0x1000, .framebuffer⟩
    (.inl rfl) (by decide) rfl).mpr rfl
  have walked : walk s top (indices (s.hhdmOffset + 0x200000)) =
      some (bigLeaf largePageSize ((bootOn sharedMap).entryFlags ⟨0x300000, 0x1000, .framebuffer⟩) 0x200000) := by
    rw [leaf]
    change (lastWidened largePageSize 0x200000 sharedMap).map _ = _
    rw [found]
    rfl
  refine ⟨s₀, list, s, top, boots, inv, by decide, direct, ran, ⟨_, _, walked, uncached⟩, ?_⟩
  intro cached
  obtain ⟨-, entry, left, here, kind⟩ := cached ⟨0x100000, 0x140000, .usable⟩ (by decide) 0x200000
    ⟨by decide, by decide, by decide⟩
  have same := Option.some.inj (here.symm.trans walked)
  rw [← same] at uncached
  cases kind.mp uncached

end Caching

end EvalynOS.Vmm
