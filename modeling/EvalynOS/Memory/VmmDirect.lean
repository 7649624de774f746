import EvalynOS.Memory.VmmSetup
import EvalynOS.Memory.VmmWalk

/-! The direct map that setup_vmm makes of the memory map: every entry is widened to large
pages, and the last entry whose large pages hold an address decides how it is mapped. -/
namespace EvalynOS.Vmm
open Lib Lib.Word Pmm
open Process (ProgramHeader programHeaders)
open Stdlib (TopLevel setupTopLevel_outcome)

/- The ends of the large pages of an entry. -/
def widenedStart (size : Nat) (e : MemmapEntry) : Nat := e.base / size * size
def widenedEnd (size : Nat) (e : MemmapEntry) : Nat :=
  (e.base / pageSize * pageSize + (e.length + (pageSize - 1)) / pageSize * pageSize + (size - 1)) / size * size

def Widened (size p : Nat) (e : MemmapEntry) : Prop := widenedStart size e ≤ p ∧ p < widenedEnd size e

instance (size p : Nat) (e : MemmapEntry) : Decidable (Widened size p e) :=
  inferInstanceAs (Decidable (widenedStart size e ≤ p ∧ p < widenedEnd size e))

/- The last entry whose large pages hold the address. -/
def lastWidened (size p : Nat) (memmap : List MemmapEntry) : Option MemmapEntry :=
  memmap.reverse.find? (fun e => Widened size p e)

/-- What the boot loader promises of the direct map: it is in the higher half, below the
kernel, starts at a whole gigabyte, and has room for the memory that is described. -/
structure DirectMapped (hhdmOffset : Nat) (memmap : List MemmapEntry) : Prop where
  higherHalf : 0xFFFF800000000000 ≤ hhdmOffset
  gigabytes : jumboPageSize ∣ hhdmOffset
  belowKernel : hhdmOffset + 2 ^ 44 ≤ kernelBase
  described : ∀ e ∈ memmap, e.base + e.length ≤ 2 ^ 44

/- A page table all of whose large pages have one size. -/
structure Mapping (s : Phys) (top size : Nat) : Prop where
  inv : ∃ list, Inv s list
  mixed : ∃ regions, Mixed s top regions ∧ ∀ r ∈ regions, r.size = size

/-- A step that puts new leaf entries over what the walks of the direct map ended at. -/
structure Overlaid (s s' : Phys) (top size : Nat) (layer : Nat → Option (Nat × Nat)) : Prop where
  mapping : Mapping s' top size
  hhdm : s'.hhdmOffset = s.hhdmOffset
  walk : ∀ p, s.hhdmOffset + p < 2 ^ 64 → walk s' top (indices (s.hhdmOffset + p)) =
    (layer p).or (walk s top (indices (s.hhdmOffset + p)))

section Loops

variable {s s' : Phys} {top size flags : Nat}

theorem Mapping.refl (mapping : Mapping s top size) : Overlaid s s top size (fun _ => none) :=
  ⟨mapping, rfl, fun _ _ => rfl⟩

theorem Overlaid.trans {s'' : Phys} {first second : Nat → Option (Nat × Nat)} (one : Overlaid s s' top size first)
    (two : Overlaid s' s'' top size second) : Overlaid s s'' top size (fun p => (second p).or (first p)) where
  mapping := two.mapping
  hhdm := two.hhdm.trans one.hhdm
  walk := fun p bound => by
    have last := two.walk p (by rw [one.hhdm]; exact bound)
    rw [one.hhdm, one.walk p bound] at last
    rw [last, Option.or_assoc]

theorem Overlaid.congr {layer layer' : Nat → Option (Nat × Nat)} (overlaid : Overlaid s s' top size layer)
    (same : ∀ p, s.hhdmOffset + p < 2 ^ 64 → layer' p = layer p) : Overlaid s s' top size layer' :=
  ⟨overlaid.mapping, overlaid.hhdm, fun p bound => by rw [same p bound, overlaid.walk p bound]⟩

theorem Mapping.call (mapping : Mapping s top size) (sized : PageSize size) {virt phys : Nat}
    (result : vmmMapPageSized s top virt phys flags size = .ok s') :
    Mapping s' top size ∧ Entered s s' top virt phys flags size := by
  obtain ⟨⟨list, inv⟩, regions, mixed, same⟩ := mapping
  obtain ⟨list', inv', mixed', entered⟩ := mixed.map_walk inv same sized result
  refine ⟨⟨⟨list', inv'⟩, _, mixed', ?_⟩, entered⟩
  intro r member
  rcases List.mem_cons.mp member with rfl | old
  · rfl
  · exact same r old

/-- In the higher half the indices up to the leaf entry are the number of the page. -/
theorem leafIndices_eq_iff (sized : PageSize size) {v w : Nat} (lowV : 0xFFFF800000000000 ≤ v) (highV : v < 2 ^ 64)
    (lowW : 0xFFFF800000000000 ≤ w) (highW : w < 2 ^ 64) :
    leafIndices size v = leafIndices size w ↔ v / size = w / size := by
  unfold leafIndices indices pml1i pml2i pml3i pml4i
  simp only [index_eq_mod, Nat.shiftRight_eq_div_pow]
  rcases sized.depth with ⟨rfl, depth⟩ | ⟨rfl, depth⟩ | ⟨rfl, depth⟩
  · rw [depth]
    simp only [List.take_succ_cons, List.take_zero, List.cons.injEq, and_true]
    unfold pageSize
    omega
  · rw [depth]
    simp only [List.take_succ_cons, List.take_zero, List.cons.injEq, and_true]
    unfold largePageSize
    omega
  · rw [depth]
    simp only [List.take_succ_cons, List.take_zero, List.cons.injEq, and_true]
    unfold jumboPageSize
    omega

/- The two sizes of the pages of the direct map. -/
def BigPage (size : Nat) : Prop := size = largePageSize ∨ size = jumboPageSize

theorem BigPage.sized (big : BigPage size) : PageSize size := big.elim (.inr ∘ .inl) (.inr ∘ .inr)

theorem biggestPage_big (boot : BootInfo) : BigPage boot.biggestPage := by
  unfold BootInfo.biggestPage
  split
  · exact .inr rfl
  · exact .inl rfl

/- The leaf entry for an address, and its distance from the last level. -/
def bigLeaf (size flags p : Nat) : Nat × Nat := (leafEntry size (p / size * size) flags, 4 - leafDepth size)

/-- One page of the direct map. -/
theorem Mapping.overlay (mapping : Mapping s top size) (big : BigPage size)
    (higherHalf : 0xFFFF800000000000 ≤ s.hhdmOffset) (gigabytes : jumboPageSize ∣ s.hhdmOffset) {k : Nat}
    (bound : s.hhdmOffset + k * size < 2 ^ 64)
    (result : vmmMapPageSized s top (s.hhdmOffset + k * size) (k * size) flags size = .ok s') :
    Overlaid s s' top size (fun p => if p / size = k then some (bigLeaf size flags p) else none) := by
  obtain ⟨mapping', entered⟩ := mapping.call big.sized result
  refine ⟨mapping', entered.hhdm, fun p inMap => ?_⟩
  have place := leafIndices_eq_iff big.sized (Nat.le_add_right_of_le (k := p) higherHalf) inMap
    (Nat.le_add_right_of_le (k := k * size) higherHalf) bound
  have number : (s.hhdmOffset + p) / size = (s.hhdmOffset + k * size) / size ↔ p / size = k := by
    obtain ⟨m, offset⟩ := gigabytes
    rcases big with rfl | rfl
    · unfold largePageSize jumboPageSize at *
      omega
    · unfold jumboPageSize at *
      omega
  rw [entered.walk]
  by_cases here : p / size = k
  · rw [if_pos (place.mpr (number.mpr here)), if_pos here]
    unfold bigLeaf
    rw [here]
    rfl
  · rw [if_neg (fun same => here (number.mp (place.mp same))), if_neg here]
    rfl

/-- The loop of vmm_map_pages_hhdm. -/
theorem mapHhdm_overlay (big : BigPage size) (rounds k : Nat) (mapping : Mapping s top size)
    (higherHalf : 0xFFFF800000000000 ≤ s.hhdmOffset) (gigabytes : jumboPageSize ∣ s.hhdmOffset)
    (bound : s.hhdmOffset + (k + rounds) * size < 2 ^ 64)
    (result : mapHhdm top flags size (s.hhdmOffset + (k + rounds) * size) rounds (s.hhdmOffset + k * size)
      (k * size) s = .ok s') : Overlaid s s' top size
        (fun p => if k ≤ p / size ∧ p / size < k + rounds then some (bigLeaf size flags p) else none) := by
  induction rounds generalizing s k with
  | zero =>
    cases result
    refine mapping.refl.congr fun p _ => ?_
    rw [if_neg (by omega)]
  | succ rounds ih =>
    have positive : 0 < size := by
      rcases big with rfl | rfl <;> decide
    have next : (k + 1) * size = k * size + size := Nat.succ_mul k size
    have regroup : k + (rounds + 1) = k + 1 + rounds := by omega
    have more : k * size + size ≤ (k + 1 + rounds) * size := by
      rw [← next]
      exact Nat.mul_le_mul_right size (Nat.le_add_right _ _)
    rw [regroup] at bound result
    have here : s.hhdmOffset + k * size < s.hhdmOffset + (k + 1 + rounds) * size := by omega
    rw [mapHhdm, if_pos here] at result
    obtain ⟨s₁, ran₁, result⟩ := bind_eq_ok.mp result
    have one := mapping.overlay big higherHalf gigabytes (by omega) ran₁
    have nextVirt : wadd (s.hhdmOffset + k * size) size = s.hhdmOffset + (k + 1) * size := by
      rw [wadd_eq (by omega), next, Nat.add_assoc]
    have nextPhys : wadd (k * size) size = (k + 1) * size := by
      rw [wadd_eq (by omega), next]
    rw [nextVirt, nextPhys, ← one.hhdm] at result
    rw [← one.hhdm] at higherHalf gigabytes bound
    refine (one.trans (ih (k + 1) one.mapping higherHalf gigabytes bound result)).congr fun p _ => ?_
    by_cases first : p / size = k
    · rw [if_pos (by omega), if_neg (by omega), if_pos first]
      rfl
    · rw [if_neg first, Option.or_none]
      exact if_congr (by omega) rfl rfl

theorem BigPage.alignDown {x : Nat} (big : BigPage size) (bound : x < 2 ^ 64) :
    alignDown x size = x / size * size := by
  rcases big with rfl | rfl
  · exact alignDown_pow (k := 21) (by decide) bound
  · exact alignDown_pow (k := 30) (by decide) bound

theorem BigPage.alignUp {x : Nat} (big : BigPage size) (bound : x + (size - 1) < 2 ^ 64) :
    alignUp x size = (x + (size - 1)) / size * size := by
  have rounded : Word.alignUp x size = wadd x (size - 1) / size * size := by
    rcases big with rfl | rfl
    · exact alignUp_pow (k := 21) (by decide)
    · exact alignUp_pow (k := 30) (by decide)
  rw [rounded, wadd_eq bound]

/-- The loop goes from the first to the last large page of the entry. -/
theorem region_rounds {hhdmOffset : Nat} {memmap : List MemmapEntry} {e : MemmapEntry} (big : BigPage size)
    (direct : DirectMapped hhdmOffset memmap) (member : e ∈ memmap) : ∃ rounds,
      widenedEnd size e = (e.base / size + rounds) * size ∧
      hhdmOffset + (e.base / size + rounds) * size < 2 ^ 64 ∧
      alignDown (regionVirt hhdmOffset e) size = hhdmOffset + e.base / size * size ∧
      alignDown (alignDown e.base pageSize) size = e.base / size * size ∧
      hhdmEnd (regionVirt hhdmOffset e) (regionPages e) size = hhdmOffset + (e.base / size + rounds) * size ∧
      hhdmRounds (regionVirt hhdmOffset e) (regionPages e) size = rounds := by
  have low := direct.higherHalf
  have high := direct.belowKernel
  have ends := direct.described e member
  obtain ⟨m, offset⟩ := direct.gigabytes
  have base : alignDown e.base pageSize = e.base / 4096 * 4096 := alignDown_page (by omega)
  have pages : regionPages e = (e.length + 4095) / 4096 := by
    unfold regionPages
    rw [alignUp_page (by omega), Nat.mul_div_cancel _ (by decide)]
  unfold kernelBase at high
  have virt : regionVirt hhdmOffset e = e.base / 4096 * 4096 + hhdmOffset := by
    unfold regionVirt
    rw [base, wadd_eq (by omega)]
  have bytes : regionPages e * pageSize % 2 ^ 64 = (e.length + 4095) / 4096 * 4096 := by
    rw [pages]
    unfold pageSize
    omega
  have stop : wadd (regionVirt hhdmOffset e) (regionPages e * pageSize % 2 ^ 64) =
      e.base / 4096 * 4096 + hhdmOffset + (e.length + 4095) / 4096 * 4096 := by
    rw [bytes, virt, wadd_eq (by omega)]
  have small : size ≤ 2 ^ 30 := by
    rcases big with rfl | rfl <;> decide
  have down : alignDown (regionVirt hhdmOffset e) size = hhdmOffset + e.base / size * size := by
    rw [virt, big.alignDown (by omega)]
    rcases big with rfl | rfl
    · unfold largePageSize jumboPageSize at *
      omega
    · unfold jumboPageSize at *
      omega
  have up : hhdmEnd (regionVirt hhdmOffset e) (regionPages e) size = hhdmOffset + widenedEnd size e := by
    rw [hhdmEnd, stop, big.alignUp (by omega)]
    unfold widenedEnd pageSize
    rcases big with rfl | rfl
    · unfold largePageSize jumboPageSize at *
      omega
    · unfold jumboPageSize at *
      omega
  obtain ⟨rounds, whole⟩ : ∃ rounds, widenedEnd size e = (e.base / size + rounds) * size := by
    refine ⟨widenedEnd size e / size - e.base / size, ?_⟩
    unfold widenedEnd pageSize
    rcases big with rfl | rfl
    · unfold largePageSize
      omega
    · unfold jumboPageSize
      omega
  have inside : hhdmOffset + (e.base / size + rounds) * size < 2 ^ 64 := by
    rw [← whole]
    unfold widenedEnd pageSize
    have rounded := Nat.div_mul_le_self
      (e.base / 4096 * 4096 + (e.length + (4096 - 1)) / 4096 * 4096 + (size - 1)) size
    omega
  refine ⟨rounds, whole, inside, down, ?_, ?_, ?_⟩
  · rw [base, big.alignDown (by omega)]
    rcases big with rfl | rfl
    · unfold largePageSize
      omega
    · unfold jumboPageSize
      omega
  · rw [up, whole]
  · rw [hhdmRounds, down, up, whole, Nat.add_sub_add_left, Nat.add_mul, Nat.add_sub_cancel_left]
    apply Nat.mul_div_cancel
    rcases big with rfl | rfl <;> decide

/-- The pages of one entry of the memory map. -/
theorem vmmMapPagesHhdm_overlay {memmap : List MemmapEntry} {e : MemmapEntry} (big : BigPage size)
    (mapping : Mapping s top size) (direct : DirectMapped s.hhdmOffset memmap) (member : e ∈ memmap)
    (result : vmmMapPagesHhdm s top (regionVirt s.hhdmOffset e) (alignDown e.base pageSize) (regionPages e) flags
      size = .ok s') : Overlaid s s' top size
        (fun p => if Widened size p e then some (bigLeaf size flags p) else none) := by
  obtain ⟨rounds, whole, bound, virt, phys, virtEnd, count⟩ := region_rounds big direct member
  rw [vmmMapPagesHhdm, virtEnd, count, virt, phys] at result
  refine (mapHhdm_overlay big rounds _ mapping direct.higherHalf direct.gigabytes bound result).congr fun p _ => ?_
  apply if_congr _ rfl rfl
  unfold Widened widenedStart
  rw [whole]
  have positive : 0 < size := by
    rcases big with rfl | rfl <;> decide
  rw [← Nat.le_div_iff_mul_le positive, Nat.div_lt_iff_lt_mul positive]

/- What the loop over the memory map puts at an address. -/
def directLeaf (boot : BootInfo) (entries : List MemmapEntry) (p : Nat) : Option (Nat × Nat) :=
  (lastWidened boot.biggestPage p entries).map (fun e => bigLeaf boot.biggestPage (boot.entryFlags e) p)

theorem lastWidened_cons (size p : Nat) (e : MemmapEntry) (rest : List MemmapEntry) :
    lastWidened size p (e :: rest) = (lastWidened size p rest).or (if Widened size p e then some e else none) := by
  unfold lastWidened
  rw [List.reverse_cons, List.find?_append]
  congr 1
  by_cases inside : Widened size p e
  · rw [if_pos inside]
    exact List.find?_cons_of_pos (by simpa using inside)
  · rw [if_neg inside]
    simp [inside]

/-- The loop over the memory map. -/
theorem mapRegions_overlay (boot : BootInfo) (memmap entries : List MemmapEntry) (sub : ∀ e ∈ entries, e ∈ memmap)
    (mapping : Mapping s top boot.biggestPage) (direct : DirectMapped s.hhdmOffset memmap)
    (result : mapRegions boot top entries s = .ok s') :
    Overlaid s s' top boot.biggestPage (directLeaf boot entries) := by
  induction entries generalizing s with
  | nil =>
    cases result
    exact mapping.refl
  | cons e rest ih =>
    obtain ⟨s₁, ran₁, result⟩ := bind_eq_ok.mp result
    have one := vmmMapPagesHhdm_overlay (biggestPage_big boot) mapping direct (sub e List.mem_cons_self) ran₁
    have others := ih (fun other member => sub other (List.mem_cons_of_mem e member)) one.mapping
      (one.hhdm.symm ▸ direct) result
    refine (one.trans others).congr fun p _ => ?_
    unfold directLeaf
    rw [lastWidened_cons, Option.map_or]
    congr 1
    split
    · rfl
    · rfl

/-- Before the loops: tables without an entry, in which no walk ends. -/
theorem topLevel_empty {list done : List Nat} {page : Nat → Nat} (inv : Inv s list)
    (level : TopLevel s top done page) : Mapping s top pageSize ∧ ∀ v, walk s top (indices v) = none := by
  have layout := inv.layout
  obtain ⟨q, usedQ, address⟩ := level.frame
  have entry : ∀ i ∈ done, link s top i = some (page i + s.hhdmOffset) := by
    intro i member
    obtain ⟨next, small⟩ := topLevel_entry level layout member
    rw [link_small small, next]
  have missing : ∀ i < 512, i ∉ done → isPresent (pte s top i) = false := by
    intro i bound fresh
    rw [level.rest i bound fresh, isPresent_zero]
  have empty : ∀ i ∈ done, ∀ j < 512, isPresent (pte s (page i + s.hhdmOffset) j) = false := by
    intro i member j bound
    rw [level.tables i member j bound, isPresent_zero]
  have none_ : ∀ {t i}, isPresent (pte s t i) = false → link s t i = none := by
    intro t i absent
    unfold link
    rw [absent]
    rfl
  have known : ∀ path t, Valid anywhere path → descend (link s) top path = some t →
      (path = [] ∧ t = top) ∨ ∃ i ∈ done, path = [i] ∧ t = page i + s.hhdmOffset := by
    intro path t valid found
    cases path with
    | nil => exact .inl ⟨rfl, (Option.some.inj found).symm⟩
    | cons i rest =>
      have boundI : i < 512 := valid.2.1 i List.mem_cons_self
      by_cases member : i ∈ done
      · simp only [descend, entry i member, Option.bind_some] at found
        cases rest with
        | nil => exact .inr ⟨i, member, rfl, (Option.some.inj found).symm⟩
        | cons j rest =>
          have boundJ : j < 512 := valid.2.1 j (List.mem_cons_of_mem _ List.mem_cons_self)
          simp only [descend, none_ (empty i member j boundJ), Option.bind_none] at found
          cases found
      · simp only [descend, none_ (missing i boundI member), Option.bind_none] at found
        cases found
  have mixed : Mixed s top [] := by
    refine ⟨?_, ?_, ?_⟩
    · intro left right t validLeft validRight toLeft toRight
      rcases known left t validLeft toLeft with ⟨rfl, rfl⟩ | ⟨i, inI, rfl, rfl⟩
      · rcases known right t validRight toRight with ⟨rfl, -⟩ | ⟨j, inJ, rfl, same⟩
        · rfl
        · exact absurd same.symm (level.pages j inJ).2
      · rcases known right _ validRight toRight with ⟨rfl, same⟩ | ⟨j, inJ, rfl, same⟩
        · exact absurd same (level.pages i inI).2
        · rw [level.distinct i inI j inJ (by omega)]
    · intro path t valid found
      rcases known path t valid found with ⟨-, rfl⟩ | ⟨i, member, -, rfl⟩
      · exact ⟨q, usedQ, address⟩
      · exact ⟨page i, (level.pages i member).1, rfl⟩
    · intro path t i valid found large
      have bound := (valid_index valid).1
      have plain : isPresent (pte s t i) = false ∨ isLarge (pte s t i) = false := by
        rcases known path t (valid_closed anywhere path [i] valid) found with ⟨-, rfl⟩ | ⟨j, member, -, rfl⟩
        · by_cases member : i ∈ done
          · exact .inr (topLevel_entry level layout member).2
          · exact .inl (missing i bound member)
        · exact .inl (empty j member i bound)
      rcases plain with absent | small
      · rw [isLarge, absent] at large
        cases large
      · rw [small] at large
        cases large
  refine ⟨⟨⟨list, inv⟩, [], mixed, by simp⟩, fun v => ?_⟩
  obtain ⟨-, -, three, four⟩ := pml_lt v
  by_cases member : pml4i v ∈ done
  · have here : descend (link s) top [pml4i v] = some (page (pml4i v) + s.hhdmOffset) := by
      simp only [descend, entry _ member, Option.bind_some]
    have split : indices v = [pml4i v] ++ [pml3i v, pml2i v, pml1i v] := rfl
    rw [split, walk_through here (List.cons_ne_nil _ _)]
    exact walk_stops (empty _ member _ three)
  · exact walk_stops (missing _ four member)

/-- The pages of one segment of the kernel, at addresses of the kernel. -/
theorem mapContinuous_below (count i virt phys : Nat) (mapping : Mapping s top pageSize)
    (high : ∀ j, i ≤ j → j < i + count → kernelBase ≤ virt + j * pageSize ∧ virt + j * pageSize < 2 ^ 64)
    (result : mapContinuous top virt phys flags count i s = .ok s') :
    Mapping s' top pageSize ∧ s'.hhdmOffset = s.hhdmOffset ∧
      ∀ v, 0xFFFF800000000000 ≤ v → v < kernelBase → walk s' top (indices v) = walk s top (indices v) := by
  induction count generalizing s i with
  | zero =>
    cases result
    exact ⟨mapping, rfl, fun _ _ _ => rfl⟩
  | succ count ih =>
    obtain ⟨s₁, ran₁, result⟩ := bind_eq_ok.mp result
    obtain ⟨above, bound⟩ := high i (Nat.le_refl i) (by omega)
    rw [wadd_eq bound] at ran₁
    obtain ⟨mapping₁, entered⟩ := mapping.call (.inl rfl) ran₁
    obtain ⟨mapping', hhdm, walks⟩ := ih (i + 1) mapping₁ (fun j low less => high j (by omega) (by omega)) result
    refine ⟨mapping', hhdm.trans entered.hhdm, fun v low below => ?_⟩
    rw [walks v low below, entered.walk, if_neg]
    rw [leafIndices_eq_iff (.inl rfl) low (by unfold kernelBase at below; omega)
      (by unfold kernelBase at above; omega) bound]
    unfold kernelBase pageSize at *
    omega

/-- The kernel's segments lie in the window that its linker script gives them. -/
def InKernelWindow (headers : List ProgramHeader) : Prop :=
  ∀ ph ∈ headers, ph.isLoad = true → kernelBase ≤ ph.virtAddr ∧ ph.virtAddr + ph.memSize ≤ 2 ^ 64

theorem mapSegments_below (boot : BootInfo) (headers : List ProgramHeader) (window : InKernelWindow headers)
    (mapping : Mapping s top pageSize) (result : mapSegments boot top headers s = .ok s') :
    Mapping s' top pageSize ∧ s'.hhdmOffset = s.hhdmOffset ∧
      ∀ v, 0xFFFF800000000000 ≤ v → v < kernelBase → walk s' top (indices v) = walk s top (indices v) := by
  induction headers generalizing s with
  | nil =>
    cases result
    exact ⟨mapping, rfl, fun _ _ _ => rfl⟩
  | cons ph rest ih =>
    have later : InKernelWindow rest := fun other member => window other (List.mem_cons_of_mem ph member)
    unfold mapSegments at result
    by_cases isLoad : ph.isLoad = true
    · rw [if_neg (by simpa using isLoad)] at result
      obtain ⟨s₁, ran₁, result⟩ := bind_eq_ok.mp result
      obtain ⟨low, ends⟩ := window ph List.mem_cons_self isLoad
      have pages : ∀ j, 0 ≤ j → j < 0 + segmentPages ph →
          kernelBase ≤ ph.virtAddr + j * pageSize ∧ ph.virtAddr + j * pageSize < 2 ^ 64 := by
        intro j _ inside
        have rounded : segmentPages ph = (ph.memSize + 4095) / 4096 := by
          unfold segmentPages
          unfold kernelBase at low
          rw [alignUp_page (by omega)]
          exact Nat.mul_div_cancel _ (by decide)
        unfold kernelBase pageSize at *
        omega
      obtain ⟨mapping₁, hhdm₁, walks₁⟩ := mapContinuous_below _ _ _ _ mapping pages ran₁
      obtain ⟨mapping', hhdm, walks⟩ := ih later mapping₁ result
      exact ⟨mapping', hhdm.trans hhdm₁, fun v above below => (walks v above below).trans (walks₁ v above below)⟩
    · rw [if_pos isLoad] at result
      exact ih later mapping result

/- Small pages stand in the way of no size. -/
theorem Mapping.enlarge (mapping : Mapping s top pageSize) : Mapping s top size := by
  obtain ⟨inv, regions, mixed, same⟩ := mapping
  refine ⟨inv, [], ⟨mixed.separated, mixed.frames, ?_⟩, by simp⟩
  intro path t i valid here large
  obtain ⟨r, member, notPage, -⟩ := mixed.large path t i valid here large
  exact absurd (same r member) notPage

/-- After setup_vmm the walk of every address of the direct map ends at the entry that the
last large page over it wrote, and nowhere if there is none. -/
theorem setupVmm_walk {boot : BootInfo} {list : List Nat} (inv : Inv s list)
    (direct : DirectMapped s.hhdmOffset boot.memmap) (window : InKernelWindow (programHeaders boot.executable))
    (ran : setupVmm boot s = .ok (top, s')) : s'.hhdmOffset = s.hhdmOffset ∧
      ∀ p, s.hhdmOffset + p < kernelBase →
        walk s' top (indices (s.hhdmOffset + p)) = directLeaf boot boot.memmap p := by
  obtain ⟨made, topRan, ran⟩ := bind_eq_ok.mp ran
  rcases setupTopLevel_outcome inv with ⟨top', s₁, list₁, done, page, taken, inv₁, level, -, took⟩ | ⟨failed, -⟩
  · cases taken.symm.trans (mapError_eq_ok.mp topRan)
    have empty := topLevel_empty inv₁ level
    have hhdm := took.hhdm
    change (if ¬ Process.verifyElf64 boot.executable = true then _ else _) = _ at ran
    split at ran
    · cases ran
    · obtain ⟨s₂, segments, ran⟩ := bind_eq_ok.mp ran
      obtain ⟨s₃, regions, ran⟩ := bind_eq_ok.mp ran
      cases ran
      obtain ⟨mapping₂, hhdm₂, walks₂⟩ := mapSegments_below boot _ window empty.1 (mapError_eq_ok.mp segments)
      have offset : s₂.hhdmOffset = s.hhdmOffset := hhdm₂.trans hhdm
      have overlaid := mapRegions_overlay boot boot.memmap boot.memmap (fun _ member => member) mapping₂.enlarge
        (offset.symm ▸ direct) (mapError_eq_ok.mp regions)
      have higherHalf := direct.higherHalf
      refine ⟨overlaid.hhdm.trans offset, fun p below => ?_⟩
      have before := (walks₂ (s.hhdmOffset + p) (Nat.le_add_right_of_le higherHalf) below).trans (empty.2 _)
      have final := overlaid.walk p (by
        rw [offset]
        unfold kernelBase at below
        omega)
      rwa [offset, before, Option.or_none] at final
  · cases failed.symm.trans (mapError_eq_ok.mp topRan)

end Loops

end EvalynOS.Vmm
