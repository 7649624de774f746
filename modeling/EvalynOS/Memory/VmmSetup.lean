import EvalynOS.Libc.Boot
import EvalynOS.Memory.VmmKernel
import EvalynOS.Process.Elf

/-! setup_vmm of memory/vmm.c: the top level of the kernel, the segments of its image and the
direct map. Afterwards every entry of the upper half of the top level has a table. -/
namespace EvalynOS.Vmm
open Lib Lib.Word Pmm
open Process (File ProgramHeader verifyElf64 programHeaders elfProgWrite elfProgExecFlag)
open Stdlib (TopLevel Took setupTopLevel setupTopLevel_outcome topFlags)

/- What setup_vmm is told by the boot loader, the processor and the command line. -/
structure BootInfo where
  executable : File
  physicalBase : Nat
  memmap : List MemmapEntry
  has1GbPages : Bool
  hypervisor : Bool
  dbgstubEnabled : Bool

inductive SetupPanic where
  | memory (panic : Panic)
  | invalidKernel
  deriving DecidableEq, Repr

def SetupPanic.message : SetupPanic → String
  | .memory panic => panic.message
  | .invalidKernel => "VMM: Kernel elf file was invalid"

def kernelBase : Nat := 0xffffffff80000000

namespace BootInfo

variable (boot : BootInfo)

def segmentFlags (ph : ProgramHeader) : Nat :=
  let flags := ptePresent ||| pteGlobal
  let flags := if ph.flags &&& elfProgWrite ≠ 0 then flags ||| pteWritable else flags
  let flags := if boot.dbgstubEnabled then flags ||| pteWritable else flags
  if ph.flags &&& elfProgExecFlag = 0 then flags ||| pteNx else flags

def entryFlags (e : MemmapEntry) : Nat :=
  let flags := ptePresent ||| pteWritable ||| pteNx
  if ¬ boot.hypervisor ∧ e.type = .framebuffer then flags ||| (ptePcd ||| ptePat) else flags

def biggestPage : Nat := if boot.has1GbPages then jumboPageSize else largePageSize

end BootInfo

/- The number of pages a segment of the kernel gets. -/
def segmentPages (ph : ProgramHeader) : Nat := alignUp ph.memSize pageSize / pageSize

/- The loop over the program headers of the kernel. -/
def mapSegments (boot : BootInfo) (topLevel : Nat) : List ProgramHeader → Phys → Except Panic Phys
  | [], s => .ok s
  | ph :: rest, s =>
    if ¬ ph.isLoad then mapSegments boot topLevel rest s
    else do
      let s ← vmmMapPagesContinuous s topLevel ph.virtAddr
        (wsub (wadd boot.physicalBase ph.virtAddr) kernelBase) (segmentPages ph) (boot.segmentFlags ph)
      mapSegments boot topLevel rest s

/- The loop of vmm_map_pages_hhdm; the first number bounds its rounds. -/
def mapHhdm (topLevel flags size virtEnd : Nat) : Nat → Nat → Nat → Phys → Except Panic Phys
  | 0, _, _, s => .ok s
  | rounds + 1, va, pa, s =>
    if va < virtEnd then do
      let s ← vmmMapPageSized s topLevel va pa flags size
      mapHhdm topLevel flags size virtEnd rounds (wadd va size) (wadd pa size) s
    else .ok s

def hhdmEnd (virt pages size : Nat) : Nat := alignUp (wadd virt (pages * pageSize % 2 ^ 64)) size

/- Both ends are multiples of the size, so the loop stops after this many rounds. -/
def hhdmRounds (virt pages size : Nat) : Nat := (hhdmEnd virt pages size - alignDown virt size) / size

def vmmMapPagesHhdm (s : Phys) (topLevel virt phys pages flags size : Nat) : Except Panic Phys :=
  mapHhdm topLevel flags size (hhdmEnd virt pages size) (hhdmRounds virt pages size) (alignDown virt size)
    (alignDown phys size) s

/- The virtual address and the number of pages of a region in the direct map. -/
def regionVirt (hhdmOffset : Nat) (e : MemmapEntry) : Nat := wadd (alignDown e.base pageSize) hhdmOffset
def regionPages (e : MemmapEntry) : Nat := alignUp e.length pageSize / 4096

/- The loop over the memory map. -/
def mapRegions (boot : BootInfo) (topLevel : Nat) : List MemmapEntry → Phys → Except Panic Phys
  | [], s => .ok s
  | e :: rest, s => do
    let s ← vmmMapPagesHhdm s topLevel (regionVirt s.hhdmOffset e) (alignDown e.base pageSize)
      (regionPages e) (boot.entryFlags e) boot.biggestPage
    mapRegions boot topLevel rest s

/-- setup_vmm, with kernel_pagemap.top_level for its result. -/
def setupVmm (boot : BootInfo) (s : Phys) : Except SetupPanic (Nat × Phys) := do
  let (topLevel, s) ← (setupTopLevel s).mapError .memory
  if ¬ verifyElf64 boot.executable then .error .invalidKernel
  else do
    let s ← (mapSegments boot topLevel (programHeaders boot.executable) s).mapError .memory
    let s ← (mapRegions boot topLevel boot.memmap s).mapError .memory
    .ok (topLevel, s)

theorem topLevel_entry {s : Phys} {top i : Nat} {done : List Nat} {page : Nat → Nat}
    (level : TopLevel s top done page) (layout : Layout s.hhdmOffset s.tables) (member : i ∈ done) :
    child s top i = some (page i + s.hhdmOffset) ∧ isLarge (pte s top i) = false := by
  obtain ⟨aligned, _, mapped, physical⟩ := layout.page_bounds (level.pages i member).1
  have flags : IsFlags (pteWritable ||| pteLocked) := by
    unfold IsFlags
    decide
  have whole : topFlags = ptePresent ||| (pteWritable ||| pteLocked) := by decide
  obtain ⟨present, address⟩ := flags.entry aligned physical
  rw [← whole] at present address
  rw [child_eq, level.entries i member, if_pos present]
  unfold tableOf isLarge
  rw [address, wadd_eq (by omega), entry_bit aligned physical (by decide), Bool.and_eq_false_iff]
  exact ⟨rfl, .inr (by decide)⟩

/-- The top level with the tables that setup_vmm makes at first. -/
theorem topLevel_typed {s : Phys} {top : Nat} {done : List Nat} {page : Nat → Nat}
    (level : TopLevel s top done page) (layout : Layout s.hhdmOffset s.tables) :
    ∃ (levels : Levels) (q : Nat), Typed s levels ∧ levels q = some 4 ∧ top = q + s.hhdmOffset ∧
      ∀ n, Small s levels n := by
  obtain ⟨q, usedQ, rfl⟩ := level.frame
  let levels : Levels := fun r => if r = q then some 4 else if ∃ i ∈ done, page i = r then some 3 else none
  have atTop : levels q = some 4 := if_pos rfl
  have pages : ∀ i ∈ done, levels (page i) = some 3 := by
    intro i member
    have different : page i ≠ q := by
      intro same
      exact (level.pages i member).2 (by rw [same])
    simp only [levels, if_neg different]
    exact if_pos ⟨i, member, rfl⟩
  have known : ∀ r n, levels r = some n → (n = 4 ∧ r = q) ∨ (n = 3 ∧ ∃ i ∈ done, page i = r) := by
    intro r n here
    simp only [levels] at here
    split at here
    · rename_i isTop
      exact .inl ⟨(Option.some.inj here).symm, isTop⟩
    · split at here
      · rename_i isPage
        exact .inr ⟨(Option.some.inj here).symm, isPage⟩
      · cases here
  have entry := fun i (member : i ∈ done) => topLevel_entry level layout member
  have small : ∀ n, Small s levels n := by
    intro n r i here bound
    rcases known r n here with ⟨_, rfl⟩ | ⟨_, j, member, rfl⟩
    · by_cases member : i ∈ done
      · exact (entry i member).2
      · rw [level.rest i bound member, isLarge_zero]
    · rw [level.tables j member i bound, isLarge_zero]
  refine ⟨levels, q, ⟨?_, ?_, fun r i => small 4 r i⟩, atTop, rfl, small⟩
  · intro r n here
    rcases known r n here with ⟨_, rfl⟩ | ⟨_, i, member, rfl⟩
    · exact usedQ
    · exact (level.pages i member).1
  · intro r n i t here bound _ link
    rcases known r _ here with ⟨isFour, rfl⟩ | ⟨_, j, member, rfl⟩
    · cases isFour
      by_cases member : i ∈ done
      · rw [(entry i member).1] at link
        exact ⟨page i, pages i member, (Option.some.inj link).symm⟩
      · rw [child_eq, level.rest i bound member, isPresent_zero] at link
        cases link
    · rw [child_eq, level.tables j member i bound, isPresent_zero] at link
      cases link

/-- The state that the loops of setup_vmm work on: the walk of an address meets no large
page above level `n`. -/
structure Setting (s : Phys) (level : Levels) (q n : Nat) : Prop where
  inv : ∃ list, Inv s list
  typed : Typed s level
  top : level q = some 4
  small : ∀ m, n ≤ m → Small s level m

/-- A loop that goes on in such a state, keeps the top level, and takes at most `cost` pages. -/
structure Continued (s s' : Phys) (level level' : Levels) (q n cost : Nat) : Prop where
  setting : Setting s' level' q n
  grown : Grown s s' level level' 4
  cost : s'.usedPages ≤ s.usedPages + cost

/- The loop goes on, or the memory is too small for it. -/
def Continues (result : Except Panic Phys) (s : Phys) (level : Levels) (q n cost : Nat)
    (also : Phys → Prop) : Prop :=
  (∃ s' level', result = .ok s' ∧ Continued s s' level level' q n cost ∧ also s') ∨
    (result = .error .outOfMemory ∧ s.totalPages < s.usedPages + cost)

section Loops

variable {s s' : Phys} {level level' : Levels} {q n : Nat}

theorem Continued.trans {s'' : Phys} {level'' : Levels} {m k : Nat} (one : Continued s s' level level' q n m)
    (two : Continued s' s'' level' level'' q n k) : Continued s s'' level level'' q n (m + k) where
  setting := two.setting
  grown := one.grown.trans two.grown
  cost := by
    have first := one.cost
    have second := two.cost
    omega

theorem Continued.refl (setting : Setting s level q n) : Continued s s level level q n 0 :=
  ⟨setting, Grown.refl s level 4, Nat.le_refl _⟩

/-- One more round of a loop. -/
theorem Continues.bind {result : Except Panic Phys} {next : Phys → Except Panic Phys} {m k : Nat}
    {also then_ : Phys → Prop} (one : Continues result s level q n m also)
    (two : ∀ s' level', Continued s s' level level' q n m → also s' →
      Continues (next s') s' level' q n k then_) :
    Continues (result >>= next) s level q n (m + k) then_ := by
  rcases one with ⟨s', level', ran, continued, fact⟩ | ⟨failed, full⟩
  · rcases two s' level' continued fact with ⟨s'', level'', ran', continued', fact'⟩ | ⟨failed, full⟩
    · refine .inl ⟨s'', level'', ?_, continued.trans continued', fact'⟩
      rw [ran]
      exact ran'
    · right
      have cost := continued.cost
      have total := continued.grown.total
      refine ⟨?_, by omega⟩
      rw [ran]
      exact failed
  · right
    refine ⟨?_, by omega⟩
    rw [failed]
    rfl

theorem Setting.grown {lowest : Nat} (setting : Setting s level q n) (grown : Grown s s' level level' lowest)
    (below : lowest ≤ n) (typed : Typed s' level') {list : List Nat} (inv : Inv s' list) :
    Setting s' level' q n where
  inv := ⟨list, inv⟩
  typed := typed
  top := grown.levels q 4 setting.top
  small := fun m above => grown.small (below.trans above) (setting.small m above)

/-- The pages of a segment. -/
theorem mapContinuous_continues (virt phys flags count i : Nat) (setting : Setting s level q 2) :
    Continues (mapContinuous (q + s.hhdmOffset) virt phys flags count i s) s level q 2 (3 * count)
      (fun s' => 0 < count → isPresent (pte s' (q + s.hhdmOffset) (pml4i (wadd virt (i * pageSize)))) = true) := by
  induction count generalizing s level i with
  | zero => exact .inl ⟨s, level, rfl, Continued.refl setting, fun no => absurd no (Nat.lt_irrefl 0)⟩
  | succ count ih =>
    obtain ⟨list, inv⟩ := setting.inv
    have outside := not_inLargePage setting.typed setting.top (setting.small 3 (by omega))
      (setting.small 2 (by omega)) (wadd virt (i * pageSize))
    have cost : 3 * (count + 1) = 3 + 3 * count := by omega
    have one : Continues (vmmMapPage s (q + s.hhdmOffset) (wadd virt (i * pageSize))
        (wadd phys (i * pageSize)) flags) s level q 2 3 (fun s' =>
          isPresent (pte s' (q + s.hhdmOffset) (pml4i (wadd virt (i * pageSize)))) = true) := by
      rcases vmmMapPage_typed inv setting.typed setting.top outside (wadd phys (i * pageSize)) flags with
        ⟨s', list', level', ran, inv', mapped, used⟩ | ⟨failed, full⟩
      · exact .inl ⟨s', level', ran, ⟨setting.grown mapped.grown (Nat.le_refl 2) mapped.typed inv',
          mapped.grown.mono (by omega), used⟩, mapped.slot⟩
      · exact .inr ⟨failed, full⟩
    rw [cost]
    apply one.bind
    intro s₁ level₁ continued slot
    have hhdm := continued.grown.hhdm
    rw [← hhdm]
    rcases ih (i + 1) continued.setting with ⟨s', level', ran, continued', _⟩ | failed
    · refine .inl ⟨s', level', ran, continued', fun _ => ?_⟩
      obtain ⟨_, _, _, bound4⟩ := pml_lt (wadd virt (i * pageSize))
      rw [← hhdm] at slot
      rw [continued'.grown.kept q 4 _ continued.setting.top (Nat.le_refl 4) bound4 slot]
      exact slot
    · exact .inr failed

/- The pages that the segments take at most. -/
def segmentsCost (headers : List ProgramHeader) : Nat :=
  ((headers.filter ProgramHeader.isLoad).map (fun ph => 3 * segmentPages ph)).sum

theorem mapSegments_continues (boot : BootInfo) (headers : List ProgramHeader) (setting : Setting s level q 2) :
    Continues (mapSegments boot (q + s.hhdmOffset) headers s) s level q 2 (segmentsCost headers)
      (fun s' => ∀ ph ∈ headers, ph.isLoad = true → 0 < segmentPages ph →
        isPresent (pte s' (q + s.hhdmOffset) (pml4i ph.virtAddr)) = true) := by
  induction headers generalizing s level with
  | nil =>
    exact .inl ⟨s, level, rfl, Continued.refl setting, fun _ member => absurd member List.not_mem_nil⟩
  | cons ph rest ih =>
    by_cases isLoad : ph.isLoad = true
    · have cost : segmentsCost (ph :: rest) = 3 * segmentPages ph + segmentsCost rest := by
        simp only [segmentsCost, List.filter_cons_of_pos isLoad, List.map_cons, List.sum_cons]
      have unfolded : mapSegments boot (q + s.hhdmOffset) (ph :: rest) s =
          vmmMapPagesContinuous s (q + s.hhdmOffset) ph.virtAddr
            (wsub (wadd boot.physicalBase ph.virtAddr) kernelBase) (segmentPages ph) (boot.segmentFlags ph) >>=
          mapSegments boot (q + s.hhdmOffset) rest := by
        simp only [mapSegments, isLoad, not_true_eq_false, ↓reduceIte]
      rw [cost, unfolded]
      apply (mapContinuous_continues _ _ _ _ 0 setting).bind
      intro s₁ level₁ continued slot
      have hhdm := continued.grown.hhdm
      rw [← hhdm]
      rcases ih continued.setting with ⟨s', level', ran, continued', slots⟩ | failed
      · refine .inl ⟨s', level', ran, continued', ?_⟩
        intro other member load positive
        rcases List.mem_cons.mp member with rfl | later
        · obtain ⟨_, _, _, bound4⟩ := pml_lt other.virtAddr
          have first : pml4i (wadd other.virtAddr (0 * pageSize)) = pml4i other.virtAddr := by
            unfold wadd pml4i
            simp only [index_eq_mod, Nat.shiftRight_eq_div_pow]
            omega
          have present := slot positive
          rw [first, ← hhdm] at present
          rw [continued'.grown.kept q 4 _ continued.setting.top (Nat.le_refl 4) bound4 present]
          exact present
        · exact slots other later load positive
      · exact .inr failed
    · have cost : segmentsCost (ph :: rest) = segmentsCost rest := by
        simp only [segmentsCost, List.filter_cons_of_neg isLoad]
      have unfolded : mapSegments boot (q + s.hhdmOffset) (ph :: rest) s =
          mapSegments boot (q + s.hhdmOffset) rest s := if_pos isLoad
      rw [cost, unfolded]
      rcases ih setting with ⟨s', level', ran, continued, slots⟩ | failed
      · refine .inl ⟨s', level', ran, continued, ?_⟩
        intro other member load positive
        rcases List.mem_cons.mp member with rfl | later
        · exact absurd load isLoad
        · exact slots other later load positive
      · exact .inr failed

/- The level above which the pages of the direct map are entered. -/
def BootInfo.above (boot : BootInfo) : Nat := if boot.has1GbPages then 4 else 3

theorem mapHhdm_continues (boot : BootInfo) (flags virtEnd rounds va pa : Nat)
    (setting : Setting s level q boot.above) :
    Continues (mapHhdm (q + s.hhdmOffset) flags boot.biggestPage virtEnd rounds va pa s) s level q boot.above
      (2 * rounds) (fun _ => True) := by
  induction rounds generalizing s level va pa with
  | zero => exact .inl ⟨s, level, rfl, Continued.refl setting, trivial⟩
  | succ rounds ih =>
    by_cases more : va < virtEnd
    · have cost : 2 * (rounds + 1) = 2 + 2 * rounds := by omega
      have unfolded : mapHhdm (q + s.hhdmOffset) flags boot.biggestPage virtEnd (rounds + 1) va pa s =
          vmmMapPageSized s (q + s.hhdmOffset) va pa flags boot.biggestPage >>=
          mapHhdm (q + s.hhdmOffset) flags boot.biggestPage virtEnd rounds (wadd va boot.biggestPage)
            (wadd pa boot.biggestPage) := by
        simp only [mapHhdm, if_pos more]
      obtain ⟨list, inv⟩ := setting.inv
      have large : (boot.biggestPage = jumboPageSize ∧ boot.above = 4) ∨ (boot.biggestPage = largePageSize ∧
          boot.above = 3 ∧ ∀ r i, level r = some 3 → i < 512 →
            isLarge (pte s (r + s.hhdmOffset) i) = false) := by
        cases big : boot.has1GbPages with
        | true =>
          left
          simp only [BootInfo.biggestPage, BootInfo.above, big, ↓reduceIte, and_self]
        | false =>
          have three : boot.above = 3 := by
            simp only [BootInfo.above, big, Bool.false_eq_true, ↓reduceIte]
          right
          refine ⟨?_, three, setting.small 3 (by omega)⟩
          simp only [BootInfo.biggestPage, big, Bool.false_eq_true, ↓reduceIte]
      have four : boot.above ≤ 4 := by omega
      have one : Continues (vmmMapPageSized s (q + s.hhdmOffset) va pa flags boot.biggestPage) s level q
          boot.above 2 (fun _ => True) := by
        rcases @vmmMapPageSized_typed s level list q va inv setting.typed setting.top pa flags _ _ large with
          ⟨s', list', level', ran, inv', typed', grown, used⟩ | failed
        · exact .inl ⟨s', level', ran, ⟨setting.grown grown (Nat.le_refl _) typed' inv', grown.mono four,
            used⟩, trivial⟩
        · exact .inr failed
      rw [cost, unfolded]
      apply one.bind
      intro s₁ level₁ continued _
      rw [← continued.grown.hhdm]
      exact ih _ _ continued.setting
    · have unfolded : mapHhdm (q + s.hhdmOffset) flags boot.biggestPage virtEnd (rounds + 1) va pa s = .ok s := by
        simp only [mapHhdm, if_neg more]
      rw [unfolded]
      refine .inl ⟨s, level, rfl, ⟨setting, Grown.refl s level 4, Nat.le_add_right _ _⟩, trivial⟩

/- The pages that the direct map takes at most. -/
def regionsCost (boot : BootInfo) (hhdmOffset : Nat) (entries : List MemmapEntry) : Nat :=
  (entries.map (fun e => 2 * hhdmRounds (regionVirt hhdmOffset e) (regionPages e) boot.biggestPage)).sum

theorem mapRegions_continues (boot : BootInfo) (entries : List MemmapEntry)
    (setting : Setting s level q boot.above) :
    Continues (mapRegions boot (q + s.hhdmOffset) entries s) s level q boot.above
      (regionsCost boot s.hhdmOffset entries) (fun _ => True) := by
  induction entries generalizing s level with
  | nil => exact .inl ⟨s, level, rfl, Continued.refl setting, trivial⟩
  | cons e rest ih =>
    have cost : regionsCost boot s.hhdmOffset (e :: rest) =
        2 * hhdmRounds (regionVirt s.hhdmOffset e) (regionPages e) boot.biggestPage +
          regionsCost boot s.hhdmOffset rest := by
      simp only [regionsCost, List.map_cons, List.sum_cons]
    have unfolded : mapRegions boot (q + s.hhdmOffset) (e :: rest) s =
        vmmMapPagesHhdm s (q + s.hhdmOffset) (regionVirt s.hhdmOffset e) (alignDown e.base pageSize)
          (regionPages e) (boot.entryFlags e) boot.biggestPage >>= mapRegions boot (q + s.hhdmOffset) rest := rfl
    rw [cost, unfolded]
    apply (mapHhdm_continues boot _ _ _ _ _ setting).bind
    intro s₁ level₁ continued _
    rw [← continued.grown.hhdm]
    exact ih continued.setting

/-- setup_vmm gives every entry of the upper half a table, or runs out of memory, or does
not take the image for an executable. -/
theorem setupVmm_outcome {list : List Nat} (inv : Inv s list) (boot : BootInfo) {ph : ProgramHeader}
    (member : ph ∈ programHeaders boot.executable) (isLoad : ph.isLoad = true) (nonempty : 0 < ph.memSize)
    (high : kernelBase ≤ ph.virtAddr) (inside : ph.virtAddr + ph.memSize ≤ 2 ^ 64) :
    (∃ top s' list' level', setupVmm boot s = .ok (top, s') ∧ Inv s' list' ∧ KernelTables s' top level' ∧
      s'.hhdmOffset = s.hhdmOffset ∧ s'.totalPages = s.totalPages ∧
      s'.usedPages ≤ s.usedPages + 256 + segmentsCost (programHeaders boot.executable) +
        regionsCost boot s.hhdmOffset boot.memmap) ∨
    (setupVmm boot s = .error (.memory .outOfMemory) ∧
      s.totalPages < s.usedPages + 256 + segmentsCost (programHeaders boot.executable) +
        regionsCost boot s.hhdmOffset boot.memmap) ∨
    (setupVmm boot s = .error .invalidKernel ∧ verifyElf64 boot.executable = false) := by
  have pages : 0 < segmentPages ph := by
    have rounded : alignUp ph.memSize pageSize = Vma.roundup ph.memSize := by
      apply Vma.alignUp_roundup
      unfold kernelBase at high
      omega
    unfold segmentPages
    rw [rounded]
    exact Nat.div_pos (Nat.le_of_dvd (Vma.roundup_pos nonempty) (Vma.roundup_dvd _)) (by decide)
  have last : pml4i ph.virtAddr = 511 := by
    unfold pml4i kernelBase at *
    simp only [index_eq_mod, Nat.shiftRight_eq_div_pow]
    omega
  unfold setupVmm
  rcases setupTopLevel_outcome inv with ⟨top, s₁, list₁, done, page, made, inv₁, tops, filled, took⟩ | ⟨failed, full⟩
  · simp only [made, Except.mapError, bind, Except.bind]
    by_cases accepted : verifyElf64 boot.executable = true
    · simp only [accepted, not_true_eq_false, ↓reduceIte]
      obtain ⟨level₁, q, typed₁, atTop, rfl, small₁⟩ := topLevel_typed tops inv₁.layout
      have setting₁ : Setting s₁ level₁ q 2 := ⟨⟨list₁, inv₁⟩, typed₁, atTop, fun m _ => small₁ m⟩
      have took' := took.usedPages
      have total := took.total
      have hhdm := took.hhdm
      rcases mapSegments_continues boot (programHeaders boot.executable) setting₁ with
        ⟨s₂, level₂, ran₂, continued₂, slots⟩ | ⟨failed, full⟩
      · have hhdm₂ := continued₂.grown.hhdm
        have setting₂ : Setting s₂ level₂ q boot.above := by
          refine ⟨continued₂.setting.inv, continued₂.setting.typed, continued₂.setting.top, ?_⟩
          intro m above
          apply continued₂.setting.small
          unfold BootInfo.above at above
          split at above
          · omega
          · omega
        have cost₂ := continued₂.cost
        have total₂ := continued₂.grown.total
        have regions := mapRegions_continues boot boot.memmap setting₂
        rw [hhdm₂] at regions
        simp only [ran₂]
        rcases regions with ⟨s₃, level₃, ran₃, continued₃, _⟩ | ⟨failed, full⟩
        · left
          obtain ⟨list₃, inv₃⟩ := continued₃.setting.inv
          have hhdm₃ := continued₃.grown.hhdm
          have cost₃ := continued₃.cost
          have total₃ := continued₃.grown.total
          have kept := (continued₂.grown.trans continued₃.grown).kept q 4
          refine ⟨q + s₁.hhdmOffset, s₃, list₃, level₃, ?_, inv₃, ⟨continued₃.setting.typed,
            ⟨q, continued₃.setting.top, by rw [hhdm₃, hhdm₂]⟩, ?_⟩, by omega, by omega, ?_⟩
          · simp only [ran₃]
          · intro i low bound
            by_cases isLast : i = 511
            · have present := slots ph member isLoad pages
              rw [last, ← hhdm₂] at present
              have later := continued₃.grown.kept q 4 511 continued₂.setting.top (Nat.le_refl 4) (by omega) present
              rw [isLast, ← hhdm₂, later]
              exact present
            · have inDone := (filled i).mpr ⟨low, by omega⟩
              have present : isPresent (pte s₁ (q + s₁.hhdmOffset) i) = true := by
                rw [tops.entries i inDone]
                obtain ⟨aligned, _, _, physical⟩ := inv₁.layout.page_bounds (tops.pages i inDone).1
                rw [isPresent_eq, entry_bit aligned physical (by decide)]
                decide
              rw [kept i atTop (Nat.le_refl 4) bound present]
              exact present
          · rw [hhdm] at cost₃
            omega
        · right
          left
          simp only [failed]
          rw [hhdm] at full
          exact ⟨trivial, by omega⟩
      · right
        left
        simp only [failed]
        exact ⟨trivial, by omega⟩
    · right
      right
      have refused : verifyElf64 boot.executable = false := by simpa using accepted
      simp only [refused, Bool.false_eq_true, not_false_eq_true, ↓reduceIte, and_self]
  · right
    left
    simp only [failed, Except.mapError, bind, Except.bind]
    exact ⟨trivial, by omega⟩

end Loops

end EvalynOS.Vmm

/-! A kernel of one page, on the machine of `Stdlib.kernelMap`. -/
namespace EvalynOS.Process
open Vmm

/- The header of a file of the given class, with one program header behind it. -/
def headerBytes (bits : Nat) : List Nat :=
  [0x7F, 0x45, 0x4C, 0x46, bits, 1, 1, 0] ++ List.replicate 8 0 ++ [2, 0, 0x3E, 0, 1, 0, 0, 0] ++
    List.replicate 8 0 ++ [64, 0, 0, 0, 0, 0, 0, 0] ++ List.replicate 14 0 ++ [56, 0, 1, 0] ++ List.replicate 6 0

/- A program header for an executable page without data, at the address with these bytes. -/
def segmentBytes (virtAddr : List Nat) : List Nat :=
  [1, 0, 0, 0, 5, 0, 0, 0] ++ List.replicate 8 0 ++ virtAddr ++ List.replicate 16 0 ++
    [0, 0x10, 0, 0, 0, 0, 0, 0] ++ [0, 0x10, 0, 0, 0, 0, 0, 0]

def imageOf (bits : Nat) (virtAddr : List Nat) : File := fun a =>
  (headerBytes bits ++ segmentBytes virtAddr).getD a 0

def imageBoot : BootInfo where
  executable := imageOf 2 [0, 0, 0, 0x80, 0xFF, 0xFF, 0xFF, 0xFF]
  physicalBase := 0x100000
  memmap := Stdlib.kernelMap
  has1GbPages := false
  hypervisor := true
  dbgstubEnabled := false

theorem imageBoot_segment :
    (⟨1, 5, 0, 0xFFFFFFFF80000000, 0, 0x1000, 0x1000⟩ : ProgramHeader) ∈ programHeaders imageBoot.executable := by
  decide +kernel

end EvalynOS.Process
