import EvalynOS.Process.Coherence

/-! load_elf and the kernel's half of the address space. A file whose pages all lie in the
lower half cannot change how the kernel's addresses are looked up. -/
namespace EvalynOS.Process
open Lib Lib.Word Pmm Vmm

/- The header of a 64-bit little-endian SYSV x86-64 executable. -/
structure Executable64 (header : ElfHeader) : Prop where
  magic : verifyElfMagic header = true
  headerVersion : header.headerVersion = elfHeaderVer
  elfVersion : header.elfVersion = elfVer
  bits : header.bits = elf64Bit
  endianness : header.endianness = elfLittleEndian
  arch : header.arch = elfX8664Arch
  abi : header.abi = elfSysvAbi
  type : header.type = elfExecutableType

def zeroInfo : ElfInfo := ⟨0, 0, 0, 0⟩

/- Nothing in the header shows in the result of load_elf. -/
def ZeroHeader (header : ElfHeader) : Prop :=
  header.entryPoint = 0 ∧ header.programHeaderTable = 0 ∧ header.programHeaderSize = 0 ∧
    header.programHeaderEntries = 0

/-- A segment whose pages all lie in the lower half, and whose first page holds the bytes
in front of it. -/
structure StaysLow (ph : ProgramHeader) : Prop where
  offset : 0 < ph.pagesToMap → ph.vaddrOffset ≤ pageSize
  pages : ∀ k < ph.pagesToMap, pml4i (wadd ph.firstVirtAddr (k * pageSize)) < 256

/- The lookup of an address reads the same entries as before. -/
def SameLookup (s s' : Phys) (topLevel v : Nat) : Prop :=
  pte s' topLevel (pml4i v) = pte s topLevel (pml4i v) ∧ walk s' topLevel v = walk s topLevel v

section Header

variable {file : File} {space : AddressSpace}

theorem number_lt (file : File) (offset n : Nat) : file.number offset n < 256 ^ n :=
  Memory.digits_lt (fun _ => Nat.mod_lt _ (by decide)) n

/-- The files that verify_elf_64 accepts: 32-bit files are among them. -/
theorem verifyElf64_iff : verifyElf64 file = true ↔ Executable64 (elfHeader file) ∨
    ((elfHeader file).bits = elf32Bit ∧
      Executable64 { elfHeader file with bits := elf64Bit }) := by
  unfold verifyElf64
  constructor
  · intro accepted
    simp only at accepted
    split at accepted
    · cases accepted
    · rename_i magic
      split at accepted
      · cases accepted
      · rename_i headerVersion
        split at accepted
        · cases accepted
        · rename_i elfVersion
          split at accepted
          · cases accepted
          · rename_i bits
            split at accepted
            · cases accepted
            · rename_i endianness
              split at accepted
              · cases accepted
              · rename_i arch
                split at accepted
                · cases accepted
                · rename_i abi
                  have type := of_decide_eq_true accepted
                  simp only [not_not, ne_eq] at magic headerVersion elfVersion endianness arch abi
                  by_cases wide : (elfHeader file).bits = elf64Bit
                  · exact .inl ⟨magic, headerVersion, elfVersion, wide, endianness, arch, abi, type⟩
                  · have narrow : (elfHeader file).bits = elf32Bit := by
                      by_contra other
                      exact bits ⟨wide, other⟩
                    exact .inr ⟨narrow, magic, headerVersion, elfVersion, rfl, endianness, arch, abi, type⟩
  · have both : elf64Bit ≠ elf32Bit := by decide
    rintro (good | ⟨narrow, good⟩)
    · simp [good.magic, good.headerVersion, good.elfVersion, good.bits, good.endianness, good.arch, good.abi,
        good.type]
    · have magic : verifyElfMagic (elfHeader file) = true := good.magic
      have headerVersion : (elfHeader file).headerVersion = elfHeaderVer := good.headerVersion
      have elfVersion : (elfHeader file).elfVersion = elfVer := good.elfVersion
      have endianness : (elfHeader file).endianness = elfLittleEndian := good.endianness
      have arch : (elfHeader file).arch = elfX8664Arch := good.arch
      have abi : (elfHeader file).abi = elfSysvAbi := good.abi
      have type : (elfHeader file).type = elfExecutableType := good.type
      simp [magic, headerVersion, elfVersion, narrow, endianness, arch, abi, type]

/-- Files of another kind are refused, with nothing changed, exactly when no 32-bit file is
taken for a 64-bit one. -/
theorem refuses_iff : (¬ Executable64 (elfHeader file) → loadElf file space = .ok (zeroInfo, space)) ↔
    ((elfHeader file).bits = elf32Bit → verifyElf64 file = true → ZeroHeader (elfHeader file)) := by
  constructor
  · intro refuses narrow accepted
    have not64 : ¬ Executable64 (elfHeader file) := by
      intro good
      have wide := good.bits
      rw [narrow] at wide
      cases wide
    have result := refuses not64
    simp only [loadElf, accepted, not_true_eq_false, ↓reduceIte, bind, Except.bind] at result
    split at result
    · cases result
    · rename_i space' loaded
      simp only [Except.ok.injEq, Prod.mk.injEq, zeroInfo, ElfInfo.mk.injEq] at result
      obtain ⟨⟨entry, phdr, size, entries⟩, _⟩ := result
      refine ⟨entry, ?_, size, entries⟩
      have none : programHeaders file = [] := by
        unfold programHeaders
        rw [entries]
        rfl
      have base : loadBase (programHeaders file) = 0 := by
        rw [none]
        rfl
      rw [base] at phdr
      have small : (elfHeader file).programHeaderTable < 2 ^ 64 := number_lt file 32 8
      rwa [wadd_eq (by omega), Nat.zero_add] at phdr
  · intro zero not64
    by_cases accepted : verifyElf64 file = true
    · rcases verifyElf64_iff.mp accepted with good | ⟨narrow, _⟩
      · exact absurd good not64
      · obtain ⟨entry, table, size, entries⟩ := zero narrow accepted
        have none : programHeaders file = [] := by
          unfold programHeaders
          rw [entries]
          rfl
        simp only [loadElf, accepted, not_true_eq_false, ↓reduceIte, none, loadSegments, bind, Except.bind,
          loadBase, List.find?_nil, entry, table, size, entries, zeroInfo]
        rfl
    · exact if_pos accepted

/-- load_elf returns when its segments are loaded. -/
theorem loadElf_loaded {space' : AddressSpace} (accepted : verifyElf64 file = true)
    (ran : loadSegments file (programHeaders file) space = .ok space') :
    ∃ info, loadElf file space = .ok (info, space') := by
  simp only [loadElf, accepted, not_true_eq_false, ↓reduceIte, ran, bind, Except.bind]
  exact ⟨_, rfl⟩

theorem loadElf_failed {e : Panic} (accepted : verifyElf64 file = true)
    (failed : loadSegments file (programHeaders file) space = .error e) : loadElf file space = .error e := by
  simp only [loadElf, accepted, not_true_eq_false, ↓reduceIte, failed, bind, Except.bind]

end Header

/-! The loops of load_elf on a process. -/

/- The kernel's tables hold what they held. -/
structure KernelKept (s s' : Phys) (level : Levels) : Prop where
  hhdm : s'.hhdmOffset = s.hhdmOffset
  entries : ∀ q n, level q = some n → ∀ i < 512,
    pte s' (q + s.hhdmOffset) i = pte s (q + s.hhdmOffset) i

section Kept

variable {s s' s'' : Phys} {level : Levels} {m : Machine} {u v : Nat}

theorem KernelKept.refl (s : Phys) (level : Levels) : KernelKept s s level := ⟨rfl, fun _ _ _ _ _ => rfl⟩

theorem KernelKept.trans (one : KernelKept s s' level) (two : KernelKept s' s'' level) :
    KernelKept s s'' level := by
  refine ⟨two.hhdm.trans one.hhdm, ?_⟩
  intro q n here i bound
  have second := two.entries q n here i bound
  rw [one.hhdm] at second
  exact second.trans (one.entries q n here i bound)

/-- With the kernel's tables the lookups through them stay, also those of a process. -/
theorem KernelKept.lookups {m' : Machine} (kept : KernelKept m.phys m'.phys level) (coherent : Coherent m level)
    (coherent' : Coherent m' level) (sameTop : m'.kernelTop = m.kernelTop) (upper : UpperHalf v) :
    SameLookup m.phys m'.phys m.kernelTop v ∧
      (u ∈ m.users → u ∈ m'.users → SameLookup m.phys m'.phys u v) := by
  obtain ⟨low, bound⟩ := upperHalf_pml4i upper
  obtain ⟨k, top, atTop⟩ := coherent.kernel.frame
  have entry : pte m'.phys m.kernelTop (pml4i v) = pte m.phys m.kernelTop (pml4i v) := by
    rw [atTop]
    exact kept.entries k 4 top _ bound
  have kernelWalk := walk_frame coherent.kernel upper kept.hhdm kept.entries
  refine ⟨⟨entry, kernelWalk⟩, ?_⟩
  intro live live'
  have before := coherent.shared u live _ low bound
  have after := coherent'.shared u live' _ low bound
  rw [sameTop] at after
  refine ⟨by rw [after, before, entry], ?_⟩
  rw [walk_congr after, walk_congr before]
  exact kernelWalk

/-- A new page for a process. -/
theorem Coherent.newPage (coherent : Coherent m level) (live : u ∈ m.users) (low : lowerHalf (pml4i v))
    {flags : Nat} (isFlags : IsFlags flags) :
    (∃ p s₁ s₂, allocatePage m.phys = .ok (p, s₁) ∧ s₁.hhdmOffset = m.phys.hhdmOffset ∧
      vmmMapPage s₁ u v p flags = .ok s₂ ∧ Coherent { m with phys := s₂ } level ∧
      KernelKept m.phys s₂ level ∧ OwnsLeaf s₂ u p) ∨
    mapNewPage m.phys u v flags = .error .outOfMemory := by
  obtain ⟨list, inv⟩ := coherent.inv
  rcases allocatePage_outcome inv with ⟨p, s₁, list₁, returned, inv₁, allocated⟩ | ⟨failed, _⟩
  · have coherent₁ := coherent.allocate inv₁ allocated
    obtain ⟨state, page, unused⟩ := allocated.fresh
    have notUsed : ¬ PageIs m.phys p .used := fun used => unused (inv.layout.page_unique page used)
    obtain ⟨aligned, _, _, physical⟩ := inv.layout.page_bounds page
    have masked := page_mask aligned physical
    have value := @mapped_page p flags isFlags
    rw [masked] at value
    rcases vmmMapPage_outcome inv₁ (coherent₁.users u live).tree low p flags with
      ⟨s₂, list₂, ran, inv₂, set, _⟩ | ⟨failed, _⟩
    · rw [masked] at set
      have others : (p :: m.pages).filter (fun q => q ≠ p) = m.pages := by
        rw [List.filter_cons_of_neg (by simp), List.filter_eq_self]
        intro q member
        have different : q ≠ p := by
          rintro rfl
          exact notUsed (coherent.pages q member).1
        simpa using different
      have coherent₂ : Coherent { m with phys := s₂ } level := by
        have mapped := coherent₁.userMap live inv₂ set (.inr ⟨value.symm ▸ List.mem_cons_self, rfl⟩)
        rw [value, others] at mapped
        exact mapped
      refine .inl ⟨p, s₁, s₂, returned, allocated.hhdm, ran, coherent₂, ⟨set.kept.hhdm.trans allocated.hhdm, ?_⟩,
        set.kept.used p ((allocated.owned p).mpr (.inl rfl)), v, low, ?_, ?_⟩
      · intro q n here i bound
        have used := coherent.kernel.typed.used q n here
        have used₁ : PageIs s₁ q .used := (allocated.owned q).mpr (.inr used)
        have inFrame : InFrame s₁ q (slot (q + m.phys.hhdmOffset) i) := by
          rw [← allocated.hhdm]
          exact slot_inFrame s₁ q bound
        have mapped := set.kept.mem q used₁ (fun path valid table => by
          rw [coherent₁.apart u live q (.inl ⟨path, valid, table⟩)] at here
          cases here) _ inFrame
        exact mapped.trans (allocated.frame q used _ (slot_inFrame m.phys q bound))
      · rw [set.leaves v low, if_pos rfl]
        exact (isFlags.entry aligned physical).1
      · rw [set.leaves v low, if_pos rfl]
        exact value
    · right
      simp only [mapNewPage, returned, bind, Except.bind]
      exact failed
  · right
    simp only [mapNewPage, failed, bind, Except.bind]

end Kept

/- A part of load_elf on the process `u` goes well, or the memory is exhausted. -/
def Contains (result : Except Panic Phys) (m : Machine) (level : Levels) : Prop :=
  (∃ s', result = .ok s' ∧ Coherent { m with phys := s' } level ∧ KernelKept m.phys s' level) ∨
    result = .error .outOfMemory

section Load

variable {m : Machine} {level : Levels} {u : Nat} {file : File}

theorem isFlags_pteFlags (ph : ProgramHeader) : IsFlags ph.pteFlags := by
  unfold IsFlags ProgramHeader.pteFlags
  simp only
  split
  · split
    · decide
    · decide
  · split
    · decide
    · decide

theorem wadd_next (virt k : Nat) : wadd (wadd virt pageSize) (k * pageSize) = wadd virt ((k + 1) * pageSize) := by
  unfold wadd
  rw [Nat.mod_add_mod, Nat.add_mul, Nat.one_mul, Nat.add_assoc, Nat.add_comm pageSize]

theorem pml4i_mod (virt : Nat) : pml4i (wadd virt (0 * pageSize)) = pml4i virt := by
  unfold wadd pml4i
  simp only [index_eq_mod, Nat.shiftRight_eq_div_pow]
  omega

/-! A round of the loop over the pages of a segment. -/

theorem loadPages_round {s s₁ s₂ : Phys} {flags vaddrOffset count virt src remaining p : Nat} {first : Bool}
    (returned : allocatePage s = .ok (p, s₁)) (mapped : vmmMapPage s₁ u virt p flags = .ok s₂) :
    loadPages file u flags vaddrOffset (count + 1) first virt src remaining s =
      loadPages file u flags vaddrOffset count false (wadd virt pageSize)
        (wadd src (min remaining (wsub pageSize (if first = true then vaddrOffset else 0))))
        (remaining - min remaining (wsub pageSize (if first = true then vaddrOffset else 0)))
        { s₂ with
          mem := fillPage s₂.mem file (wadd p s₁.hhdmOffset) (if first = true then vaddrOffset else 0) src
            (min remaining (wsub pageSize (if first = true then vaddrOffset else 0))) } := by
  simp only [loadPages, returned, mapped, bind, Except.bind]

theorem loadPages_failed {s : Phys} {flags vaddrOffset count virt src remaining : Nat} {first : Bool} {e : Panic}
    (failed : mapNewPage s u virt flags = .error e) :
    loadPages file u flags vaddrOffset (count + 1) first virt src remaining s = .error e := by
  simp only [mapNewPage, bind, Except.bind] at failed
  simp only [loadPages, bind, Except.bind]
  cases page : allocatePage s with
  | error e =>
    rw [page] at failed
    simp only at failed
    simp only [failed]
  | ok pair =>
    rw [page] at failed
    simp only at failed
    simp only [failed]

/-- The pages of a segment in the lower half. -/
theorem loadPages_contains {flags vaddrOffset : Nat} (isFlags : IsFlags flags) (small : vaddrOffset ≤ pageSize)
    (count : Nat) {first : Bool} {virt src remaining : Nat} (coherent : Coherent m level) (live : u ∈ m.users)
    (offset : pageSize ∣ m.phys.hhdmOffset) (low : ∀ k < count, pml4i (wadd virt (k * pageSize)) < 256) :
    Contains (loadPages file u flags vaddrOffset count first virt src remaining m.phys) m level := by
  induction count generalizing m first virt src remaining with
  | zero => exact .inl ⟨m.phys, rfl, coherent, KernelKept.refl _ _⟩
  | succ count ih =>
    have here : lowerHalf (pml4i virt) := by
      have lowest := low 0 (Nat.succ_pos count)
      rwa [pml4i_mod] at lowest
    rcases coherent.newPage live here isFlags with ⟨p, s₁, s₂, returned, hhdm₁, mapped, coherent₂, kept, owns⟩ | failed
    · obtain ⟨list₂, inv₂⟩ := coherent₂.inv
      obtain ⟨aligned, _, bound, _⟩ := inv₂.layout.page_bounds owns.1
      have hhdm₂ : s₂.hhdmOffset = m.phys.hhdmOffset := kept.hhdm
      have vpage : wadd p s₁.hhdmOffset = p + s₂.hhdmOffset := by
        rw [hhdm₁, ← hhdm₂]
        apply wadd_eq
        change p + pageSize + s₂.hhdmOffset < 2 ^ 64 at bound
        omega
      generalize filled : fillPage s₂.mem file (p + s₂.hhdmOffset) (if first = true then vaddrOffset else 0) src
        (min remaining (wsub pageSize (if first = true then vaddrOffset else 0))) = mem
      have outside : ∀ a, ¬ InFrame s₂ p a → mem a = s₂.mem a := by
        intro a notHere
        rw [← filled]
        apply fillPage_outside
        · exact Dvd.dvd.trans (by decide) (Nat.dvd_add aligned (hhdm₂ ▸ offset))
        · change p + pageSize + s₂.hhdmOffset < 2 ^ 64 at bound
          omega
        · split
          · exact small
          · exact Nat.zero_le _
        · exact Nat.min_le_right _ _
        · exact notHere
      have coherent₃ := coherent₂.write (.inr ⟨u, live, owns⟩) outside
      have kept₃ : KernelKept s₂ { s₂ with mem := mem } level := by
        refine ⟨rfl, ?_⟩
        intro q n typed i boundI
        apply outside
        intro inP
        have same := frame_apart inv₂.layout (coherent₂.kernel.typed.used q n typed) owns.1
          (slot_inFrame s₂ q boundI) inP
        rw [same, coherent₂.apart u live p (.inr owns)] at typed
        cases typed
      have low₃ : ∀ k < count, pml4i (wadd (wadd virt pageSize) (k * pageSize)) < 256 := by
        intro k below
        rw [wadd_next]
        exact low (k + 1) (Nat.succ_lt_succ below)
      have unfolded : loadPages file u flags vaddrOffset (count + 1) first virt src remaining m.phys =
          loadPages file u flags vaddrOffset count false (wadd virt pageSize)
            (wadd src (min remaining (wsub pageSize (if first = true then vaddrOffset else 0))))
            (remaining - min remaining (wsub pageSize (if first = true then vaddrOffset else 0)))
            { s₂ with mem := mem } := by
        rw [loadPages_round returned mapped, vpage, filled]
      rw [unfolded]
      rcases ih coherent₃ live (hhdm₂.symm ▸ offset) low₃ with ⟨s', ran, coherent', kept'⟩ | failed
      · exact .inl ⟨s', ran, coherent', (kept.trans kept₃).trans kept'⟩
      · exact .inr failed
    · exact .inr (loadPages_failed failed)

/-- All segments of a file, each in the lower half. -/
theorem loadSegments_contains (headers : List ProgramHeader) (ranges : Vma.Ranges) (coherent : Coherent m level)
    (live : u ∈ m.users) (offset : pageSize ∣ m.phys.hhdmOffset)
    (low : ∀ ph ∈ headers, ph.isLoad = true → StaysLow ph) :
    (∃ s' ranges', loadSegments file headers ⟨m.phys, u, ranges⟩ = .ok ⟨s', u, ranges'⟩ ∧
      Coherent { m with phys := s' } level ∧ KernelKept m.phys s' level) ∨
    loadSegments file headers ⟨m.phys, u, ranges⟩ = .error .outOfMemory := by
  induction headers generalizing m ranges with
  | nil => exact .inl ⟨m.phys, ranges, rfl, coherent, KernelKept.refl _ _⟩
  | cons ph rest ih =>
    have later : ∀ ph ∈ rest, ph.isLoad = true → StaysLow ph := fun other member =>
      low other (List.mem_cons_of_mem _ member)
    by_cases isLoad : ph.isLoad = true
    · have stays := low ph List.mem_cons_self isLoad
      have pages : Contains (loadPages file u ph.pteFlags ph.vaddrOffset ph.pagesToMap true ph.firstVirtAddr
          ph.offset ph.fileSize m.phys) m level := by
        by_cases some_ : 0 < ph.pagesToMap
        · exact loadPages_contains (isFlags_pteFlags ph) (stays.offset some_) _ coherent live offset stays.pages
        · have none : ph.pagesToMap = 0 := by omega
          rw [none]
          exact .inl ⟨m.phys, rfl, coherent, KernelKept.refl _ _⟩
      rcases pages with ⟨s₁, ran₁, coherent₁, kept₁⟩ | failed
      · have unfolded : loadSegments file (ph :: rest) ⟨m.phys, u, ranges⟩ = loadSegments file rest
            ⟨s₁, u, (Vma.vallocFixed ranges ph.reservedSize ph.firstVirtAddr false).2⟩ := by
          simp only [loadSegments, loadSegment, isLoad, not_true_eq_false, ↓reduceIte, ran₁, bind, Except.bind]
        have offset₁ : pageSize ∣ s₁.hhdmOffset := by
          rw [kept₁.hhdm]
          exact offset
        rw [unfolded]
        rcases ih (Vma.vallocFixed ranges ph.reservedSize ph.firstVirtAddr false).2 coherent₁ live
            offset₁ later with ⟨s', ranges', ran, coherent', kept⟩ | failed
        · exact .inl ⟨s', ranges', ran, coherent', kept₁.trans kept⟩
        · exact .inr failed
      · right
        simp only [loadSegments, loadSegment, isLoad, not_true_eq_false, ↓reduceIte, failed, bind, Except.bind]
    · have unfolded : loadSegments file (ph :: rest) ⟨m.phys, u, ranges⟩ =
          loadSegments file rest ⟨m.phys, u, ranges⟩ := by
        simp only [loadSegments, loadSegment, if_pos isLoad, bind, Except.bind]
      rw [unfolded]
      exact ih ranges coherent live offset later

end Load

/-- load_elf refuses a file of another kind with nothing changed exactly when a 32-bit file
has nothing to load and nothing to report. When all pages of the segments lie in the
lower half, it returns or exhausts the memory, and every address of the upper half is
looked up as before, in the process and in the kernel. -/
theorem load_contained {hhdmOffset : Nat} {memmap : List MemmapEntry} {mem : Memory} {s₀ s : Phys}
    {boot : BootInfo} {ph : ProgramHeader} {kernelTop u : Nat} {m : Machine}
    (limine : LimineMap hhdmOffset memmap) (pmm : setupPmm hhdmOffset memmap mem = .ok s₀)
    (vmm : setupVmm boot s₀ = .ok (kernelTop, s)) (member : ph ∈ programHeaders boot.executable)
    (isLoad : ph.isLoad = true) (nonempty : 0 < ph.memSize) (high : kernelBase ≤ ph.virtAddr)
    (inside : ph.virtAddr + ph.memSize ≤ 2 ^ 64) (steps : Steps ⟨s, kernelTop, [], []⟩ m) (live : u ∈ m.users)
    (offset : pageSize ∣ m.phys.hhdmOffset) (file : File) (ranges : Vma.Ranges) :
    ((¬ Executable64 (elfHeader file) →
        loadElf file ⟨m.phys, u, ranges⟩ = .ok (zeroInfo, ⟨m.phys, u, ranges⟩)) ↔
      ((elfHeader file).bits = elf32Bit → verifyElf64 file = true → ZeroHeader (elfHeader file))) ∧
    ((verifyElf64 file = true → ∀ ph ∈ programHeaders file, ph.isLoad = true → StaysLow ph) →
      (∃ info s' ranges', loadElf file ⟨m.phys, u, ranges⟩ = .ok (info, ⟨s', u, ranges'⟩) ∧
        ∀ v, UpperHalf v → SameLookup m.phys s' u v ∧ SameLookup m.phys s' m.kernelTop v) ∨
      loadElf file ⟨m.phys, u, ranges⟩ = .error .outOfMemory) := by
  refine ⟨refuses_iff, ?_⟩
  intro low
  obtain ⟨level₀, coherent₀⟩ := setupVmm_coherent limine pmm vmm member isLoad nonempty high inside
  obtain ⟨level, coherent⟩ := coherent₀.steps steps
  by_cases accepted : verifyElf64 file = true
  · rcases @loadSegments_contains m level u file (programHeaders file) ranges coherent live offset (low accepted) with
      ⟨s', ranges', ran, coherent', kept⟩ | failed
    · left
      obtain ⟨info, loaded⟩ := loadElf_loaded accepted ran
      refine ⟨info, s', ranges', loaded, ?_⟩
      intro v upper
      have lookups := @KernelKept.lookups level m u v { m with phys := s' } kept coherent coherent' rfl upper
      exact ⟨lookups.2 live live, lookups.1⟩
    · exact .inr (loadElf_failed accepted failed)
  · left
    exact ⟨zeroInfo, m.phys, ranges, if_pos accepted, fun v _ => ⟨⟨rfl, rfl⟩, rfl, rfl⟩⟩

/-- A file with one page at 0x400000. -/
theorem load_contained_low : ∃ (m : Machine) (u : Nat), u ∈ m.users ∧
    ∀ ranges info space', loadElf (imageOf 2 [0, 0, 0x40, 0, 0, 0, 0, 0]) ⟨m.phys, u, ranges⟩ = .ok (info, space') →
      ∀ v, UpperHalf v → SameLookup m.phys space'.phys m.kernelTop v := by
  obtain ⟨s₀, s, kernelTop, space, pmm, vmm, _, _, offset, steps⟩ := imageBoot_process
  refine ⟨⟨space.phys, kernelTop, [space.topLevel], []⟩, space.topLevel, List.mem_cons_self, ?_⟩
  intro ranges info space' loaded v upper
  have low : verifyElf64 (imageOf 2 [0, 0, 0x40, 0, 0, 0, 0, 0]) = true →
      ∀ ph ∈ programHeaders (imageOf 2 [0, 0, 0x40, 0, 0, 0, 0, 0]), ph.isLoad = true → StaysLow ph := by
    intro _ ph member _
    have only : programHeaders (imageOf 2 [0, 0, 0x40, 0, 0, 0, 0, 0]) = [⟨1, 5, 0, 0x400000, 0, 0x1000, 0x1000⟩] := by
      decide +kernel
    rw [only] at member
    cases List.mem_singleton.mp member
    refine ⟨fun _ => by decide, ?_⟩
    intro k below
    have one : ProgramHeader.pagesToMap ⟨1, 5, 0, 0x400000, 0, 0x1000, 0x1000⟩ = 1 := by decide +kernel
    rw [one] at below
    have first : k = 0 := by omega
    subst first
    decide +kernel
  have contained := (load_contained Stdlib.kernelMap_limine pmm vmm imageBoot_segment rfl (by decide) (by decide)
    (by decide) steps List.mem_cons_self offset (imageOf 2 [0, 0, 0x40, 0, 0, 0, 0, 0]) ranges).2 low
  rcases contained with ⟨_, s', _, ran, same⟩ | failed
  · cases Except.ok.inj (ran.symm.trans loaded)
    exact (same v upper).2
  · cases failed.symm.trans loaded

/-- A 32-bit file is loaded: load_elf does not return zeros. -/
theorem load_accepts_32bit : ∃ (m₀ m : Machine) (u : Nat), Steps m₀ m ∧ u ∈ m.users ∧
    ¬ Executable64 (elfHeader (imageOf 1 [0, 0, 0x40, 0, 0, 0, 0, 0])) ∧
    ∀ ranges, loadElf (imageOf 1 [0, 0, 0x40, 0, 0, 0, 0, 0]) ⟨m.phys, u, ranges⟩ ≠
      .ok (zeroInfo, ⟨m.phys, u, ranges⟩) := by
  obtain ⟨s₀, s, kernelTop, space, _, _, _, _, _, steps⟩ := imageBoot_process
  have narrow : (elfHeader (imageOf 1 [0, 0, 0x40, 0, 0, 0, 0, 0])).bits = elf32Bit := by decide +kernel
  have accepted : verifyElf64 (imageOf 1 [0, 0, 0x40, 0, 0, 0, 0, 0]) = true := by decide +kernel
  have entries : (elfHeader (imageOf 1 [0, 0, 0x40, 0, 0, 0, 0, 0])).programHeaderEntries = 1 := by decide +kernel
  refine ⟨_, _, space.topLevel, steps, List.mem_cons_self, ?_, ?_⟩
  · intro good
    have wide := good.bits
    rw [narrow] at wide
    cases wide
  · intro ranges returned
    simp only [loadElf, accepted, not_true_eq_false, ↓reduceIte, bind, Except.bind] at returned
    split at returned
    · cases returned
    · simp only [Except.ok.injEq, Prod.mk.injEq, zeroInfo, ElfInfo.mk.injEq, entries] at returned
      obtain ⟨⟨_, _, _, none⟩, _⟩ := returned
      cases none

section Upper

variable {m : Machine} {level : Levels} {u v : Nat}

/-- In the upper half, mapping through a process is mapping through the kernel. -/
theorem vmmMapPage_shared {s : Phys} {top : Nat} (same : pte s u (pml4i v) = pte s top (pml4i v))
    (present : isPresent (pte s top (pml4i v)) = true) (p flags : Nat) :
    vmmMapPage s u v p flags = vmmMapPage s top v p flags := by
  unfold vmmMapPage vmmMapPageSized
  simp only [ensureTable, present, ↓reduceIte, same, bind, Except.bind]

/-- Large pages show in the walk. -/
theorem inLargePage_walk (s : Phys) (top v : Nat) :
    inLargePage s top v = ((walk s top v).take 2).any (fun pair => isLarge pair.2) := by
  simp only [inLargePage, walk]
  generalize pte s top (pml4i v) = e4
  generalize pte s (tableOf s e4) (pml3i v) = e3
  generalize pte s (tableOf s e3) (pml2i v) = e2
  cases present4 : isPresent e4 with
  | false => simp
  | true =>
    cases present3 : isPresent e3 with
    | false => simp [isLarge, present3]
    | true =>
      cases plain3 : e3.testBit 7 with
      | true => simp [isLarge, present3, plain3]
      | false =>
        cases present2 : isPresent e2 with
        | false => simp [isLarge, present3, plain3, present2]
        | true =>
          cases plain2 : e2.testBit 7 with
          | true => simp [isLarge, present3, plain3, present2, plain2]
          | false => simp [isLarge, present3, plain3, present2, plain2]

/-- A round of load_elf at an address of the upper half outside the large pages: the kernel's
own entry for the address is replaced by one for a page that was not in use. -/
theorem mapNewPage_reaches_kernel (coherent : Coherent m level) (live : u ∈ m.users) (upper : UpperHalf v)
    (outside : inLargePage m.phys m.kernelTop v = false) {flags : Nat} {s' : Phys}
    (ran : mapNewPage m.phys u v flags = .ok s') :
    ∃ p, ¬ PageIs m.phys p .used ∧ leaf s' m.kernelTop v = p ||| (ptePresent ||| flags) := by
  obtain ⟨list, inv⟩ := coherent.inv
  obtain ⟨low, bound⟩ := upperHalf_pml4i upper
  rcases allocatePage_outcome inv with ⟨p, s₁, list₁, returned, inv₁, allocated⟩ | ⟨failed, _⟩
  · have coherent₁ := coherent.allocate inv₁ allocated
    obtain ⟨state, page, unused⟩ := allocated.fresh
    obtain ⟨aligned, _, _, physical⟩ := inv.layout.page_bounds page
    have masked := page_mask aligned physical
    simp only [mapNewPage, returned, bind, Except.bind] at ran
    have shared : pte s₁ u (pml4i v) = pte s₁ m.kernelTop (pml4i v) := coherent₁.shared u live _ low bound
    have present : isPresent (pte s₁ m.kernelTop (pml4i v)) = true := coherent₁.kernel.slots _ low bound
    rw [vmmMapPage_shared shared present] at ran
    obtain ⟨k, top, atTop⟩ := coherent.kernel.frame
    have outside₁ : inLargePage s₁ m.kernelTop v = false := by
      have kept : walk s₁ m.kernelTop v = walk m.phys m.kernelTop v :=
        walk_frame coherent.kernel upper allocated.hhdm (fun q n here i boundI =>
          allocated.frame q (coherent.kernel.typed.used q n here) _ (slot_inFrame m.phys q boundI))
      rw [inLargePage_walk, kept, ← inLargePage_walk]
      exact outside
    rw [atTop, ← allocated.hhdm] at outside₁ ran
    rcases vmmMapPage_typed inv₁ coherent₁.kernel.typed top outside₁ p flags with
      ⟨s₂, list₂, level₂, result, inv₂, mapped, _⟩ | ⟨failed, _⟩
    · cases Except.ok.inj (result.symm.trans ran)
      refine ⟨p, fun used => unused (inv.layout.page_unique page used), ?_⟩
      have value := mapped.leaf
      rw [masked, allocated.hhdm, ← atTop] at value
      exact value
    · cases failed.symm.trans ran
  · simp only [mapNewPage, failed, bind, Except.bind] at ran
    cases ran

end Upper

end EvalynOS.Process
