import EvalynOS.Process.Reserved

/-! Runs of a process: the calls that change its address space, in any order, and the rest
of the kernel in between. -/
namespace EvalynOS.Process
open Lib Lib.Word Pmm Vmm
open Vma (Ranges Tiling UsedAt newPagemapWindow)

inductive Call where
  | load (file : File)
  | stack
  | mmap (rbx : Nat)
  | fbMap (fb : Framebuffer) (hypervisor : Bool)

def AddressSpace.call (space : AddressSpace) : Call → Except Panic AddressSpace
  | .load file => (loadElf file space).map Prod.snd
  | .stack => (spawnStack space).map Prod.snd
  | .mmap rbx => (sysMmap space rbx).map Prod.snd
  | .fbMap fb hypervisor => sysFbMap space fb hypervisor

/-- The calls that map only what is or becomes reserved, judged by the ranges before. -/
def Call.Fits (pm : Ranges) : Call → Prop
  | .load file => verifyElf64 file = true → SegmentsFit (programHeaders file) pm
  | .stack => HasRoom pm stackSize
  | .mmap rbx => MmapFits pm rbx
  | .fbMap fb _ => FbFits pm fb

/-- The rest of the kernel: it keeps the tables of the process. -/
structure Elsewhere (s s' : Phys) (top : Nat) : Prop where
  inv : ∃ list, Inv s' list
  hhdm : s'.hhdmOffset = s.hhdmOffset
  used : ∀ path q, Valid lowerHalf path → descend (child s) top path = some (q + s.hhdmOffset) →
    PageIs s q .used → PageIs s' q .used
  tables : ∀ path t, Valid lowerHalf path → descend (child s) top path = some t →
    ∀ i < 512, pte s' t i = pte s t i

inductive Reach (space₀ : AddressSpace) : AddressSpace → Prop where
  | start : Reach space₀ space₀
  | call {space space' : AddressSpace} {c : Call} : Reach space₀ space → c.Fits space.ranges →
      space.call c = .ok space' → Reach space₀ space'
  | others {space : AddressSpace} {s' : Phys} : Reach space₀ space →
      Elsewhere space.phys s' space.topLevel → Reach space₀ { space with phys := s' }

section Start

variable {s : Phys} {list : List Nat} {kernelTop : Nat} {space : AddressSpace}

/-- The new top level has an empty lower half. -/
theorem newPagemap_spec (inv : Inv s list) (made : newPagemap s kernelTop = .ok space) :
    (∃ list', Inv space.phys list') ∧ space.phys.hhdmOffset = s.hhdmOffset ∧
      EmptyLowerHalf space.phys space.topLevel ∧ space.ranges = newPagemapWindow.fresh := by
  rcases allocatePage_outcome inv with ⟨p, s₁, list₁, returned, inv₁, allocated⟩ | ⟨failed, _⟩
  · simp only [newPagemap, returned, bind, Except.bind, Except.ok.injEq] at made
    subst made
    have used : PageIs s₁ p .used := (allocated.owned p).mpr (.inl rfl)
    obtain ⟨_, _, bound, _⟩ := inv₁.layout.page_bounds used
    have address : wadd p s₁.hhdmOffset = p + s₁.hhdmOffset := wadd_eq (by omega)
    simp only [address]
    refine ⟨⟨list₁, inv₁.write ?_⟩, allocated.hhdm, ⟨⟨p, used, rfl⟩, ?_⟩, trivial⟩
    · intro a outside
      have notHere := outside p used
      unfold InFrame pageSize at notHere
      rw [Memory.clear_outside (by unfold pageSize; omega)]
      apply if_neg
      unfold pageSize
      exact notHere
    · intro i lower
      have inHalf : slot (p + s₁.hhdmOffset) i < p + s₁.hhdmOffset + pageSize / 2 := by
        unfold slot pageSize
        omega
      simp only [pte]
      exact Memory.clear_inside (Nat.le_add_right _ _) inHalf
  · simp only [newPagemap, failed, bind, Except.bind] at made
    cases made

theorem newPagemap_agrees (inv : Inv s list) (offset : pageSize ∣ s.hhdmOffset)
    (made : newPagemap s kernelTop = .ok space) : Agrees space := by
  obtain ⟨inv', hhdm, empty, ranges⟩ := newPagemap_spec inv made
  refine ⟨inv', hhdm ▸ offset, empty.tree, ranges ▸ newPagemapWindow.fresh_tiling, ?_⟩
  intro v low present
  have lower := lowerHalf_pml4i low
  have absent : leaf space.phys space.topLevel v = 0 := by
    unfold leaf
    cases here : descend (child space.phys) space.topLevel (pathOf v) with
    | none => rfl
    | some t => cases (empty.only_top (valid_pathOf lower) here).1
  rw [absent, isPresent_zero] at present
  cases present

end Start

section Runs

variable {space space' space₀ : AddressSpace}

theorem Agrees.elsewhere (agrees : Agrees space) {s' : Phys}
    (others : Elsewhere space.phys s' space.topLevel) : Agrees { space with phys := s' } := by
  obtain ⟨list, inv⟩ := others.inv
  obtain ⟨tree, _, _, leaves⟩ := agrees.tree.agree others.hhdm others.used others.tables
  exact agrees.update inv others.hhdm tree agrees.tiling (fun _ old => old)
    (fun w low => .inl (leaves w (lowerHalf_pml4i low)))

theorem map_snd {α β : Type} {r : Except Panic (α × β)} {b : β} (mapped : r.map Prod.snd = .ok b) :
    ∃ a, r = .ok (a, b) := by
  cases r with
  | error e => cases mapped
  | ok pair =>
    cases mapped
    exact ⟨pair.1, rfl⟩

theorem call_keeps (agrees : Agrees space) {c : Call} (fits : c.Fits space.ranges)
    (ran : space.call c = .ok space') : Agrees space' := by
  cases c with
  | load file =>
    obtain ⟨info, loaded⟩ := map_snd ran
    exact loadElf_keeps agrees fits loaded
  | stack =>
    obtain ⟨top, mapped⟩ := map_snd ran
    exact (spawnStack_keeps agrees fits mapped).1
  | mmap rbx =>
    obtain ⟨rax, mapped⟩ := map_snd ran
    exact (sysMmap_keeps agrees fits mapped).1
  | fbMap fb hypervisor => exact sysFbMap_keeps agrees fits ran

theorem reach_agrees (start : Agrees space₀) (reach : Reach space₀ space) : Agrees space := by
  induction reach with
  | start => exact start
  | call _ fits ran ih => exact call_keeps ih fits ran
  | others _ elsewhere ih => exact ih.elsewhere elsewhere

end Runs

/-- In every run of calls that fit, each present entry of the lower half lies in a used
range, and neither sys_mmap nor the stack of a program replaces a present entry. -/
theorem mappings_reserved {s : Phys} {list : List Nat} {kernelTop : Nat} {space₀ space : AddressSpace}
    (inv : Inv s list) (offset : pageSize ∣ s.hhdmOffset) (made : newPagemap s kernelTop = .ok space₀)
    (reach : Reach space₀ space) :
    (∀ v, v < 2 ^ 47 → isPresent (leaf space.phys space.topLevel v) = true → UsedAt space.ranges v) ∧
    ∀ (c : Call) (space' : AddressSpace), (c = .stack ∨ ∃ rbx, c = .mmap rbx) → c.Fits space.ranges →
      space.call c = .ok space' → Untouched space space' := by
  have agrees := reach_agrees (newPagemap_agrees inv offset made) reach
  refine ⟨agrees.reserved, ?_⟩
  rintro c space' (rfl | ⟨rbx, rfl⟩) fits ran
  · obtain ⟨top, mapped⟩ := map_snd ran
    exact (spawnStack_keeps agrees fits mapped).2
  · obtain ⟨rax, mapped⟩ := map_snd ran
    exact (sysMmap_keeps agrees fits mapped).2

/-! A process on the small machine. -/

theorem smallProcess_at : ∃ s list space₀, Inv s list ∧ s.hhdmOffset = 0xFFFF800000000000 ∧
    newPagemap s 0xFFFF800000101000 = .ok space₀ ∧ Agrees space₀ ∧
    space₀.ranges = newPagemapWindow.fresh ∧ space₀.phys.usedPages + 8 ≤ space₀.phys.totalPages := by
  obtain ⟨s, boots, offset, total, used⟩ : ∃ s,
      setupPmm 0xFFFF800000000000 smallMap (fun _ => 7) = .ok s ∧
      s.hhdmOffset = 0xFFFF800000000000 ∧ s.totalPages = 17 ∧ s.usedPages = 0 :=
    ⟨_, rfl, rfl, rfl, rfl⟩
  have aligned : pageSize ∣ s.hhdmOffset := by
    rw [offset]
    decide
  obtain ⟨list, inv⟩ := setupPmm_inv smallMap_limine boots
  rcases allocatePage_outcome inv with ⟨p, s₁, list₁, returned, inv₁, allocated⟩ | ⟨_, full⟩
  · have made : ∃ space₀, newPagemap s 0xFFFF800000101000 = .ok space₀ ∧
        space₀.phys.usedPages = s₁.usedPages ∧ space₀.phys.totalPages = s₁.totalPages := by
      simp only [newPagemap, returned, bind, Except.bind]
      exact ⟨_, rfl, rfl, rfl⟩
    obtain ⟨space₀, made, sameUsed, sameTotal⟩ := made
    obtain ⟨_, _, _, ranges⟩ := newPagemap_spec inv made
    refine ⟨s, list, space₀, inv, offset, made, newPagemap_agrees inv aligned made, ranges, ?_⟩
    rw [sameUsed, sameTotal, allocated.usedPages, allocated.total]
    omega
  · omega

theorem smallProcess : ∃ s list space₀, Inv s list ∧ pageSize ∣ s.hhdmOffset ∧
    newPagemap s 0xFFFF800000101000 = .ok space₀ ∧ Agrees space₀ ∧
    space₀.ranges = newPagemapWindow.fresh ∧ space₀.phys.usedPages + 8 ≤ space₀.phys.totalPages := by
  obtain ⟨s, list, space₀, inv, offset, rest⟩ := smallProcess_at
  refine ⟨s, list, space₀, inv, ?_, rest⟩
  rw [offset]
  decide

theorem mappings_reserved_mmap : ∃ space₀ space : AddressSpace, Reach space₀ space ∧
    isPresent (leaf space.phys space.topLevel 0x2000) = true ∧ UsedAt space.ranges 0x2000 := by
  obtain ⟨s, list, space₀, inv, offset, made, agrees, fresh, room⟩ := smallProcess
  obtain ⟨list₀, inv₀⟩ := agrees.inv
  have base : (Vma.valloc newPagemapWindow.fresh 0x2000).1 = 0x1000 := by decide
  have inside : ∀ v ∈ [0x1000, 0x2000], lowerHalf (pml4i v) := by
    unfold lowerHalf
    decide
  rcases @mapNewPages_outcome space₀.phys space₀.topLevel (ptePresent ||| pteUser ||| pteWritable ||| pteNx)
      lowerHalf list₀ [0x1000, 0x2000] inv₀ agrees.tree inside with
    ⟨s', list', ran, inv', mapped⟩ | ⟨_, full⟩
  · have call : space₀.call (.mmap 0x2000) = .ok { space₀ with
        phys := s', ranges := (Vma.valloc newPagemapWindow.fresh 0x2000).2 } := by
      have virts : (List.range (alignUp 0x2000 pageSize / pageSize % 2 ^ 32)).map
          (fun i => wadd 0x1000 (i * pageSize)) = [0x1000, 0x2000] := by decide
      simp only [AddressSpace.call, sysMmap, fresh, base, virts, ran, bind, Except.bind, Except.map]
    have fits : Call.Fits space₀.ranges (.mmap 0x2000) := by
      refine .inr ⟨by decide, .inl ?_⟩
      rw [fresh]
      exact ⟨_, List.mem_cons_self, by decide⟩
    have reach := Reach.call Reach.start fits call
    obtain ⟨p, entry, _, free, _⟩ := mapped.mapped 0x2000 (by decide)
    have present : isPresent (leaf s' space₀.topLevel 0x2000) = true := by
      rw [entry, isPresent_eq, Nat.testBit_or, Nat.testBit_or]
      simp [ptePresent]
    exact ⟨space₀, _, reach, present,
      (mappings_reserved inv offset made reach).1 0x2000 (by decide) present⟩
  · have few := card_missingTables_le space₀.phys space₀.topLevel [0x1000, 0x2000]
    simp only [List.length_cons, List.length_nil] at full few
    omega

/-- A new process maps a framebuffer of one page: the entry is present, and no range of
the process is used. -/
theorem fbMap_unreserved : ∃ s list space₀ space, Inv s list ∧ pageSize ∣ s.hhdmOffset ∧
    newPagemap s 0xFFFF800000101000 = .ok space₀ ∧
    space₀.call (.fbMap ⟨0xFFFF8000FD000000, 256, 16⟩ true) = .ok space ∧
    isPresent (leaf space.phys space.topLevel 0xA0000000) = true ∧
    ¬ UsedAt space.ranges 0xA0000000 := by
  obtain ⟨s, list, space₀, inv, offset, made, agrees, fresh, room⟩ := smallProcess
  obtain ⟨list₀, inv₀⟩ := agrees.inv
  have inside : lowerHalf (pml4i 0xA0000000) := lowerHalf_pml4i (by decide)
  have pages : Framebuffer.pages ⟨0xFFFF8000FD000000, 256, 16⟩ = 1 := by decide
  generalize address : wsub 0xFFFF8000FD000000 space₀.phys.hhdmOffset = phys
  rcases vmmMapPage_outcome inv₀ agrees.tree inside (wadd phys (0 * 0x1000))
      (ptePresent ||| pteUser ||| pteWritable) with ⟨s', list', ran, inv', set, _⟩ | ⟨_, full⟩
  · refine ⟨s, list, space₀, { space₀ with phys := s' }, inv, offset, made, ?_, ?_, ?_⟩
    · have virt : wadd fbVirt (0 * 0x1000) = 0xA0000000 := by decide
      simp only [AddressSpace.call, sysFbMap, pages, List.range_one, List.map_cons, List.map_nil, address,
        virt, mapFrames, ↓reduceIte, ran, bind, Except.bind]
    · rw [set.leaves _ inside, if_pos rfl, isPresent_eq, Nat.testBit_or, Nat.testBit_or]
      simp [ptePresent]
    · simp only [fresh]
      rintro ⟨span, member, _⟩
      cases member
  · have few := card_missingTables_le space₀.phys space₀.topLevel [0xA0000000]
    simp only [List.length_cons, List.length_nil] at few
    omega

end EvalynOS.Process
