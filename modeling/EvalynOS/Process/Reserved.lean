import EvalynOS.Memory.VmaFixed
import EvalynOS.Process.Elf

/-! The page tables and the range trees of a process stay in step: what is mapped is
reserved, as long as every caller maps what it has reserved. -/
namespace EvalynOS.Process
open Lib Lib.Word Pmm Vmm
open Vma (Ranges Tiling UsedAt FreeAt Carve PageRange roundup newPagemapWindow)

/-- Every present entry of the lower half lies in a used range. -/
structure Agrees (space : AddressSpace) : Prop where
  inv : ∃ list, Inv space.phys list
  offset : pageSize ∣ space.phys.hhdmOffset
  tree : Tree space.phys space.topLevel lowerHalf
  tiling : Tiling newPagemapWindow space.ranges
  reserved : ∀ v, v < 2 ^ 47 → isPresent (leaf space.phys space.topLevel v) = true →
    UsedAt space.ranges v

section Pages

variable {pm : Ranges} {v w : Nat}

theorem pageBits_lower (lowV : v < 2 ^ 47) (lowW : w < 2 ^ 47) :
    pageBits v = pageBits w ↔ v / 4096 = w / 4096 := pageBits_within (by omega)

/-- Used addresses are addresses of the window. -/
theorem usedAt_window (tiling : Tiling newPagemapWindow pm) (used : UsedAt pm v) :
    0x1000 ≤ v ∧ v < 400000000000 := by
  obtain ⟨span, member, inside⟩ := used
  obtain ⟨r, listed, rfl⟩ := List.mem_map.mp member
  have limits := tiling.limits (List.mem_append_right _ listed)
  have bounds : newPagemapWindow.lo = 0x1000 ∧ newPagemapWindow.hi = 400000000000 := ⟨rfl, rfl⟩
  obtain ⟨low, high⟩ := inside
  simp only [PageRange.span] at low high
  omega

end Pages

section Steps

variable {space : AddressSpace} {s' : Phys} {pm' : Ranges} {v p flags : Nat}

/-- Entries that appear are at used addresses. -/
theorem Agrees.update (agrees : Agrees space) {list : List Nat} (inv : Inv s' list)
    (hhdm : s'.hhdmOffset = space.phys.hhdmOffset) (tree : Tree s' space.topLevel lowerHalf)
    (tiling : Tiling newPagemapWindow pm') (grows : ∀ x, UsedAt space.ranges x → UsedAt pm' x)
    (leaves : ∀ w, w < 2 ^ 47 → leaf s' space.topLevel w = leaf space.phys space.topLevel w ∨
      UsedAt pm' w) : Agrees { space with phys := s', ranges := pm' } := by
  refine ⟨⟨list, inv⟩, hhdm ▸ agrees.offset, tree, tiling, ?_⟩
  intro w low present
  rcases leaves w low with same | used
  · exact grows w (agrees.reserved w low (same ▸ present))
  · exact used

/-- The loops that map new pages, at used addresses. -/
theorem Agrees.mapped (agrees : Agrees space) {virts list : List Nat} (inv : Inv s' list)
    (mapped : Mapped space.phys s' space.topLevel lowerHalf virts flags)
    (tiling : Tiling newPagemapWindow pm') (grows : ∀ x, UsedAt space.ranges x → UsedAt pm' x)
    (used : ∀ v ∈ virts, UsedAt pm' v) : Agrees { space with phys := s', ranges := pm' } := by
  apply agrees.update inv mapped.kept.hhdm mapped.tree tiling grows
  intro w low
  by_cases here : ∃ v ∈ virts, pageBits w = pageBits v
  · obtain ⟨v, member, same⟩ := here
    right
    have lowV := (usedAt_window tiling (used v member)).2
    exact tiling.used_page ((pageBits_lower (by omega) low).mp same.symm) (used v member)
  · left
    apply mapped.others w (lowerHalf_pml4i low)
    intro v member same
    exact here ⟨v, member, same⟩

theorem mapNewPages_ok {s : Phys} {top : Nat} {region : Nat → Prop} {virts list : List Nat}
    (inv : Inv s list) (tree : Tree s top region) (inside : ∀ v ∈ virts, region (pml4i v))
    (ran : mapNewPages top flags virts s = .ok s') :
    ∃ list', Inv s' list' ∧ Mapped s s' top region virts flags := by
  rcases mapNewPages_outcome virts inv tree inside with ⟨s₁, list₁, result, inv₁, mapped⟩ | ⟨failed, _⟩
  · cases Except.ok.inj (result.symm.trans ran)
    exact ⟨list₁, inv₁, mapped⟩
  · cases failed.symm.trans ran

theorem vmmMapPage_ok {s : Phys} {top : Nat} {region : Nat → Prop} {list : List Nat} (inv : Inv s list)
    (tree : Tree s top region) (inside : region (pml4i v)) (ran : vmmMapPage s top v p flags = .ok s') :
    ∃ list', Inv s' list' ∧ LeafSet s s' top region v (p &&& pteMask ||| (ptePresent ||| flags)) := by
  rcases vmmMapPage_outcome inv tree inside p flags with ⟨s₁, list₁, result, inv₁, set, _⟩ | ⟨failed, _⟩
  · cases Except.ok.inj (result.symm.trans ran)
    exact ⟨list₁, inv₁, set⟩
  · cases failed.symm.trans ran

end Steps

/-! Reservations by valloc, and the loops of sys_mmap and the stack. -/

section Anywhere

variable {space space' : AddressSpace} {size base flags : Nat}

/- No entry that was present is another one afterwards. -/
def Untouched (space space' : AddressSpace) : Prop :=
  ∀ w, w < 2 ^ 47 → isPresent (leaf space.phys space.topLevel w) = true →
    leaf space'.phys space'.topLevel w = leaf space.phys space.topLevel w

/-- What valloc takes from a free range was mapped nowhere, and can be mapped. -/
theorem Agrees.carved (agrees : Agrees space) {r : PageRange} {f u : Vma.VallocTree} {s' : Phys}
    {virts : List Nat} (carve : Carve space.ranges.freeRanges.nodes f.nodes
      space.ranges.usedRanges.nodes u.nodes r ⟨r.vaddr, roundup size⟩)
    (inside : ∀ v ∈ virts, Inside v (r.vaddr, r.vaddr + roundup size))
    (ran : mapNewPages space.topLevel flags virts space.phys = .ok s') :
    Agrees { space with phys := s', ranges := ⟨f, u, space.ranges.refused⟩ } ∧
      Untouched space { space with phys := s', ranges := ⟨f, u, space.ranges.refused⟩ } := by
  have tiling := agrees.tiling
  have aligned := tiling.aligned r (List.mem_append_left _ carve.member)
  have tiling' : Tiling newPagemapWindow ⟨f, u, space.ranges.refused⟩ :=
    tiling.of_alloc carve aligned.1 (Vma.roundup_dvd size)
  have used : ∀ v ∈ virts, UsedAt ⟨f, u, space.ranges.refused⟩ v := fun v member =>
    (carve.dst_covers v).mpr (.inl (inside v member))
  have free : ∀ v ∈ virts, FreeAt space.ranges v := fun v member =>
    ⟨r.span, List.mem_map_of_mem carve.member, (inside v member).1,
      (inside v member).2.trans_le carve.high⟩
  have lower : ∀ v ∈ virts, v < 2 ^ 47 := by
    intro v member
    have window := usedAt_window tiling' (used v member)
    omega
  obtain ⟨list, inv⟩ := agrees.inv
  obtain ⟨list', inv', mapped⟩ := mapNewPages_ok inv agrees.tree
    (fun v member => lowerHalf_pml4i (lower v member)) ran
  refine ⟨agrees.mapped inv' mapped tiling' (fun x old => (carve.dst_covers x).mpr (.inr old)) used, ?_⟩
  intro w low present
  apply mapped.others w (lowerHalf_pml4i low)
  intro v member same
  have usedW := agrees.reserved w low present
  have usedV := tiling.used_page ((pageBits_lower low (lower v member)).mp same) usedW
  exact tiling.free_not_used (free v member) usedV

/- Some free range has room for `size` bytes. -/
def HasRoom (pm : Ranges) (size : Nat) : Prop := ∃ r ∈ pm.freeRanges.nodes, roundup size ≤ r.size

/-- The sizes for which sys_mmap maps only what it has reserved. -/
def MmapFits (pm : Ranges) (rbx : Nat) : Prop :=
  rbx = 0 ∨ (rbx + 4095 < 2 ^ 64 ∧ (HasRoom pm rbx ∨ 2 ^ 32 ∣ roundup rbx / 4096))

theorem sysMmap_keeps (agrees : Agrees space) {rbx rax : Nat} (fits : MmapFits space.ranges rbx)
    (ran : sysMmap space rbx = .ok (rax, space')) : Agrees space' ∧ Untouched space space' := by
  rcases fits with rfl | ⟨bound, room⟩
  · cases ran
    exact ⟨agrees, fun _ _ _ => rfl⟩
  · have rounded : alignUp rbx pageSize = roundup rbx := Vma.alignUp_roundup bound
    by_cases positive : 1 ≤ rbx
    · rcases Vma.valloc_cases agrees.tiling positive bound with ⟨failed, none⟩ | ⟨r, f, u, result, carve⟩
      · have pages : roundup rbx / pageSize % 2 ^ 32 = 0 := by
          rcases room with ⟨r, member, large⟩ | whole
          · exact absurd (none r member) (Nat.not_lt_of_le large)
          · exact Nat.mod_eq_zero_of_dvd whole
        simp only [sysMmap, failed, rounded, pages, List.range_zero, List.map_nil, mapNewPages, bind,
          Except.bind] at ran
        cases ran
        exact ⟨agrees, fun _ _ _ => rfl⟩
      · simp only [sysMmap, result, rounded, bind, Except.bind] at ran
        split at ran
        · cases ran
        · rename_i s' mapped
          cases ran
          refine agrees.carved carve ?_ mapped
          intro v member
          obtain ⟨i, inRange, rfl⟩ := List.mem_map.mp member
          have below : i < roundup rbx / 4096 :=
            Nat.lt_of_lt_of_le (List.mem_range.mp inRange) (Nat.mod_le _ _)
          have limits := agrees.tiling.sound_free r carve.member
          have high := carve.high
          have size := Nat.div_mul_le_self (roundup rbx) 4096
          simp only at high
          unfold pageSize
          rw [wadd_eq (by omega)]
          exact ⟨Nat.le_add_right _ _, by simp only; omega⟩
    · have zero : rbx = 0 := by omega
      subst zero
      cases ran
      exact ⟨agrees, fun _ _ _ => rfl⟩

theorem spawnStack_keeps (agrees : Agrees space) (room : HasRoom space.ranges stackSize) {top : Nat}
    (ran : spawnStack space = .ok (top, space')) : Agrees space' ∧ Untouched space space' := by
  rcases Vma.valloc_cases agrees.tiling (show 1 ≤ stackSize by decide) (by decide) with
    ⟨_, none⟩ | ⟨r, f, u, result, carve⟩
  · obtain ⟨r, member, large⟩ := room
    exact absurd (none r member) (Nat.not_lt_of_le large)
  · simp only [spawnStack, result, bind, Except.bind] at ran
    split at ran
    · cases ran
    · rename_i s' mapped
      simp only [Except.ok.injEq, Prod.mk.injEq] at ran
      obtain ⟨_, rfl⟩ := ran
      refine agrees.carved carve ?_ mapped
      intro v member
      obtain ⟨i, inRange, rfl⟩ := List.mem_map.mp member
      have below : i < stackSize / pageSize := List.mem_range.mp inRange
      have limits := agrees.tiling.sound_free r carve.member
      have high := carve.high
      unfold roundup stackSize at *
      unfold pageSize at *
      simp only at high ⊢
      have upper : wsub (wadd r.vaddr (64 * 1024)) 4096 = r.vaddr + 61440 := by
        rw [wadd_eq (by omega), wsub_eq (by omega) (by omega)]
        omega
      rw [upper, wsub_eq (by omega) (by omega)]
      exact ⟨by simp only; omega, by simp only; omega⟩

end Anywhere

/-! Mappings at addresses the caller chooses: the framebuffer and the segments of a file. -/

section Chosen

variable {space space' : AddressSpace}

/-- vmm_map_page at a used address. -/
theorem Agrees.map (agrees : Agrees space) {s' : Phys} {v p flags : Nat} (used : UsedAt space.ranges v)
    (ran : vmmMapPage space.phys space.topLevel v p flags = .ok s') :
    Agrees { space with phys := s' } := by
  have lowV := (usedAt_window agrees.tiling used).2
  obtain ⟨list, inv⟩ := agrees.inv
  obtain ⟨list', inv', set⟩ := vmmMapPage_ok inv agrees.tree (lowerHalf_pml4i (by omega)) ran
  apply agrees.update inv' set.kept.hhdm set.tree agrees.tiling (fun _ old => old)
  intro w low
  rw [set.leaves w (lowerHalf_pml4i low)]
  split
  · rename_i same
    have page := (pageBits_lower (show v < 2 ^ 47 by omega) low).mp same.symm
    exact .inr (agrees.tiling.used_page page used)
  · exact .inl rfl

theorem mapFrames_keeps {flags : Nat} {frames : List (Nat × Nat)} {s' : Phys} (agrees : Agrees space)
    (used : ∀ f ∈ frames, UsedAt space.ranges f.1)
    (ran : mapFrames space.topLevel flags frames space.phys = .ok s') :
    Agrees { space with phys := s' } := by
  induction frames generalizing space with
  | nil =>
    cases ran
    exact agrees
  | cons f frames ih =>
    simp only [mapFrames, bind, Except.bind] at ran
    split at ran
    · cases ran
    · rename_i s₁ mapped
      have agrees₁ := agrees.map (used f List.mem_cons_self) mapped
      have rest := ih agrees₁ (fun g member => used g (List.mem_cons_of_mem _ member)) ran
      exact rest

/-- The framebuffers that sys_fb_map maps into used ranges. -/
def FbFits (pm : Ranges) (fb : Framebuffer) : Prop :=
  ∀ i, i < fb.pages → UsedAt pm (fbVirt + i * 0x1000)

theorem sysFbMap_keeps (agrees : Agrees space) {fb : Framebuffer} {hypervisor : Bool}
    (fits : FbFits space.ranges fb) (ran : sysFbMap space fb hypervisor = .ok space') : Agrees space' := by
  simp only [sysFbMap, bind, Except.bind] at ran
  split at ran
  · cases ran
  · rename_i s' mapped
    cases ran
    refine mapFrames_keeps agrees ?_ mapped
    intro f member
    obtain ⟨i, inRange, rfl⟩ := List.mem_map.mp member
    have below := List.mem_range.mp inRange
    have few : fb.pages < 2 ^ 16 := Nat.mod_lt _ (by decide)
    have used := fits i below
    unfold fbVirt at *
    rw [wadd_eq (by omega)]
    exact used

/-- The writes to a new page stay in it when the first offset does. -/
theorem fillPage_outside {m : Memory} {file : File} {vpage offset src toCopy a : Nat} (aligned : 8 ∣ vpage)
    (bound : vpage + pageSize < 2 ^ 64) (inPage : offset ≤ pageSize)
    (fits : toCopy ≤ wsub pageSize offset) (outside : ¬ (vpage ≤ a ∧ a < vpage + pageSize)) :
    fillPage m file vpage offset src toCopy a = m a := by
  have space : wsub pageSize offset = pageSize - offset := wsub_eq (by decide) inPage
  have start : wadd vpage offset = vpage + offset := wadd_eq (by omega)
  rw [space] at fits
  have rest : wadd (vpage + offset) toCopy = vpage + offset + toCopy := wadd_eq (by omega)
  have keep : ∀ (m' : Memory) (p n : Nat) (byte : Nat → Nat), vpage ≤ p → p + n ≤ vpage + pageSize →
      m'.writeBytes p n byte a = m' a := fun m' p n byte low high =>
    Memory.writeBytes_outside byte aligned low high outside
  simp only [fillPage, space, start, rest]
  split
  · rw [keep _ _ _ _ (by omega) (by omega)]
    split
    · rw [keep _ _ _ _ (by omega) (by omega)]
      split
      · exact keep _ _ _ _ (by omega) (by omega)
      · rfl
    · split
      · exact keep _ _ _ _ (by omega) (by omega)
      · rfl
  · split
    · rw [keep _ _ _ _ (by omega) (by omega)]
      split
      · exact keep _ _ _ _ (by omega) (by omega)
      · rfl
    · split
      · exact keep _ _ _ _ (by omega) (by omega)
      · rfl

/-- Writes to a page in use that is no table of the process. -/
theorem Agrees.write (agrees : Agrees space) {p : Nat} (used : PageIs space.phys p .used)
    (notTable : ∀ path, Valid lowerHalf path →
      descend (child space.phys) space.topLevel path ≠ some (p + space.phys.hhdmOffset))
    {m : Memory} (own : ∀ a, ¬ InFrame space.phys p a → m a = space.phys.mem a) :
    Agrees { space with phys := { space.phys with mem := m } } := by
  obtain ⟨list, inv⟩ := agrees.inv
  have inv' : Inv { space.phys with mem := m } list :=
    inv.write (fun a outside => own a (outside p used))
  have tables : ∀ path q, Valid lowerHalf path →
      descend (child space.phys) space.topLevel path = some (q + space.phys.hhdmOffset) →
      PageIs space.phys q .used → ∀ a, InFrame space.phys q a → m a = space.phys.mem a := by
    intro path q valid here usedQ a inQ
    apply own
    intro inP
    have same := frame_apart inv.layout usedQ used inQ inP
    exact notTable path valid (same ▸ here)
  obtain ⟨tree', _, _, leaves⟩ := @Tree.frame space.phys { space.phys with mem := m } space.topLevel
    lowerHalf agrees.tree rfl (fun _ usedQ => usedQ) tables
  exact agrees.update inv' rfl tree' agrees.tiling (fun _ old => old)
    (fun w low => .inl (leaves w (lowerHalf_pml4i low)))

/-- The loop over the pages of a segment, at used addresses. -/
theorem loadPages_keeps {file : File} {flags vaddrOffset : Nat} (small : vaddrOffset ≤ pageSize)
    (count : Nat) {first : Bool} {virt src remaining : Nat} {s' : Phys} (agrees : Agrees space)
    (used : ∀ i, i < count → UsedAt space.ranges (virt + i * 4096))
    (ran : loadPages file space.topLevel flags vaddrOffset count first virt src remaining space.phys =
      .ok s') : Agrees { space with phys := s' } := by
  induction count generalizing space first virt src remaining with
  | zero =>
    cases ran
    exact agrees
  | succ count ih =>
    have here := used 0 (Nat.succ_pos _)
    rw [Nat.zero_mul, Nat.add_zero] at here
    have lowV := (usedAt_window agrees.tiling here).2
    obtain ⟨list, inv⟩ := agrees.inv
    rcases @newPage_outcome space.phys space.topLevel flags lowerHalf list inv agrees.tree virt
        (lowerHalf_pml4i (by omega)) with
      ⟨p, s₁, s₂, list₂, returned, mapped, inv₂, new⟩ | ⟨failed, _⟩
    · have agrees₂ : Agrees { space with phys := s₂ } :=
        agrees.mapped inv₂ new.mapped agrees.tiling (fun _ old => old)
          (fun v member => List.mem_singleton.mp member ▸ here)
      have hhdm := new.kept.hhdm
      obtain ⟨aligned, _, bound, _⟩ := inv₂.layout.page_bounds new.used
      have hhdm₁ : s₁.hhdmOffset = space.phys.hhdmOffset := by
        rcases allocatePage_outcome inv with ⟨q, t, _, again, _, allocated⟩ | ⟨failed, _⟩
        · cases Except.ok.inj (again.symm.trans returned)
          exact allocated.hhdm
        · cases failed.symm.trans returned
      have vpage : wadd p s₁.hhdmOffset = p + s₂.hhdmOffset := by
        rw [hhdm₁, ← hhdm, wadd_eq (by omega)]
      simp only [loadPages, returned, mapped, vpage, bind, Except.bind] at ran
      have filled : ∀ a, ¬ InFrame s₂ p a → fillPage s₂.mem file (p + s₂.hhdmOffset)
          (if first = true then vaddrOffset else 0) src
          (min remaining (wsub pageSize (if first = true then vaddrOffset else 0))) a = s₂.mem a := by
        intro a outside
        apply fillPage_outside
        · exact Dvd.dvd.trans (by decide) (Nat.dvd_add aligned agrees₂.offset)
        · omega
        · split
          · exact small
          · exact Nat.zero_le _
        · exact Nat.min_le_right _ _
        · exact outside
      have agrees₃ := agrees₂.write new.used (hhdm.symm ▸ new.notTable) filled
      have later : ∀ i, i < count → UsedAt space.ranges (wadd virt pageSize + i * 4096) := by
        intro i below
        have next := used (i + 1) (by omega)
        have lowNext := (usedAt_window agrees.tiling next).2
        have step : wadd virt pageSize = virt + 4096 := by
          unfold pageSize
          rw [wadd_eq (by omega)]
        rw [step]
        have shift : virt + (i + 1) * 4096 = virt + 4096 + i * 4096 := by omega
        exact shift ▸ next
      have rest := ih agrees₃ later ran
      exact rest
    · simp only [mapNewPage, bind, Except.bind] at failed
      simp only [loadPages, bind, Except.bind] at ran
      split at failed
      · rename_i e stops
        simp only [stops] at ran
        cases ran
      · rename_i pair returned
        simp only [returned, failed] at ran
        cases ran

end Chosen

section Segments

variable {space space' : AddressSpace} {pm : Ranges} {size addr lo n : Nat}

/-- The part of a request at a fixed address that is looked for in the free ranges: all
of it, or what a used range at that address is too short for. -/
def newPart (pm : Ranges) (size addr : Nat) : Option (Nat × Nat) :=
  if ¬ isAligned addr pageSize then none
  else
    match pm.usedRanges.find ⟨addr, 0⟩ with
    | some u => if roundup size ≤ u.size then none else some (addr + u.size, addr + roundup size)
    | none => some (addr, addr + roundup size)

/-- That part ends with the free range it starts in. -/
def PartFits (pm : Ranges) (size addr : Nat) : Prop :=
  ∀ part, newPart pm size addr = some part → (1 ≤ size ∧ addr + roundup size < 2 ^ 64) ∧
    ∀ r ∈ pm.freeRanges.nodes, Inside part.1 r.span → part.2 ≤ r.vaddr + r.size

/- What taking the words from `lo` on from the free tree does, when they are free. -/
structure Takes (pm pm' : Ranges) (part : Nat × Nat) : Prop where
  tiling : Tiling newPagemapWindow pm'
  grows : ∀ x, UsedAt pm x → UsedAt pm' x
  taken : FreeAt pm part.1 → ∀ x, Inside x part → UsedAt pm' x

theorem reserve_takes (tiling : Tiling newPagemapWindow pm) (alignedLo : Vma.pageSize ∣ lo)
    (alignedN : Vma.pageSize ∣ n) (positive : 0 < n)
    (fits : ∀ r ∈ pm.freeRanges.nodes, Inside lo r.span → lo + n ≤ r.vaddr + r.size) :
    Takes pm (Vma.vallocFixed.reserve pm n lo).2 (lo, lo + n) := by
  cases found : pm.freeRanges.find ⟨lo, 0⟩ with
  | none =>
    have result : Vma.vallocFixed.reserve pm n lo = (0, pm) := by
      unfold Vma.vallocFixed.reserve
      rw [found]
    rw [result]
    exact ⟨tiling, fun _ old => old, fun free => absurd free (tiling.sound_free.find_none.mp found)⟩
  | some r =>
    obtain ⟨member, inside⟩ := tiling.sound_free.find_some found
    obtain ⟨f, u, result, carve⟩ := Vma.reserve_fits tiling found positive (fits r member inside)
    rw [result]
    exact ⟨tiling.of_alloc carve alignedLo alignedN, fun x old => (carve.dst_covers x).mpr (.inr old),
      fun _ x inPart => (carve.dst_covers x).mpr (.inl inPart)⟩

theorem vallocFixed_takes (tiling : Tiling newPagemapWindow pm) (fits : PartFits pm size addr) :
    Tiling newPagemapWindow (Vma.vallocFixed pm size addr false).2 ∧
      (∀ x, UsedAt pm x → UsedAt (Vma.vallocFixed pm size addr false).2 x) ∧
      ∀ part, newPart pm size addr = some part → FreeAt pm part.1 →
        ∀ x, Inside x part → UsedAt (Vma.vallocFixed pm size addr false).2 x := by
  by_cases aligned : isAligned addr pageSize = true
  · have multiple : Vma.pageSize ∣ addr := (Vma.isAligned_page addr).mp aligned
    have notNot : ¬ ¬ isAligned addr pageSize = true := fun no => no aligned
    cases found : pm.usedRanges.find ⟨addr, 0⟩ with
    | some u =>
      obtain ⟨member, inside⟩ := tiling.sound_used.find_some found
      obtain ⟨alignedU, alignedSize⟩ := tiling.aligned u (List.mem_append_right _ member)
      have limits := tiling.limits (List.mem_append_right _ member)
      have hi : newPagemapWindow.hi = 400000000000 := rfl
      by_cases short : roundup size ≤ u.size
      · have bound : addr + roundup size < 2 ^ 64 := by
          obtain ⟨_, high⟩ := inside
          simp only [PageRange.span] at high
          omega
        have result := @Vma.vallocFixed_used pm size addr false multiple bound u found
        simp only [Bool.false_eq_true, ↓reduceIte, short] at result
        have none : newPart pm size addr = none := by
          simp only [newPart, if_neg notNot, found, short, ↓reduceIte]
        rw [result, none]
        exact ⟨tiling, fun _ old => old, fun part no => by cases no⟩
      · have part : newPart pm size addr = some (addr + u.size, addr + roundup size) := by
          simp only [newPart, if_neg notNot, found, short, ↓reduceIte]
        obtain ⟨⟨_, bound⟩, room⟩ := fits _ part
        have result := @Vma.vallocFixed_used pm size addr false multiple bound u found
        simp only [Bool.false_eq_true, ↓reduceIte, short] at result
        have whole : addr + u.size + (roundup size - u.size) = addr + roundup size := by omega
        have takes := reserve_takes tiling (Nat.dvd_add multiple alignedSize)
          (Nat.dvd_sub (Vma.roundup_dvd size) alignedSize) (by omega) (whole.symm ▸ room)
        rw [result, part]
        rw [whole] at takes
        exact ⟨takes.tiling, takes.grows, fun _ same => Option.some.inj same ▸ takes.taken⟩
    | none =>
      have part : newPart pm size addr = some (addr, addr + roundup size) := by
        simp only [newPart, if_neg notNot, found]
      obtain ⟨⟨positive, bound⟩, room⟩ := fits _ part
      have result := @Vma.vallocFixed_free pm size addr false multiple bound found
      have takes := reserve_takes tiling multiple (Vma.roundup_dvd size) (Vma.roundup_pos positive) room
      rw [result, part]
      exact ⟨takes.tiling, takes.grows, fun _ same => Option.some.inj same ▸ takes.taken⟩
  · have result : Vma.vallocFixed pm size addr false = (0, pm) := by
      unfold Vma.vallocFixed
      exact if_pos aligned
    have none : newPart pm size addr = none := if_pos aligned
    rw [result, none]
    exact ⟨tiling, fun _ old => old, fun part no => by cases no⟩

/-- A segment that load_elf maps where it is reserved: the reservation fits, each page was
used before or is in it, and the first page holds the whole offset. -/
structure SegmentFits (pm : Ranges) (ph : ProgramHeader) : Prop where
  part : PartFits pm ph.reservedSize ph.firstVirtAddr
  covered : ∀ i, i < ph.pagesToMap → UsedAt pm (ph.firstVirtAddr + i * 4096) ∨
    ∃ part, newPart pm ph.reservedSize ph.firstVirtAddr = some part ∧ FreeAt pm part.1 ∧
      Inside (ph.firstVirtAddr + i * 4096) part
  offset : ph.vaddrOffset ≤ pageSize

/-- Each loadable segment fits into the ranges as the segments before it leave them. -/
def SegmentsFit : List ProgramHeader → Ranges → Prop
  | [], _ => True
  | ph :: rest, pm =>
    if ph.isLoad then SegmentFits pm ph ∧
      SegmentsFit rest (Vma.vallocFixed pm ph.reservedSize ph.firstVirtAddr false).2
    else SegmentsFit rest pm

theorem loadSegments_keeps {file : File} {headers : List ProgramHeader} (agrees : Agrees space)
    (fits : SegmentsFit headers space.ranges) (ran : loadSegments file headers space = .ok space') :
    Agrees space' := by
  induction headers generalizing space with
  | nil =>
    cases ran
    exact agrees
  | cons ph rest ih =>
    simp only [loadSegments, bind, Except.bind] at ran
    by_cases isLoad : ph.isLoad = true
    · simp only [SegmentsFit, isLoad, ↓reduceIte] at fits
      obtain ⟨here, later⟩ := fits
      obtain ⟨tiling, grows, taken⟩ := vallocFixed_takes agrees.tiling here.part
      have reserved : Agrees { space with
          ranges := (Vma.vallocFixed space.ranges ph.reservedSize ph.firstVirtAddr false).2 } := by
        obtain ⟨list, inv⟩ := agrees.inv
        exact agrees.update inv rfl agrees.tree tiling grows (fun w _ => .inl rfl)
      simp only [loadSegment, isLoad, not_true_eq_false, ↓reduceIte, bind, Except.bind] at ran
      split at ran
      · cases ran
      · rename_i loaded segment
        split at segment
        · cases segment
        · rename_i s' pages
          cases segment
          have mapped := loadPages_keeps here.offset ph.pagesToMap reserved ?_ pages
          · exact ih mapped later ran
          · intro i below
            rcases here.covered i below with old | ⟨part, isPart, free, inside⟩
            · exact grows _ old
            · exact taken part isPart free _ inside
    · simp only [SegmentsFit, isLoad] at fits
      simp only [loadSegment, isLoad] at ran
      exact ih agrees fits ran

theorem loadElf_keeps {file : File} {info : ElfInfo} (agrees : Agrees space)
    (fits : verifyElf64 file = true → SegmentsFit (programHeaders file) space.ranges)
    (ran : loadElf file space = .ok (info, space')) : Agrees space' := by
  unfold loadElf at ran
  split at ran
  · cases ran
    exact agrees
  · rename_i accepted
    simp only [bind, Except.bind] at ran
    split at ran
    · cases ran
    · rename_i loaded segments
      cases ran
      exact loadSegments_keeps agrees (fits (by simpa using accepted)) segments

end Segments

end EvalynOS.Process
