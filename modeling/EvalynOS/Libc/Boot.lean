import EvalynOS.Libc.Malloc

/-! The kernel's memory right after setup_pmm, setup_vmm, setup_heap and valloc_init. Of
setup_vmm the part that makes the upper half of the top level is modelled; what it then
maps is the direct map and the kernel image, outside the entries below. -/
namespace EvalynOS.Stdlib
open Lib Lib.Word Pmm Vmm Heap
open Vma (Ranges Tiling UsedAt vallocInitWindow)

def topFlags : Nat := ptePresent ||| pteWritable ||| pteLocked

/- The loop of setup_vmm that gives entries of the top level a table. -/
def makeTables (topLevel : Nat) : List Nat → Phys → Except Panic Phys
  | [], s => .ok s
  | i :: rest, s => do
    let (page, s) ← allocatePage s
    let s := setPte s topLevel i page
    makeTables topLevel rest (setPte s topLevel i (pte s topLevel i ||| topFlags))

def setupTopLevel (s : Phys) : Except Panic (Nat × Phys) := do
  let (pml4Phys, s) ← allocatePage s
  let topLevel := wadd pml4Phys s.hhdmOffset
  let s ← makeTables topLevel ((List.range 255).map (fun i => i + 256)) s
  .ok (topLevel, s)

/- The four calls of kmain. -/
def boot (s : Phys) : Except Panic Kernel := do
  let (topLevel, s) ← setupTopLevel s
  let heap ← setupHeap s
  .ok ⟨heap, topLevel, vallocInitWindow.fresh⟩

/-- A top level whose entries `done` have empty tables of their own. -/
structure TopLevel (s : Phys) (top : Nat) (done : List Nat) (page : Nat → Nat) : Prop where
  frame : ∃ q, PageIs s q .used ∧ top = q + s.hhdmOffset
  bounded : ∀ i ∈ done, i < 512
  pages : ∀ i ∈ done, PageIs s (page i) .used ∧ page i + s.hhdmOffset ≠ top
  entries : ∀ i ∈ done, pte s top i = page i ||| topFlags
  tables : ∀ i ∈ done, ∀ j < 512, pte s (page i + s.hhdmOffset) j = 0
  rest : ∀ i < 512, i ∉ done → pte s top i = 0
  distinct : ∀ i ∈ done, ∀ j ∈ done, page i = page j → i = j

/- `n` pages were taken, and those in use were left alone. -/
structure Took (s s' : Phys) (n : Nat) : Prop where
  hhdm : s'.hhdmOffset = s.hhdmOffset
  total : s'.totalPages = s.totalPages
  pages : Pages s s'
  usedPages : s'.usedPages = s.usedPages + n

theorem Took.trans {s s₁ s₂ : Phys} {m n : Nat} (one : Took s s₁ m) (two : Took s₁ s₂ n) :
    Took s s₂ (m + n) where
  hhdm := two.hhdm.trans one.hhdm
  total := two.total.trans one.total
  pages := fun q page => one.pages q (two.pages q page)
  usedPages := by rw [two.usedPages, one.usedPages, Nat.add_assoc]

section Tables

variable {s s' : Phys} {top p i : Nat} {list done : List Nat} {page : Nat → Nat}

/-- A top level is what its pages hold. -/
theorem TopLevel.kept (level : TopLevel s top done page) (hhdm : s'.hhdmOffset = s.hhdmOffset)
    (used : ∀ q, PageIs s q .used → PageIs s' q .used)
    (mem : ∀ q, PageIs s q .used → ∀ a, InFrame s q a → s'.mem a = s.mem a) : TopLevel s' top done page := by
  have same : ∀ q i, PageIs s q .used → i < 512 → pte s' (q + s.hhdmOffset) i = pte s (q + s.hhdmOffset) i :=
    fun q i usedQ bound => mem q usedQ _ (slot_inFrame s q bound)
  obtain ⟨q, usedQ, rfl⟩ := level.frame
  refine ⟨⟨q, used q usedQ, by rw [hhdm]⟩, level.bounded, ?_, ?_, ?_, ?_, level.distinct⟩
  · intro i member
    rw [hhdm]
    exact ⟨used _ (level.pages i member).1, (level.pages i member).2⟩
  · intro i member
    rw [same q i usedQ (level.bounded i member)]
    exact level.entries i member
  · intro i member j bound
    rw [hhdm, same _ j (level.pages i member).1 bound]
    exact level.tables i member j bound
  · intro i bound fresh
    rw [same q i usedQ bound]
    exact level.rest i bound fresh

/-- One more entry gets the page that was just allocated. -/
theorem TopLevel.enter (level : TopLevel s top done page) (inv : Inv s list) {s₁ : Phys}
    (allocated : Allocated s p s₁) (bound : i < 512) (fresh : i ∉ done) :
    TopLevel (setPte s₁ top i (p ||| topFlags)) top (i :: done) (Function.update page i p) := by
  obtain ⟨state, isPage, unused⟩ := allocated.fresh
  have notUsed : ¬ PageIs s p .used := fun used => unused (inv.layout.page_unique isPage used)
  have level₁ := level.kept allocated.hhdm (fun q used => (allocated.owned q).mpr (.inr used))
    (fun q used a => allocated.frame q used a)
  obtain ⟨q, usedQ, address⟩ := level.frame
  have hhdm := allocated.hhdm
  have apart : p + s₁.hhdmOffset ≠ top := by
    rw [hhdm, address]
    intro same
    have equal : p = q := by omega
    exact notUsed (equal ▸ usedQ)
  -- the store reaches no other page
  have elsewhere : ∀ r j, PageIs s r .used ∨ r = p → r + s₁.hhdmOffset ≠ top → j < 512 →
      pte (setPte s₁ top i (p ||| topFlags)) (r + s₁.hhdmOffset) j = pte s₁ (r + s₁.hhdmOffset) j := by
    intro r j known different bound'
    apply Memory.store_other
    intro same
    obtain ⟨stateR, pageR⟩ : ∃ state, PageIs s r state := by
      rcases known with used | rfl
      · exact ⟨.used, used⟩
      · exact ⟨state, isPage⟩
    have inR := slot_inFrame s r bound'
    rw [← hhdm, same, address] at inR
    have equal := frame_apart inv.layout pageR usedQ inR (slot_inFrame s q bound)
    exact different (by rw [hhdm, equal, address])
  have untouched : ∀ j, j ≠ i → pte (setPte s₁ top i (p ||| topFlags)) top j = pte s₁ top j := by
    intro j different
    apply Memory.store_other
    unfold slot
    omega
  have updated : ∀ j ∈ done, Function.update page i p j = page j := by
    intro j member
    apply Function.update_of_ne
    rintro rfl
    exact fresh member
  refine ⟨level₁.frame, ?_, ?_, ?_, ?_, ?_, ?_⟩
  · intro j member
    rcases List.mem_cons.mp member with rfl | old
    · exact bound
    · exact level.bounded j old
  · intro j member
    rcases List.mem_cons.mp member with rfl | old
    · rw [Function.update_self]
      exact ⟨(allocated.owned p).mpr (.inl rfl), apart⟩
    · rw [updated j old]
      exact level₁.pages j old
  · intro j member
    rcases List.mem_cons.mp member with rfl | old
    · rw [Function.update_self]
      exact Memory.store_same _ _ _
    · rw [updated j old, untouched j (fun same => fresh (same ▸ old))]
      exact level₁.entries j old
  · intro j member k bound'
    change pte (setPte s₁ top i (p ||| topFlags)) (Function.update page i p j + s₁.hhdmOffset) k = 0
    rcases List.mem_cons.mp member with rfl | old
    · rw [Function.update_self, elsewhere p k (.inr rfl) apart bound', hhdm]
      exact allocated.zero _ (slot_inFrame s p bound')
    · rw [updated j old, elsewhere _ k (.inl (level.pages j old).1) (level₁.pages j old).2 bound']
      exact level₁.tables j old k bound'
  · intro j bound' new
    rw [untouched j (fun same => new (same ▸ List.mem_cons_self))]
    exact level₁.rest j bound' (fun old => new (List.mem_cons_of_mem _ old))
  · have noneIsP : ∀ j ∈ done, page j ≠ p := fun j old same => notUsed (same ▸ (level.pages j old).1)
    intro j member k member'
    rcases List.mem_cons.mp member with rfl | old
    · rcases List.mem_cons.mp member' with rfl | old'
      · exact fun _ => rfl
      · rw [Function.update_self, updated k old']
        exact fun same => absurd same.symm (noneIsP k old')
    · rcases List.mem_cons.mp member' with rfl | old'
      · rw [Function.update_self, updated j old]
        exact fun same => absurd same (noneIsP j old)
      · rw [updated j old, updated k old']
        exact level.distinct j old k old'

theorem makeTables_outcome (todo : List Nat) (inv : Inv s list) (level : TopLevel s top done page)
    (fresh : (todo ++ done).Nodup) (bounded : ∀ i ∈ todo, i < 512) :
    (∃ s' list' done' page', makeTables top todo s = .ok s' ∧ Inv s' list' ∧
      TopLevel s' top done' page' ∧ (∀ i, i ∈ done' ↔ i ∈ todo ∨ i ∈ done) ∧ Took s s' todo.length) ∨
    (makeTables top todo s = .error .outOfMemory ∧ s.totalPages < s.usedPages + todo.length) := by
  induction todo generalizing s list done page with
  | nil => exact .inl ⟨s, list, done, page, rfl, inv, level, by simp, rfl, rfl, fun _ page => page, rfl⟩
  | cons i todo ih =>
    obtain ⟨notLater, distinct⟩ := List.nodup_cons.mp fresh
    have notDone : i ∉ done := fun old => notLater (List.mem_append_right _ old)
    rcases allocatePage_outcome inv with ⟨p, s₁, list₁, returned, inv₁, allocated⟩ | ⟨failed, full⟩
    · have level₂ := level.enter inv allocated (bounded i List.mem_cons_self) notDone
      have inv₂ : Inv (setPte s₁ top i (p ||| topFlags)) list₁ := by
        obtain ⟨q, usedQ, rfl⟩ := level.frame
        have written := inv_setPte inv₁ ((allocated.owned q).mpr (.inr usedQ)) (bounded i List.mem_cons_self)
          (p ||| topFlags)
        rwa [allocated.hhdm] at written
      have took : Took s (setPte s₁ top i (p ||| topFlags)) 1 :=
        ⟨allocated.hhdm, allocated.total, fun q => (allocated.pages q).mp, allocated.usedPages⟩
      have ran : makeTables top (i :: todo) s = makeTables top todo (setPte s₁ top i (p ||| topFlags)) := by
        simp only [makeTables, returned, bind, Except.bind, setPte_setPte, pte_setPte]
      have later : (todo ++ i :: done).Nodup :=
        List.nodup_middle.mpr (List.nodup_cons.mpr ⟨notLater, distinct⟩)
      rw [ran]
      rcases ih inv₂ level₂ later (fun j member => bounded j (List.mem_cons_of_mem _ member)) with
        ⟨s', list', done', page', result, inv', level', entered, took'⟩ | ⟨failed, full⟩
      · refine .inl ⟨s', list', done', page', result, inv', level', ?_, ?_⟩
        · intro j
          rw [entered j, List.mem_cons, List.mem_cons, or_left_comm, or_assoc]
        · rw [List.length_cons, Nat.add_comm]
          exact took.trans took'
      · right
        rw [took.total, took.usedPages] at full
        exact ⟨failed, by rw [List.length_cons]; omega⟩
    · right
      refine ⟨?_, by rw [List.length_cons]; omega⟩
      simp only [makeTables, failed, bind, Except.bind]

/-- The tables of a top level: itself, and those of its entries. -/
theorem TopLevel.descend_cases (level : TopLevel s top done page) (layout : Layout s.hhdmOffset s.tables)
    {path : List Nat} {t : Nat} (small : ∀ i ∈ path, i < 512)
    (here : descend (child s) top path = some t) :
    (path = [] ∧ t = top) ∨ ∃ i ∈ done, path = [i] ∧ t = page i + s.hhdmOffset := by
  cases path with
  | nil => exact .inl ⟨rfl, (Option.some.inj here).symm⟩
  | cons i path =>
    right
    have bound := small i List.mem_cons_self
    by_cases member : i ∈ done
    · obtain ⟨aligned, _, mapped, physical⟩ := layout.page_bounds (level.pages i member).1
      have flags : IsFlags (pteWritable ||| pteLocked) := by
        unfold IsFlags
        decide
      have whole : topFlags = ptePresent ||| (pteWritable ||| pteLocked) := by decide
      obtain ⟨present, address⟩ := flags.entry aligned physical
      rw [← whole] at present address
      have next : child s top i = some (page i + s.hhdmOffset) := by
        unfold child tableOf
        rw [level.entries i member, if_pos present, address, wadd_eq (by omega)]
      simp only [descend, next, Option.bind_some] at here
      cases path with
      | nil => exact ⟨i, member, rfl, (Option.some.inj here).symm⟩
      | cons j path =>
        have empty := level.tables i member j (small j (by simp))
        have none : child s (page i + s.hhdmOffset) j = none := by
          simp only [child, empty, isPresent_zero, Bool.false_eq_true, ↓reduceIte]
        simp only [descend, none, Option.bind_none] at here
        cases here
    · have none : child s top i = none := by
        simp only [child, level.rest i bound member, isPresent_zero, Bool.false_eq_true, ↓reduceIte]
      simp only [descend, none, Option.bind_none] at here
      cases here

theorem TopLevel.tree (level : TopLevel s top done page) (layout : Layout s.hhdmOffset s.tables)
    (region : Nat → Prop) : Tree s top region where
  separated := by
    intro left right t validLeft validRight toLeft toRight
    rcases level.descend_cases layout validLeft.2.1 toLeft with ⟨rfl, same⟩ | ⟨i, member, rfl, address⟩
    · rcases level.descend_cases layout validRight.2.1 toRight with ⟨rfl, _⟩ | ⟨j, member', rfl, address'⟩
      · rfl
      · exact absurd (address'.symm.trans same) (level.pages j member').2
    · rcases level.descend_cases layout validRight.2.1 toRight with ⟨rfl, same⟩ | ⟨j, member', rfl, address'⟩
      · exact absurd (address.symm.trans same) (level.pages i member).2
      · rw [level.distinct i member j member' (by omega)]
  frames := by
    intro path t valid here
    rcases level.descend_cases layout valid.2.1 here with ⟨_, rfl⟩ | ⟨i, member, _, rfl⟩
    · exact level.frame
    · exact ⟨page i, (level.pages i member).1, rfl⟩

/-- Nothing is mapped yet. -/
theorem TopLevel.leaf_zero (level : TopLevel s top done page) (layout : Layout s.hhdmOffset s.tables)
    (v : Nat) : leaf s top v = 0 := by
  obtain ⟨_, bound2, bound3, bound4⟩ := pml_lt v
  cases here : descend (child s) top (pathOf v) with
  | none => simp only [leaf, here]
  | some t =>
    have small : ∀ i ∈ pathOf v, i < 512 := by
      simp only [pathOf, List.mem_cons, List.not_mem_nil, or_false]
      rintro i (rfl | rfl | rfl)
      · exact bound4
      · exact bound3
      · exact bound2
    rcases level.descend_cases layout small here with ⟨none, _⟩ | ⟨_, _, short, _⟩
    · cases none
    · cases short

end Tables

section Boot

variable {s : Phys} {list : List Nat}

theorem setupTopLevel_outcome (inv : Inv s list) :
    (∃ top s' list' done page, setupTopLevel s = .ok (top, s') ∧ Inv s' list' ∧
      TopLevel s' top done page ∧ (∀ i, i ∈ done ↔ 256 ≤ i ∧ i < 511) ∧ Took s s' 256) ∨
    (setupTopLevel s = .error .outOfMemory ∧ s.totalPages < s.usedPages + 256) := by
  rcases allocatePage_outcome inv with ⟨p, s₁, list₁, returned, inv₁, allocated⟩ | ⟨failed, full⟩
  · obtain ⟨state, isPage, _⟩ := allocated.fresh
    obtain ⟨_, _, mapped, _⟩ := inv.layout.page_bounds isPage
    have address : wadd p s₁.hhdmOffset = p + s.hhdmOffset := by
      rw [allocated.hhdm, wadd_eq (by omega)]
    have took : Took s s₁ 1 :=
      ⟨allocated.hhdm, allocated.total, fun q => (allocated.pages q).mp, allocated.usedPages⟩
    have level : TopLevel s₁ (p + s.hhdmOffset) [] (fun _ => 0) := by
      refine ⟨⟨p, (allocated.owned p).mpr (.inl rfl), by rw [allocated.hhdm]⟩, by simp, by simp, by simp,
        by simp, ?_, by simp⟩
      intro i bound _
      exact allocated.zero _ (slot_inFrame s p bound)
    have fresh : ((List.range 255).map (fun i => i + 256) ++ []).Nodup := by
      rw [List.append_nil]
      exact List.nodup_range.map (fun i j same => Nat.add_right_cancel same)
    have bounded : ∀ i ∈ (List.range 255).map (fun i => i + 256), i < 512 := by
      intro i member
      obtain ⟨j, small, rfl⟩ := List.mem_map.mp member
      have below := List.mem_range.mp small
      omega
    rcases makeTables_outcome _ inv₁ level fresh bounded with
      ⟨s', list', done, page, ran, inv', level', entered, took'⟩ | ⟨failed, full⟩
    · refine .inl ⟨p + s.hhdmOffset, s', list', done, page, ?_, inv', level', ?_, ?_⟩
      · simp only [setupTopLevel, returned, bind, Except.bind, address, ran]
      · intro i
        rw [entered i, List.mem_map]
        constructor
        · rintro (⟨j, inRange, rfl⟩ | none)
          · have below := List.mem_range.mp inRange
            omega
          · cases none
        · rintro ⟨low, high⟩
          exact .inl ⟨i - 256, List.mem_range.mpr (by omega), by omega⟩
      · have both := took.trans took'
        rwa [List.length_map, List.length_range] at both
    · right
      rw [List.length_map, List.length_range, took.total, took.usedPages] at full
      refine ⟨?_, by omega⟩
      simp only [setupTopLevel, returned, bind, Except.bind, address, failed]
  · right
    refine ⟨?_, by omega⟩
    simp only [setupTopLevel, failed, bind, Except.bind]

/-- The kernel boots into a state without blocks, unless it has fewer than 262 pages. -/
theorem boot_outcome (inv : Inv s list) (offset : pageSize ∣ s.hhdmOffset) (direct : DirectMap s) :
    (∃ k slabsOf free list', boot s = .ok k ∧ KernelInv k [] [] slabsOf free list' ∧
      k.ranges = vallocInitWindow.fresh ∧ Took s k.phys 262) ∨
    (boot s = .error .outOfMemory ∧ s.totalPages < s.usedPages + 262) := by
  rcases setupTopLevel_outcome inv with ⟨top, s₁, list₁, done, page, made, inv₁, level, _, took⟩ | ⟨failed, full⟩
  · rcases setupHeap_outcome inv₁ (took.hhdm.symm ▸ offset) with
      ⟨h, slabsOf, free, list', sets, heap, fresh, slabs⟩ | ⟨failed, full⟩
    · left
      have level' := level.kept fresh.hhdm fresh.used fresh.mem
      have layout : Layout h.phys.hhdmOffset h.phys.tables := heap.pmm.layout
      have took' : Took s h.phys 262 :=
        took.trans ⟨fresh.hhdm, fresh.total, fresh.known, fresh.usedPages⟩
      refine ⟨⟨h, top, vallocInitWindow.fresh⟩, slabsOf, free, list', ?_, ?_, rfl, took'⟩
      · simp only [boot, made, sets, bind, Except.bind]
      · refine ⟨heap, level'.tree layout kernelRegion, ?_, vallocInitWindow.fresh_tiling, ?_,
          direct.kept took'.hhdm took'.total took'.pages, by simp⟩
        · intro path t valid here c member isSlab
          obtain ⟨q, unused, address⟩ := slabs c member t isSlab
          -- the tables were there before the slabs
          have before : ∃ r, PageIs s₁ r .used ∧ t = r + s₁.hhdmOffset := by
            rcases level'.descend_cases layout valid.2.1 here with ⟨_, rfl⟩ | ⟨i, inDone, _, rfl⟩
            · exact level.frame
            · refine ⟨page i, (level.pages i inDone).1, ?_⟩
              rw [fresh.hhdm]
          obtain ⟨r, used, address'⟩ := before
          have equal : q = r := by omega
          exact unused (equal ▸ used)
        · intro v _ _ present
          have nothing : leaf h.phys top v = 0 := level'.leaf_zero layout v
          change isPresent (leaf h.phys top v) = true at present
          rw [nothing, isPresent_zero] at present
          cases present
    · right
      rw [took.total, took.usedPages] at full
      refine ⟨?_, by omega⟩
      simp only [boot, made, failed, bind, Except.bind]
  · right
    refine ⟨?_, by omega⟩
    simp only [boot, failed, bind, Except.bind]

/-- What has booted has nothing mapped in the entries that are modelled. -/
theorem boot_unmapped {k : Kernel} (inv : Inv s list) (offset : pageSize ∣ s.hhdmOffset) (ran : boot s = .ok k)
    (v : Nat) : leaf k.phys k.topLevel v = 0 := by
  rcases setupTopLevel_outcome inv with ⟨top, s₁, list₁, done, page, made, inv₁, level, _, took⟩ | ⟨failed, _⟩
  · rcases setupHeap_outcome inv₁ (took.hhdm.symm ▸ offset) with
      ⟨h, slabsOf, free, list', sets, heap, fresh, _⟩ | ⟨failed, _⟩
    · simp only [boot, made, sets, bind, Except.bind] at ran
      cases ran
      exact (level.kept fresh.hhdm fresh.used fresh.mem).leaf_zero heap.pmm.layout v
    · simp only [boot, made, failed, bind, Except.bind] at ran
      cases ran
  · simp only [boot, failed, bind, Except.bind] at ran
    cases ran

/- A machine with one megabyte and more of memory from the first megabyte on. -/
def kernelMap : List MemmapEntry := [⟨0, 0x1000, .reserved⟩, ⟨0x100000, 0x140000, .usable⟩]

theorem kernelMap_limine : LimineMap 0xFFFF800000000000 kernelMap := by
  refine ⟨by decide, by decide, ?_, ?_, ?_⟩
  · simp [kernelMap, pageSize]
  · simp [kernelMap]
  · simp [kernelMap]

theorem kernelMap_pmm : ∃ s list, setupPmm 0xFFFF800000000000 kernelMap (fun _ => 7) = .ok s ∧ Inv s list ∧
    s.hhdmOffset = 0xFFFF800000000000 ∧ s.usedPages = 0 ∧ s.totalPages = 319 ∧
    ∀ q state, PageIs s q state → q + pageSize ≤ 0x240000 := by
  obtain ⟨s, list, boots, inv, filled, regions⟩ :=
    @setupPmm_filled 0xFFFF800000000000 kernelMap kernelMap_limine ⟨0x100000, 0x140000, .usable⟩ rfl (fun _ => 7)
  have total : s.totalPages = 319 := by
    rw [filled.total]
    decide +kernel
  refine ⟨s, list, boots, inv, filled.hhdm, filled.usedPages, total, ?_⟩
  intro q state page
  obtain ⟨e, member, usable, _, stop⟩ := regions q state page
  simp only [kernelMap, List.mem_cons, List.not_mem_nil, or_false] at member
  rcases member with rfl | rfl
  · cases usable
  · exact stop

theorem kernelMap_boots : ∃ s k slabsOf free list,
    setupPmm 0xFFFF800000000000 kernelMap (fun _ => 7) = .ok s ∧ boot s = .ok k ∧
    KernelInv k [] [] slabsOf free list ∧ k.ranges = vallocInitWindow.fresh ∧
    k.phys.usedPages + 57 = k.phys.totalPages := by
  obtain ⟨s, list, boots, inv, hhdm, used, total, regions⟩ := kernelMap_pmm
  have offset : pageSize ∣ s.hhdmOffset := by
    rw [hhdm]
    decide
  have direct : DirectMap s := by
    refine ⟨by omega, ?_, by omega⟩
    rintro q ⟨state, page⟩
    have stop := regions q state page
    have window : vallocInitWindow.lo = 0xFFFFA00000000000 := rfl
    omega
  rcases boot_outcome inv offset direct with ⟨k, slabsOf, free, list', ran, inv', ranges, took⟩ | ⟨_, full⟩
  · refine ⟨s, k, slabsOf, free, list', boots, ran, inv', ranges, ?_⟩
    rw [took.usedPages, took.total]
    omega
  · omega

end Boot

end EvalynOS.Stdlib
