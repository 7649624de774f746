import EvalynOS.Process.Alignment

/-! Processes do not see each other. A process reads and writes through its own tables, and
the pages behind them are its own. So nothing that is done for other processes, or by the
kernel with its own tables and pages, shows in the memory of a process. -/
namespace EvalynOS.Process
open Lib Lib.Word Pmm Vmm

/-- What a program's store of one byte does, if it may write there. -/
def writeByte (s : Phys) (top v byte : Nat) : Option Phys :=
  match hardwareWalk s top v with
  | some (page, rights) =>
    if rights.user && rights.writable then
      some { s with mem := s.mem.writeBytes (page + s.hhdmOffset + v % pageSize) 1 (fun _ => byte) }
    else none
  | none => none

/-- The machine that setup_vmm leaves. -/
structure Booted (m₀ : Machine) : Prop where
  started : ∃ hhdmOffset memmap mem s₀ boot ph, LimineMap hhdmOffset memmap ∧
    setupPmm hhdmOffset memmap mem = .ok s₀ ∧ setupVmm boot s₀ = .ok (m₀.kernelTop, m₀.phys) ∧
    ph ∈ programHeaders boot.executable ∧ ph.isLoad = true ∧ 0 < ph.memSize ∧ kernelBase ≤ ph.virtAddr ∧
    ph.virtAddr + ph.memSize ≤ 2 ^ 64
  users : m₀.users = []
  pages : m₀.pages = []
  aligned : pageSize ∣ m₀.phys.hhdmOffset

/- What is done for one process: pages are mapped for it, its pages are written, it is deleted. -/
inductive OwnStep (u : Nat) (m : Machine) : Machine → Prop where
  | map {v p flags : Nat} {s' : Phys} {pages : List Nat} : vmmMapPage m.phys u v p flags = .ok s' →
      OwnStep u m { m with phys := s', pages := pages }
  | write {p : Nat} {mem : Memory} : OwnsLeaf m.phys u p →
      (∀ a, ¬ InFrame m.phys p a → mem a = m.phys.mem a) → OwnStep u m { m with phys := { m.phys with mem := mem } }
  | delete {s' : Phys} : deletePagemap m.phys u = .ok s' →
      OwnStep u m { m with phys := s', users := m.users.filter (fun w => w ≠ u) }

/-- Steps that are not the process's own. -/
inductive OthersRun (u : Nat) (m : Machine) : Machine → Prop where
  | start : OthersRun u m m
  | step {m₁ m₂ : Machine} : OthersRun u m m₁ → Step m₁ m₂ → ¬ OwnStep u m₁ m₂ → OthersRun u m m₂

/-- A step writes and frees only pages that it touches. -/
structure Effect (s s' : Phys) (touched : Nat → Prop) : Prop where
  layout : Layout s'.hhdmOffset s'.tables
  hhdm : s'.hhdmOffset = s.hhdmOffset
  pages : Pages s s'
  used : ∀ q, PageIs s q .used → ¬ touched q → PageIs s' q .used
  mem : ∀ q, PageIs s q .used → ¬ touched q → ∀ a, InFrame s q a → s'.mem a = s.mem a

/-- What a process sees is the same in both states: where its addresses lead, and the bytes
in the pages of the allocator. -/
structure SameView (s s' : Phys) (u : Nat) : Prop where
  walks : ∀ v < 2 ^ 47, hardwareWalk s' u v = hardwareWalk s u v
  reads : ∀ v < 2 ^ 47, ∀ page rights, hardwareWalk s u v = some (page, rights) → ¬ Foreign s page →
    readByte s' u v = readByte s u v

section View

variable {s s' : Phys} {m m' : Machine} {u v p : Nat} {level : Levels}

theorem Booted.coherent {m₀ : Machine} (booted : Booted m₀) : ∃ level, Coherent m₀ level := by
  obtain ⟨hhdmOffset, memmap, mem, s₀, boot, ph, limine, pmm, vmm, member, isLoad, nonempty, high, inside⟩ :=
    booted.started
  obtain ⟨level, coherent⟩ := setupVmm_coherent limine pmm vmm member isLoad nonempty high inside
  have same : (⟨m₀.phys, m₀.kernelTop, [], []⟩ : Machine) = m₀ := by
    cases m₀
    cases booted.users
    cases booted.pages
    rfl
  exact ⟨level, same ▸ coherent⟩

/-- The processor finds what the leaf entry holds. -/
theorem userSpace_walk (space : UserSpace s u) (low : v < 2 ^ 47) :
    hardwareWalk s u v =
      if isPresent (leaf s u v) then some (leaf s u v &&& pteMask, rightsOf (leaf s u v)) else none := by
  cases present : isPresent (leaf s u v) with
  | false => rw [hardwareWalk_none present]; rfl
  | true => rw [hardwareWalk_eq space.opened (lowerHalf_pml4i low) present]; rfl

/-- A page of the allocator that a process reaches is its own. -/
theorem userSpace_reached (space : UserSpace s u) (low : v < 2 ^ 47) {page : Nat} {rights : Rights}
    (walk : hardwareWalk s u v = some (page, rights)) :
    isPresent (leaf s u v) = true ∧ page = leaf s u v &&& pteMask ∧ rights = rightsOf (leaf s u v) ∧
      (¬ Foreign s page → OwnsLeaf s u page) := by
  rw [userSpace_walk space low] at walk
  cases present : isPresent (leaf s u v) with
  | false =>
    rw [present] at walk
    cases walk
  | true =>
    rw [present] at walk
    cases Option.some.inj walk
    refine ⟨rfl, rfl, rfl, ?_⟩
    intro managed
    obtain ⟨state, is⟩ : ∃ state, PageIs s (leaf s u v &&& pteMask) state := by
      by_contra none
      exact managed (fun state is => none ⟨state, is⟩)
    obtain ⟨rfl, _⟩ := space.leaves v state (lowerHalf_pml4i low) present is
    exact ⟨is, v, lowerHalf_pml4i low, present, rfl⟩

theorem SameView.refl (s : Phys) (u : Nat) : SameView s s u :=
  ⟨fun _ _ => rfl, fun _ _ _ _ _ _ => rfl⟩

theorem SameView.trans {s'' : Phys} (one : SameView s s' u) (two : SameView s' s'' u)
    (managed : ∀ v < 2 ^ 47, ∀ page rights, hardwareWalk s u v = some (page, rights) → ¬ Foreign s page →
      ¬ Foreign s' page) : SameView s s'' u where
  walks := fun v low => (two.walks v low).trans (one.walks v low)
  reads := by
    intro v low page rights walk known
    have walk' := (one.walks v low).trans walk
    exact (two.reads v low page rights walk' (managed v low page rights walk known)).trans
      (one.reads v low page rights walk known)

/-- What touches no page of a process keeps its view. -/
theorem Effect.view {touched : Nat → Prop} (effect : Effect s s' touched) (space : UserSpace s u)
    (layout : Layout s.hhdmOffset s.tables) (aligned : pageSize ∣ s.hhdmOffset)
    (spared : ∀ q, Owns s u q → ¬ touched q) :
    SameView s s' u ∧ ∀ q, Owns s' u q ↔ Owns s u q := by
  have used : ∀ q, Owns s u q → PageIs s' q .used := fun q owns =>
    effect.used q (Owns.used space owns) (spared q owns)
  obtain ⟨space', sameTables, sameLeaves, leaves⟩ := space.agree effect.layout effect.hhdm effect.pages used (by
    intro q table i bound
    exact effect.mem q (Owns.used space (.inl table)) (spared q (.inl table)) _ (slot_inFrame s q bound))
  have walks : ∀ v < 2 ^ 47, hardwareWalk s' u v = hardwareWalk s u v := by
    intro v low
    rw [userSpace_walk space low, userSpace_walk space' low, leaves v (lowerHalf_pml4i low)]
  refine ⟨⟨walks, ?_⟩, fun q => or_congr (sameTables q) (sameLeaves q)⟩
  intro v low page rights walk managed
  obtain ⟨_, _, _, own⟩ := userSpace_reached space low walk
  have owns := own managed
  have words : 8 ∣ page + s.hhdmOffset :=
    Dvd.dvd.trans (by decide) (Nat.dvd_add (layout.page_bounds owns.1).1 aligned)
  have same : s'.mem.byteAt (page + s.hhdmOffset + v % pageSize) =
      s.mem.byteAt (page + s.hhdmOffset + v % pageSize) :=
    Memory.byteAt_congr (effect.mem page owns.1 (spared page (.inr owns)) _
      (byte_inFrame words (Nat.mod_lt v (by decide))))
  simp only [readByte, walks v low, walk, effect.hhdm, same]

/-- Freeing pages touches them only. -/
theorem released_effect {freed list : List Nat} {touched : Nat → Prop} (released : Released s s' freed)
    (inv : Inv s list) (layout : Layout s'.hhdmOffset s'.tables) (inside : ∀ q ∈ freed, touched q) :
    Effect s s' touched where
  layout := layout
  hhdm := released.hhdm
  pages := by
    rintro q ⟨state, page⟩
    rcases (released.pages q state).mp page with ⟨isFreed, _⟩ | ⟨_, before⟩
    · exact ⟨_, released.owned q isFreed⟩
    · exact ⟨state, before⟩
  used := fun q used other =>
    (released.pages q .used).mpr (.inr ⟨fun isFreed => other (inside q isFreed), used⟩)
  mem := by
    intro q used other a inQ
    apply released.mem a
    rintro r isFreed rfl
    have same := frame_apart inv.layout used (released.owned r isFreed) inQ (first_word s r)
    exact other (inside q (same ▸ isFreed))

end View

/-! What each step touches. -/

section Steps

variable {m m' : Machine} {level : Levels}

theorem step_effect (coherent : Coherent m level) (step : Step m m') :
    ∃ touched, Effect m.phys m'.phys touched ∧ ∀ u ∈ m.users, OwnStep u m m' ∨
      (u ∈ m'.users ∧ ∀ q, Owns m.phys u q → ¬ touched q) := by
  obtain ⟨list, inv⟩ := coherent.inv
  obtain ⟨k, top, atTop⟩ := coherent.kernel.frame
  obtain ⟨level', coherent'⟩ := coherent.step step
  obtain ⟨list', inv'⟩ := coherent'.inv
  have layout' := inv'.layout
  have apart : ∀ u ∈ m.users, ∀ q, Owns m.phys u q → ¬ level q ≠ none := fun u live q owns typed =>
    typed (coherent.apart u live q owns)
  cases step with
  | @newPagemap space made =>
    obtain ⟨p, created⟩ := newPagemap_created inv atTop (coherent.kernel.typed.used k 4 top) made
    refine ⟨fun _ => False, ⟨layout', created.hhdm, created.pages,
      fun q used _ => (created.owned q).mpr (.inr used), fun q used _ => created.mem q used⟩, ?_⟩
    exact fun u live => .inr ⟨List.mem_cons_of_mem _ live, fun q _ no => no⟩
  | @kernelMap v p flags s' _ outside ran =>
    rw [atTop] at outside ran
    rcases vmmMapPage_typed inv coherent.kernel.typed top outside p flags with
      ⟨s₁, list₁, level₁, result, inv₁, mapped, _⟩ | ⟨failed, _⟩
    · cases Except.ok.inj (result.symm.trans ran)
      have grown := mapped.grown
      refine ⟨fun q => level q ≠ none, ⟨layout', grown.hhdm, grown.pages, fun q used _ => grown.used q used,
        fun q used untyped => grown.mem q used (not_not.mp untyped)⟩, ?_⟩
      exact fun u live => .inr ⟨live, apart u live⟩
    · cases failed.symm.trans ran
  | @kernelUnmap v _ outside =>
    rw [atTop] at outside
    obtain ⟨_, _, grown⟩ := vmmUnmapPage_typed inv coherent.kernel.typed top outside
    rw [← atTop] at grown
    refine ⟨fun q => level q ≠ none, ⟨layout', grown.hhdm, grown.pages, fun q used _ => grown.used q used,
      fun q used untyped => grown.mem q used (not_not.mp untyped)⟩, ?_⟩
    exact fun u live => .inr ⟨live, apart u live⟩
  | @userMap u v p flags s' live low member isFlags ran =>
    obtain ⟨_, _, set⟩ := vmmMapPage_ok inv (coherent.users u live).tree (lowerHalf_pml4i low) ran
    have kept := set.kept
    refine ⟨OwnsTable m.phys u, ⟨layout', kept.hhdm, kept.pages, fun q used _ => kept.used q used,
      fun q used other => kept.mem q used (fun path valid here => other ⟨path, valid, here⟩)⟩, ?_⟩
    intro w liveW
    by_cases same : w = u
    · rw [same]
      exact .inl (.map ran)
    · exact .inr ⟨liveW, fun q owns table => same (coherent.disjoint w liveW u live q owns (.inl table))⟩
  | @userMapForeign u v p flags s' live low foreign isFlags ran =>
    obtain ⟨_, _, set⟩ := vmmMapPage_ok inv (coherent.users u live).tree (lowerHalf_pml4i low) ran
    have kept := set.kept
    refine ⟨OwnsTable m.phys u, ⟨layout', kept.hhdm, kept.pages, fun q used _ => kept.used q used,
      fun q used other => kept.mem q used (fun path valid here => other ⟨path, valid, here⟩)⟩, ?_⟩
    intro w liveW
    by_cases same : w = u
    · rw [same]
      exact .inl (.map ran)
    · exact .inr ⟨liveW, fun q owns table => same (coherent.disjoint w liveW u live q owns (.inl table))⟩
  | @deletePagemap u s' live deleted =>
    rcases deletePagemap_outcome inv (coherent.users u live) with ⟨s₁, freed, ran, released, _, owned⟩ | ⟨failed, _⟩
    · cases Except.ok.inj (ran.symm.trans deleted)
      refine ⟨Owns m.phys u, released_effect released inv layout' (fun q => (owned q).mp), ?_⟩
      intro w liveW
      by_cases same : w = u
      · rw [same]
        exact .inl (.delete deleted)
      · exact .inr ⟨List.mem_filter.mpr ⟨liveW, by simpa using same⟩,
          fun q owns other => same (coherent.disjoint w liveW u live q owns other)⟩
    · cases failed.symm.trans deleted
  | @allocatePage p s' ran =>
    rcases allocatePage_outcome inv with ⟨p₁, s₁, list₁, returned, inv₁, allocated⟩ | ⟨failed, _⟩
    · cases Except.ok.inj (returned.symm.trans ran)
      refine ⟨fun _ => False, ⟨layout', allocated.hhdm, fun q => (allocated.pages q).mp,
        fun q used _ => (allocated.owned q).mpr (.inr used), fun q used _ => allocated.frame q used⟩, ?_⟩
      exact fun u live => .inr ⟨live, fun q _ no => no⟩
    · cases failed.symm.trans ran
  | @freePage p s' member ran =>
    obtain ⟨used, untyped, free⟩ := coherent.pages p member
    obtain ⟨s₁, returned, released⟩ := (Released.refl inv).free used List.not_mem_nil
    cases Except.ok.inj (returned.symm.trans ran)
    refine ⟨fun q => q = p, released_effect released inv layout' (fun q => List.mem_singleton.mp), ?_⟩
    exact fun u live => .inr ⟨live, fun q owns same => free u live (same ▸ owns)⟩
  | @write p mem own outside =>
    have used : PageIs m.phys p .used := by
      rcases own with member | ⟨u, live, owns⟩
      · exact (coherent.pages p member).1
      · exact owns.1
    refine ⟨fun q => q = p, ⟨layout', rfl, fun _ page => page, fun q used _ => used, ?_⟩, ?_⟩
    · intro q usedQ other a inQ
      exact outside a (fun inP => other (frame_apart inv.layout usedQ used inQ inP))
    · intro w live
      rcases own with member | ⟨u, liveU, owns⟩
      · exact .inr ⟨live, fun q ownsQ same => (coherent.pages p member).2.2 w live (same ▸ ownsQ)⟩
      · by_cases same : w = u
        · rw [same]
          exact .inl (.write owns outside)
        · exact .inr ⟨live, fun q ownsQ isP => same (coherent.disjoint w live u liveU p (isP ▸ ownsQ) (.inr owns))⟩

theorem step_aligned (coherent : Coherent m level) (step : Step m m') (aligned : pageSize ∣ m.phys.hhdmOffset) :
    pageSize ∣ m'.phys.hhdmOffset := by
  obtain ⟨_, effect, _⟩ := step_effect coherent step
  rw [effect.hhdm]
  exact aligned

theorem steps_aligned {m₀ : Machine} (coherent : Coherent m₀ level) (steps : Steps m₀ m)
    (aligned : pageSize ∣ m₀.phys.hhdmOffset) : pageSize ∣ m.phys.hhdmOffset := by
  induction steps with
  | start => exact aligned
  | step before step ih =>
    obtain ⟨_, coherent₁⟩ := coherent.steps before
    exact step_aligned coherent₁ step ih

/-- What a process sees in a run of the others, with the pages that it owns. -/
structure Undisturbed (u : Nat) (m m' : Machine) : Prop where
  live : u ∈ m'.users
  coherent : ∃ level, Coherent m' level
  aligned : pageSize ∣ m'.phys.hhdmOffset
  view : SameView m.phys m'.phys u
  owns : ∀ q, Owns m'.phys u q ↔ Owns m.phys u q

theorem othersRun_undisturbed {u : Nat} (coherent : Coherent m level) (aligned : pageSize ∣ m.phys.hhdmOffset)
    (live : u ∈ m.users) (run : OthersRun u m m') : Undisturbed u m m' := by
  induction run with
  | start => exact ⟨live, ⟨level, coherent⟩, aligned, .refl m.phys u, fun _ => Iff.rfl⟩
  | @step m₁ m₂ _ step others ih =>
    obtain ⟨level₁, coherent₁⟩ := ih.coherent
    obtain ⟨touched, effect, kept⟩ := step_effect coherent₁ step
    obtain ⟨live₂, spared⟩ := (kept u ih.live).resolve_left others
    obtain ⟨list₁, inv₁⟩ := coherent₁.inv
    obtain ⟨view, owns⟩ := effect.view (coherent₁.users u ih.live) inv₁.layout ih.aligned spared
    refine ⟨live₂, coherent₁.step step, step_aligned coherent₁ step ih.aligned, ?_, fun q => (owns q).trans (ih.owns q)⟩
    apply ih.view.trans view
    intro v low page rights walk managed foreign
    obtain ⟨_, _, _, own⟩ := userSpace_reached (coherent.users u live) low walk
    exact foreign _ (Owns.used (coherent₁.users u ih.live) ((ih.owns page).mpr (.inr (own managed))))

end Steps

theorem OwnStep.users {u : Nat} {m m' : Machine} (own : OwnStep u m m') : ∀ w ∈ m'.users, w ∈ m.users := by
  cases own with
  | map _ => exact fun w member => member
  | write _ _ => exact fun w member => member
  | delete _ => exact fun w member => (List.mem_filter.mp member).1

/-- The machine of imageBoot_process, with the memory for a second process. -/
theorem imageBoot_booted : ∃ m₀ m u, Booted m₀ ∧ Steps m₀ m ∧ m.users = [u] ∧
    m.phys.usedPages + 53 ≤ m.phys.totalPages := by
  obtain ⟨s₀, s, kernelTop, space, pmm, vmm, made, room, offset, steps⟩ := imageBoot_process
  have started : Booted ⟨s, kernelTop, [], []⟩ := by
    refine ⟨⟨_, _, _, s₀, imageBoot, _, Stdlib.kernelMap_limine, pmm, vmm, imageBoot_segment, rfl, by decide,
      by decide, by decide⟩, rfl, rfl, ?_⟩
    obtain ⟨level, coherent⟩ := setupVmm_coherent Stdlib.kernelMap_limine pmm vmm imageBoot_segment rfl (by decide)
      (by decide) (by decide)
    obtain ⟨list, inv⟩ := coherent.inv
    obtain ⟨k, top, atTop⟩ := coherent.kernel.frame
    obtain ⟨p, created⟩ := newPagemap_created inv atTop (coherent.kernel.typed.used k 4 top) made
    have same := created.hhdm
    rw [same] at offset
    exact offset
  exact ⟨_, _, space.topLevel, started, steps, rfl, room⟩

section Store

variable {m : Machine} {level : Levels} {u v byte page : Nat} {rights : Rights} {s' : Phys}

/-- No table of the kernel or of a process is a page that a process has mapped. -/
theorem Coherent.leaf_apart (coherent : Coherent m level) (live : u ∈ m.users) (owns : OwnsLeaf m.phys u page) :
    level page = none ∧ ∀ w ∈ m.users, ¬ OwnsTable m.phys w page := by
  refine ⟨coherent.apart u live page (.inr owns), ?_⟩
  intro w liveW table
  have same := coherent.disjoint w liveW u live page (.inl table) (.inr owns)
  obtain ⟨used, x, inside, present, address⟩ := owns
  have notTable := ((coherent.users u live).leaves x .used inside present (address.symm ▸ used)).2
  rw [address] at notTable
  exact notTable (same ▸ table)

/-- The bytes that a store writes are in the page. -/
theorem writeByte_inside (layout : Layout m.phys.hhdmOffset m.phys.tables) (aligned : pageSize ∣ m.phys.hhdmOffset)
    (used : PageIs m.phys page .used) (v byte : Nat) :
    ∀ a, ¬ InFrame m.phys page a →
      m.phys.mem.writeBytes (page + m.phys.hhdmOffset + v % pageSize) 1 (fun _ => byte) a = m.phys.mem a := by
  have words : 8 ∣ page + m.phys.hhdmOffset :=
    Dvd.dvd.trans (by decide) (Nat.dvd_add (layout.page_bounds used).1 aligned)
  have offset : v % pageSize < pageSize := Nat.mod_lt v (by decide)
  intro a outside
  exact Memory.writeBytes_outside _ words (Nat.le_add_right _ _) (by omega) outside

/-- Bytes of different pages, and different bytes of a page, are at different addresses. -/
theorem page_byte_unique {p q base x y : Nat} (alignedP : pageSize ∣ p) (alignedQ : pageSize ∣ q)
    (same : p + base + x % pageSize = q + base + y % pageSize) : p = q ∧ x % pageSize = y % pageSize := by
  have boundX : x % pageSize < pageSize := Nat.mod_lt x (by decide)
  have boundY : y % pageSize < pageSize := Nat.mod_lt y (by decide)
  unfold pageSize at *
  omega

/-- A write to a page that a process has mapped changes no lookup. -/
theorem Coherent.write_lookups (coherent : Coherent m level) (live : u ∈ m.users) (owns : OwnsLeaf m.phys u page)
    {mem : Memory} (outside : ∀ a, ¬ InFrame m.phys page a → mem a = m.phys.mem a) :
    (∀ w ∈ m.users, ∀ x < 2 ^ 47,
      hardwareWalk { m.phys with mem := mem } w x = hardwareWalk m.phys w x) ∧
    KernelKept m.phys { m.phys with mem := mem } level := by
  obtain ⟨list, inv⟩ := coherent.inv
  obtain ⟨untyped, noTable⟩ := coherent.leaf_apart live owns
  have entries : ∀ q, PageIs m.phys q .used → q ≠ page → ∀ i < 512,
      pte { m.phys with mem := mem } (q + m.phys.hhdmOffset) i = pte m.phys (q + m.phys.hhdmOffset) i := by
    intro q used other i bound
    exact outside _ (fun inP => other (frame_apart inv.layout used owns.1 (slot_inFrame m.phys q bound) inP))
  constructor
  · intro w liveW x low
    have space := coherent.users w liveW
    obtain ⟨space', _, _, leaves⟩ := @UserSpace.agree m.phys { m.phys with mem := mem } w space inv.layout rfl
      (fun _ page => page) (fun q ownsQ => Owns.used space ownsQ)
      (fun q table => entries q (Owns.used space (.inl table)) (fun same => noTable w liveW (same ▸ table)))
    rw [userSpace_walk space' low, userSpace_walk space low, leaves x (lowerHalf_pml4i low)]
  · refine ⟨rfl, ?_⟩
    intro q n here i bound
    apply entries q (coherent.kernel.typed.used q n here) _ i bound
    rintro rfl
    rw [untyped] at here
    cases here

/-- What a process reads after a store of a process. -/
theorem Coherent.read_stored (coherent : Coherent m level) (aligned : pageSize ∣ m.phys.hhdmOffset)
    (live : u ∈ m.users) (low : v < 2 ^ 47) (walk : hardwareWalk m.phys u v = some (page, rights))
    (owns : OwnsLeaf m.phys u page) (user : rights.user = true) {w x : Nat} (liveW : w ∈ m.users) (lowX : x < 2 ^ 47)
    (byte : Nat) :
    readByte { m.phys with
      mem := m.phys.mem.writeBytes (page + m.phys.hhdmOffset + v % pageSize) 1 (fun _ => byte) } w x =
      if w = u ∧ x = v then some (byte % 256) else readByte m.phys w x := by
  obtain ⟨list, inv⟩ := coherent.inv
  have outside := writeByte_inside inv.layout aligned owns.1 v byte
  have sameWalk := (coherent.write_lookups live owns outside).1 w liveW x lowX
  by_cases target : w = u ∧ x = v
  · obtain ⟨rfl, rfl⟩ := target
    simp only [readByte, sameWalk, walk, user, ↓reduceIte, Memory.byteAt_writeBytes, and_self]
    rw [if_pos ⟨Nat.le_refl _, Nat.lt_succ_self _⟩]
  · rw [if_neg target]
    simp only [readByte, sameWalk]
    cases walkX : hardwareWalk m.phys w x with
    | none => rfl
    | some found =>
      obtain ⟨pageX, rightsX⟩ := found
      obtain ⟨presentX, rfl, rfl, ownX⟩ := userSpace_reached (coherent.users w liveW) lowX walkX
      obtain ⟨present, rfl, rfl, _⟩ := userSpace_reached (coherent.users u live) low walk
      have elsewhere : ¬ ((leaf m.phys u v &&& pteMask) + m.phys.hhdmOffset + v % pageSize =
          (leaf m.phys w x &&& pteMask) + m.phys.hhdmOffset + x % pageSize) := by
        intro same
        obtain ⟨samePage, offset⟩ := page_byte_unique (masked_dvd _) (masked_dvd _) same
        have managed : ¬ Foreign m.phys (leaf m.phys u v &&& pteMask) := fun foreign => foreign _ owns.1
        have ownsX := ownX (samePage ▸ managed)
        have one : w = u := coherent.disjoint w liveW u live _ (.inr ownsX) (.inr (samePage ▸ owns))
        subst one
        have bits := (coherent.users w live).distinct v x (lowerHalf_pml4i low) (lowerHalf_pml4i lowX) present
          presentX samePage managed
        have quotient := (pageBits_lower low lowX).mp bits
        refine target ⟨rfl, ?_⟩
        unfold pageSize at offset
        omega
      have missed : ¬ ((leaf m.phys u v &&& pteMask) + m.phys.hhdmOffset + v % pageSize ≤
          (leaf m.phys w x &&& pteMask) + m.phys.hhdmOffset + x % pageSize ∧
          (leaf m.phys w x &&& pteMask) + m.phys.hhdmOffset + x % pageSize <
          (leaf m.phys u v &&& pteMask) + m.phys.hhdmOffset + v % pageSize + 1) :=
        fun inside => elsewhere (Nat.le_antisymm inside.1 (Nat.le_of_lt_succ inside.2))
      simp only [Memory.byteAt_writeBytes, if_neg missed]

end Store

/-- A process that has one page, at 0x400000, for reading and writing. -/
theorem imageBoot_mapped : ∃ m₀ m u page rights, Booted m₀ ∧ Steps m₀ m ∧ u ∈ m.users ∧
    hardwareWalk m.phys u 0x400000 = some (page, rights) ∧ ¬ Foreign m.phys page ∧
    (rights.user && rights.writable) = true := by
  obtain ⟨m₀, m, u, booted, steps, users, room⟩ := imageBoot_booted
  obtain ⟨level₀, coherent₀⟩ := booted.coherent
  obtain ⟨level, coherent⟩ := coherent₀.steps steps
  obtain ⟨list, inv⟩ := coherent.inv
  have live : u ∈ m.users := by rw [users]; exact List.mem_cons_self
  have isFlags : IsFlags (ptePresent ||| pteUser ||| pteWritable) := by unfold IsFlags; decide
  have low : (0x400000 : Nat) < 2 ^ 47 := by decide
  have inside := lowerHalf_pml4i low
  rcases allocatePage_outcome inv with ⟨p, s₁, list₁, returned, inv₁, allocated⟩ | ⟨_, full⟩
  · have taken := steps.step (.allocatePage returned)
    have coherent₁ := coherent.allocate inv₁ allocated
    obtain ⟨state, page, _⟩ := allocated.fresh
    obtain ⟨aligned, _, _, physical⟩ := inv.layout.page_bounds page
    rcases vmmMapPage_outcome inv₁ (coherent₁.users u live).tree inside p
        (ptePresent ||| pteUser ||| pteWritable) with ⟨s₂, list₂, ran, inv₂, set, _⟩ | ⟨_, full⟩
    · have mapped := taken.step (.userMap live low List.mem_cons_self isFlags ran)
      have value := set.leaves 0x400000 inside
      rw [if_pos rfl, page_mask aligned physical] at value
      obtain ⟨present, address⟩ := isFlags.entry aligned physical
      rw [← value] at present address
      have walk := hardwareWalk_eq (set.opens (coherent₁.users u live).opened) inside present
      have used : PageIs s₂ p .used := set.kept.used p ((allocated.owned p).mpr (.inl rfl))
      refine ⟨m₀, _, u, _, _, booted, mapped, live, walk, ?_, ?_⟩
      · rw [address]
        exact fun foreign => foreign _ used
      · rw [value, rightsOf_entry aligned physical]
        decide
    · have cost := card_missingTables_le s₁ u [0x400000]
      have used := allocated.usedPages
      have total := allocated.total
      simp only [List.length_cons, List.length_nil] at cost
      omega
  · omega

end EvalynOS.Process
