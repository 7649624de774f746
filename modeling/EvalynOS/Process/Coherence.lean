import EvalynOS.Memory.VmmSetup
import EvalynOS.Memory.VmmUser
import EvalynOS.Process.Runs

/-! The kernel and its processes share the tables of the upper half. Whatever is mapped,
unmapped or deleted in whatever order, the pages are divided among the kernel's tables,
the processes and the rest of the kernel. -/
namespace EvalynOS.Process
open Lib Lib.Word Pmm Vmm

/-- The tables and the entries that the processor reads for an address, below the top level. -/
def walk (s : Phys) (topLevel virt : Nat) : List (Nat × Nat) :=
  let e4 := pte s topLevel (pml4i virt)
  let t3 := tableOf s e4
  let e3 := pte s t3 (pml3i virt)
  let t2 := tableOf s e3
  let e2 := pte s t2 (pml2i virt)
  let t1 := tableOf s e2
  if ¬ isPresent e4 then []
  else if ¬ isPresent e3 ∨ e3.testBit 7 then [(t3, e3)]
  else if ¬ isPresent e2 ∨ e2.testBit 7 then [(t3, e3), (t2, e2)]
  else [(t3, e3), (t2, e2), (t1, pte s t1 (pml1i virt))]

/- The memory, kernel_pagemap.top_level, the top levels of the live processes, and the pages
that other parts of the kernel have taken for themselves. -/
structure Machine where
  phys : Phys
  kernelTop : Nat
  users : List Nat
  pages : List Nat

/- The canonical addresses of the upper half. -/
def UpperHalf (v : Nat) : Prop := 0xFFFF800000000000 ≤ v ∧ v < 2 ^ 64

/-- The calls on pagemaps, and what happens between them: the rest of the kernel takes pages
and returns them, and writes to pages of its own or of a process. A process is given a
page that was taken for it, or one that is none of the allocator's. -/
inductive Step (m : Machine) : Machine → Prop where
  | newPagemap {space : AddressSpace} : newPagemap m.phys m.kernelTop = .ok space →
      Step m { m with phys := space.phys, users := space.topLevel :: m.users }
  | kernelMap {v p flags : Nat} {s' : Phys} : UpperHalf v → inLargePage m.phys m.kernelTop v = false →
      vmmMapPage m.phys m.kernelTop v p flags = .ok s' → Step m { m with phys := s' }
  | kernelUnmap {v : Nat} : UpperHalf v → inLargePage m.phys m.kernelTop v = false →
      Step m { m with phys := vmmUnmapPage m.phys m.kernelTop v }
  | userMap {u v p flags : Nat} {s' : Phys} : u ∈ m.users → v < 2 ^ 47 → p ∈ m.pages → IsFlags flags →
      vmmMapPage m.phys u v p flags = .ok s' →
      Step m { m with phys := s', pages := m.pages.filter (fun q => q ≠ p) }
  | userMapForeign {u v p flags : Nat} {s' : Phys} : u ∈ m.users → v < 2 ^ 47 →
      Foreign m.phys (p &&& pteMask) → IsFlags flags → vmmMapPage m.phys u v p flags = .ok s' →
      Step m { m with phys := s' }
  | deletePagemap {u : Nat} {s' : Phys} : u ∈ m.users → deletePagemap m.phys u = .ok s' →
      Step m { m with phys := s', users := m.users.filter (fun w => w ≠ u) }
  | allocatePage {p : Nat} {s' : Phys} : allocatePage m.phys = .ok (p, s') →
      Step m { m with phys := s', pages := p :: m.pages }
  | freePage {p : Nat} {s' : Phys} : p ∈ m.pages → freePage m.phys p = .ok s' →
      Step m { m with phys := s', pages := m.pages.filter (fun q => q ≠ p) }
  | write {p : Nat} {mem : Memory} : p ∈ m.pages ∨ (∃ u ∈ m.users, OwnsLeaf m.phys u p) →
      (∀ a, ¬ InFrame m.phys p a → mem a = m.phys.mem a) →
      Step m { m with phys := { m.phys with mem := mem } }

inductive Steps (m₀ : Machine) : Machine → Prop where
  | start : Steps m₀ m₀
  | step {m m' : Machine} : Steps m₀ m → Step m m' → Steps m₀ m'

/-- How the pages in use are divided. -/
structure Coherent (m : Machine) (level : Levels) : Prop where
  inv : ∃ list, Inv m.phys list
  kernel : KernelTables m.phys m.kernelTop level
  users : ∀ u ∈ m.users, UserSpace m.phys u
  shared : ∀ u ∈ m.users, ∀ i, 256 ≤ i → i < 512 → pte m.phys u i = pte m.phys m.kernelTop i
  apart : ∀ u ∈ m.users, ∀ q, Owns m.phys u q → level q = none
  disjoint : ∀ u ∈ m.users, ∀ w ∈ m.users, ∀ q, Owns m.phys u q → Owns m.phys w q → u = w
  pages : ∀ p ∈ m.pages, PageIs m.phys p .used ∧ level p = none ∧ ∀ u ∈ m.users, ¬ Owns m.phys u p

section Keep

variable {m : Machine} {level level' : Levels} {s' : Phys} {list : List Nat} {u p : Nat}

/-- Work on the kernel's tables reaches no page of a process. -/
theorem Coherent.grown (coherent : Coherent m level) (inv : Inv s' list) (typed : Typed s' level') {lowest : Nat}
    (grown : Grown m.phys s' level level' lowest) (above : lowest ≤ 4) :
    Coherent { m with phys := s' } level' := by
  have untyped : ∀ q, PageIs m.phys q .used → level q = none → level' q = none := by
    intro q used before
    cases here : level' q with
    | none => rfl
    | some n =>
      rcases grown.fresh q n here with old | unused
      · rw [before] at old
        cases old
      · exact absurd used unused
  have entries : ∀ w ∈ m.users, ∀ q, OwnsTable m.phys w q → ∀ i < 512,
      pte s' (q + m.phys.hhdmOffset) i = pte m.phys (q + m.phys.hhdmOffset) i := by
    intro w live q owns i bound
    have used := Owns.used (coherent.users w live) (.inl owns)
    exact grown.mem q used (coherent.apart w live q (.inl owns)) _ (slot_inFrame m.phys q bound)
  have users : ∀ w ∈ m.users, UserSpace s' w ∧ ∀ q, Owns s' w q ↔ Owns m.phys w q := fun w live =>
    (coherent.users w live).frame inv.layout grown.hhdm grown.pages
      (fun q owns => grown.used q (Owns.used (coherent.users w live) owns)) (entries w live)
  refine ⟨⟨list, inv⟩, coherent.kernel.grown grown above typed, fun w live => (users w live).1, ?_, ?_, ?_, ?_⟩
  · intro w live i low bound
    obtain ⟨q, here, owns⟩ := (coherent.users w live).root
    obtain ⟨k, top, atTop⟩ := coherent.kernel.frame
    have present := coherent.kernel.slots i low bound
    have same := entries w live q owns i bound
    rw [← here] at same
    rw [same, coherent.shared w live i low bound]
    simp only [atTop] at present ⊢
    exact (grown.kept k 4 i top above bound present).symm
  · intro w live q owns
    have before := ((users w live).2 q).mp owns
    exact untyped q (Owns.used (coherent.users w live) before) (coherent.apart w live q before)
  · intro v liveV w liveW q ownsV ownsW
    exact coherent.disjoint v liveV w liveW q (((users v liveV).2 q).mp ownsV) (((users w liveW).2 q).mp ownsW)
  · intro q member
    obtain ⟨used, before, free⟩ := coherent.pages q member
    exact ⟨grown.used q used, untyped q used before, fun w live owns => free w live (((users w live).2 q).mp owns)⟩

/-- A step that keeps the kernel's tables, and all processes but one. -/
theorem Coherent.change (coherent : Coherent m level) (inv : Inv s' list)
    (hhdm : s'.hhdmOffset = m.phys.hhdmOffset) (known : Pages m.phys s') (u : Nat) {users' pages' : List Nat}
    (kernel : ∀ q n, level q = some n → PageIs s' q .used ∧ ∀ i < 512,
      pte s' (q + m.phys.hhdmOffset) i = pte m.phys (q + m.phys.hhdmOffset) i)
    (others : ∀ w ∈ users', w ≠ u → w ∈ m.users ∧ (∀ q, Owns m.phys w q → PageIs s' q .used) ∧
      ∀ q, OwnsTable m.phys w q → ∀ i < 512,
        pte s' (q + m.phys.hhdmOffset) i = pte m.phys (q + m.phys.hhdmOffset) i)
    (changed : u ∈ users' → UserSpace s' u ∧
      (∀ i, 256 ≤ i → i < 512 → pte s' u i = pte m.phys m.kernelTop i) ∧
      ∀ q, Owns s' u q → level q = none ∧ q ∉ pages' ∧ ∀ w ∈ users', w ≠ u → ¬ Owns m.phys w q)
    (loose : ∀ p ∈ pages', PageIs s' p .used ∧ level p = none ∧ ∀ w ∈ users', w ≠ u → ¬ Owns m.phys w p) :
    Coherent ⟨s', m.kernelTop, users', pages'⟩ level := by
  have users : ∀ w ∈ users', w ≠ u → UserSpace s' w ∧ ∀ q, Owns s' w q ↔ Owns m.phys w q := by
    intro w live other
    obtain ⟨before, used, tables⟩ := others w live other
    exact (coherent.users w before).frame inv.layout hhdm known used tables
  obtain ⟨k, top, atTop⟩ := coherent.kernel.frame
  have tops : ∀ i < 512, pte s' m.kernelTop i = pte m.phys m.kernelTop i := by
    intro i bound
    rw [atTop]
    exact (kernel k 4 top).2 i bound
  refine ⟨⟨list, inv⟩, ⟨coherent.kernel.typed.frame hhdm kernel, ⟨k, top, by rw [hhdm]; exact atTop⟩, ?_⟩,
    ?_, ?_, ?_, ?_, ?_⟩
  · intro i low bound
    change isPresent (pte s' m.kernelTop i) = true
    rw [tops i bound]
    exact coherent.kernel.slots i low bound
  · intro w live
    by_cases same : w = u
    · rw [same] at live ⊢
      exact (changed live).1
    · exact (users w live same).1
  · intro w live i low bound
    change pte s' w i = pte s' m.kernelTop i
    rw [tops i bound]
    by_cases same : w = u
    · rw [same] at live ⊢
      exact (changed live).2.1 i low bound
    · obtain ⟨before, _, tables⟩ := others w live same
      obtain ⟨q, here, owns⟩ := (coherent.users w before).root
      have entry := tables q owns i bound
      rw [← here] at entry
      rw [entry]
      exact coherent.shared w before i low bound
  · intro w live q owns
    by_cases same : w = u
    · rw [same] at live owns
      exact ((changed live).2.2 q owns).1
    · exact coherent.apart w (others w live same).1 q (((users w live same).2 q).mp owns)
  · intro v liveV w liveW q ownsV ownsW
    by_cases sameV : v = u
    · by_cases sameW : w = u
      · exact sameV.trans sameW.symm
      · rw [sameV] at liveV ownsV
        exact absurd (((users w liveW sameW).2 q).mp ownsW) (((changed liveV).2.2 q ownsV).2.2 w liveW sameW)
    · by_cases sameW : w = u
      · rw [sameW] at liveW ownsW
        exact absurd (((users v liveV sameV).2 q).mp ownsV) (((changed liveW).2.2 q ownsW).2.2 v liveV sameV)
      · exact coherent.disjoint v (others v liveV sameV).1 w (others w liveW sameW).1 q
          (((users v liveV sameV).2 q).mp ownsV) (((users w liveW sameW).2 q).mp ownsW)
  · intro q member
    obtain ⟨used, untyped, free⟩ := loose q member
    refine ⟨used, untyped, ?_⟩
    intro w live owns
    by_cases same : w = u
    · rw [same] at live owns
      exact ((changed live).2.2 q owns).2.1 member
    · exact free w live same (((users w live same).2 q).mp owns)

/-- A step that keeps the tables of the kernel and of all processes that stay. -/
theorem Coherent.quiet (coherent : Coherent m level) (inv : Inv s' list)
    (hhdm : s'.hhdmOffset = m.phys.hhdmOffset) (known : Pages m.phys s') {users' pages' : List Nat}
    (live : ∀ w ∈ users', w ∈ m.users)
    (keeps : ∀ q, ((∃ n, level q = some n) ∨ ∃ w ∈ users', Owns m.phys w q) → PageIs s' q .used)
    (entries : ∀ q, ((∃ n, level q = some n) ∨ ∃ w ∈ users', OwnsTable m.phys w q) → ∀ i < 512,
      pte s' (q + m.phys.hhdmOffset) i = pte m.phys (q + m.phys.hhdmOffset) i)
    (loose : ∀ p ∈ pages', PageIs s' p .used ∧ level p = none ∧ ∀ w ∈ users', ¬ Owns m.phys w p) :
    Coherent ⟨s', m.kernelTop, users', pages'⟩ level := by
  apply coherent.change inv hhdm known 0
  · exact fun q n here => ⟨keeps q (.inl ⟨n, here⟩), entries q (.inl ⟨n, here⟩)⟩
  · exact fun w member _ => ⟨live w member, fun q owns => keeps q (.inr ⟨w, member, owns⟩),
      fun q owns => entries q (.inr ⟨w, member, owns⟩)⟩
  · intro member
    obtain ⟨q, used, here⟩ := (coherent.users 0 (live 0 member)).tree.frames [] 0 valid_nil rfl
    obtain ⟨list₀, inv₀⟩ := coherent.inv
    have positive := (inv₀.layout.page_bounds used).2.1
    omega
  · exact fun p member => ⟨(loose p member).1, (loose p member).2.1,
      fun w inUsers _ => (loose p member).2.2 w inUsers⟩

/-- The pages that the kernel's tables and the processes take are in use. -/
theorem Coherent.used (coherent : Coherent m level) {q : Nat}
    (held : (∃ n, level q = some n) ∨ ∃ w ∈ m.users, Owns m.phys w q) : PageIs m.phys q .used := by
  rcases held with ⟨n, here⟩ | ⟨w, live, owns⟩
  · exact coherent.kernel.typed.used q n here
  · exact Owns.used (coherent.users w live) owns

theorem Coherent.allocate (coherent : Coherent m level) (inv : Inv s' list) (allocated : Allocated m.phys p s') :
    Coherent { m with phys := s', pages := p :: m.pages } level := by
  obtain ⟨list₀, inv₀⟩ := coherent.inv
  obtain ⟨state, page, unused⟩ := allocated.fresh
  have notUsed : ¬ PageIs m.phys p .used := fun used => unused (inv₀.layout.page_unique page used)
  have stays : ∀ q, PageIs m.phys q .used → PageIs s' q .used := fun q used => (allocated.owned q).mpr (.inr used)
  apply coherent.quiet inv allocated.hhdm (fun q => (allocated.pages q).mp) (fun w live => live)
  · exact fun q held => stays q (coherent.used held)
  · intro q held i bound
    have held' : (∃ n, level q = some n) ∨ ∃ w ∈ m.users, Owns m.phys w q :=
      held.imp_right (fun ⟨w, live, owns⟩ => ⟨w, live, .inl owns⟩)
    exact allocated.frame q (coherent.used held') _ (slot_inFrame m.phys q bound)
  · intro q member
    rcases List.mem_cons.mp member with rfl | old
    · refine ⟨(allocated.owned q).mpr (.inl rfl), coherent.kernel.typed.untyped notUsed, ?_⟩
      exact fun w live owns => notUsed (coherent.used (.inr ⟨w, live, owns⟩))
    · obtain ⟨used, untyped, free⟩ := coherent.pages q old
      exact ⟨stays q used, untyped, free⟩

/-- Pages are freed that are not the kernel's tables, and of no process that stays. -/
theorem Coherent.release (coherent : Coherent m level) {freed users' pages' : List Nat}
    (released : Released m.phys s' freed) (live : ∀ w ∈ users', w ∈ m.users)
    (untyped : ∀ q ∈ freed, level q = none) (unowned : ∀ q ∈ freed, ∀ w ∈ users', ¬ Owns m.phys w q)
    (kept : ∀ q ∈ pages', q ∈ m.pages ∧ q ∉ freed) :
    Coherent ⟨s', m.kernelTop, users', pages'⟩ level := by
  obtain ⟨list₀, inv₀⟩ := coherent.inv
  obtain ⟨list', inv'⟩ := released.inv
  have stays : ∀ q, PageIs m.phys q .used → q ∉ freed → PageIs s' q .used := fun q used notFreed =>
    (released.pages q .used).mpr (.inr ⟨notFreed, used⟩)
  have spared : ∀ q, ((∃ n, level q = some n) ∨ ∃ w ∈ users', Owns m.phys w q) →
      q ∉ freed ∧ PageIs m.phys q .used := by
    rintro q (⟨n, here⟩ | ⟨w, member, owns⟩)
    · refine ⟨?_, coherent.kernel.typed.used q n here⟩
      intro isFreed
      rw [untyped q isFreed] at here
      cases here
    · exact ⟨fun isFreed => unowned q isFreed w member owns, coherent.used (.inr ⟨w, live w member, owns⟩)⟩
  apply coherent.quiet inv' released.hhdm _ live
  · intro q held
    exact stays q (spared q held).2 (spared q held).1
  · intro q held i bound
    obtain ⟨notFreed, used⟩ := spared q (held.imp_right (fun ⟨w, member, owns⟩ => ⟨w, member, .inl owns⟩))
    exact released.pte inv₀.layout used notFreed bound
  · intro q member
    obtain ⟨old, notFreed⟩ := kept q member
    obtain ⟨used, noLevel, free⟩ := coherent.pages q old
    exact ⟨stays q used notFreed, noLevel, fun w inUsers => free w (live w inUsers)⟩
  · rintro q ⟨state, page⟩
    rcases (released.pages q state).mp page with ⟨isFreed, _⟩ | ⟨_, before⟩
    · exact ⟨_, released.owned q isFreed⟩
    · exact ⟨state, before⟩

/-- Writes to a page that is no table. -/
theorem Coherent.write (coherent : Coherent m level) {mem : Memory}
    (own : p ∈ m.pages ∨ ∃ u ∈ m.users, OwnsLeaf m.phys u p)
    (outside : ∀ a, ¬ InFrame m.phys p a → mem a = m.phys.mem a) :
    Coherent { m with phys := { m.phys with mem := mem } } level := by
  obtain ⟨list₀, inv₀⟩ := coherent.inv
  have used : PageIs m.phys p .used := by
    rcases own with member | ⟨u, live, owns⟩
    · exact (coherent.pages p member).1
    · exact owns.1
  have inv' : Inv { m.phys with mem := mem } list₀ := inv₀.write (fun a free => outside a (free p used))
  have noTable : ∀ q, ((∃ n, level q = some n) ∨ ∃ w ∈ m.users, OwnsTable m.phys w q) → q ≠ p := by
    rintro q held rfl
    rcases own with member | ⟨u, liveU, owns⟩
    · obtain ⟨_, untyped, free⟩ := coherent.pages q member
      rcases held with ⟨n, here⟩ | ⟨w, live, table⟩
      · rw [untyped] at here
        cases here
      · exact free w live (.inl table)
    · rcases held with ⟨n, here⟩ | ⟨w, live, table⟩
      · rw [coherent.apart u liveU q (.inr owns)] at here
        cases here
      · have same := coherent.disjoint w live u liveU q (.inl table) (.inr owns)
        obtain ⟨page, v, inside, present, address⟩ := owns
        have notTable := ((coherent.users u liveU).leaves v .used inside present (address.symm ▸ page)).2
        rw [address] at notTable
        exact notTable (same ▸ table)
  apply coherent.quiet inv' rfl (fun _ page => page) (fun w live => live)
  · exact fun q held => coherent.used held
  · intro q held i bound
    apply outside
    intro inP
    have usedQ := coherent.used (held.imp_right (fun ⟨w, live, owns⟩ => ⟨w, live, .inl owns⟩))
    exact noTable q held (frame_apart inv₀.layout usedQ used (slot_inFrame m.phys q bound) inP)
  · exact coherent.pages

/-- A process gets a page of the kernel's, or one that is none of the allocator's. -/
theorem Coherent.userMap (coherent : Coherent m level) (live : u ∈ m.users) (inv : Inv s' list) {v value : Nat}
    (set : LeafSet m.phys s' u lowerHalf v value) {pages' : List Nat}
    (fits : (Foreign m.phys (value &&& pteMask) ∧ pages' = m.pages) ∨
      (value &&& pteMask ∈ m.pages ∧ pages' = m.pages.filter (fun q => q ≠ value &&& pteMask))) :
    Coherent { m with phys := s', pages := pages' } level := by
  have kept := set.kept
  have fits' : Foreign m.phys (value &&& pteMask) ∨
      (PageIs m.phys (value &&& pteMask) .used ∧ ¬ Owns m.phys u (value &&& pteMask)) := by
    rcases fits with ⟨foreign, _⟩ | ⟨member, _⟩
    · exact .inl foreign
    · exact .inr ⟨(coherent.pages _ member).1, (coherent.pages _ member).2.2 u live⟩
  have subset : ∀ q ∈ pages', q ∈ m.pages := by
    intro q member
    rcases fits with ⟨_, rfl⟩ | ⟨_, rfl⟩
    · exact member
    · exact (List.mem_filter.mp member).1
  obtain ⟨space', gains⟩ := (coherent.users u live).mapped inv.layout set fits'
  have same : ∀ q, PageIs m.phys q .used → ¬ OwnsTable m.phys u q → ∀ i < 512,
      pte s' (q + m.phys.hhdmOffset) i = pte m.phys (q + m.phys.hhdmOffset) i := by
    intro q used notTable i bound
    exact kept.mem q used (fun path valid here => notTable ⟨path, valid, here⟩) _ (slot_inFrame m.phys q bound)
  apply coherent.change inv kept.hhdm kept.pages u
  · intro q n here
    have used := coherent.kernel.typed.used q n here
    refine ⟨kept.used q used, same q used ?_⟩
    intro table
    rw [coherent.apart u live q (.inl table)] at here
    cases here
  · intro w liveW other
    refine ⟨liveW, fun q owns => kept.used q (coherent.used (.inr ⟨w, liveW, owns⟩)), ?_⟩
    intro q table
    apply same q (coherent.used (.inr ⟨w, liveW, .inl table⟩))
    intro tableU
    exact other (coherent.disjoint w liveW u live q (.inl table) (.inl tableU))
  · intro _
    refine ⟨space', ?_, ?_⟩
    · intro i low bound
      rw [kept.topEntries i bound (Nat.not_lt_of_le low)]
      exact coherent.shared u live i low bound
    · intro q owns
      rcases gains q owns with old | ⟨rfl, used⟩ | unused
      · refine ⟨coherent.apart u live q old, ?_, ?_⟩
        · exact fun member => (coherent.pages q (subset q member)).2.2 u live old
        · exact fun w liveW other ownsW => other (coherent.disjoint w liveW u live q ownsW old)
      · rcases fits with ⟨foreign, _⟩ | ⟨member, rfl⟩
        · exact absurd used (foreign _)
        · refine ⟨(coherent.pages _ member).2.1, ?_, fun w liveW _ => (coherent.pages _ member).2.2 w liveW⟩
          intro stillThere
          have different := (List.mem_filter.mp stillThere).2
          simp at different
      · refine ⟨coherent.kernel.typed.untyped unused, ?_, ?_⟩
        · exact fun member => unused (coherent.pages q (subset q member)).1
        · exact fun w liveW _ ownsW => unused (coherent.used (.inr ⟨w, liveW, ownsW⟩))
  · intro q member
    obtain ⟨used, untyped, free⟩ := coherent.pages q (subset q member)
    exact ⟨kept.used q used, untyped, fun w liveW _ => free w liveW⟩

end Keep

section Create

variable {s : Phys} {list : List Nat} {kernelTop k : Nat} {space : AddressSpace}

/-- What new_pagemap() takes and what it copies. -/
structure Created (s : Phys) (kernelTop p : Nat) (space : AddressSpace) : Prop where
  hhdm : space.phys.hhdmOffset = s.hhdmOffset
  top : space.topLevel = p + s.hhdmOffset
  unused : ¬ PageIs s p .used
  usedPages : space.phys.usedPages = s.usedPages + 1
  total : space.phys.totalPages = s.totalPages
  owned : ∀ q, PageIs space.phys q .used ↔ q = p ∨ PageIs s q .used
  pages : Pages s space.phys
  mem : ∀ q, PageIs s q .used → ∀ a, InFrame s q a → space.phys.mem a = s.mem a
  upper : ∀ i, 256 ≤ i → i < 512 → pte space.phys space.topLevel i = pte s kernelTop i

theorem newPagemap_created (inv : Inv s list) (top : kernelTop = k + s.hhdmOffset) (used : PageIs s k .used)
    (made : newPagemap s kernelTop = .ok space) : ∃ p, Created s kernelTop p space := by
  rcases allocatePage_outcome inv with ⟨p, s₁, list₁, returned, inv₁, allocated⟩ | ⟨failed, _⟩
  · simp only [newPagemap, returned, bind, Except.bind, Except.ok.injEq] at made
    subst made
    obtain ⟨state, page, unused⟩ := allocated.fresh
    have notUsed : ¬ PageIs s p .used := fun isUsed => unused (inv.layout.page_unique page isUsed)
    obtain ⟨_, _, bound, _⟩ := inv.layout.page_bounds page
    have address : wadd p s₁.hhdmOffset = p + s.hhdmOffset := by
      rw [allocated.hhdm, wadd_eq (by omega)]
    simp only [address]
    refine ⟨p, allocated.hhdm, rfl, notUsed, allocated.usedPages, allocated.total, allocated.owned,
      fun q => (allocated.pages q).mp, ?_, ?_⟩
    · intro q usedQ a inQ
      have notP : ¬ InFrame s p a := by
        intro inP
        have same := frame_apart inv.layout usedQ page inQ inP
        exact notUsed (same ▸ usedQ)
      have outside : ¬ (p + s.hhdmOffset ≤ a ∧ a < p + s.hhdmOffset + pageSize) := notP
      have half : pageSize / 2 ≤ pageSize := by decide
      dsimp only
      rw [Memory.clear_outside (by omega), if_neg outside]
      exact allocated.frame q usedQ a inQ
    · intro i low high
      have inside : p + s.hhdmOffset ≤ slot (p + s.hhdmOffset) i ∧
          slot (p + s.hhdmOffset) i < p + s.hhdmOffset + pageSize := by
        unfold slot pageSize
        omega
      have second : ¬ (p + s.hhdmOffset ≤ slot (p + s.hhdmOffset) i ∧
          slot (p + s.hhdmOffset) i < p + s.hhdmOffset + pageSize / 2) := by
        unfold slot pageSize
        omega
      have source : kernelTop + (slot (p + s.hhdmOffset) i - (p + s.hhdmOffset)) = slot kernelTop i := by
        unfold slot
        omega
      simp only [pte]
      rw [Memory.clear_outside second, if_pos inside, source, top]
      exact allocated.frame k used _ (slot_inFrame s k high)
  · simp only [newPagemap, failed, bind, Except.bind] at made
    cases made

theorem emptyLowerHalf_absent {top v : Nat} (empty : EmptyLowerHalf s top) (inside : lowerHalf (pml4i v)) :
    isPresent (leaf s top v) = false := by
  cases here : descend (child s) top (pathOf v) with
  | none => simp only [leaf, here, isPresent_zero]
  | some t => cases (empty.only_top (valid_pathOf inside) here).1

/-- A new process owns its top level only. -/
theorem emptyLowerHalf_userSpace {top : Nat} (empty : EmptyLowerHalf s top) :
    UserSpace s top ∧ ∀ q, Owns s top q → top = q + s.hhdmOffset := by
  have absent : ∀ v, lowerHalf (pml4i v) → isPresent (leaf s top v) = true → False := by
    intro v inside present
    rw [emptyLowerHalf_absent empty inside] at present
    cases present
  refine ⟨⟨empty.tree, empty.opened, fun v _ inside present => (absent v inside present).elim,
    fun v _ inside _ present => (absent v inside present).elim⟩, ?_⟩
  rintro q (⟨path, valid, here⟩ | ⟨_, v, inside, present, _⟩)
  · exact (empty.only_top valid here).2.symm
  · exact (absent v inside present).elim

end Create

section Runs

variable {m m' : Machine} {level : Levels} {list : List Nat}

theorem Coherent.newPagemap (coherent : Coherent m level) {space : AddressSpace}
    (made : newPagemap m.phys m.kernelTop = .ok space) :
    Coherent { m with phys := space.phys, users := space.topLevel :: m.users } level := by
  obtain ⟨list, inv⟩ := coherent.inv
  obtain ⟨k, top, atTop⟩ := coherent.kernel.frame
  obtain ⟨p, created⟩ := newPagemap_created inv atTop (coherent.kernel.typed.used k 4 top) made
  obtain ⟨⟨list', inv'⟩, _, empty, _⟩ := newPagemap_spec inv made
  obtain ⟨space', owned⟩ := emptyLowerHalf_userSpace empty
  have ownedP : ∀ q, Owns space.phys space.topLevel q → q = p := by
    intro q owns
    have address := owned q owns
    rw [created.hhdm, created.top] at address
    omega
  have stays : ∀ q, PageIs m.phys q .used → PageIs space.phys q .used := fun q used =>
    (created.owned q).mpr (.inr used)
  have same : ∀ q, PageIs m.phys q .used → ∀ i < 512,
      pte space.phys (q + m.phys.hhdmOffset) i = pte m.phys (q + m.phys.hhdmOffset) i :=
    fun q used i bound => created.mem q used _ (slot_inFrame m.phys q bound)
  apply coherent.change inv' created.hhdm created.pages space.topLevel
  · intro q n here
    have used := coherent.kernel.typed.used q n here
    exact ⟨stays q used, same q used⟩
  · intro w member other
    have live : w ∈ m.users := (List.mem_cons.mp member).resolve_left other
    exact ⟨live, fun q owns => stays q (coherent.used (.inr ⟨w, live, owns⟩)),
      fun q table => same q (coherent.used (.inr ⟨w, live, .inl table⟩))⟩
  · intro _
    refine ⟨space', created.upper, ?_⟩
    intro q owns
    rw [ownedP q owns]
    refine ⟨coherent.kernel.typed.untyped created.unused, fun member => created.unused (coherent.pages p member).1, ?_⟩
    intro w member other ownsW
    have live : w ∈ m.users := (List.mem_cons.mp member).resolve_left other
    exact created.unused (coherent.used (.inr ⟨w, live, ownsW⟩))
  · intro q member
    obtain ⟨used, untyped, free⟩ := coherent.pages q member
    exact ⟨stays q used, untyped, fun w inUsers other => free w ((List.mem_cons.mp inUsers).resolve_left other)⟩

theorem Coherent.deletePagemap (coherent : Coherent m level) {u : Nat} {s' : Phys} (live : u ∈ m.users)
    (deleted : deletePagemap m.phys u = .ok s') :
    Coherent { m with phys := s', users := m.users.filter (fun w => w ≠ u) } level := by
  obtain ⟨list, inv⟩ := coherent.inv
  rcases deletePagemap_outcome inv (coherent.users u live) with ⟨s₁, freed, ran, released, _, owned⟩ | ⟨failed, _⟩
  · cases Except.ok.inj (ran.symm.trans deleted)
    apply coherent.release released
    · exact fun w member => (List.mem_filter.mp member).1
    · exact fun q member => coherent.apart u live q ((owned q).mp member)
    · intro q member w inUsers owns
      obtain ⟨liveW, other⟩ := List.mem_filter.mp inUsers
      have same := coherent.disjoint w liveW u live q owns ((owned q).mp member)
      simp [same] at other
    · exact fun q member => ⟨member, fun isFreed =>
        (coherent.pages q member).2.2 u live ((owned q).mp isFreed)⟩
  · cases failed.symm.trans deleted

/-- The entry that vmm_map_page writes leads to the page again. -/
theorem mapped_page {p flags : Nat} (isFlags : IsFlags flags) :
    (p &&& pteMask ||| (ptePresent ||| flags)) &&& pteMask = p &&& pteMask :=
  entry_mask (masked_dvd p) (masked_lt p) isFlags.masked

/-- No step breaks the division of the pages. -/
theorem Coherent.step (coherent : Coherent m level) (step : Step m m') :
    ∃ level', Coherent m' level' := by
  obtain ⟨list, inv⟩ := coherent.inv
  obtain ⟨k, top, atTop⟩ := coherent.kernel.frame
  cases step with
  | newPagemap made => exact ⟨level, coherent.newPagemap made⟩
  | @kernelMap v p flags s' _ outside ran =>
    rw [atTop] at outside ran
    rcases vmmMapPage_typed inv coherent.kernel.typed top outside p flags with
      ⟨s₁, list₁, level₁, result, inv₁, mapped, _⟩ | ⟨failed, _⟩
    · cases Except.ok.inj (result.symm.trans ran)
      exact ⟨level₁, coherent.grown inv₁ mapped.typed mapped.grown (by decide)⟩
    · cases failed.symm.trans ran
  | kernelUnmap _ outside =>
    rw [atTop] at outside ⊢
    obtain ⟨inv₁, typed, grown⟩ := vmmUnmapPage_typed inv coherent.kernel.typed top outside
    have after := coherent.grown inv₁ typed grown (by decide)
    rw [← atTop] at after ⊢
    exact ⟨level, after⟩
  | @userMap u v p flags s' live low member isFlags ran =>
    obtain ⟨list₁, inv₁, set⟩ := vmmMapPage_ok inv (coherent.users u live).tree (lowerHalf_pml4i low) ran
    obtain ⟨aligned, _, _, physical⟩ := inv.layout.page_bounds (coherent.pages p member).1
    have masked := page_mask aligned physical
    refine ⟨level, coherent.userMap live inv₁ set (.inr ?_)⟩
    rw [mapped_page isFlags, masked]
    exact ⟨member, rfl⟩
  | @userMapForeign u v p flags s' live low foreign isFlags ran =>
    obtain ⟨list₁, inv₁, set⟩ := vmmMapPage_ok inv (coherent.users u live).tree (lowerHalf_pml4i low) ran
    refine ⟨level, coherent.userMap live inv₁ set (.inl ?_)⟩
    rw [mapped_page isFlags]
    exact ⟨foreign, rfl⟩
  | deletePagemap live deleted => exact ⟨level, coherent.deletePagemap live deleted⟩
  | allocatePage ran =>
    rcases allocatePage_outcome inv with ⟨p, s₁, list₁, returned, inv₁, allocated⟩ | ⟨failed, _⟩
    · cases Except.ok.inj (returned.symm.trans ran)
      exact ⟨level, coherent.allocate inv₁ allocated⟩
    · cases failed.symm.trans ran
  | @freePage p s' member ran =>
    obtain ⟨used, untyped, free⟩ := coherent.pages p member
    obtain ⟨s₁, returned, released⟩ := (Released.refl inv).free used List.not_mem_nil
    cases Except.ok.inj (returned.symm.trans ran)
    refine ⟨level, coherent.release released (fun w live => live) ?_ ?_ ?_⟩
    · exact fun q isP => List.mem_singleton.mp isP ▸ untyped
    · exact fun q isP => List.mem_singleton.mp isP ▸ free
    · intro q inPages
      obtain ⟨old, other⟩ := List.mem_filter.mp inPages
      refine ⟨old, fun isP => ?_⟩
      simp [List.mem_singleton.mp isP] at other
  | write own outside => exact ⟨level, coherent.write own outside⟩

theorem Coherent.steps {m₀ : Machine} (coherent : Coherent m₀ level) (steps : Steps m₀ m) :
    ∃ level', Coherent m level' := by
  induction steps with
  | start => exact ⟨level, coherent⟩
  | step _ step ih =>
    obtain ⟨level₁, coherent₁⟩ := ih
    exact coherent₁.step step

end Runs

section Walks

variable {s s' : Phys} {level : Levels} {top v : Nat}

/-- A walk starts with an entry of the top level, and goes on below it. -/
theorem walk_congr {u w : Nat} (same : pte s u (pml4i v) = pte s w (pml4i v)) : walk s u v = walk s w v := by
  unfold walk
  rw [same]

theorem leaf_congr_top {u w : Nat} (same : pte s u (pml4i v) = pte s w (pml4i v)) : leaf s u v = leaf s w v := by
  unfold leaf pathOf
  simp only [descend, child, same]

theorem upperHalf_pml4i (upper : UpperHalf v) : 256 ≤ pml4i v ∧ pml4i v < 512 := by
  obtain ⟨low, high⟩ := upper
  unfold pml4i
  simp only [index_eq_mod, Nat.shiftRight_eq_div_pow]
  omega

theorem entry_followed {entry : Nat} (goesOn : ¬ (¬ isPresent entry = true ∨ entry.testBit 7 = true)) :
    isPresent entry = true ∧ entry.testBit 7 = false := by
  obtain ⟨present, plain⟩ := not_or.mp goesOn
  exact ⟨not_not.mp present, Bool.not_eq_true _ ▸ plain⟩

/-- The tables of a walk through the kernel's tables, level by level. -/
theorem KernelTables.levels (tables : KernelTables s top level) (upper : UpperHalf v) :
    ∃ r₃, level r₃ = some 3 ∧ tableOf s (pte s top (pml4i v)) = r₃ + s.hhdmOffset ∧
      (isPresent (pte s (r₃ + s.hhdmOffset) (pml3i v)) = true →
        (pte s (r₃ + s.hhdmOffset) (pml3i v)).testBit 7 = false →
        ∃ r₂, level r₂ = some 2 ∧ tableOf s (pte s (r₃ + s.hhdmOffset) (pml3i v)) = r₂ + s.hhdmOffset ∧
          (isPresent (pte s (r₂ + s.hhdmOffset) (pml2i v)) = true →
            (pte s (r₂ + s.hhdmOffset) (pml2i v)).testBit 7 = false →
            ∃ r₁, level r₁ = some 1 ∧
              tableOf s (pte s (r₂ + s.hhdmOffset) (pml2i v)) = r₁ + s.hhdmOffset)) := by
  obtain ⟨_, bound2, bound3, bound4⟩ := pml_lt v
  obtain ⟨q, here, rfl⟩ := tables.frame
  have typed := tables.typed
  have follow : ∀ r n i, level r = some (n + 2) → i < 512 → isPresent (pte s (r + s.hhdmOffset) i) = true →
      isLarge (pte s (r + s.hhdmOffset) i) = false →
      ∃ r', level r' = some (n + 1) ∧ tableOf s (pte s (r + s.hhdmOffset) i) = r' + s.hhdmOffset := by
    intro r n i typedR bound present small
    apply typed.next r n i _ typedR bound small
    rw [child_eq, if_pos present]
  have present4 := tables.slots (pml4i v) (upperHalf_pml4i upper).1 bound4
  obtain ⟨r₃, level3, address3⟩ := follow q 2 _ here bound4 present4 (typed.tops q _ here bound4)
  refine ⟨r₃, level3, address3, ?_⟩
  intro present3 plain3
  obtain ⟨r₂, level2, address2⟩ := follow r₃ 1 _ level3 bound3 present3 (by simp [isLarge, plain3])
  refine ⟨r₂, level2, address2, ?_⟩
  intro present2 plain2
  exact follow r₂ 0 _ level2 bound2 present2 (by simp [isLarge, plain2])

theorem walk_used (tables : KernelTables s top level) (upper : UpperHalf v) :
    walk s top v ≠ [] ∧ ∀ t e, (t, e) ∈ walk s top v → ∃ q, PageIs s q .used ∧ t = q + s.hhdmOffset := by
  obtain ⟨r₃, level3, address3, deeper⟩ := KernelTables.levels tables upper
  have present4 := tables.slots (pml4i v) (upperHalf_pml4i upper).1 (upperHalf_pml4i upper).2
  have used := tables.typed.used
  simp only [walk, address3, present4, not_true_eq_false, ↓reduceIte]
  by_cases stops3 : ¬ isPresent (pte s (r₃ + s.hhdmOffset) (pml3i v)) = true ∨
      (pte s (r₃ + s.hhdmOffset) (pml3i v)).testBit 7 = true
  · simp only [if_pos stops3]
    refine ⟨by simp, ?_⟩
    intro t e member
    cases List.mem_singleton.mp member
    exact ⟨r₃, used r₃ 3 level3, rfl⟩
  · simp only [if_neg stops3]
    obtain ⟨present3, plain3⟩ := entry_followed stops3
    obtain ⟨r₂, level2, address2, deepest⟩ := deeper present3 plain3
    simp only [address2]
    by_cases stops2 : ¬ isPresent (pte s (r₂ + s.hhdmOffset) (pml2i v)) = true ∨
        (pte s (r₂ + s.hhdmOffset) (pml2i v)).testBit 7 = true
    · simp only [if_pos stops2]
      refine ⟨by simp, ?_⟩
      intro t e member
      simp only [List.mem_cons, Prod.mk.injEq, List.not_mem_nil, or_false] at member
      rcases member with ⟨rfl, _⟩ | ⟨rfl, _⟩
      · exact ⟨r₃, used r₃ 3 level3, rfl⟩
      · exact ⟨r₂, used r₂ 2 level2, rfl⟩
    · simp only [if_neg stops2]
      obtain ⟨present2, plain2⟩ := entry_followed stops2
      obtain ⟨r₁, level1, address1⟩ := deepest present2 plain2
      simp only [address1]
      refine ⟨by simp, ?_⟩
      intro t e member
      simp only [List.mem_cons, Prod.mk.injEq, List.not_mem_nil, or_false] at member
      rcases member with ⟨rfl, _⟩ | ⟨rfl, _⟩ | ⟨rfl, _⟩
      · exact ⟨r₃, used r₃ 3 level3, rfl⟩
      · exact ⟨r₂, used r₂ 2 level2, rfl⟩
      · exact ⟨r₁, used r₁ 1 level1, rfl⟩

/-- What keeps the entries of the kernel's tables keeps the walks through them. -/
theorem walk_frame (tables : KernelTables s top level) (upper : UpperHalf v)
    (hhdm : s'.hhdmOffset = s.hhdmOffset)
    (same : ∀ q n, level q = some n → ∀ i < 512, pte s' (q + s.hhdmOffset) i = pte s (q + s.hhdmOffset) i) :
    walk s' top v = walk s top v := by
  obtain ⟨bound1, bound2, bound3, bound4⟩ := pml_lt v
  obtain ⟨r₃, level3, address3, deeper⟩ := KernelTables.levels tables upper
  have present4 := tables.slots (pml4i v) (upperHalf_pml4i upper).1 bound4
  obtain ⟨q, here, rfl⟩ := tables.frame
  have tableSame : ∀ entry, tableOf s' entry = tableOf s entry := by
    intro entry
    unfold tableOf
    rw [hhdm]
  unfold walk
  simp only [tableSame, same q 4 here _ bound4, address3, same r₃ 3 level3 _ bound3, present4, not_true_eq_false,
    ↓reduceIte]
  by_cases stops3 : ¬ isPresent (pte s (r₃ + s.hhdmOffset) (pml3i v)) = true ∨
      (pte s (r₃ + s.hhdmOffset) (pml3i v)).testBit 7 = true
  · rw [if_pos stops3, if_pos stops3]
  · rw [if_neg stops3, if_neg stops3]
    obtain ⟨present3, plain3⟩ := entry_followed stops3
    obtain ⟨r₂, level2, address2, deepest⟩ := deeper present3 plain3
    simp only [address2, same r₂ 2 level2 _ bound2]
    by_cases stops2 : ¬ isPresent (pte s (r₂ + s.hhdmOffset) (pml2i v)) = true ∨
        (pte s (r₂ + s.hhdmOffset) (pml2i v)).testBit 7 = true
    · rw [if_pos stops2, if_pos stops2]
    · rw [if_neg stops2, if_neg stops2]
      obtain ⟨present2, plain2⟩ := entry_followed stops2
      obtain ⟨r₁, level1, address1⟩ := deepest present2 plain2
      simp only [address1, same r₁ 1 level1 _ bound1]

end Walks

section Start

variable {hhdmOffset : Nat} {memmap : List MemmapEntry} {mem : Memory} {s₀ s : Phys} {boot : BootInfo}
  {ph : ProgramHeader} {kernelTop : Nat}

/-- The state that setup_vmm leaves. -/
theorem setupVmm_coherent (limine : LimineMap hhdmOffset memmap) (pmm : setupPmm hhdmOffset memmap mem = .ok s₀)
    (vmm : setupVmm boot s₀ = .ok (kernelTop, s)) (member : ph ∈ programHeaders boot.executable)
    (isLoad : ph.isLoad = true) (nonempty : 0 < ph.memSize) (high : kernelBase ≤ ph.virtAddr)
    (inside : ph.virtAddr + ph.memSize ≤ 2 ^ 64) : ∃ level, Coherent ⟨s, kernelTop, [], []⟩ level := by
  obtain ⟨list₀, inv₀⟩ := setupPmm_inv limine pmm
  rcases setupVmm_outcome inv₀ boot member isLoad nonempty high inside with
    ⟨top, s', list', level', ran, inv', tables, _⟩ | ⟨failed, _⟩ | ⟨failed, _⟩
  · cases Except.ok.inj (ran.symm.trans vmm)
    exact ⟨level', ⟨list', inv'⟩, tables, by simp, by simp, by simp, by simp, by simp⟩
  · cases failed.symm.trans vmm
  · cases failed.symm.trans vmm

end Start

theorem imageBoot_boots : ∃ s₀ s kernelTop,
    setupPmm 0xFFFF800000000000 Stdlib.kernelMap (fun _ => 7) = .ok s₀ ∧
    setupVmm imageBoot s₀ = .ok (kernelTop, s) ∧ s.usedPages + 54 ≤ s.totalPages ∧
    s.hhdmOffset = 0xFFFF800000000000 := by
  obtain ⟨s₀, list₀, boots, inv₀, hhdm, used, total, _⟩ := Stdlib.kernelMap_pmm
  have segments : segmentsCost (programHeaders imageBoot.executable) = 3 := by decide +kernel
  have regions : regionsCost imageBoot 0xFFFF800000000000 imageBoot.memmap = 6 := by decide +kernel
  rcases setupVmm_outcome inv₀ imageBoot imageBoot_segment rfl (by decide) (by decide) (by decide) with
    ⟨top, s, list, level, ran, inv, tables, sameHhdm, sameTotal, cost⟩ | ⟨_, full⟩ | ⟨_, refused⟩
  · rw [hhdm, segments, regions] at cost
    exact ⟨s₀, s, top, boots, ran, by omega, sameHhdm.trans hhdm⟩
  · rw [hhdm, segments, regions] at full
    omega
  · have accepted : verifyElf64 imageBoot.executable = true := by decide +kernel
    rw [accepted] at refused
    cases refused

/-- A first process on that machine. -/
theorem imageBoot_process : ∃ s₀ s kernelTop space,
    setupPmm 0xFFFF800000000000 Stdlib.kernelMap (fun _ => 7) = .ok s₀ ∧
    setupVmm imageBoot s₀ = .ok (kernelTop, s) ∧ newPagemap s kernelTop = .ok space ∧
    space.phys.usedPages + 53 ≤ space.phys.totalPages ∧ pageSize ∣ space.phys.hhdmOffset ∧
    Steps ⟨s, kernelTop, [], []⟩ ⟨space.phys, kernelTop, [space.topLevel], []⟩ := by
  obtain ⟨s₀, s, kernelTop, pmm, vmm, room, hhdm⟩ := imageBoot_boots
  obtain ⟨level, coherent⟩ := setupVmm_coherent Stdlib.kernelMap_limine pmm vmm imageBoot_segment rfl (by decide)
    (by decide) (by decide)
  obtain ⟨list, inv⟩ := coherent.inv
  have same : (⟨s, kernelTop, [], []⟩ : Machine).phys = s := rfl
  rw [same] at inv
  rcases allocatePage_outcome inv with ⟨p, s₁, list₁, returned, _⟩ | ⟨_, full⟩
  · obtain ⟨space, made⟩ : ∃ space, newPagemap s kernelTop = .ok space := by
      simp only [newPagemap, returned, bind, Except.bind]
      exact ⟨_, rfl⟩
    obtain ⟨k, top, atTop⟩ := coherent.kernel.frame
    obtain ⟨q, created⟩ := newPagemap_created inv atTop (coherent.kernel.typed.used k 4 top) made
    have used := created.usedPages
    have total := created.total
    have offset : pageSize ∣ space.phys.hhdmOffset := by
      rw [created.hhdm, hhdm]
      decide
    exact ⟨s₀, s, kernelTop, space, pmm, vmm, made, by omega, offset,
      Steps.step Steps.start (Step.newPagemap made)⟩
  · omega

end EvalynOS.Process
