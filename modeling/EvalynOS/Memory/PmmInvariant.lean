import EvalynOS.Memory.PmmPages

/-! The joint invariant of the free list, the page states and the cursor of pmm_fill,
and what one call of each function does under it. -/
namespace EvalynOS.Pmm
open Lib Lib.Word

def AtCursor (s : Phys) (t i : Nat) : Prop := s.fillT < t ∨ (s.fillT = t ∧ s.fillP ≤ i)

structure Inv (s : Phys) (list : List Nat) : Prop where
  layout : Layout s.hhdmOffset s.tables
  threaded : Threaded s.mem s.freelistHead list
  nodup : list.Nodup
  exactFree : ∀ a, a ∈ list ↔ ∃ p, PageIs s p .free ∧ a = p + s.hhdmOffset
  cursor : ∀ (t : Nat) (c : ChildTable) (i : Nat) (state : PageState), s.tables[t]? = some c →
    c.pages[i]? = some state → (state = .uninit ↔ AtCursor s t i)
  used : s.usedPages = s.count .used
  total : s.totalPages = (s.tables.map ChildTable.numPages).sum

/-- The only change of state that filling makes. -/
def Later (before after : PageState) : Prop := after = before ∨ (before = .uninit ∧ after = .free)

/-- Filling leaves the used pages and all words but the first ones of new pages alone. -/
structure Filled (s s' : Phys) : Prop where
  hhdm : s'.hhdmOffset = s.hhdmOffset
  total : s'.totalPages = s.totalPages
  usedPages : s'.usedPages = s.usedPages
  length : s'.tables.length = s.tables.length
  forth : ∀ p state, PageIs s p state → ∃ state', PageIs s' p state' ∧ Later state state'
  back : ∀ p state', PageIs s' p state' → ∃ state, PageIs s p state ∧ Later state state'
  mem : ∀ a, (∀ p, PageIs s p .uninit → a ≠ p + s.hhdmOffset) → s'.mem a = s.mem a

theorem Filled.refl (s : Phys) : Filled s s :=
  ⟨rfl, rfl, rfl, rfl, fun _ state page => ⟨state, page, .inl rfl⟩,
    fun _ state page => ⟨state, page, .inl rfl⟩, fun _ _ => rfl⟩

theorem Later.trans {a b c : PageState} (one : Later a b) (two : Later b c) : Later a c := by
  rcases one with rfl | ⟨rfl, rfl⟩
  · exact two
  · rcases two with rfl | ⟨impossible, _⟩
    · exact .inr ⟨rfl, rfl⟩
    · cases impossible

theorem Later.used_iff {a b : PageState} (later : Later a b) : b = .used ↔ a = .used := by
  rcases later with rfl | ⟨rfl, rfl⟩
  · exact Iff.rfl
  · exact ⟨fun never => (by cases never), fun never => (by cases never)⟩

theorem Filled.trans {s s' s'' : Phys} (one : Filled s s') (two : Filled s' s'') : Filled s s'' where
  hhdm := two.hhdm.trans one.hhdm
  total := two.total.trans one.total
  usedPages := two.usedPages.trans one.usedPages
  length := two.length.trans one.length
  forth := fun p state page => by
    obtain ⟨state', page', later⟩ := one.forth p state page
    obtain ⟨state'', page'', later'⟩ := two.forth p state' page'
    exact ⟨state'', page'', later.trans later'⟩
  back := fun p state'' page'' => by
    obtain ⟨state', page', later'⟩ := two.back p state'' page''
    obtain ⟨state, page, later⟩ := one.back p state' page'
    exact ⟨state, page, later.trans later'⟩
  mem := fun a outside => by
    rw [two.mem a, one.mem a outside]
    intro p page'
    rw [one.hhdm]
    apply outside
    obtain ⟨state, page, later⟩ := one.back p .uninit page'
    rcases later with same | ⟨_, impossible⟩
    · exact same ▸ page
    · cases impossible

theorem Filled.used_iff {s s' : Phys} (filled : Filled s s') (p : Nat) :
    PageIs s' p .used ↔ PageIs s p .used := by
  constructor
  · intro page'
    obtain ⟨state, page, later⟩ := filled.back p .used page'
    rwa [later.used_iff.mp rfl] at page
  · intro page
    obtain ⟨state', page', later⟩ := filled.forth p .used page
    rwa [later.used_iff.mpr rfl] at page'

section Fill

variable {s : Phys} {list : List Nat} {child : ChildTable}

/-- A page that is uninitialised, or in use, is not on the free list. -/
theorem Inv.not_listed (inv : Inv s list) {p : Nat} {state : PageState} (page : PageIs s p state)
    (other : state ≠ .free) : p + s.hhdmOffset ∉ list := by
  intro member
  obtain ⟨q, free, same⟩ := (inv.exactFree _).mp member
  have equal : p = q := by omega
  exact other (inv.layout.page_unique page (equal ▸ free))

theorem fillOne_spec (inv : Inv s list) {c : ChildTable} (here : s.tables[s.fillT]? = some c)
    (inside : s.fillP < c.numPages) (start : child.start = c.start) :
    ∃ s' node c', fillOne s child = (s', 1) ∧ Inv s' (node :: list) ∧ Filled s s' ∧
      s'.fillT = s.fillT ∧ s'.fillP = s.fillP + 1 ∧ s'.tables[s'.fillT]? = some c' ∧
      c'.start = c.start ∧ c'.numPages = c.numPages := by
  have length := (inv.layout.sound c (List.mem_of_getElem? here)).length
  obtain ⟨state, entry⟩ : ∃ state, c.pages[s.fillP]? = some state :=
    ⟨_, List.getElem?_eq_getElem (length.symm ▸ inside)⟩
  have uninit : state = .uninit :=
    (inv.cursor _ _ _ _ here entry).mpr (.inr ⟨rfl, Nat.le_refl _⟩)
  subst uninit
  have page : PageIs s (c.start + pageSize * s.fillP) .uninit := ⟨_, c, _, here, entry, rfl⟩
  have bounds := inv.layout.page_bounds page
  have states := pageIs_setPage inv.layout here entry .free
  generalize address : c.start + pageSize * s.fillP = p at page bounds states
  let s' : Phys := { s.setPage (s.fillT, s.fillP) .free with
    mem := s.mem.store (p + s.hhdmOffset) s.freelistHead, freelistHead := p + s.hhdmOffset
    fillP := s.fillP + 1 }
  have result : fillOne s child = (s', 1) := by
    have uninit : s.pageAt (s.fillT, s.fillP) = some .uninit := by simp [Phys.pageAt, here, entry]
    simp only [fillOne, uninit, ↓reduceIte, start, address, s']
  have states' : ∀ q state, PageIs s' q state ↔ (q = p ∧ state = .free) ∨ (q ≠ p ∧ PageIs s q state) :=
    states
  refine ⟨s', p + s.hhdmOffset, { c with pages := c.pages.set s.fillP .free }, result, ?_, ?_, rfl, rfl,
    ?_, rfl, rfl⟩
  · constructor
    · exact inv.layout.setPage _ _
    · exact inv.threaded.push (by omega) (inv.not_listed page (by decide))
    · exact List.nodup_cons.mpr ⟨inv.not_listed page (by decide), inv.nodup⟩
    · intro a
      rw [List.mem_cons, inv.exactFree]
      constructor
      · rintro (rfl | ⟨q, free, rfl⟩)
        · exact ⟨p, (states' _ _).mpr (.inl ⟨rfl, rfl⟩), rfl⟩
        · refine ⟨q, (states' _ _).mpr (.inr ⟨?_, free⟩), rfl⟩
          rintro rfl
          cases inv.layout.page_unique page free
      · rintro ⟨q, free, rfl⟩
        rcases (states' _ _).mp free with ⟨rfl, _⟩ | ⟨_, free⟩
        · exact .inl rfl
        · exact .inr ⟨q, free, rfl⟩
    · intro t d i state there entry'
      have after : AtCursor s' t i ↔ s.fillT < t ∨ (s.fillT = t ∧ s.fillP + 1 ≤ i) := Iff.rfl
      obtain ⟨e, atE, _, ⟨rfl, rfl, rfl⟩ | ⟨place, entryOld⟩⟩ :=
        @entry_setPage s s.fillT s.fillP state t i d .free there entry'
      · rw [after]
        exact ⟨fun never => (by cases never), by omega⟩
      · rw [inv.cursor t e i state atE entryOld, after, AtCursor]
        omega
    · have counted := count_setPage here entry .free .used
      simp only [reduceCtorEq, ↓reduceIte, Nat.add_zero] at counted
      exact inv.used.trans counted.symm
    · exact inv.total.trans (congrArg List.sum (numPages_setPage _ _)).symm
  · refine ⟨rfl, rfl, rfl, by simp [s', Phys.setPage], ?_, ?_, ?_⟩
    · intro q state old
      by_cases same : q = p
      · subst same
        refine ⟨.free, (states' _ _).mpr (.inl ⟨rfl, rfl⟩), .inr ⟨?_, rfl⟩⟩
        exact inv.layout.page_unique old page
      · exact ⟨state, (states' _ _).mpr (.inr ⟨same, old⟩), .inl rfl⟩
    · intro q state' new
      rcases (states' _ _).mp new with ⟨rfl, rfl⟩ | ⟨_, old⟩
      · exact ⟨.uninit, page, .inr ⟨rfl, rfl⟩⟩
      · exact ⟨state', old, .inl rfl⟩
    · intro a outside
      exact Memory.store_other _ (outside p page)
  · have old := tables_setPage s s.fillT s.fillP .free s.fillT
    rw [here, Option.map_some, if_pos rfl] at old
    exact old

theorem fillChild_spec {c : ChildTable} (pages rounds added : Nat) (inv : Inv s list)
    (here : s.tables[s.fillT]? = some c) (start : child.start = c.start)
    (size : child.numPages = c.numPages) (enough : child.numPages - s.fillP ≤ rounds) :
    ∃ s' added' list', fillChild pages child rounds s added = (s', added') ∧ Inv s' list' ∧
      Filled s s' ∧ s'.fillT = s.fillT ∧ added' + list.length = added + list'.length ∧
      (pages ≤ added' ∨ child.numPages ≤ s'.fillP) ∧
      ∃ c', s'.tables[s'.fillT]? = some c' ∧ c'.numPages = child.numPages := by
  induction rounds generalizing s list added c with
  | zero =>
    exact ⟨s, added, list, rfl, inv, Filled.refl s, rfl, rfl, .inr (by omega), c, here, size.symm⟩
  | succ rounds ih =>
    by_cases continues : s.fillP < child.numPages ∧ added < pages
    · obtain ⟨s₁, node, c₁, one, inv₁, filled₁, fillT₁, fillP₁, here₁, start₁, size₁⟩ :=
        fillOne_spec inv here (size ▸ continues.1) start
      obtain ⟨s', added', list', rest, inv', filled', fillT', lengths, stop, last⟩ :=
        ih (added + 1) inv₁ here₁ (start.trans start₁.symm) (size.trans size₁.symm) (by omega)
      refine ⟨s', added', list', ?_, inv', filled₁.trans filled', fillT'.trans fillT₁, ?_, stop, last⟩
      · simp only [fillChild, if_pos continues, one, rest]
      · rw [List.length_cons] at lengths
        omega
    · refine ⟨s, added, list, ?_, inv, Filled.refl s, rfl, rfl, by omega, c, here, size.symm⟩
      simp only [fillChild, if_neg continues]

/-- Moving the cursor from the end of one table to the start of the next. -/
theorem Inv.next_table (inv : Inv s list) {c : ChildTable} (here : s.tables[s.fillT]? = some c)
    (done : c.numPages ≤ s.fillP) : Inv { s with fillT := s.fillT + 1, fillP := 0 } list := by
  refine ⟨inv.layout, inv.threaded, inv.nodup, inv.exactFree, ?_, inv.used, inv.total⟩
  intro t d i state there entry
  have after : AtCursor { s with fillT := s.fillT + 1, fillP := 0 } t i ↔
      s.fillT + 1 < t ∨ (s.fillT + 1 = t ∧ 0 ≤ i) := Iff.rfl
  rw [inv.cursor t d i state there entry, after, AtCursor]
  have inside := inv.layout.entry there entry
  by_cases table : s.fillT = t
  · subst table
    cases Option.some.inj (here.symm.trans there)
    omega
  · omega

theorem Filled.next_table {s s' : Phys} (filled : Filled s s') (t p : Nat) :
    Filled s { s' with fillT := t, fillP := p } :=
  ⟨filled.hhdm, filled.total, filled.usedPages, filled.length, filled.forth, filled.back, filled.mem⟩

theorem fillTables_spec (pages rounds added : Nat) (inv : Inv s list)
    (enough : pages ≤ added ∨ s.tables.length - s.fillT < rounds) :
    ∃ s' added' list', fillTables pages rounds s added = (s', added') ∧ Inv s' list' ∧
      Filled s s' ∧ added' + list.length = added + list'.length ∧
      (pages ≤ added' ∨ s'.tables.length ≤ s'.fillT) := by
  induction rounds generalizing s list added with
  | zero => exact ⟨s, added, list, rfl, inv, Filled.refl s, rfl, .inl (by omega)⟩
  | succ rounds ih =>
    cases here : s.tables[s.fillT]? with
    | none =>
      refine ⟨s, added, list, ?_, inv, Filled.refl s, rfl, .inr (List.getElem?_eq_none_iff.mp here)⟩
      simp only [fillTables, here]
    | some child =>
      obtain ⟨bound, _⟩ := List.getElem?_eq_some_iff.mp here
      by_cases continues : added < pages
      · obtain ⟨s₁, added₁, list₁, inner, inv₁, filled₁, fillT₁, lengths₁, stop, c₁, here₁, size₁⟩ :=
          fillChild_spec pages (child.numPages - s.fillP) added inv here rfl rfl (Nat.le_refl _)
        have unfolded : fillTables pages (rounds + 1) s added = fillTables pages rounds
            (if s₁.fillP ≥ child.numPages then { s₁ with fillT := s₁.fillT + 1, fillP := 0 } else s₁)
            added₁ := by
          simp only [fillTables, here, if_pos continues, inner]
        have length₁ := filled₁.length
        by_cases done : s₁.fillP ≥ child.numPages
        · rw [if_pos done] at unfolded
          obtain ⟨s', added', list', rest, inv', filled', lengths, final⟩ :=
            ih added₁ (inv₁.next_table here₁ (size₁ ▸ done)) (.inr (by simp only; omega))
          have first := filled₁.next_table (s₁.fillT + 1) 0
          exact ⟨s', added', list', unfolded.trans rest, inv', first.trans filled', by omega, final⟩
        · rw [if_neg done] at unfolded
          have full : pages ≤ added₁ := stop.resolve_right done
          obtain ⟨s', added', list', rest, inv', filled', lengths, final⟩ := ih added₁ inv₁ (.inl full)
          exact ⟨s', added', list', unfolded.trans rest, inv', filled₁.trans filled', by omega, final⟩
      · refine ⟨s, added, list, ?_, inv, Filled.refl s, rfl, .inl (by omega)⟩
        simp only [fillTables, here, if_neg continues]

/-- pmm_fill leaves the list empty only when no page is left to initialise. -/
theorem pmmFill_spec {pages : Nat} (inv : Inv s list) (some_pages : 0 < pages) :
    ∃ list', Inv (pmmFill s pages) list' ∧ Filled s (pmmFill s pages) ∧
      (list' = [] → ∀ p, ¬ PageIs (pmmFill s pages) p .uninit) := by
  obtain ⟨s', added', list', result, inv', filled, lengths, final⟩ :=
    fillTables_spec pages (s.tables.length - s.fillT + 1) 0 inv (.inr (Nat.lt_succ_self _))
  have unfolded : pmmFill s pages = s' := by
    rw [pmmFill, result]
  rw [unfolded]
  refine ⟨list', inv', filled, ?_⟩
  rintro rfl p ⟨t, c, i, there, entry, _⟩
  rw [List.length_nil] at lengths
  obtain ⟨bound, _⟩ := List.getElem?_eq_some_iff.mp there
  rcases (inv'.cursor t c i .uninit there entry).mp rfl with below | ⟨same, _⟩
  · omega
  · omega

end Fill

/-- The words of the page at a physical address, in the direct map. -/
def InFrame (s : Phys) (p a : Nat) : Prop := p + s.hhdmOffset ≤ a ∧ a < p + s.hhdmOffset + pageSize

/-- The pages of the second state are pages of the first. -/
def Pages (s s' : Phys) : Prop := ∀ q, (∃ state, PageIs s' q state) → ∃ state, PageIs s q state

/-- What allocate_page() does when it returns the page p. -/
structure Allocated (s : Phys) (p : Nat) (s' : Phys) : Prop where
  hhdm : s'.hhdmOffset = s.hhdmOffset
  total : s'.totalPages = s.totalPages
  usedPages : s'.usedPages = s.usedPages + 1
  fresh : ∃ state, PageIs s p state ∧ state ≠ .used
  pages : ∀ q, (∃ state, PageIs s' q state) ↔ ∃ state, PageIs s q state
  owned : ∀ q, PageIs s' q .used ↔ q = p ∨ PageIs s q .used
  zero : ∀ a, InFrame s p a → s'.mem a = 0
  frame : ∀ q, PageIs s q .used → ∀ a, InFrame s q a → s'.mem a = s.mem a

section Calls

variable {s : Phys} {list : List Nat} {p q a : Nat} {state : PageState}

theorem frame_apart (layout : Layout s.hhdmOffset s.tables) {other : PageState} (one : PageIs s p state)
    (two : PageIs s q other) (inP : InFrame s p a) (inQ : InFrame s q a) : p = q := by
  unfold InFrame at inP inQ
  have low : p ≤ a - s.hhdmOffset ∧ a - s.hhdmOffset < p + pageSize := by omega
  exact layout.page_apart one two low (by omega)

theorem first_word (s : Phys) (p : Nat) : InFrame s p (p + s.hhdmOffset) :=
  ⟨Nat.le_refl _, Nat.lt_add_of_pos_right (by decide)⟩

theorem inFrame_congr {s' : Phys} (hhdm : s'.hhdmOffset = s.hhdmOffset) : InFrame s' q a ↔ InFrame s q a := by
  unfold InFrame
  rw [hhdm]

/-- A page found through its entry goes from one initialised state to another. -/
theorem Inv.cursor_setPage (inv : Inv s list) {t i : Nat} {c : ChildTable} {new : PageState}
    (here : s.tables[t]? = some c) (entry : c.pages[i]? = some state) (old : state ≠ .uninit)
    (initialised : new ≠ .uninit) (u : Nat) (d : ChildTable) (j : Nat) (other : PageState)
    (there : (s.setPage (t, i) new).tables[u]? = some d) (entry' : d.pages[j]? = some other) :
    other = .uninit ↔ AtCursor s u j := by
  obtain ⟨e, before, _, ⟨rfl, rfl, rfl⟩ | ⟨_, entryOld⟩⟩ := entry_setPage there entry'
  · have passed := (inv.cursor u c j state here entry).not.mp old
    exact ⟨fun impossible => absurd impossible initialised, fun ahead => absurd ahead passed⟩
  · exact inv.cursor u e j other before entryOld

/-- The allocator after the attempt to fill an empty list. -/
theorem refilled (inv : Inv s list) :
    ∃ s₁ list₁, (if s.freelistHead = 0 then pmmFill s 512 else s) = s₁ ∧ Inv s₁ list₁ ∧ Filled s s₁ ∧
      (list₁ = [] → ∀ p state, PageIs s p state → state = .used) := by
  split
  · obtain ⟨list₁, inv₁, filled, empty⟩ := pmmFill_spec inv (show 0 < 512 by decide)
    refine ⟨_, list₁, rfl, inv₁, filled, ?_⟩
    intro none p state page
    obtain ⟨state', page', later⟩ := filled.forth p state page
    rw [← later.used_iff]
    cases state' with
    | used => rfl
    | uninit => exact absurd page' (empty none p)
    | free =>
      have member := (inv₁.exactFree _).mpr ⟨p, page', rfl⟩
      rw [none] at member
      cases member
  · rename_i nonnull
    refine ⟨s, list, rfl, inv, Filled.refl s, ?_⟩
    intro none
    exact absurd (inv.threaded.null_iff.mpr none) nonnull

theorem allocatePage_full (inv : Inv s list) (full : ∀ p state, PageIs s p state → state = .used) :
    allocatePage s = .error .outOfMemory := by
  obtain ⟨s₁, list₁, refill, inv₁, filled, _⟩ := refilled inv
  have none : list₁ = [] := by
    rw [List.eq_nil_iff_forall_not_mem]
    intro a member
    obtain ⟨p, page₁, _⟩ := (inv₁.exactFree a).mp member
    obtain ⟨state, page, later⟩ := filled.back p .free page₁
    cases later.used_iff.mpr (full p state page)
  have null := inv₁.threaded.null_iff.mpr none
  simp only [allocatePage, refill, null, ↓reduceIte]

theorem allocatePage_spec (inv : Inv s list) (left : ∃ p state, PageIs s p state ∧ state ≠ .used) :
    ∃ p s' list', allocatePage s = .ok (p, s') ∧ Inv s' list' ∧ Allocated s p s' := by
  obtain ⟨s₁, list₁, refill, inv₁, filled, empty⟩ := refilled inv
  have nonempty : list₁ ≠ [] := by
    intro none
    obtain ⟨p, state, page, other⟩ := left
    exact other (empty none p state page)
  have nonnull : s₁.freelistHead ≠ 0 := inv₁.threaded.null_iff.not.mpr nonempty
  obtain ⟨rest, rfl, threaded⟩ := inv₁.threaded.pop nonnull
  obtain ⟨p, page, node⟩ := (inv₁.exactFree _).mp List.mem_cons_self
  have bounds := inv₁.layout.page_bounds page
  obtain ⟨t, c, i, here, entry, address⟩ := page
  have page : PageIs s₁ p .free := ⟨t, c, i, here, entry, address⟩
  obtain ⟨found, current⟩ := getPageInfo_eq inv₁.layout here entry
  have states := pageIs_setPage inv₁.layout here entry .used
  rw [← address] at found states
  have phys : wsub s₁.freelistHead s₁.hhdmOffset = p := by
    rw [node, wsub_eq (by omega) (by omega)]
    omega
  let s' : Phys := { s₁.setPage (t, i) .used with
    freelistHead := s₁.mem s₁.freelistHead, usedPages := s₁.usedPages + 1
    mem := s₁.mem.clear s₁.freelistHead pageSize }
  have result : allocatePage s = .ok (p, s') := by
    have found' : getPageInfo { s₁ with freelistHead := s₁.mem s₁.freelistHead } p =
      .ok (some (t, i)) := found
    have current' : ({ s₁ with freelistHead := s₁.mem s₁.freelistHead } : Phys).pageAt (t, i) =
      some .free := current
    simp only [allocatePage, refill, nonnull, ↓reduceIte, phys, found', current']
    rfl
  have states' : ∀ q state, PageIs s' q state ↔ (q = p ∧ state = .used) ∨ (q ≠ p ∧ PageIs s₁ q state) :=
    states
  have outside : ∀ q other, PageIs s₁ q other → q ≠ p → ∀ a, InFrame s₁ q a → s'.mem a = s₁.mem a := by
    intro q other pageQ different a inQ
    apply Memory.clear_outside
    rw [node]
    exact fun inP => different (frame_apart inv₁.layout pageQ page inQ inP)
  have distinct := List.nodup_cons.mp inv₁.nodup
  refine ⟨p, s', rest, result, ?_, ?_⟩
  · constructor
    · exact inv₁.layout.setPage _ _
    · apply threaded.congr
      intro a member
      obtain ⟨q, free, rfl⟩ := (inv₁.exactFree a).mp (List.mem_cons_of_mem _ member)
      refine outside q .free free ?_ _ (first_word s₁ q)
      rintro rfl
      exact distinct.1 (node ▸ member)
    · exact distinct.2
    · intro a
      constructor
      · intro member
        obtain ⟨q, free, rfl⟩ := (inv₁.exactFree a).mp (List.mem_cons_of_mem _ member)
        refine ⟨q, (states' _ _).mpr (.inr ⟨?_, free⟩), rfl⟩
        rintro rfl
        exact distinct.1 (node ▸ member)
      · rintro ⟨q, free, rfl⟩
        rcases (states' _ _).mp free with ⟨_, impossible⟩ | ⟨different, free⟩
        · cases impossible
        · have member := (inv₁.exactFree _).mpr ⟨q, free, rfl⟩
          rcases List.mem_cons.mp member with same | later
          · rw [node] at same
            have equal : q = p := by omega
            exact absurd equal different
          · exact later
    · exact inv₁.cursor_setPage here entry (by decide) (by decide)
    · have counted := count_setPage here entry .used .used
      simp only [reduceCtorEq, ↓reduceIte, Nat.add_zero] at counted
      have before := inv₁.used
      have after : s'.usedPages = s₁.usedPages + 1 := rfl
      have same : s'.count .used = (s₁.setPage (t, i) .used).count .used := rfl
      omega
    · exact inv₁.total.trans (congrArg List.sum (numPages_setPage _ _)).symm
  · constructor
    · exact filled.hhdm
    · exact filled.total
    · exact congrArg (· + 1) filled.usedPages
    · obtain ⟨state, before, later⟩ := filled.back p .free page
      exact ⟨state, before, fun used => by cases later.used_iff.mpr used⟩
    · intro q
      constructor
      · rintro ⟨state, after⟩
        rcases (states' _ _).mp after with ⟨rfl, _⟩ | ⟨_, before⟩
        · obtain ⟨state, before, _⟩ := filled.back q .free page
          exact ⟨state, before⟩
        · obtain ⟨state, before, _⟩ := filled.back q state before
          exact ⟨state, before⟩
      · rintro ⟨state, before⟩
        by_cases same : q = p
        · exact ⟨.used, (states' _ _).mpr (.inl ⟨same, rfl⟩)⟩
        · obtain ⟨state', after, _⟩ := filled.forth q state before
          exact ⟨state', (states' _ _).mpr (.inr ⟨same, after⟩)⟩
    · intro q
      rw [states', ← filled.used_iff]
      constructor
      · rintro (⟨same, _⟩ | ⟨_, before⟩)
        · exact .inl same
        · exact .inr before
      · rintro (same | before)
        · exact .inl ⟨same, rfl⟩
        · refine .inr ⟨?_, before⟩
          rintro rfl
          cases inv₁.layout.page_unique page before
    · intro a inP
      refine Memory.clear_inside ?_ ?_
      · rw [node, filled.hhdm]
        exact inP.1
      · rw [node, filled.hhdm]
        exact inP.2
    · intro q usedQ a inQ
      have usedQ₁ := (filled.used_iff q).mpr usedQ
      have different : q ≠ p := by
        rintro rfl
        cases inv₁.layout.page_unique page usedQ₁
      have inQ₁ : InFrame s₁ q a := by
        unfold InFrame
        rw [filled.hhdm]
        exact inQ
      rw [outside q .used usedQ₁ different a inQ₁]
      apply filled.mem
      rintro r uninit rfl
      have same := frame_apart inv.layout usedQ uninit inQ (first_word s r)
      subst same
      cases inv.layout.page_unique usedQ uninit

theorem Inv.used_le (inv : Inv s list) : s.usedPages ≤ s.totalPages := by
  have counts := inv.layout.counts
  rw [← inv.total, ← inv.used] at counts
  omega

/-- There are no more pages than the counter says. -/
theorem Inv.pages_le (inv : Inv s list) {l : List Nat} (distinct : l.Nodup)
    (pages : ∀ p ∈ l, ∃ state, PageIs s p state) : l.length ≤ s.totalPages := by
  have all : l ⊆ s.tables.flatMap (fun c => (List.range c.numPages).map (fun i => c.start + pageSize * i)) := by
    intro p member
    obtain ⟨state, t, c, i, here, entry, rfl⟩ := pages p member
    have inside := inv.layout.entry here entry
    exact List.mem_flatMap.mpr ⟨c, List.mem_of_getElem? here,
      List.mem_map.mpr ⟨i, List.mem_range.mpr inside, rfl⟩⟩
  have bound := (distinct.subperm all).length_le
  rw [List.length_flatMap] at bound
  simp only [List.length_map, List.length_range] at bound
  rw [inv.total]
  exact bound

/-- allocate_page() fails only when every page is in use. -/
theorem allocatePage_outcome (inv : Inv s list) :
    (∃ p s' list', allocatePage s = .ok (p, s') ∧ Inv s' list' ∧ Allocated s p s') ∨
      (allocatePage s = .error .outOfMemory ∧ s.usedPages = s.totalPages) := by
  by_cases left : ∃ p state, PageIs s p state ∧ state ≠ .used
  · exact .inl (allocatePage_spec inv left)
  · have full : ∀ p state, PageIs s p state → state = .used := by
      intro p state page
      by_contra other
      exact left ⟨p, state, page, other⟩
    refine .inr ⟨allocatePage_full inv full, ?_⟩
    have none : ∀ state, state ≠ .used → s.count state = 0 := fun state other =>
      count_eq_zero.mpr (fun p page => other (full p state page))
    have counts := inv.layout.counts
    rw [none .uninit (by decide), none .free (by decide), ← inv.total, ← inv.used] at counts
    omega

/-- What free_page(p) does to a page in use: it becomes free, and only its first word
changes. -/
structure Freed (s : Phys) (p : Nat) (s' : Phys) : Prop where
  hhdm : s'.hhdmOffset = s.hhdmOffset
  total : s'.totalPages = s.totalPages
  usedPages : s'.usedPages + 1 = s.usedPages
  pages : ∀ q state, PageIs s' q state ↔ (q = p ∧ state = .free) ∨ (q ≠ p ∧ PageIs s q state)
  mem : ∀ a, a ≠ p + s.hhdmOffset → s'.mem a = s.mem a

theorem freePage_spec (inv : Inv s list) (page : PageIs s p .used) :
    ∃ s', freePage s p = .ok s' ∧ Inv s' ((p + s.hhdmOffset) :: list) ∧ Freed s p s' := by
  have bounds := inv.layout.page_bounds page
  have absent := inv.not_listed page (by decide)
  obtain ⟨t, c, i, here, entry, address⟩ := page
  have page : PageIs s p .used := ⟨t, c, i, here, entry, address⟩
  obtain ⟨found, current⟩ := getPageInfo_eq inv.layout here entry
  have states := pageIs_setPage inv.layout here entry .free
  rw [← address] at found states
  let s' : Phys := { s.setPage (t, i) .free with
    usedPages := s.usedPages - 1, mem := s.mem.store (p + s.hhdmOffset) s.freelistHead
    freelistHead := p + s.hhdmOffset }
  have result : freePage s p = .ok s' := by
    have node : wadd p s.hhdmOffset = p + s.hhdmOffset := wadd_eq (by omega)
    simp only [freePage, found, current, node, s']
    rfl
  have states' : ∀ q state, PageIs s' q state ↔ (q = p ∧ state = .free) ∨ (q ≠ p ∧ PageIs s q state) :=
    states
  have counted := count_setPage here entry .free .used
  simp only [reduceCtorEq, ↓reduceIte, Nat.add_zero] at counted
  have before := inv.used
  have after : s'.usedPages = s.usedPages - 1 := rfl
  have same : s'.count .used = (s.setPage (t, i) .free).count .used := rfl
  refine ⟨s', result, ?_, rfl, rfl, by omega, states', fun a other => Memory.store_other _ other⟩
  constructor
  · exact inv.layout.setPage _ _
  · exact inv.threaded.push (by omega) absent
  · exact List.nodup_cons.mpr ⟨absent, inv.nodup⟩
  · intro a
    rw [List.mem_cons, inv.exactFree]
    constructor
    · rintro (rfl | ⟨q, free, rfl⟩)
      · exact ⟨p, (states' _ _).mpr (.inl ⟨rfl, rfl⟩), rfl⟩
      · refine ⟨q, (states' _ _).mpr (.inr ⟨?_, free⟩), rfl⟩
        rintro rfl
        cases inv.layout.page_unique page free
    · rintro ⟨q, free, rfl⟩
      rcases (states' _ _).mp free with ⟨rfl, _⟩ | ⟨_, free⟩
      · exact .inl rfl
      · exact .inr ⟨q, free, rfl⟩
  · exact inv.cursor_setPage here entry (by decide) (by decide)
  · omega
  · exact inv.total.trans (congrArg List.sum (numPages_setPage _ _)).symm

/-- Clients that write to used pages only do not disturb the allocator. -/
theorem Inv.write (inv : Inv s list) {mem : Memory}
    (own : ∀ a, (∀ q, PageIs s q .used → ¬ InFrame s q a) → mem a = s.mem a) :
    Inv { s with mem := mem } list := by
  refine ⟨inv.layout, inv.threaded.congr ?_, inv.nodup, inv.exactFree, inv.cursor, inv.used, inv.total⟩
  intro a member
  obtain ⟨p, free, rfl⟩ := (inv.exactFree a).mp member
  apply own
  intro q usedQ inQ
  have same := frame_apart inv.layout free usedQ (first_word s p) inQ
  subst same
  cases inv.layout.page_unique free usedQ

end Calls

end EvalynOS.Pmm
