import EvalynOS.Memory.Pmm

/-! Pages by address: where get_page_info finds them, what an update of one entry does
to the others, and how many pages are in each state. -/
namespace EvalynOS.Pmm
open Lib Lib.Word

/-- A table and the pages it describes. -/
structure ChildTable.Sound (hhdmOffset : Nat) (c : ChildTable) : Prop where
  aligned : pageSize ∣ c.start
  positive : 0 < c.start
  ends : c.endAddr = c.start + pageSize * c.numPages
  mapped : c.endAddr + hhdmOffset < 2 ^ 64
  physical : c.endAddr < 2 ^ 52
  length : c.pages.length = c.numPages

/-- Two tables leave a gap between their pages, where the upper one's table is. -/
def Gap (a b : ChildTable) : Prop := a.endAddr < b.start ∨ b.endAddr < a.start

structure Layout (hhdmOffset : Nat) (tables : List ChildTable) : Prop where
  sound : ∀ c ∈ tables, c.Sound hhdmOffset
  apart : tables.Pairwise Gap

/-- The page at a physical address is in the given state. -/
def PageIs (s : Phys) (p : Nat) (state : PageState) : Prop :=
  ∃ (t : Nat) (c : ChildTable) (i : Nat), s.tables[t]? = some c ∧ c.pages[i]? = some state ∧ p = c.start + pageSize * i

def Phys.count (s : Phys) (state : PageState) : Nat :=
  (s.tables.map (fun c => c.pages.count state)).sum

section Lookup

variable {hhdmOffset : Nat} {tables : List ChildTable}

theorem Gap.symm {a b : ChildTable} (gap : Gap a b) : Gap b a := Or.symm gap

theorem Layout.gap (layout : Layout hhdmOffset tables) {t u : Nat} {a b : ChildTable}
    (first : tables[t]? = some a) (second : tables[u]? = some b) (different : t ≠ u) : Gap a b := by
  obtain ⟨boundT, rfl⟩ := List.getElem?_eq_some_iff.mp first
  obtain ⟨boundU, rfl⟩ := List.getElem?_eq_some_iff.mp second
  have pairs := List.pairwise_iff_getElem.mp layout.apart
  rcases Nat.lt_or_gt_of_ne different with below | above
  · exact pairs t u boundT boundU below
  · exact (pairs u t boundU boundT above).symm

/-- The pages of two tables differ, and so do two pages of one table. -/
theorem Layout.place_unique (layout : Layout hhdmOffset tables) {t u i j : Nat} {a b : ChildTable}
    (first : tables[t]? = some a) (second : tables[u]? = some b) (insideI : i < a.numPages)
    (insideJ : j < b.numPages) (same : a.start + pageSize * i = b.start + pageSize * j) :
    t = u ∧ i = j := by
  have endsA := (layout.sound a (List.mem_of_getElem? first)).ends
  have endsB := (layout.sound b (List.mem_of_getElem? second)).ends
  simp only [pageSize] at *
  by_cases tableSame : t = u
  · subst tableSame
    cases Option.some.inj (first.symm.trans second)
    exact ⟨rfl, by omega⟩
  · rcases layout.gap first second tableSame with below | above
    · omega
    · omega

theorem index_at {c : ChildTable} {phys : Nat} (sound : c.Sound hhdmOffset) (low : c.start ≤ phys)
    (high : phys < c.endAddr) : wsub (alignDown phys pageSize) c.start / pageSize = (phys - c.start) / pageSize := by
  obtain ⟨k, start⟩ := sound.aligned
  have mapped := sound.mapped
  simp only [pageSize] at *
  have down : alignDown phys 4096 = phys / 4096 * 4096 := by
    have rounded := alignDown_pow (x := phys) (k := 12) (by decide) (by omega)
    simpa only [Nat.reducePow] using rounded
  rw [down, wsub_eq (by omega) (by omega)]
  omega

/-- The search finds the one table that holds the address. -/
theorem findPage_at {t phys n : Nat} {c : ChildTable} (layout : Layout hhdmOffset tables)
    (here : tables[t]? = some c) (low : c.start ≤ phys) (high : phys < c.endAddr) :
    findPage phys n tables = .ok (some (n + t, (phys - c.start) / pageSize)) := by
  induction tables generalizing t n with
  | nil => cases here
  | cons d tables ih =>
    cases t with
    | zero =>
      have same : d = c := Option.some.inj here
      subst same
      have sound := layout.sound d List.mem_cons_self
      have ends := sound.ends
      have within : d.start ≤ phys ∧ phys ≤ d.endAddr := by omega
      have found : ¬ ((phys - d.start) / pageSize ≥ d.numPages) := by
        simp only [pageSize] at *
        omega
      simp only [findPage, if_pos within, index_at sound low high, if_neg found, Nat.add_zero]
    | succ t =>
      have later : tables[t]? = some c := here
      have outside : ¬ (d.start ≤ phys ∧ phys ≤ d.endAddr) := by
        have gap := (List.pairwise_cons.mp layout.apart).1 c (List.mem_of_getElem? later)
        unfold Gap at gap
        omega
      have rest : Layout hhdmOffset tables :=
        ⟨fun e member => layout.sound e (List.mem_cons_of_mem _ member),
          (List.pairwise_cons.mp layout.apart).2⟩
      have tail := ih (n := n + 1) rest later
      simp only [findPage, if_neg outside]
      have place : n + 1 + t = n + (t + 1) := by omega
      rw [tail, place]

/-- The address of a page is that of its entry. -/
theorem findPage_eq {t i n : Nat} {c : ChildTable} (layout : Layout hhdmOffset tables)
    (here : tables[t]? = some c) (inside : i < c.numPages) :
    findPage (c.start + pageSize * i) n tables = .ok (some (n + t, i)) := by
  have ends := (layout.sound c (List.mem_of_getElem? here)).ends
  have index : (c.start + pageSize * i - c.start) / pageSize = i := by
    rw [Nat.add_sub_cancel_left]
    exact Nat.mul_div_cancel_left i (by decide)
  have low : c.start ≤ c.start + pageSize * i := Nat.le_add_right _ _
  have high : c.start + pageSize * i < c.endAddr := by
    simp only [pageSize] at *
    omega
  rw [findPage_at layout here low high, index]

end Lookup

section Pages

variable {s : Phys} {p q t i : Nat} {c : ChildTable} {state other : PageState}

theorem Layout.entry (layout : Layout s.hhdmOffset s.tables) (here : s.tables[t]? = some c)
    (entry : c.pages[i]? = some state) : i < c.numPages := by
  obtain ⟨bound, _⟩ := List.getElem?_eq_some_iff.mp entry
  rwa [(layout.sound c (List.mem_of_getElem? here)).length] at bound

theorem getPageInfo_eq (layout : Layout s.hhdmOffset s.tables) (here : s.tables[t]? = some c)
    (entry : c.pages[i]? = some state) :
    getPageInfo s (c.start + pageSize * i) = .ok (some (t, i)) ∧ s.pageAt (t, i) = some state := by
  refine ⟨?_, by simp [Phys.pageAt, here, entry]⟩
  have found := findPage_eq (n := 0) layout here (layout.entry here entry)
  rwa [Nat.zero_add] at found

theorem Layout.page_bounds (layout : Layout s.hhdmOffset s.tables) (page : PageIs s p state) :
    pageSize ∣ p ∧ 0 < p ∧ p + pageSize + s.hhdmOffset < 2 ^ 64 ∧ p < 2 ^ 52 := by
  obtain ⟨t, c, i, here, entry, rfl⟩ := page
  have sound := layout.sound c (List.mem_of_getElem? here)
  have inside := layout.entry here entry
  have ends := sound.ends
  have mapped := sound.mapped
  have physical := sound.physical
  refine ⟨Nat.dvd_add sound.aligned (Nat.dvd_mul_right _ _), Nat.add_pos_left sound.positive _, ?_⟩
  simp only [pageSize] at *
  omega

theorem Layout.page_unique (layout : Layout s.hhdmOffset s.tables) (one : PageIs s p state)
    (two : PageIs s p other) : state = other := by
  obtain ⟨t, c, i, here, entry, rfl⟩ := one
  obtain ⟨u, d, j, there, entry', same⟩ := two
  obtain ⟨rfl, rfl⟩ := layout.place_unique here there (layout.entry here entry)
    (layout.entry there entry') same
  cases Option.some.inj (here.symm.trans there)
  exact Option.some.inj (entry.symm.trans entry')

/-- Different pages share no word. -/
theorem Layout.page_apart (layout : Layout s.hhdmOffset s.tables) (one : PageIs s p state)
    (two : PageIs s q other) {a : Nat} (inP : p ≤ a ∧ a < p + pageSize)
    (inQ : q ≤ a ∧ a < q + pageSize) : p = q := by
  obtain ⟨k, rfl⟩ := (layout.page_bounds one).1
  obtain ⟨l, rfl⟩ := (layout.page_bounds two).1
  simp only [pageSize] at *
  omega

/-! Changing one entry. -/

theorem tables_setPage (s : Phys) (t i : Nat) (state : PageState) (u : Nat) :
    (s.setPage (t, i) state).tables[u]? = (s.tables[u]?).map (fun c =>
      if u = t then { c with pages := c.pages.set i state } else c) := by
  simp only [Phys.setPage, List.getElem?_modify]
  cases s.tables[u]? with
  | none => simp
  | some c =>
    by_cases same : t = u
    · simp [same]
    · simp [same, Ne.symm same]

theorem Layout.setPage (layout : Layout s.hhdmOffset s.tables) (info : Nat × Nat) (state : PageState) :
    Layout s.hhdmOffset (s.setPage info state).tables := by
  have shapes : ∀ (u : Nat) (d : ChildTable), (s.setPage info state).tables[u]? = some d →
      ∃ c : ChildTable, s.tables[u]? = some c ∧ d.start = c.start ∧
      d.endAddr = c.endAddr ∧ d.numPages = c.numPages ∧ d.pages.length = c.pages.length := by
    intro u d there
    rw [tables_setPage] at there
    obtain ⟨c, before, rfl⟩ := Option.map_eq_some_iff.mp there
    refine ⟨c, before, ?_⟩
    split
    · exact ⟨rfl, rfl, rfl, List.length_set⟩
    · exact ⟨rfl, rfl, rfl, rfl⟩
  constructor
  · intro d member
    obtain ⟨u, there⟩ := List.mem_iff_getElem?.mp member
    obtain ⟨c, before, start, ends, count, length⟩ := shapes u d there
    have sound := layout.sound c (List.mem_of_getElem? before)
    exact ⟨start ▸ sound.aligned, start ▸ sound.positive, by rw [ends, start, count, sound.ends],
      ends ▸ sound.mapped, ends ▸ sound.physical, by rw [length, count, sound.length]⟩
  · rw [List.pairwise_iff_getElem]
    intro u v boundU boundV below
    obtain ⟨c, before, start, ends, _⟩ := shapes u _ (List.getElem?_eq_getElem boundU)
    obtain ⟨d, after, start', ends', _⟩ := shapes v _ (List.getElem?_eq_getElem boundV)
    have gap := layout.gap before after (Nat.ne_of_lt below)
    unfold Gap at gap ⊢
    rwa [start, ends, start', ends']

/-- An entry after the change is the changed one, or it was there before. -/
theorem entry_setPage {u j : Nat} {d : ChildTable} {new : PageState}
    (there : (s.setPage (t, i) new).tables[u]? = some d) (entry : d.pages[j]? = some other) :
    ∃ e, s.tables[u]? = some e ∧ d.start = e.start ∧
      ((u = t ∧ j = i ∧ other = new) ∨ (¬ (u = t ∧ j = i) ∧ e.pages[j]? = some other)) := by
  rw [tables_setPage] at there
  obtain ⟨e, before, rfl⟩ := Option.map_eq_some_iff.mp there
  by_cases table : u = t
  · subst table
    rw [if_pos rfl] at entry ⊢
    refine ⟨e, before, rfl, ?_⟩
    by_cases index : j = i
    · subst index
      obtain ⟨bound, value⟩ := List.getElem?_eq_some_iff.mp entry
      exact .inl ⟨rfl, rfl, by simpa using value.symm⟩
    · refine .inr ⟨fun place => index place.2, ?_⟩
      simpa [List.getElem?_set_ne (Ne.symm index)] using entry
  · rw [if_neg table] at entry ⊢
    exact ⟨e, before, rfl, .inr ⟨fun place => table place.1, entry⟩⟩

theorem pageIs_setPage (layout : Layout s.hhdmOffset s.tables) (here : s.tables[t]? = some c)
    (entry : c.pages[i]? = some state) (new : PageState) (p : Nat) (other : PageState) :
    PageIs (s.setPage (t, i) new) p other ↔
      (p = c.start + pageSize * i ∧ other = new) ∨ (p ≠ c.start + pageSize * i ∧ PageIs s p other) := by
  have inside := layout.entry here entry
  obtain ⟨bound, _⟩ := List.getElem?_eq_some_iff.mp entry
  constructor
  · rintro ⟨u, d, j, there, entry', rfl⟩
    obtain ⟨e, before, start, ⟨rfl, rfl, rfl⟩ | ⟨place, entryOld⟩⟩ := entry_setPage there entry'
    · cases Option.some.inj (here.symm.trans before)
      exact .inl ⟨by rw [start], rfl⟩
    · rw [start]
      refine .inr ⟨fun equal => ?_, u, e, j, before, entryOld, rfl⟩
      exact place (layout.place_unique before here (layout.entry before entryOld) inside equal)
  · rintro (⟨rfl, rfl⟩ | ⟨different, u, e, j, before, entryOld, rfl⟩)
    · refine ⟨t, { c with pages := c.pages.set i other }, i, ?_, by simp [bound], rfl⟩
      simp [tables_setPage, here]
    · by_cases table : u = t
      · subst table
        cases Option.some.inj (here.symm.trans before)
        have index : i ≠ j := by
          rintro rfl
          exact different rfl
        refine ⟨u, { c with pages := c.pages.set i new }, j, ?_, ?_, rfl⟩
        · simp [tables_setPage, here]
        · simp [List.getElem?_set_ne index, entryOld]
      · exact ⟨u, e, j, by simp [tables_setPage, before, table], entryOld, rfl⟩

/-! Counting. -/

theorem sum_modify (f : ChildTable → Nat) (g : ChildTable → ChildTable) {tables : List ChildTable}
    (here : tables[t]? = some c) :
    ((tables.modify t g).map f).sum + f c = (tables.map f).sum + f (g c) := by
  induction tables generalizing t with
  | nil => cases here
  | cons d tables ih =>
    cases t with
    | zero =>
      cases Option.some.inj here
      simp only [List.modify_zero_cons, List.map_cons, List.sum_cons]
      omega
    | succ t =>
      have rest := ih here
      simp only [List.modify_succ_cons, List.map_cons, List.sum_cons]
      omega

theorem count_setPage (here : s.tables[t]? = some c) (entry : c.pages[i]? = some state)
    (new : PageState) (x : PageState) :
    (s.setPage (t, i) new).count x + (if state = x then 1 else 0) =
      s.count x + (if new = x then 1 else 0) := by
  obtain ⟨bound, value⟩ := List.getElem?_eq_some_iff.mp entry
  have sums : (s.setPage (t, i) new).count x + c.pages.count x =
      s.count x + (c.pages.set i new).count x :=
    sum_modify (fun d => d.pages.count x) (fun d => { d with pages := d.pages.set i new }) here
  have change := List.count_set (a := new) (b := x) bound
  rw [value] at change
  have member : state = x → 0 < c.pages.count x := by
    rintro rfl
    exact List.count_pos_iff.mpr (value ▸ List.getElem_mem bound)
  simp only [beq_iff_eq] at change
  split
  · rename_i old
    have positive := member old
    rw [if_pos old] at change
    omega
  · rename_i old
    rw [if_neg old] at change
    omega

/-- Every page is in one of the three states. -/
theorem Layout.counts (layout : Layout s.hhdmOffset s.tables) :
    s.count .uninit + s.count .free + s.count .used = (s.tables.map ChildTable.numPages).sum := by
  have each : ∀ l : List PageState, l.count .uninit + l.count .free + l.count .used = l.length := by
    intro l
    induction l with
    | nil => rfl
    | cons x l ih => cases x <;> simp <;> omega
  have sound := layout.sound
  unfold Phys.count
  generalize s.tables = tables at sound
  induction tables with
  | nil => rfl
  | cons d tables ih =>
    have rest := ih (fun e member => sound e (List.mem_cons_of_mem _ member))
    have length := (sound d List.mem_cons_self).length
    have parts := each d.pages
    simp only [List.map_cons, List.sum_cons]
    omega

theorem numPages_setPage (info : Nat × Nat) (new : PageState) :
    ((s.setPage info new).tables.map ChildTable.numPages) = s.tables.map ChildTable.numPages := by
  apply List.ext_getElem?
  intro u
  rw [List.getElem?_map, List.getElem?_map, tables_setPage, Option.map_map]
  cases s.tables[u]? with
  | none => rfl
  | some d =>
    simp only [Option.map_some, Function.comp]
    split <;> rfl

/-- No page is left in a state whose count is zero, and conversely. -/
theorem count_eq_zero : s.count state = 0 ↔ ∀ p, ¬ PageIs s p state := by
  have sums : ∀ l : List Nat, l.sum = 0 ↔ ∀ n ∈ l, n = 0 := by
    intro l
    induction l with
    | nil => simp
    | cons n l ih => simp [ih]
  unfold Phys.count
  rw [sums]
  constructor
  · rintro zero p ⟨t, c, i, here, entry, _⟩
    have none := zero _ (List.mem_map_of_mem (List.mem_of_getElem? here))
    exact List.count_eq_zero.mp none (List.mem_of_getElem? entry)
  · intro none n member
    obtain ⟨c, tables, rfl⟩ := List.mem_map.mp member
    obtain ⟨t, here⟩ := List.mem_iff_getElem?.mp tables
    rw [List.count_eq_zero]
    intro inside
    obtain ⟨i, entry⟩ := List.mem_iff_getElem?.mp inside
    exact none _ ⟨t, c, i, here, entry, rfl⟩

end Pages

end EvalynOS.Pmm
