import EvalynOS.Memory.VmmFresh

/-! The tables of the kernel by level. All address spaces share them, so they are not the
tree of one of them; what holds is that an entry of one level leads to a table of the
next, and that a page serves at one level only. -/
namespace EvalynOS.Vmm
open Lib Lib.Word Pmm

/- The level of the table in a page: 4 for a top level, 1 for a table of leaf entries. -/
abbrev Levels := Nat → Option Nat

/- An entry that the processor takes for a large page. -/
def isLarge (entry : Nat) : Bool := isPresent entry && entry.testBit 7

structure Typed (s : Phys) (level : Levels) : Prop where
  used : ∀ q n, level q = some n → PageIs s q .used
  next : ∀ q n i t, level q = some (n + 2) → i < 512 → isLarge (pte s (q + s.hhdmOffset) i) = false →
    child s (q + s.hhdmOffset) i = some t → ∃ r, level r = some (n + 1) ∧ t = r + s.hhdmOffset
  tops : ∀ q i, level q = some 4 → i < 512 → isLarge (pte s (q + s.hhdmOffset) i) = false

/-- What work on the kernel's tables leaves alone: the pages in use that are no tables, and
at the levels from `lowest` on the entries that are present. There it makes no entry for
a large page. New tables are pages that were not in use. -/
structure Grown (s s' : Phys) (level level' : Levels) (lowest : Nat) : Prop where
  hhdm : s'.hhdmOffset = s.hhdmOffset
  total : s'.totalPages = s.totalPages
  pages : Pages s s'
  used : ∀ q, PageIs s q .used → PageIs s' q .used
  levels : ∀ q n, level q = some n → level' q = some n
  fresh : ∀ q n, level' q = some n → level q = some n ∨ ¬ PageIs s q .used
  mem : ∀ q, PageIs s q .used → level q = none → ∀ a, InFrame s q a → s'.mem a = s.mem a
  kept : ∀ q n i, level q = some n → lowest ≤ n → i < 512 →
    isPresent (pte s (q + s.hhdmOffset) i) = true →
    pte s' (q + s.hhdmOffset) i = pte s (q + s.hhdmOffset) i
  large : ∀ q n i, level' q = some n → lowest ≤ n → i < 512 →
    isLarge (pte s' (q + s.hhdmOffset) i) = true →
    level q = some n ∧ pte s' (q + s.hhdmOffset) i = pte s (q + s.hhdmOffset) i

section Grow

variable {s s' s'' : Phys} {level level' level'' : Levels} {lowest : Nat}

theorem Grown.refl (s : Phys) (level : Levels) (lowest : Nat) : Grown s s level level lowest where
  hhdm := rfl
  total := rfl
  pages := fun _ page => page
  used := fun _ used => used
  levels := fun _ _ here => here
  fresh := fun _ _ here => .inl here
  mem := fun _ _ _ _ _ => rfl
  kept := fun _ _ _ _ _ _ _ => rfl
  large := fun _ _ _ here _ _ _ => ⟨here, rfl⟩

theorem Grown.mono (grown : Grown s s' level level' lowest) {higher : Nat} (order : lowest ≤ higher) :
    Grown s s' level level' higher where
  hhdm := grown.hhdm
  total := grown.total
  pages := grown.pages
  used := grown.used
  levels := grown.levels
  fresh := grown.fresh
  mem := grown.mem
  kept := fun q n i here above => grown.kept q n i here (order.trans above)
  large := fun q n i here above => grown.large q n i here (order.trans above)

theorem Grown.trans (one : Grown s s' level level' lowest) (two : Grown s' s'' level' level'' lowest) :
    Grown s s'' level level'' lowest where
  hhdm := two.hhdm.trans one.hhdm
  total := two.total.trans one.total
  pages := fun q page => one.pages q (two.pages q page)
  used := fun q used => two.used q (one.used q used)
  levels := fun q n here => two.levels q n (one.levels q n here)
  fresh := by
    intro q n here
    rcases two.fresh q n here with before | unused
    · exact one.fresh q n before
    · exact .inr (fun used => unused (one.used q used))
  mem := by
    intro q used untyped a inQ
    have untyped' : level' q = none := by
      cases here : level' q with
      | none => rfl
      | some n =>
        rcases one.fresh q n here with before | unused
        · rw [untyped] at before
          cases before
        · exact absurd used unused
    rw [← one.mem q used untyped a inQ]
    exact two.mem q (one.used q used) untyped' a (by unfold InFrame; rw [one.hhdm]; exact inQ)
  kept := by
    intro q n i here above bound present
    have first := one.kept q n i here above bound present
    have second := two.kept q n i (one.levels q n here) above bound
    rw [one.hhdm, first] at second
    exact second present
  large := by
    intro q n i here above bound isLarge
    have second := two.large q n i here above bound
    rw [one.hhdm] at second
    obtain ⟨here', same⟩ := second isLarge
    rw [same] at isLarge ⊢
    exact one.large q n i here' above bound isLarge

end Grow

section Store

variable {s : Phys} {level : Levels} {list : List Nat} {q n i value : Nat}

theorem child_eq (s : Phys) (t i : Nat) :
    child s t i = if isPresent (pte s t i) then some (tableOf s (pte s t i)) else none := rfl

/-- An entry is written into a table of level `n`. -/
theorem Typed.store (layout : Layout s.hhdmOffset s.tables) (typed : Typed s level) (here : level q = some n)
    (bound : i < 512) (plain : n = 4 → isLarge value = false)
    (leads : ∀ m, n = m + 2 → isPresent value = true → isLarge value = false →
      ∃ r, level r = some (m + 1) ∧ tableOf s value = r + s.hhdmOffset) :
    Typed (setPte s (q + s.hhdmOffset) i value) level := by
  have other : ∀ r m j, level r = some m → j < 512 → ¬ (r = q ∧ j = i) →
      pte (setPte s (q + s.hhdmOffset) i value) (r + s.hhdmOffset) j = pte s (r + s.hhdmOffset) j :=
    fun r m j typedR boundJ different =>
      pte_setPte_other layout (typed.used r m typedR) (typed.used q n here) boundJ bound different
  refine ⟨typed.used, ?_, ?_⟩
  · intro r m j t typedR boundJ small link
    by_cases same : r = q ∧ j = i
    · obtain ⟨rfl, rfl⟩ := same
      cases Option.some.inj (here.symm.trans typedR)
      change isLarge (pte (setPte s (r + s.hhdmOffset) j value) (r + s.hhdmOffset) j) = false at small
      rw [pte_setPte] at small
      change child (setPte s (r + s.hhdmOffset) j value) (r + s.hhdmOffset) j = some t at link
      rw [child_eq, pte_setPte] at link
      split at link
      · rename_i present
        obtain ⟨u, typedU, address⟩ := leads m rfl present small
        exact ⟨u, typedU, (Option.some.inj link).symm.trans address⟩
      · cases link
    · have kept := other r _ j typedR boundJ same
      change isLarge (pte (setPte s (q + s.hhdmOffset) i value) (r + s.hhdmOffset) j) = false at small
      rw [kept] at small
      have sameChild : child (setPte s (q + s.hhdmOffset) i value) (r + s.hhdmOffset) j =
          child s (r + s.hhdmOffset) j := by
        apply child_congr _ kept
        rfl
      have before : child s (r + s.hhdmOffset) j = some t := sameChild.symm.trans link
      exact typed.next r m j t typedR boundJ small before
  · intro r j typedR boundJ
    by_cases same : r = q ∧ j = i
    · obtain ⟨rfl, rfl⟩ := same
      change isLarge (pte (setPte s (r + s.hhdmOffset) j value) (r + s.hhdmOffset) j) = false
      rw [pte_setPte]
      exact plain (Option.some.inj (here.symm.trans typedR))
    · change isLarge (pte (setPte s (q + s.hhdmOffset) i value) (r + s.hhdmOffset) j) = false
      rw [other r _ j typedR boundJ same]
      exact typed.tops r j typedR boundJ

theorem Grown.store (layout : Layout s.hhdmOffset s.tables) (typed : Typed s level) (here : level q = some n)
    (bound : i < 512) {lowest : Nat}
    (absent : lowest ≤ n → isPresent (pte s (q + s.hhdmOffset) i) = false ∧ isLarge value = false) :
    Grown s (setPte s (q + s.hhdmOffset) i value) level level lowest where
  hhdm := rfl
  total := rfl
  pages := fun _ page => page
  used := fun _ used => used
  levels := fun _ _ known => known
  fresh := fun _ _ known => .inl known
  mem := by
    intro r used untyped a inR
    apply Memory.store_other
    rintro rfl
    have same := frame_apart layout used (typed.used q n here) inR (slot_inFrame s q bound)
    rw [same, here] at untyped
    cases untyped
  kept := by
    intro r m j typedR above boundJ present
    apply pte_setPte_other layout (typed.used r m typedR) (typed.used q n here) boundJ bound
    rintro ⟨rfl, rfl⟩
    cases Option.some.inj (here.symm.trans typedR)
    rw [(absent above).1] at present
    cases present
  large := by
    intro r m j typedR above boundJ isLarge
    refine ⟨typedR, ?_⟩
    apply pte_setPte_other layout (typed.used r m typedR) (typed.used q n here) boundJ bound
    rintro ⟨rfl, rfl⟩
    cases Option.some.inj (here.symm.trans typedR)
    rw [pte_setPte, (absent above).2] at isLarge
    cases isLarge

end Store

section Enter

variable {s s₁ : Phys} {level : Levels} {list list₁ : List Nat} {p q n i : Nat}

theorem Typed.untyped (typed : Typed s level) (unused : ¬ PageIs s p .used) : level p = none := by
  cases here : level p with
  | none => rfl
  | some n => exact absurd (typed.used p n here) unused

/-- A page just allocated becomes an empty table. -/
theorem Typed.enter (inv : Inv s list) (typed : Typed s level) (allocated : Allocated s p s₁) (n : Nat) :
    Typed s₁ (Function.update level p (some n)) ∧
      (∀ lowest, Grown s s₁ level (Function.update level p (some n)) lowest) ∧
      ∀ j < 512, pte s₁ (p + s.hhdmOffset) j = 0 := by
  obtain ⟨state, page, unused⟩ := allocated.fresh
  have notUsed : ¬ PageIs s p .used := fun used => unused (inv.layout.page_unique page used)
  have hhdm := allocated.hhdm
  have zero : ∀ j < 512, pte s₁ (p + s.hhdmOffset) j = 0 := fun j bound =>
    allocated.zero _ (slot_inFrame s p bound)
  have notLarge : isLarge 0 = false := by decide
  have old : ∀ r m, Function.update level p (some n) r = some m → r ≠ p → level r = some m := by
    intro r m known different
    rwa [Function.update_of_ne different] at known
  have same : ∀ r m j, level r = some m → j < 512 →
      pte s₁ (r + s.hhdmOffset) j = pte s (r + s.hhdmOffset) j := fun r m j known bound =>
    allocated.frame r (typed.used r m known) _ (slot_inFrame s r bound)
  have grows : ∀ r m, level r = some m → Function.update level p (some n) r = some m := by
    intro r m known
    rw [Function.update_of_ne]
    · exact known
    · rintro rfl
      exact notUsed (typed.used r m known)
  refine ⟨⟨?_, ?_, ?_⟩, ?_, zero⟩
  · intro r m known
    by_cases isNew : r = p
    · exact (allocated.owned r).mpr (.inl isNew)
    · exact (allocated.owned r).mpr (.inr (typed.used r m (old r m known isNew)))
  · intro r m j t known bound small link
    rw [hhdm] at small link ⊢
    by_cases isNew : r = p
    · rw [isNew, child_eq, zero j bound, isPresent_zero] at link
      cases link
    · have before := old r _ known isNew
      rw [same r _ j before bound] at small
      rw [child_congr hhdm (same r _ j before bound)] at link
      obtain ⟨u, typedU, address⟩ := typed.next r m j t before bound small link
      exact ⟨u, grows u _ typedU, address⟩
  · intro r j known bound
    rw [hhdm]
    by_cases isNew : r = p
    · rw [isNew, zero j bound, notLarge]
    · have before := old r _ known isNew
      rw [same r _ j before bound]
      exact typed.tops r j before bound
  · intro lowest
    refine ⟨hhdm, allocated.total, fun r => (allocated.pages r).mp,
      fun r used => (allocated.owned r).mpr (.inr used), grows, ?_, fun r used _ => allocated.frame r used, ?_, ?_⟩
    · intro r m known
      by_cases isNew : r = p
      · exact .inr (isNew ▸ notUsed)
      · exact .inl (old r m known isNew)
    · exact fun r m j known _ bound _ => same r m j known bound
    · intro r m j known _ bound large
      by_cases isNew : r = p
      · rw [isNew, zero j bound, notLarge] at large
        cases large
      · have before := old r m known isNew
        exact ⟨before, same r m j before bound⟩

/-- The result of making sure of the table behind an entry: either it was there, or it is
empty. -/
structure Stepped (s s' : Phys) (level level' : Levels) (t i r n : Nat) : Prop where
  typed : Typed s' level'
  grown : Grown s s' level level' 0
  reached : level' r = some n
  entry : child s' t i = some (r + s.hhdmOffset)
  small : isLarge (pte s' t i) = false
  origin : s' = s ∨ (isPresent (pte s t i) = false ∧ ∀ j < 512, pte s' (r + s.hhdmOffset) j = 0)
  cost : s'.usedPages ≤ s.usedPages + 1

theorem ensureTable_typed (inv : Inv s list) (typed : Typed s level) (here : level q = some (n + 2))
    (bound : i < 512) (small : isLarge (pte s (q + s.hhdmOffset) i) = false) :
    (∃ s' list' level' r, ensureTable s (q + s.hhdmOffset) i = .ok s' ∧ Inv s' list' ∧
      Stepped s s' level level' (q + s.hhdmOffset) i r (n + 1)) ∨
    (ensureTable s (q + s.hhdmOffset) i = .error .outOfMemory ∧ s.usedPages = s.totalPages) := by
  by_cases present : isPresent (pte s (q + s.hhdmOffset) i) = true
  · have link : child s (q + s.hhdmOffset) i = some (tableOf s (pte s (q + s.hhdmOffset) i)) := by
      rw [child_eq, if_pos present]
    obtain ⟨r, typedR, address⟩ := typed.next q n i _ here bound small link
    rw [address] at link
    refine .inl ⟨s, list, level, r, by simp only [ensureTable, if_pos present], inv, ?_⟩
    exact ⟨typed, Grown.refl s level 0, typedR, link, small, .inl rfl, Nat.le_succ _⟩
  · have absent : isPresent (pte s (q + s.hhdmOffset) i) = false := by simpa using present
    rcases allocatePage_outcome inv with ⟨p, s₁, list₁, returned, inv₁, allocated⟩ | ⟨failed, full⟩
    · obtain ⟨typed₁, grown₁, zero⟩ := typed.enter inv allocated (n + 1)
      obtain ⟨state, page, unused⟩ := allocated.fresh
      obtain ⟨aligned, _, mapped, physical⟩ := inv.layout.page_bounds page
      have hhdm := allocated.hhdm
      have usedP : PageIs s₁ p .used := (allocated.owned p).mpr (.inl rfl)
      have here₁ : Function.update level p (some (n + 1)) q = some (n + 2) := (grown₁ 0).levels q _ here
      have usedQ : PageIs s q .used := typed.used q _ here
      have different : ¬ p = q := by
        rintro rfl
        exact unused (inv.layout.page_unique page usedQ)
      have presentNew : isPresent (p ||| 7) = true := by
        rw [isPresent_eq, entry_bit aligned physical (by decide)]
        rfl
      have smallNew : isLarge (p ||| 7) = false := by
        unfold isLarge
        rw [entry_bit aligned physical (by decide), Bool.and_eq_false_iff]
        exact .inr (by decide)
      have address : tableOf s₁ (p ||| 7) = p + s₁.hhdmOffset := by
        unfold tableOf
        rw [entry_mask aligned physical (by decide), wadd_eq (by omega)]
      have absent₁ : isPresent (pte s₁ (q + s₁.hhdmOffset) i) = false := by
        rw [hhdm]
        have same : pte s₁ (q + s.hhdmOffset) i = pte s (q + s.hhdmOffset) i :=
          allocated.frame q usedQ _ (slot_inFrame s q bound)
        rwa [same]
      have typed₂ := typed₁.store inv₁.layout here₁ bound (fun _ => smallNew) (fun m isLevel _ _ =>
        ⟨p, by cases isLevel; exact Function.update_self .., address⟩)
      have grown₂ : Grown s₁ (setPte s₁ (q + s₁.hhdmOffset) i (p ||| 7)) _ _ 0 :=
        Grown.store inv₁.layout typed₁ here₁ bound (fun _ => ⟨absent₁, smallNew⟩)
      refine .inl ⟨setPte s₁ (q + s.hhdmOffset) i (p ||| 7), list₁, _, p, ?_, ?_, hhdm ▸ typed₂,
        (grown₁ 0).trans (hhdm ▸ grown₂), Function.update_self .., ?_, ?_, .inr ⟨absent, ?_⟩, ?_⟩
      · have masked := page_mask aligned physical
        simp only [ensureTable, if_neg present, returned, bind, Except.bind, masked, setPte_setPte, pte_setPte]
        rfl
      · have written := inv_setPte inv₁ ((allocated.owned q).mpr (.inr usedQ)) bound (p ||| 7)
        rwa [hhdm] at written
      · rw [child_eq, pte_setPte, if_pos presentNew]
        exact congrArg some (address.trans (by rw [hhdm]))
      · rw [pte_setPte]
        exact smallNew
      · intro j boundJ
        have other := @pte_setPte_other s₁ q p i j _ _ inv₁.layout usedP
          ((allocated.owned q).mpr (.inr usedQ)) boundJ bound (p ||| 7) (fun same => different same.1)
        rw [hhdm] at other
        rw [other]
        exact zero j boundJ
      · exact Nat.le_of_eq allocated.usedPages
    · exact .inr ⟨by simp only [ensureTable, if_neg present, failed, bind, Except.bind], full⟩

end Enter

/-- The processor translates the address with a large page, so that the walk of
vmm_map_page would take that page for a table. -/
def inLargePage (s : Phys) (top v : Nat) : Bool :=
  let e4 := pte s top (pml4i v)
  let e3 := pte s (tableOf s e4) (pml3i v)
  let e2 := pte s (tableOf s e3) (pml2i v)
  isPresent e4 && (isLarge e3 || (isPresent e3 && isLarge e2))

section Map

variable {s s' : Phys} {level level' : Levels} {list : List Nat} {q v t i r n : Nat}

theorem isLarge_zero : isLarge 0 = false := by decide

theorem child_present (link : child s t i = some r) : isPresent (pte s t i) = true := by
  rw [child_eq] at link
  split at link
  · rename_i present
    exact present
  · cases link

theorem Grown.child {lowest : Nat} (grown : Grown s s' level level' lowest) (here : level q = some n)
    (above : lowest ≤ n) (bound : i < 512) (link : child s (q + s.hhdmOffset) i = some t) :
    child s' (q + s.hhdmOffset) i = some t := by
  rw [child_congr grown.hhdm (grown.kept q n i here above bound (child_present link))]
  exact link

theorem Stepped.small_next (stepped : Stepped s s' level level' t i r n) {j : Nat} (bound : j < 512)
    (old : s' = s → isLarge (pte s (r + s.hhdmOffset) j) = false) :
    isLarge (pte s' (r + s'.hhdmOffset) j) = false := by
  rcases stepped.origin with rfl | ⟨_, zero⟩
  · exact old rfl
  · rw [stepped.grown.hhdm, zero j bound, isLarge_zero]

/-- The result of making sure of the two upper tables of an address. -/
structure Walked (s s' : Phys) (level level' : Levels) (q v r : Nat) : Prop where
  typed : Typed s' level'
  grown : Grown s s' level level' 0
  reached : level' r = some 2
  path : descend (child s') (q + s.hhdmOffset) [pml4i v, pml3i v] = some (r + s.hhdmOffset)
  origin : s' = s ∨ ∀ j < 512, pte s' (r + s.hhdmOffset) j = 0
  cost : s'.usedPages ≤ s.usedPages + 2

/- The two calls of the upper levels, and where they lead. -/
def upperTables (s : Phys) (top v : Nat) : Except Panic (Phys × Nat) := do
  let s ← ensureTable s top (pml4i v)
  let pml3v := tableOf s (pte s top (pml4i v))
  let s ← ensureTable s pml3v (pml3i v)
  .ok (s, tableOf s (pte s pml3v (pml3i v)))

theorem upperTables_typed (inv : Inv s list) (typed : Typed s level) (here : level q = some 4)
    (small : ∀ t, child s (q + s.hhdmOffset) (pml4i v) = some t → isLarge (pte s t (pml3i v)) = false) :
    (∃ s' list' level' r, upperTables s (q + s.hhdmOffset) v = .ok (s', r + s.hhdmOffset) ∧ Inv s' list' ∧
      Walked s s' level level' q v r) ∨
    (upperTables s (q + s.hhdmOffset) v = .error .outOfMemory ∧ s.totalPages < s.usedPages + 2) := by
  obtain ⟨_, _, bound3, bound4⟩ := pml_lt v
  unfold upperTables
  rcases ensureTable_typed inv typed here bound4 (typed.tops q _ here bound4) with
    ⟨s₁, list₁, level₁, r₃, ran₁, inv₁, one⟩ | ⟨failed, full⟩
  · have hhdm₁ := one.grown.hhdm
    have small₁ : isLarge (pte s₁ (r₃ + s₁.hhdmOffset) (pml3i v)) = false := by
      apply one.small_next bound3
      rintro rfl
      exact small _ one.entry
    simp only [ran₁, child_some one.entry, bind, Except.bind]
    rcases ensureTable_typed inv₁ one.typed one.reached bound3 small₁ with
      ⟨s₂, list₂, level₂, r₂, ran₂, inv₂, two⟩ | ⟨failed, full⟩
    · left
      rw [hhdm₁] at ran₂
      have entry₂ := two.entry
      rw [hhdm₁] at entry₂
      simp only [ran₂, child_some entry₂]
      refine ⟨s₂, list₂, level₂, r₂, rfl, inv₂, two.typed, one.grown.trans two.grown, two.reached, ?_, ?_, ?_⟩
      · have first := two.grown.child (one.grown.levels q 4 here) (Nat.zero_le 4) bound4 (hhdm₁.symm ▸ one.entry)
        rw [hhdm₁] at first
        simp only [descend, first, Option.bind_some, entry₂]
      · rcases two.origin with rfl | ⟨_, zero⟩
        · rcases one.origin with rfl | ⟨_, zero⟩
          · exact .inl rfl
          · have present := child_present entry₂
            rw [zero _ bound3, isPresent_zero] at present
            cases present
        · rw [hhdm₁] at zero
          exact .inr zero
      · have cost₁ := one.cost
        have cost₂ := two.cost
        omega
    · right
      rw [hhdm₁] at failed
      have cost₁ := one.cost
      have total₁ := one.grown.total
      exact ⟨by simp only [failed], by omega⟩
  · right
    exact ⟨by simp only [failed, bind, Except.bind], by omega⟩

theorem vmmMapPage_upper (s : Phys) (top v p flags : Nat) : vmmMapPage s top v p flags = (do
    let (s, pml2v) ← upperTables s top v
    let s ← ensureTable s pml2v (pml2i v)
    .ok (writeEntry s (tableOf s (pte s pml2v (pml2i v))) (pml1i v) p (ptePresent ||| flags))) := by
  have small : pageSize ≠ jumboPageSize ∧ pageSize ≠ largePageSize := by decide
  unfold vmmMapPage vmmMapPageSized upperTables
  simp only [if_neg small.1, if_neg small.2, bind, Except.bind]
  cases ensureTable s top (pml4i v) with
  | error e => rfl
  | ok s₁ =>
    simp only
    cases ensureTable s₁ (tableOf s₁ (pte s₁ top (pml4i v))) (pml3i v) with
    | error e => rfl
    | ok s₂ => rfl

/-- The effect of vmm_map_page on the kernel's tables. -/
structure KernelMapped (s s' : Phys) (level level' : Levels) (top v value : Nat) : Prop where
  typed : Typed s' level'
  grown : Grown s s' level level' 2
  leaf : leaf s' top v = value
  slot : isPresent (pte s' top (pml4i v)) = true

theorem vmmMapPage_typed (inv : Inv s list) (typed : Typed s level) (here : level q = some 4)
    (outside : inLargePage s (q + s.hhdmOffset) v = false) (p flags : Nat) :
    (∃ s' list' level', vmmMapPage s (q + s.hhdmOffset) v p flags = .ok s' ∧ Inv s' list' ∧
      KernelMapped s s' level level' (q + s.hhdmOffset) v (p &&& pteMask ||| (ptePresent ||| flags)) ∧
      s'.usedPages ≤ s.usedPages + 3) ∨
    (vmmMapPage s (q + s.hhdmOffset) v p flags = .error .outOfMemory ∧ s.totalPages < s.usedPages + 3) := by
  obtain ⟨bound1, bound2, bound3, bound4⟩ := pml_lt v
  have small3 : ∀ t, child s (q + s.hhdmOffset) (pml4i v) = some t → isLarge (pte s t (pml3i v)) = false := by
    intro t link
    simp only [inLargePage, child_some link, child_present link, Bool.true_and, Bool.or_eq_false_iff] at outside
    exact outside.1
  rw [vmmMapPage_upper]
  rcases upperTables_typed inv typed here small3 with ⟨s₂, list₂, level₂, r₂, ran₂, inv₂, two⟩ | ⟨failed, full⟩
  · have hhdm₂ := two.grown.hhdm
    have links := two.path
    simp only [descend, Option.bind_eq_some_iff, Option.some.injEq] at links
    obtain ⟨t₃, link4, t₂, link3, rfl⟩ := links
    have small2 : isLarge (pte s₂ (r₂ + s₂.hhdmOffset) (pml2i v)) = false := by
      rw [hhdm₂]
      rcases two.origin with rfl | zero
      · simp only [inLargePage, child_some link4, child_some link3, child_present link4, child_present link3,
          Bool.true_and, Bool.or_eq_false_iff] at outside
        exact outside.2
      · rw [zero _ bound2, isLarge_zero]
    rcases ensureTable_typed inv₂ two.typed two.reached bound2 small2 with
      ⟨s₃, list₃, level₃, r₁, ran₃, inv₃, three⟩ | ⟨failed, full⟩
    · left
      have hhdm₃ : s₃.hhdmOffset = s.hhdmOffset := three.grown.hhdm.trans hhdm₂
      rw [hhdm₂] at ran₃
      have entry₃ := three.entry
      rw [hhdm₂] at entry₃
      obtain ⟨r₃, typed₃, rfl⟩ : ∃ r₃, level₂ r₃ = some 3 ∧ t₃ = r₃ + s.hhdmOffset := by
        have next := two.typed.next q 2 (pml4i v) t₃ (two.grown.levels q 4 here) bound4
        rw [hhdm₂] at next
        have tops := two.typed.tops q _ (two.grown.levels q 4 here) bound4
        rw [hhdm₂] at tops
        exact next tops link4
      have stored : Typed (setPte s₃ (r₁ + s₃.hhdmOffset) (pml1i v)
          (p &&& pteMask ||| (ptePresent ||| flags))) level₃ :=
        three.typed.store inv₃.layout three.reached bound1 (fun no => by cases no) (fun m no => by omega)
      have last : Grown s₃ (setPte s₃ (r₁ + s₃.hhdmOffset) (pml1i v)
          (p &&& pteMask ||| (ptePresent ||| flags))) level₃ level₃ 2 :=
        Grown.store inv₃.layout three.typed three.reached bound1 (fun no => by omega)
      have later := (three.grown.mono (Nat.zero_le 2)).trans last
      have grown := (two.grown.mono (Nat.zero_le 2)).trans later
      rw [hhdm₃] at stored last later grown
      have four := later.child (two.grown.levels q 4 here) (by omega) bound4 (hhdm₂.symm ▸ link4)
      have threeEntry := later.child typed₃ (by omega) bound3 (hhdm₂.symm ▸ link3)
      have two_ := last.child (three.grown.levels r₂ 2 two.reached) (by omega) bound2 (hhdm₃.symm ▸ entry₃)
      rw [hhdm₂] at four threeEntry
      rw [hhdm₃] at two_
      refine ⟨_, list₃, level₃, ?_, ?_, ⟨stored, grown, ?_, child_present four⟩, ?_⟩
      · simp only [ran₂, ran₃, bind, Except.bind, child_some entry₃, writeEntry_eq]
      · have written := inv_setPte inv₃ (three.typed.used r₁ 1 three.reached) bound1
          (p &&& pteMask ||| (ptePresent ||| flags))
        rwa [hhdm₃] at written
      · have reached : descend (child (setPte s₃ (r₁ + s.hhdmOffset) (pml1i v)
            (p &&& pteMask ||| (ptePresent ||| flags)))) (q + s.hhdmOffset) (pathOf v) =
            some (r₁ + s.hhdmOffset) := by
          simp only [pathOf, descend, four, threeEntry, two_, Option.bind_some]
        rw [leaf_of reached, pte_setPte]
      · have cost₂ := two.cost
        have cost₃ := three.cost
        change s₃.usedPages ≤ _
        omega
    · right
      rw [hhdm₂] at failed
      have cost₂ := two.cost
      have total₂ := two.grown.total
      exact ⟨by simp only [ran₂, failed, bind, Except.bind], by omega⟩
  · right
    exact ⟨by simp only [failed, bind, Except.bind], by omega⟩

/-- Outside the large pages the walk ends in a table of leaf entries. -/
theorem Typed.leaf_table (typed : Typed s level) (here : level q = some 4)
    (outside : inLargePage s (q + s.hhdmOffset) v = false)
    (reached : descend (child s) (q + s.hhdmOffset) (pathOf v) = some t) :
    ∃ r, level r = some 1 ∧ t = r + s.hhdmOffset := by
  obtain ⟨_, bound2, bound3, bound4⟩ := pml_lt v
  simp only [pathOf, descend, Option.bind_eq_some_iff, Option.some.injEq] at reached
  obtain ⟨t₃, link4, t₂, link3, t₁, link2, rfl⟩ := reached
  simp only [inLargePage, child_some link4, child_some link3, child_present link4, child_present link3,
    Bool.true_and, Bool.or_eq_false_iff] at outside
  obtain ⟨r₃, level3, rfl⟩ := typed.next q 2 _ t₃ here bound4 (typed.tops q _ here bound4) link4
  obtain ⟨r₂, level2, rfl⟩ := typed.next r₃ 1 _ t₂ level3 bound3 outside.1 link3
  exact typed.next r₂ 0 _ t₁ level2 bound2 outside.2 link2

theorem vmmUnmapPage_typed (inv : Inv s list) (typed : Typed s level) (here : level q = some 4)
    (outside : inLargePage s (q + s.hhdmOffset) v = false) :
    Inv (vmmUnmapPage s (q + s.hhdmOffset) v) list ∧ Typed (vmmUnmapPage s (q + s.hhdmOffset) v) level ∧
      Grown s (vmmUnmapPage s (q + s.hhdmOffset) v) level level 2 := by
  rw [vmmUnmapPage_eq]
  cases reached : descend (child s) (q + s.hhdmOffset) (pathOf v) with
  | none => exact ⟨inv, typed, Grown.refl s level 2⟩
  | some t =>
    obtain ⟨r, level1, rfl⟩ := typed.leaf_table here outside reached
    obtain ⟨bound1, _⟩ := pml_lt v
    exact ⟨inv_setPte inv (typed.used r 1 level1) bound1 0,
      typed.store inv.layout level1 bound1 (fun no => by cases no) (fun m no => by omega),
      Grown.store inv.layout typed level1 bound1 (fun no => by omega)⟩

/-- An entry with the bit PTE_PS set ends the walk. -/
theorem isLarge_entry (p flags : Nat) : isLarge (p &&& pteMask ||| (ptePresent ||| ptePs ||| flags)) = true := by
  unfold isLarge
  rw [isPresent_eq]
  simp only [Nat.testBit_or, Bool.and_eq_true]
  have present : ptePresent.testBit 0 = true := by decide
  have ps : ptePs.testBit 7 = true := by decide
  simp only [present, ps, Bool.true_or, Bool.or_true, and_self]

/-- A page of 2 MiB or 1 GiB: only entries of the level it is written at are replaced. -/
theorem vmmMapPageSized_typed (inv : Inv s list) (typed : Typed s level) (here : level q = some 4)
    (p flags : Nat) {size lowest : Nat}
    (large : (size = jumboPageSize ∧ lowest = 4) ∨ (size = largePageSize ∧ lowest = 3 ∧
      ∀ r i, level r = some 3 → i < 512 → isLarge (pte s (r + s.hhdmOffset) i) = false)) :
    (∃ s' list' level', vmmMapPageSized s (q + s.hhdmOffset) v p flags size = .ok s' ∧ Inv s' list' ∧
      Typed s' level' ∧ Grown s s' level level' lowest ∧ s'.usedPages ≤ s.usedPages + 2) ∨
    (vmmMapPageSized s (q + s.hhdmOffset) v p flags size = .error .outOfMemory ∧
      s.totalPages < s.usedPages + 2) := by
  obtain ⟨_, bound2, bound3, bound4⟩ := pml_lt v
  have isLarge' := isLarge_entry p flags
  have never : isLarge (p &&& pteMask ||| (ptePresent ||| ptePs ||| flags)) ≠ false := by
    rw [isLarge']
    decide
  rcases large with ⟨rfl, rfl⟩ | ⟨rfl, rfl, small⟩
  · unfold vmmMapPageSized
    rcases ensureTable_typed inv typed here bound4 (typed.tops q _ here bound4) with
      ⟨s₁, list₁, level₁, r₃, ran₁, inv₁, one⟩ | ⟨failed, full⟩
    · left
      have hhdm₁ := one.grown.hhdm
      have stored : Typed (setPte s₁ (r₃ + s₁.hhdmOffset) (pml3i v)
          (p &&& pteMask ||| (ptePresent ||| ptePs ||| flags))) level₁ :=
        one.typed.store inv₁.layout one.reached bound3 (fun no => by cases no)
          (fun _ _ _ isSmall => absurd isSmall never)
      have last : Grown s₁ (setPte s₁ (r₃ + s₁.hhdmOffset) (pml3i v)
          (p &&& pteMask ||| (ptePresent ||| ptePs ||| flags))) level₁ level₁ 4 :=
        Grown.store inv₁.layout one.typed one.reached bound3 (fun no => by omega)
      refine ⟨_, list₁, level₁, ?_, inv_setPte inv₁ (one.typed.used r₃ 3 one.reached) bound3 _, stored,
        (one.grown.mono (Nat.zero_le 4)).trans last, Nat.le_succ_of_le one.cost⟩
      simp only [ran₁, bind, Except.bind, child_some one.entry, writeEntry_eq, ↓reduceIte, hhdm₁]
    · right
      exact ⟨by simp only [failed, bind, Except.bind], by omega⟩
  · have sizes : largePageSize ≠ jumboPageSize := by decide
    have small3 : ∀ t, child s (q + s.hhdmOffset) (pml4i v) = some t → isLarge (pte s t (pml3i v)) = false := by
      intro t link
      obtain ⟨r, level3, rfl⟩ := typed.next q 2 _ t here bound4 (typed.tops q _ here bound4) link
      exact small r _ level3 bound3
    have unfolded : vmmMapPageSized s (q + s.hhdmOffset) v p flags largePageSize = (do
        let (s, pml2v) ← upperTables s (q + s.hhdmOffset) v
        .ok (writeEntry s pml2v (pml2i v) p (ptePresent ||| ptePs ||| flags))) := by
      unfold vmmMapPageSized upperTables
      simp only [if_neg sizes, ↓reduceIte, bind, Except.bind]
      cases ensureTable s (q + s.hhdmOffset) (pml4i v) with
      | error e => rfl
      | ok s₁ =>
        simp only
        cases ensureTable s₁ (tableOf s₁ (pte s₁ (q + s.hhdmOffset) (pml4i v))) (pml3i v) with
        | error e => rfl
        | ok s₂ => rfl
    rw [unfolded]
    rcases upperTables_typed inv typed here small3 with ⟨s₂, list₂, level₂, r₂, ran₂, inv₂, two⟩ | ⟨failed, full⟩
    · left
      have hhdm₂ := two.grown.hhdm
      have stored : Typed (setPte s₂ (r₂ + s₂.hhdmOffset) (pml2i v)
          (p &&& pteMask ||| (ptePresent ||| ptePs ||| flags))) level₂ :=
        two.typed.store inv₂.layout two.reached bound2 (fun no => by cases no)
          (fun _ _ _ isSmall => absurd isSmall never)
      have last : Grown s₂ (setPte s₂ (r₂ + s₂.hhdmOffset) (pml2i v)
          (p &&& pteMask ||| (ptePresent ||| ptePs ||| flags))) level₂ level₂ 3 :=
        Grown.store inv₂.layout two.typed two.reached bound2 (fun no => by omega)
      refine ⟨_, list₂, level₂, ?_, inv_setPte inv₂ (two.typed.used r₂ 2 two.reached) bound2 _, stored,
        (two.grown.mono (Nat.zero_le 3)).trans last, two.cost⟩
      simp only [ran₂, bind, Except.bind, writeEntry_eq, hhdm₂]
    · right
      exact ⟨by simp only [failed, bind, Except.bind], full⟩

end Map

/-- The kernel's tables when all entries of the upper half have their table. -/
structure KernelTables (s : Phys) (top : Nat) (level : Levels) : Prop where
  typed : Typed s level
  frame : ∃ q, level q = some 4 ∧ top = q + s.hhdmOffset
  slots : ∀ i, 256 ≤ i → i < 512 → isPresent (pte s top i) = true

/- No table of the level leads to a large page. -/
def Small (s : Phys) (level : Levels) (n : Nat) : Prop :=
  ∀ r i, level r = some n → i < 512 → isLarge (pte s (r + s.hhdmOffset) i) = false

section Tables

variable {s s' : Phys} {level level' : Levels} {lowest top q n v : Nat}

/-- The kernel's tables are what their pages hold. -/
theorem Typed.frame (typed : Typed s level) (hhdm : s'.hhdmOffset = s.hhdmOffset)
    (kept : ∀ q n, level q = some n → PageIs s' q .used ∧
      ∀ i < 512, pte s' (q + s.hhdmOffset) i = pte s (q + s.hhdmOffset) i) : Typed s' level := by
  refine ⟨fun q n here => (kept q n here).1, ?_, ?_⟩
  · intro q n i t here bound small link
    rw [hhdm] at small link ⊢
    have same := (kept q _ here).2 i bound
    rw [same] at small
    rw [child_congr hhdm same] at link
    exact typed.next q n i t here bound small link
  · intro q i here bound
    rw [hhdm, (kept q _ here).2 i bound]
    exact typed.tops q i here bound

theorem Grown.small (grown : Grown s s' level level' lowest) (above : lowest ≤ n) (small : Small s level n) :
    Small s' level' n := by
  intro r i typedR bound
  rw [grown.hhdm]
  cases isIt : isLarge (pte s' (r + s.hhdmOffset) i) with
  | false => rfl
  | true =>
    obtain ⟨before, same⟩ := grown.large r n i typedR above bound isIt
    rw [same, small r i before bound] at isIt
    cases isIt

theorem not_inLargePage (typed : Typed s level) (here : level q = some 4) (small3 : Small s level 3)
    (small2 : Small s level 2) (v : Nat) : inLargePage s (q + s.hhdmOffset) v = false := by
  obtain ⟨_, bound2, bound3, bound4⟩ := pml_lt v
  cases isIt : inLargePage s (q + s.hhdmOffset) v with
  | false => rfl
  | true =>
    simp only [inLargePage, Bool.and_eq_true, Bool.or_eq_true] at isIt
    obtain ⟨present4, inner⟩ := isIt
    have link4 : child s (q + s.hhdmOffset) (pml4i v) = some (tableOf s (pte s (q + s.hhdmOffset) (pml4i v))) := by
      rw [child_eq, if_pos present4]
    obtain ⟨r₃, level3, address⟩ := typed.next q 2 _ _ here bound4 (typed.tops q _ here bound4) link4
    rw [address, small3 r₃ _ level3 bound3] at inner
    rcases inner with no | ⟨present3, large2⟩
    · cases no
    · have link3 : child s (r₃ + s.hhdmOffset) (pml3i v) =
          some (tableOf s (pte s (r₃ + s.hhdmOffset) (pml3i v))) := by
        rw [child_eq, if_pos present3]
      obtain ⟨r₂, level2, address⟩ := typed.next r₃ 1 _ _ level3 bound3 (small3 r₃ _ level3 bound3) link3
      rw [address, small2 r₂ _ level2 bound2] at large2
      cases large2

theorem KernelTables.grown (tables : KernelTables s top level) (grown : Grown s s' level level' lowest)
    (above : lowest ≤ 4) (typed : Typed s' level') : KernelTables s' top level' := by
  obtain ⟨q, here, rfl⟩ := tables.frame
  refine ⟨typed, ⟨q, grown.levels q 4 here, by rw [grown.hhdm]⟩, ?_⟩
  intro i low bound
  have present := tables.slots i low bound
  rw [grown.kept q 4 i here above bound present]
  exact present

end Tables

end EvalynOS.Vmm
