import EvalynOS.Memory.VmmFresh

/-! delete_pagemap of memory/vmm.c. The walk over the lower half frees every table after
what hangs below it, so that each page of the process is freed once and the walk never
reads a table it has freed. -/
namespace EvalynOS.Vmm
open Lib Lib.Word Pmm

/-- free_levels over the given indices. -/
def freeLevels : Nat → Phys → Nat → List Nat → Except Panic Phys
  | 0, s, _, _ => .ok s
  | levels + 1, s, tablePhys, indices =>
    indices.foldlM (fun s i =>
      let entry := pte s (wadd tablePhys s.hhdmOffset) i
      if ¬ isPresent entry then .ok s
      else
        let entryPhys := entry &&& pteMask
        (if 0 < levels ∧ entry &&& ptePs = 0 then freeLevels levels s entryPhys (List.range 512) else .ok s) >>=
          fun s => freePage s entryPhys) s

/-- The part of delete_pagemap that frees pages. -/
def deletePagemap (s : Phys) (topLevel : Nat) : Except Panic Phys :=
  if topLevel = 0 then .ok s
  else do
    let topPhys := wsub topLevel s.hhdmOffset
    let s ← freeLevels 4 s topPhys (List.range 256)
    freePage s topPhys

/- The page behind an entry of the table in a page. -/
def below (s : Phys) (frame i : Nat) : Option Nat :=
  if isPresent (pte s (frame + s.hhdmOffset) i) then some (pte s (frame + s.hhdmOffset) i &&& pteMask)
  else none

/- An address the allocator has no page for, such as one of the framebuffer. -/
def Foreign (s : Phys) (p : Nat) : Prop := ∀ state, ¬ PageIs s p state

section Foreign

variable {s : Phys} {p : Nat}

theorem masked_dvd (x : Nat) : pageSize ∣ x &&& pteMask := by
  have whole : pteMask = 2 ^ 12 * (2 ^ 40 - 1) := by decide
  rw [whole]
  apply Nat.dvd_of_mod_eq_zero
  have low : (x &&& 2 ^ 12 * (2 ^ 40 - 1)) % 2 ^ 12 = 0 := by
    rw [Nat.and_mod_two_pow]
    simp
  exact low

theorem masked_lt (x : Nat) : x &&& pteMask < 2 ^ 52 := by
  have bound : pteMask < 2 ^ 52 := by decide
  exact Nat.lt_of_le_of_lt Nat.and_le_right bound

/-- The search for such an address finds nothing, or stops at the end of a table. -/
theorem findPage_foreign {hhdmOffset n : Nat} {tables : List ChildTable}
    (sound : ∀ c ∈ tables, c.Sound hhdmOffset) (aligned : pageSize ∣ p) (bound : p < 2 ^ 64)
    (foreign : ∀ c ∈ tables, ∀ i < c.numPages, p ≠ c.start + pageSize * i) :
    findPage p n tables = .ok none ∨ findPage p n tables = .error .outOfBounds := by
  induction tables generalizing n with
  | nil => exact .inl rfl
  | cons c tables ih =>
    by_cases inside : c.start ≤ p ∧ p ≤ c.endAddr
    · obtain ⟨k, start⟩ := (sound c List.mem_cons_self).aligned
      obtain ⟨j, multiple⟩ := aligned
      have index : wsub (alignDown p pageSize) c.start / pageSize = j - k := by
        have down := @alignDown_pow p 12 (by decide) bound
        simp only [pageSize, Nat.reducePow] at *
        rw [down, wsub_eq (by omega) (by omega)]
        omega
      have beyond : j - k ≥ c.numPages := by
        by_contra within
        apply foreign c List.mem_cons_self (j - k) (by omega)
        simp only [pageSize] at *
        omega
      right
      simp only [findPage, if_pos inside, index, if_pos beyond]
    · simp only [findPage, if_neg inside]
      exact ih (fun d member => sound d (List.mem_cons_of_mem _ member))
        (fun d member => foreign d (List.mem_cons_of_mem _ member))

theorem freePage_foreign (layout : Layout s.hhdmOffset s.tables) (aligned : pageSize ∣ p) (bound : p < 2 ^ 64)
    (foreign : Foreign s p) : freePage s p = .ok s ∨ freePage s p = .error .outOfBounds := by
  have nowhere : ∀ c ∈ s.tables, ∀ i < c.numPages, p ≠ c.start + pageSize * i := by
    intro c member i inside address
    obtain ⟨t, here⟩ := List.mem_iff_getElem?.mp member
    have length := (layout.sound c member).length
    exact foreign _ ⟨t, c, i, here, List.getElem?_eq_getElem (length.symm ▸ inside), address⟩
  unfold freePage getPageInfo
  rcases @findPage_foreign p s.hhdmOffset 0 s.tables layout.sound aligned bound nowhere with none | stops
  · rw [none]
    exact .inl rfl
  · rw [stops]
    exact .inr rfl

end Foreign

/-- The pages of the list, all of them in use before, were freed. -/
structure Released (s₀ s : Phys) (freed : List Nat) : Prop where
  inv : ∃ list, Inv s list
  hhdm : s.hhdmOffset = s₀.hhdmOffset
  total : s.totalPages = s₀.totalPages
  usedPages : s.usedPages + freed.length = s₀.usedPages
  owned : ∀ q ∈ freed, PageIs s₀ q .used
  pages : ∀ q state, PageIs s q state ↔ (q ∈ freed ∧ state = .free) ∨ (q ∉ freed ∧ PageIs s₀ q state)
  mem : ∀ a, (∀ q ∈ freed, a ≠ q + s₀.hhdmOffset) → s.mem a = s₀.mem a

section Release

variable {s₀ s : Phys} {freed : List Nat} {q : Nat}

theorem Released.refl {list : List Nat} (inv : Inv s list) : Released s s [] where
  inv := ⟨list, inv⟩
  hhdm := rfl
  total := rfl
  usedPages := rfl
  owned := fun _ member => absurd member List.not_mem_nil
  pages := by simp
  mem := fun _ _ => rfl

theorem Released.free (released : Released s₀ s freed) (page : PageIs s₀ q .used) (fresh : q ∉ freed) :
    ∃ s', freePage s q = .ok s' ∧ Released s₀ s' (freed ++ [q]) := by
  obtain ⟨list, inv⟩ := released.inv
  have here : PageIs s q .used := (released.pages q .used).mpr (.inr ⟨fresh, page⟩)
  obtain ⟨s', ran, inv', done⟩ := freePage_spec inv here
  refine ⟨s', ran, ⟨_, inv'⟩, done.hhdm.trans released.hhdm, done.total.trans released.total, ?_, ?_, ?_, ?_⟩
  · have count := released.usedPages
    have one := done.usedPages
    rw [List.length_append, List.length_singleton]
    omega
  · intro r member
    rcases List.mem_append.mp member with before | isLast
    · exact released.owned r before
    · exact List.mem_singleton.mp isLast ▸ page
  · intro r state
    rw [done.pages r state, released.pages r state, List.mem_append, List.mem_singleton]
    by_cases same : r = q
    · subst same
      simp [fresh]
    · simp [same]
  · intro a outside
    have notQ := outside q (List.mem_append_right _ List.mem_cons_self)
    rw [done.mem a (released.hhdm.symm ▸ notQ)]
    exact released.mem a (fun r member => outside r (List.mem_append_left _ member))

/-- The entries of a table that is not freed yet are as before. -/
theorem Released.pte (released : Released s₀ s freed) (layout : Layout s₀.hhdmOffset s₀.tables)
    (used : PageIs s₀ q .used) (fresh : q ∉ freed) {i : Nat} (bound : i < 512) :
    pte s (q + s₀.hhdmOffset) i = pte s₀ (q + s₀.hhdmOffset) i := by
  apply released.mem
  rintro r member same
  have inQ := slot_inFrame s₀ q bound
  rw [same] at inQ
  have equal := frame_apart layout used (released.owned r member) inQ (first_word s₀ r)
  exact fresh (equal ▸ member)

end Release

noncomputable def isPage (s : Phys) (q : Nat) : Bool :=
  @decide (∃ state, PageIs s q state) (Classical.propDecidable _)

theorem isPage_iff {s : Phys} {q : Nat} : isPage s q = true ↔ ∃ state, PageIs s q state := by
  unfold isPage
  exact @decide_eq_true_iff _ (Classical.propDecidable _)

/-- What hangs below some entries of a table is made of pages in use and of pages that the
allocator does not know; the latter are no tables, and no inner entry is a large page. -/
structure Subtree (s : Phys) (n t : Nat) (first : List Nat) : Prop where
  root : PageIs s t .used
  bounded : ∀ i ∈ first, i < 512
  tables : ∀ path q, Starts (List.range 512) first path → path.length < n →
    descend (below s) t path = some q → PageIs s q .used
  plain : ∀ path i q, Starts (List.range 512) first (path ++ [i]) → path.length + 1 < n →
    descend (below s) t path = some q → isPresent (pte s (q + s.hhdmOffset) i) = true →
    pte s (q + s.hhdmOffset) i &&& ptePs = 0
  leaves : ∀ path q, Starts (List.range 512) first path → path.length ≤ n →
    descend (below s) t path = some q → ∀ state, PageIs s q state → state = .used

/- One round of the loop of free_levels. -/
def freeEntry (levels : Nat) (s : Phys) (tablePhys i : Nat) : Except Panic Phys :=
  let entry := pte s (wadd tablePhys s.hhdmOffset) i
  if ¬ isPresent entry then .ok s
  else
    let entryPhys := entry &&& pteMask
    (if 0 < levels ∧ entry &&& ptePs = 0 then freeLevels levels s entryPhys (List.range 512) else .ok s) >>=
      fun s => freePage s entryPhys

theorem freeLevels_cons (levels : Nat) (s : Phys) (t i : Nat) (rest : List Nat) :
    freeLevels (levels + 1) s t (i :: rest) = (do
      let s ← freeEntry levels s t i
      freeLevels (levels + 1) s t rest) := rfl

section Walk

variable {s₀ s : Phys} {n t i c : Nat} {first rest freed : List Nat}

theorem Starts.mono {indices more less path : List Nat} (starts : Starts indices less path)
    (subset : ∀ i ∈ less, i ∈ more) : Starts indices more path := by
  cases path with
  | nil => exact starts.elim
  | cons i path => exact ⟨subset i starts.1, starts.2⟩

theorem Subtree.subset (tree : Subtree s₀ n t first) (subset : ∀ i ∈ rest, i ∈ first) : Subtree s₀ n t rest where
  root := tree.root
  bounded := fun i member => tree.bounded i (subset i member)
  tables := fun path q starts => tree.tables path q (Starts.mono starts subset)
  plain := fun path i q starts => tree.plain path i q (Starts.mono starts subset)
  leaves := fun path q starts => tree.leaves path q (Starts.mono starts subset)

theorem descend_cons (link : below s₀ t i = some c) (path : List Nat) :
    descend (below s₀) t (i :: path) = descend (below s₀) c path := by
  simp only [descend, link, Option.bind_some]

theorem Subtree.child (tree : Subtree s₀ (n + 2) t first) (member : i ∈ first) (link : below s₀ t i = some c) :
    Subtree s₀ (n + 1) c (List.range 512) := by
  refine ⟨?_, fun j inRange => List.mem_range.mp inRange, ?_, ?_, ?_⟩
  · exact tree.tables [i] c ⟨member, fun _ none => absurd none List.not_mem_nil⟩ (by simp)
      ((descend_cons link []).trans rfl)
  · intro path q starts short reached
    exact tree.tables (i :: path) q (starts.cons member) (Nat.succ_lt_succ short)
      ((descend_cons link path).trans reached)
  · intro path j q starts short reached
    exact tree.plain (i :: path) j q (starts.cons member) (Nat.succ_lt_succ short)
      ((descend_cons link path).trans reached)
  · intro path q starts short reached
    exact tree.leaves (i :: path) q (starts.cons member) (Nat.succ_le_succ short)
      ((descend_cons link path).trans reached)

/- What is to be freed, in its order. -/
noncomputable def frames (s : Phys) (n t : Nat) (first : List Nat) : List Nat :=
  (postorder (below s) (List.range 512) n t first).filter (isPage s)

/- The walk ends with all of it freed, or stops at a page the allocator does not know. -/
def Frees (result : Except Panic Phys) (s₀ : Phys) (freed hung : List Nat) : Prop :=
  (∃ s', result = .ok s' ∧ Released s₀ s' (freed ++ hung.filter (isPage s₀))) ∨
    (result = .error .outOfBounds ∧ ∃ q ∈ hung, Foreign s₀ q)

theorem freePage_frees (released : Released s₀ s freed)
    (aligned : pageSize ∣ c) (bound : c < 2 ^ 64) (used : ∀ state, PageIs s₀ c state → state = .used)
    (nodup : (freed ++ [c].filter (isPage s₀)).Nodup) : Frees (freePage s c) s₀ freed [c] := by
  by_cases known : isPage s₀ c = true
  · obtain ⟨state, page⟩ := isPage_iff.mp known
    cases used state page
    rw [List.filter_cons_of_pos known, List.filter_nil] at nodup
    obtain ⟨s', ran, released'⟩ := released.free page (fun member =>
      (List.nodup_append.mp nodup).2.2 c member c List.mem_cons_self rfl)
    refine .inl ⟨s', ran, ?_⟩
    rw [List.filter_cons_of_pos known, List.filter_nil]
    exact released'
  · have foreign : Foreign s₀ c := fun state page => known (isPage_iff.mpr ⟨state, page⟩)
    obtain ⟨list, inv⟩ := released.inv
    have foreign' : Foreign s c := by
      intro state page
      rcases (released.pages c state).mp page with ⟨member, _⟩ | ⟨_, page⟩
      · exact foreign _ (released.owned c member)
      · exact foreign state page
    rcases freePage_foreign inv.layout aligned bound foreign' with skipped | stops
    · refine .inl ⟨s, skipped, ?_⟩
      rw [List.filter_cons_of_neg known, List.filter_nil, List.append_nil]
      exact released
    · exact .inr ⟨stops, c, List.mem_cons_self, foreign⟩

theorem Frees.bind {result : Except Panic Phys} {next : Phys → Except Panic Phys} {one two : List Nat}
    (frees : Frees result s₀ freed one)
    (later : ∀ s', Released s₀ s' (freed ++ one.filter (isPage s₀)) →
      Frees (next s') s₀ (freed ++ one.filter (isPage s₀)) two) :
    Frees (result >>= next) s₀ freed (one ++ two) := by
  rcases frees with ⟨s', ran, released⟩ | ⟨stops, q, member, foreign⟩
  · rcases later s' released with ⟨s'', ran', released'⟩ | ⟨stops, q, member, foreign⟩
    · refine .inl ⟨s'', ?_, ?_⟩
      · rw [ran]
        exact ran'
      · rw [List.filter_append, ← List.append_assoc]
        exact released'
    · refine .inr ⟨?_, q, List.mem_append_right _ member, foreign⟩
      rw [ran]
      exact stops
  · refine .inr ⟨?_, q, List.mem_append_left _ member, foreign⟩
    rw [stops]
    rfl

/- free_page on one page after the other. -/
def freeAll (pages : List Nat) (s : Phys) : Except Panic Phys := pages.foldlM freePage s

theorem freeAll_append (one two : List Nat) (s : Phys) :
    freeAll (one ++ two) s = freeAll one s >>= freeAll two := List.foldlM_append

theorem freeAll_singleton (c : Nat) (s : Phys) : freeAll [c] s = freePage s c := by
  simp [freeAll]

theorem freeAll_frees (hung : List Nat) (released : Released s₀ s freed)
    (known : ∀ c ∈ hung, pageSize ∣ c ∧ c < 2 ^ 64 ∧ ∀ state, PageIs s₀ c state → state = .used)
    (nodup : (freed ++ hung.filter (isPage s₀)).Nodup) : Frees (freeAll hung s) s₀ freed hung := by
  induction hung generalizing s freed with
  | nil =>
    refine .inl ⟨s, rfl, ?_⟩
    simpa using released
  | cons c rest ih =>
    obtain ⟨aligned, small, used⟩ := known c List.mem_cons_self
    rw [← List.singleton_append, List.filter_append, ← List.append_assoc] at nodup
    have one := freePage_frees released aligned small used (List.nodup_append.mp nodup).1
    exact one.bind (fun s' released' =>
      ih released' (fun d member => known d (List.mem_cons_of_mem _ member)) nodup)

theorem Subtree.known (tree : Subtree s₀ n t first) (member : c ∈ postorder (below s₀) (List.range 512) n t first) :
    pageSize ∣ c ∧ c < 2 ^ 64 ∧ ∀ state, PageIs s₀ c state → state = .used := by
  obtain ⟨path, starts, short, reached⟩ := mem_postorder.mp member
  refine ⟨?_, ?_, tree.leaves path c starts short reached⟩
  all_goals
    rcases List.eq_nil_or_concat path with rfl | ⟨before, i, rfl⟩
    · exact starts.elim
    · rw [List.concat_eq_append, descend_snoc] at reached
      obtain ⟨q, _, link⟩ := Option.bind_eq_some_iff.mp reached
      unfold below at link
      split at link
      · cases Option.some.inj link
        first
        | exact masked_dvd _
        | exact Nat.lt_trans (masked_lt _) (by decide)
      · cases link

/-- free_levels calls free_page on what hangs below the entries, in this order. -/
theorem freeLevels_eq (layout : Layout s₀.hhdmOffset s₀.tables) (n : Nat) (tree : Subtree s₀ n t first)
    (released : Released s₀ s freed) (fresh : (t :: (freed ++ frames s₀ n t first)).Nodup) :
    freeLevels n s t first = freeAll (postorder (below s₀) (List.range 512) n t first) s := by
  induction n generalizing t first s freed with
  | zero => rfl
  | succ n ihLevel =>
    induction first generalizing s freed with
    | nil => rfl
    | cons i rest ihRest =>
      obtain ⟨outside, nodup⟩ := List.nodup_cons.mp fresh
      have notFreed : t ∉ freed := fun member => outside (List.mem_append_left _ member)
      have bound := tree.bounded i List.mem_cons_self
      obtain ⟨_, _, mapped, _⟩ := layout.page_bounds tree.root
      have address : wadd t s.hhdmOffset = t + s₀.hhdmOffset := by
        rw [released.hhdm, wadd_eq (by omega)]
      have entry : pte s (wadd t s.hhdmOffset) i = pte s₀ (t + s₀.hhdmOffset) i := by
        rw [address]
        exact released.pte layout tree.root notFreed bound
      have restTree : Subtree s₀ (n + 1) t rest := tree.subset (fun j member => List.mem_cons_of_mem _ member)
      have knownAll := fun d => @Subtree.known s₀ (n + 1) t d (i :: rest) tree
      rw [freeLevels_cons]
      by_cases present : isPresent (pte s₀ (t + s₀.hhdmOffset) i) = true
      · have link : below s₀ t i = some (pte s₀ (t + s₀.hhdmOffset) i &&& pteMask) := if_pos present
        generalize child : pte s₀ (t + s₀.hhdmOffset) i &&& pteMask = c at link
        have hung : postorder (below s₀) (List.range 512) (n + 1) t (i :: rest) =
            (postorder (below s₀) (List.range 512) n c (List.range 512) ++ [c]) ++
              postorder (below s₀) (List.range 512) (n + 1) t rest := by
          simp only [postorder, List.flatMap_cons, link]
        unfold frames at fresh nodup outside
        rw [hung] at fresh nodup outside knownAll ⊢
        rw [List.filter_append] at fresh nodup outside
        rw [← List.append_assoc] at nodup
        have nodupFirst := (List.nodup_append.mp nodup).1
        have unfolded : freeEntry n s t i = (if 0 < n ∧ pte s₀ (t + s₀.hhdmOffset) i &&& ptePs = 0 then
            freeLevels n s c (List.range 512) else .ok s) >>= fun s => freePage s c := by
          simp only [freeEntry, entry, present, not_true_eq_false, ↓reduceIte, child]
        have inner : (if 0 < n ∧ pte s₀ (t + s₀.hhdmOffset) i &&& ptePs = 0 then
            freeLevels n s c (List.range 512) else .ok s) =
            freeAll (postorder (below s₀) (List.range 512) n c (List.range 512)) s := by
          cases n with
          | zero => rfl
          | succ m =>
            have noPs := tree.plain [] i t ⟨List.mem_cons_self, fun _ none => absurd none List.not_mem_nil⟩
              (by simp) rfl present
            have childTree := tree.child List.mem_cons_self link
            have known : isPage s₀ c = true := isPage_iff.mpr ⟨_, childTree.root⟩
            rw [if_pos ⟨Nat.succ_pos m, noPs⟩]
            apply ihLevel childTree released
            rw [List.filter_append, ← List.append_assoc, List.filter_cons_of_pos known, List.filter_nil] at nodupFirst
            exact (List.perm_append_singleton c _).nodup_iff.mp nodupFirst
        have one : freeEntry n s t i =
            freeAll (postorder (below s₀) (List.range 512) n c (List.range 512) ++ [c]) s := by
          rw [unfolded, inner, freeAll_append]
          simp only [funext (freeAll_singleton c)]
        rw [one, freeAll_append (postorder (below s₀) (List.range 512) n c (List.range 512) ++ [c])]
        -- the rest of the table is read after the pages below this entry are freed
        rcases freeAll_frees _ released (fun d member => knownAll d (List.mem_append_left _ member)) nodupFirst with
          ⟨s', ran, released'⟩ | ⟨stops, _⟩
        · rw [ran]
          apply ihRest restTree released'
          rw [List.nodup_cons]
          refine ⟨?_, nodup⟩
          rw [List.append_assoc]
          exact outside
        · rw [stops]
          rfl
      · have link : below s₀ t i = none := if_neg present
        have hung : postorder (below s₀) (List.range 512) (n + 1) t (i :: rest) =
            postorder (below s₀) (List.range 512) (n + 1) t rest := by
          simp only [postorder, List.flatMap_cons, link, List.nil_append]
        have skipped : freeEntry n s t i = .ok s := by
          simp only [freeEntry, entry, if_pos present]
        unfold frames at fresh
        rw [hung] at fresh ⊢
        rw [skipped]
        exact ihRest restTree released fresh

end Walk

end EvalynOS.Vmm
