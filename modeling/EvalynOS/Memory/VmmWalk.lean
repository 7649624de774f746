import EvalynOS.Memory.VmmSizes

/-! The walk of the processor along the indices of an address, and what one call of
vmm_map_page does to the walk of every address, for each of the three sizes. -/
namespace EvalynOS.Vmm
open Lib Lib.Word Pmm

/- The entry at which the walk ends, with the number of indices that are left. -/
def walk (s : Phys) : Nat → List Nat → Option (Nat × Nat)
  | _, [] => none
  | t, i :: rest =>
    if ¬ isPresent (pte s t i) then none
    else if rest = [] ∨ (pte s t i).testBit 7 then some (pte s t i, rest.length)
    else walk s (tableOf s (pte s t i)) rest

def indices (v : Nat) : List Nat := [pml4i v, pml3i v, pml2i v, pml1i v]

/- The number of indices up to the entry for a page of the given size. -/
def leafDepth (size : Nat) : Nat := if size = jumboPageSize then 2 else if size = largePageSize then 3 else 4

def leafIndices (size v : Nat) : List Nat := (indices v).take (leafDepth size)

/- The entry that vmm_map_page writes. -/
def leafEntry (size phys flags : Nat) : Nat :=
  if size = jumboPageSize ∨ size = largePageSize then phys &&& pteMask ||| (ptePresent ||| ptePs ||| flags)
  else phys &&& pteMask ||| (ptePresent ||| flags)

/- The physical address of the 4 KiB around an address. -/
def leafAddress (v : Nat) : Nat × Nat → Option Nat
  | (entry, 0) => some (entry &&& pteMask)
  | (entry, 1) => some ((entry &&& largeMask) + v % largePageSize / pageSize * pageSize)
  | (entry, 2) => some ((entry &&& jumboMask) + v % jumboPageSize / pageSize * pageSize)
  | _ => none

theorem pageWalk_eq (s : Phys) (top v : Nat) :
    pageWalk s top v = (walk s top (indices v)).bind (leafAddress v) := by
  simp only [pageWalk, indices, walk, List.length_cons, List.length_nil, reduceCtorEq, false_or, true_or, if_true]
  by_cases present4 : isPresent (pte s top (pml4i v)) = true
  · by_cases plain4 : (pte s top (pml4i v)).testBit 7 = true
    · simp [present4, plain4, leafAddress]
    · simp only [present4, plain4, not_true_eq_false, false_or, if_false, Bool.false_eq_true]
      split
      · rfl
      · split
        · rfl
        · split
          · rfl
          · split
            · rfl
            · split
              · simp [leafAddress]
              · simp
  · simp [present4]

section Walk

variable {s s' : Phys} {t u i : Nat} {path rest w : List Nat}

theorem link_of_plain (present : isPresent (pte s t i) = true) (plain : ¬ (pte s t i).testBit 7 = true) :
    link s t i = some (tableOf s (pte s t i)) := by
  unfold link
  simp [present, plain]

/-- The walk depends only on the entries that it passes. -/
theorem walk_congr (hhdm : s'.hhdmOffset = s.hhdmOffset)
    (same : ∀ before i after u, w = before ++ i :: after → descend (link s) t before = some u →
      pte s' u i = pte s u i) : walk s' t w = walk s t w := by
  induction w generalizing t with
  | nil => rfl
  | cons i rest ih =>
    rw [walk, walk, same [] i rest t rfl rfl]
    by_cases present : isPresent (pte s t i) = true
    · by_cases ends : rest = [] ∨ (pte s t i).testBit 7 = true
      · simp only [present, ends, not_true_eq_false, if_true, if_false]
      · have plain := link_of_plain present (fun large => ends (.inr large))
        have address : tableOf s' (pte s t i) = tableOf s (pte s t i) := by
          unfold tableOf
          rw [hhdm]
        simp only [present, ends, not_true_eq_false, if_false, address]
        apply ih
        intro before j after u split reached
        apply same (i :: before) j after u (by rw [split, List.cons_append])
        simp only [descend, plain, Option.bind_some]
        exact reached
    · rw [if_pos present, if_pos present]

/-- Tables are passed on the way. -/
theorem walk_through (here : descend (link s) t path = some u) (more : w ≠ []) :
    walk s t (path ++ w) = walk s u w := by
  induction path generalizing t with
  | nil =>
    cases Option.some.inj here
    rfl
  | cons i path ih =>
    simp only [descend, Option.bind_eq_some_iff] at here
    obtain ⟨n, entry, rest⟩ := here
    obtain ⟨small, next⟩ := link_some entry
    have present := child_present next
    have plain := plain_entry small present
    have longer : ¬ (path ++ w = []) := by simp [more]
    rw [List.cons_append, walk]
    simp only [present, plain, longer, not_true_eq_false, or_self, if_false, Bool.false_eq_true]
    rw [child_some next]
    exact ih rest

theorem walk_stops (missing : isPresent (pte s t i) = false) : walk s t (i :: rest) = none := by
  simp [walk, missing]

end Walk

/-! What one call does to every walk. -/

theorem leafDepth_le (size : Nat) : 2 ≤ leafDepth size ∧ leafDepth size ≤ 4 := by
  unfold leafDepth
  split
  · omega
  · split <;> omega

theorem indices_length (v : Nat) : (indices v).length = 4 := rfl

theorem indices_lt {v j : Nat} (member : j ∈ indices v) : j < 512 := by
  obtain ⟨one, two, three, four⟩ := pml_lt v
  simp only [indices, List.mem_cons, List.not_mem_nil, or_false] at member
  rcases member with rfl | rfl | rfl | rfl <;> assumption

section Call

variable {s s' : Phys} {top t i size v : Nat} {path before after : List Nat} {regions : List Region} {list : List Nat}

/-- The indices in front of one of an address lead to a table. -/
theorem valid_before (split : indices v = before ++ i :: after) : Valid anywhere before ∧ i < 512 := by
  have length := congrArg List.length split
  rw [indices_length, List.length_append, List.length_cons] at length
  refine ⟨⟨by omega, ?_, fun _ _ => trivial⟩, ?_⟩
  · intro j member
    apply @indices_lt v
    rw [split]
    exact List.mem_append_left _ member
  · apply @indices_lt v
    rw [split]
    exact List.mem_append_right _ List.mem_cons_self

/-- A change of one entry is not seen by the walks that do not pass it. -/
theorem Mixed.walk_other (mixed : Mixed s top regions) (layout : Layout s.hhdmOffset s.tables)
    (touched : Touched s s' t i) (validPath : Valid anywhere path) (here : descend (link s) top path = some t)
    (boundI : i < 512) (outside : (indices v).take (path.length + 1) ≠ path ++ [i]) :
    walk s' top (indices v) = walk s top (indices v) := by
  apply walk_congr touched.hhdm
  intro before j after u split reached
  obtain ⟨validBefore, boundJ⟩ := valid_before split
  apply mixed.pte_other layout touched validPath here boundI validBefore reached boundJ
  rintro ⟨rfl, rfl⟩
  have same := mixed.separated before path u validBefore validPath reached here
  subst same
  apply outside
  rw [split, ← List.singleton_append, ← List.append_assoc, List.take_left' (by simp)]

theorem split_indices (path : List Nat) (i : Nat) (inside : (indices v).take (path.length + 1) = path ++ [i]) :
    indices v = path ++ i :: (indices v).drop (path.length + 1) := by
  have parts := List.take_append_drop (path.length + 1) (indices v)
  rw [inside, List.append_assoc, List.singleton_append] at parts
  exact parts.symm

/-- The step that makes sure of a table is not seen by any walk. -/
theorem Mixed.ensure_walk (mixed : Mixed s top regions) (inv : Inv s list) (valid : Valid anywhere (path ++ [i]))
    (here : descend (link s) top path = some t) (result : ensureTable s t i = .ok s') :
    walk s' top (indices v) = walk s top (indices v) ∧ s'.hhdmOffset = s.hhdmOffset := by
  by_cases present : isPresent (pte s t i) = true
  · rw [ensureTable, if_pos present] at result
    cases result
    exact ⟨rfl, rfl⟩
  · have missing : isPresent (pte s t i) = false := by simpa using present
    obtain ⟨boundI, short, -⟩ := valid_index valid
    have validPath := valid_closed anywhere path [i] valid
    rcases allocatePage_outcome inv with ⟨p, s₁, list₁, returned, inv₁, allocated⟩ | ⟨failed, -⟩
    · obtain ⟨state, page, -⟩ := allocated.fresh
      obtain ⟨aligned, -, -, physical⟩ := inv.layout.page_bounds page
      have masked := page_mask aligned physical
      obtain ⟨-, -, reached, -⟩ := mixed.attach inv valid here missing inv₁ allocated
      simp only [ensureTable, if_neg present, returned, bind, Except.bind, masked, setPte_setPte, pte_setPte,
        Except.ok.injEq] at result
      change setPte s₁ t i (p ||| 7) = s' at result
      subst result
      refine ⟨?_, allocated.hhdm⟩
      obtain ⟨r, usedR, rfl⟩ := mixed.frames path t validPath here
      obtain ⟨touched, zero⟩ := Touched.attach inv.layout allocated usedR boundI (p ||| 7)
      by_cases inside : (indices v).take (path.length + 1) = path ++ [i]
      · have split := split_indices path i inside
        obtain ⟨j, rest, more⟩ : ∃ j rest, (indices v).drop (path.length + 1) = j :: rest := by
          apply List.exists_cons_of_length_pos
          rw [List.length_drop, indices_length]
          omega
        have boundJ : j < 512 := by
          apply @indices_lt v
          rw [split, more]
          simp
        have longer : path ++ i :: j :: rest = (path ++ [i]) ++ j :: rest := by simp
        rw [split, more, walk_through here (List.cons_ne_nil _ _), walk_stops missing, longer,
          walk_through reached (List.cons_ne_nil _ _), walk_stops]
        rw [zero j boundJ, isPresent_zero]
      · exact mixed.walk_other inv.layout touched validPath here boundI inside
    · simp only [ensureTable, if_neg present, failed, bind, Except.bind] at result
      cases result

/-- A leaf entry is what its walks end at. -/
theorem Mixed.store_walk (mixed : Mixed s top regions) (inv : Inv s list) (validPath : Valid anywhere path)
    (here : descend (link s) top path = some t) (boundI : i < 512) {value : Nat} (present : isPresent value = true)
    (isLeaf : path.length = 3 ∨ value.testBit 7 = true) : walk (setPte s t i value) top (indices v) =
      if (indices v).take (path.length + 1) = path ++ [i] then some (value, 3 - path.length)
      else walk s top (indices v) := by
  have touched : Touched s (setPte s t i value) t i :=
    ⟨rfl, rfl, fun _ page => page, fun _ used => used, fun _ _ _ _ other => Memory.store_other _ other⟩
  split
  · rename_i inside
    have reached : descend (link (setPte s t i value)) top path = some t := by
      rw [← here]
      apply descend_congr
      intro before j after u split found
      have validStep : Valid anywhere (before ++ [j]) := by
        apply valid_closed anywhere _ after
        rwa [List.append_assoc, List.singleton_append, ← split]
      have validBefore := valid_closed anywhere before [j] validStep
      apply link_congr touched.hhdm
      apply mixed.pte_other inv.layout touched validPath here boundI validBefore found (valid_index validStep).1
      rintro ⟨rfl, rfl⟩
      have same := mixed.separated before path u validBefore validPath found here
      have length := congrArg List.length split
      rw [same, List.length_append, List.length_cons] at length
      omega
    rw [split_indices path i inside, walk_through reached (List.cons_ne_nil _ _), walk, pte_setPte]
    have ends : (indices v).drop (path.length + 1) = [] ∨ value.testBit 7 = true := by
      rcases isLeaf with three | large
      · left
        rw [three]
        rfl
      · exact .inr large
    have left : ((indices v).drop (path.length + 1)).length = 3 - path.length := by
      rw [List.length_drop, indices_length]
      omega
    simp only [present, ends, left, not_true_eq_false, if_true, if_false]
  · rename_i outside
    exact mixed.walk_other inv.layout touched validPath here boundI outside

def PageSize (size : Nat) : Prop := size = pageSize ∨ size = largePageSize ∨ size = jumboPageSize

theorem PageSize.depth (sized : PageSize size) : (size = pageSize ∧ leafDepth size = 4) ∨
    (size = largePageSize ∧ leafDepth size = 3) ∨ (size = jumboPageSize ∧ leafDepth size = 2) := by
  rcases sized with rfl | rfl | rfl
  · exact .inl ⟨rfl, by decide⟩
  · exact .inr (.inl ⟨rfl, by decide⟩)
  · exact .inr (.inr ⟨rfl, by decide⟩)

/- The entry for a large page is where the walks of its addresses end. -/
theorem entryPath_eq {r : Region} (sized : PageSize r.size) (large : r.size ≠ pageSize) :
    r.entryPath = leafIndices r.size r.virt ∧ r.entryPath.length = leafDepth r.size := by
  have different : largePageSize ≠ jumboPageSize := by decide
  unfold leafIndices leafDepth Region.entryPath
  rcases sized with page | middle | jumbo
  · exact absurd page large
  · rw [middle, if_neg different, if_neg different, if_pos rfl]
    exact ⟨rfl, rfl⟩
  · rw [jumbo, if_pos rfl, if_pos rfl]
    exact ⟨rfl, rfl⟩

/- Where all large pages have one size, no entry above theirs is one for a large page. -/
theorem Mixed.small_above (mixed : Mixed s top regions) (same : ∀ r ∈ regions, r.size = size) (sized : PageSize size)
    (valid : Valid anywhere (path ++ [i])) (here : descend (link s) top path = some t)
    (above : path.length + 1 < leafDepth size) : isLarge (pte s t i) = false := by
  cases large : isLarge (pte s t i) with
  | false => rfl
  | true =>
    obtain ⟨r, member, notPage, place⟩ := mixed.large path t i valid here large
    have alike := same r member
    rw [← alike] at sized above
    have length := (entryPath_eq sized notPage).2
    rw [place, List.length_append, List.length_singleton] at length
    omega

/-- One call of vmm_map_page: the walks of the addresses in its page end at the new entry. -/
structure Entered (s s' : Phys) (top virt phys flags size : Nat) : Prop where
  hhdm : s'.hhdmOffset = s.hhdmOffset
  walk : ∀ v, walk s' top (indices v) =
    if leafIndices size v = leafIndices size virt then some (leafEntry size phys flags, 4 - leafDepth size)
    else walk s top (indices v)

theorem isPresent_entry (p flags : Nat) : isPresent (p ||| (ptePresent ||| flags)) = true := by
  have bit : ptePresent.testBit 0 = true := by decide
  rw [isPresent_eq, Nat.testBit_or, Nat.testBit_or, bit, Bool.true_or, Bool.or_true]

theorem leafEntry_present (size phys flags : Nat) : isPresent (leafEntry size phys flags) = true := by
  unfold leafEntry
  split
  · rw [Nat.or_assoc ptePresent]
    exact isPresent_entry _ _
  · exact isPresent_entry _ _

/-- The store of a leaf entry. -/
theorem Mixed.enter {virt : Nat} (mixed : Mixed s top regions) (inv : Inv s list) (sized : PageSize size)
    (place : path ++ [i] = leafIndices size virt) (here : descend (link s) top path = some t) (phys flags : Nat) :
    Inv (setPte s t i (leafEntry size phys flags)) list ∧
      Mixed (setPte s t i (leafEntry size phys flags)) top (⟨virt, size⟩ :: regions) ∧
      Entered s (setPte s t i (leafEntry size phys flags)) top virt phys flags size := by
  have deep := leafDepth_le size
  have depth : path.length + 1 = leafDepth size := by
    have length := congrArg List.length place
    rw [leafIndices, List.length_take, indices_length, List.length_append, List.length_singleton] at length
    omega
  have inside : (indices virt).take (path.length + 1) = path ++ [i] := by
    rw [depth]
    exact place.symm
  obtain ⟨validPath, boundI⟩ := valid_before (split_indices path i inside)
  have large : size ≠ pageSize → isLarge (leafEntry size phys flags) = true := by
    intro notPage
    have either : size = jumboPageSize ∨ size = largePageSize := by
      rcases sized with page | middle | jumbo
      · exact absurd page notPage
      · exact .inr middle
      · exact .inl jumbo
    rw [leafEntry, if_pos either]
    exact isLarge_entry phys flags
  have isLeaf : path.length = 3 ∨ (leafEntry size phys flags).testBit 7 = true := by
    by_cases page : size = pageSize
    · have four : leafDepth size = 4 := by
        rw [page]
        decide
      exact .inl (by omega)
    · exact .inr (Bool.and_eq_true_iff.mp (large page)).2
  have listed : path.length ≤ 2 → isLarge (leafEntry size phys flags) = true ∧
      ∃ r ∈ (⟨virt, size⟩ :: regions : List Region), r.size ≠ pageSize ∧ r.entryPath = path ++ [i] := by
    intro short
    have notPage : size ≠ pageSize := by
      rintro rfl
      have four : leafDepth pageSize = 4 := by decide
      omega
    refine ⟨large notPage, ⟨virt, size⟩, List.mem_cons_self, notPage, ?_⟩
    rw [place]
    exact (@entryPath_eq ⟨virt, size⟩ sized notPage).1
  obtain ⟨inv', mixed'⟩ := (mixed.weaken ⟨virt, size⟩).store inv validPath here boundI _ listed
  refine ⟨inv', mixed', rfl, fun v => ?_⟩
  have left : 3 - path.length = 4 - leafDepth size := by omega
  rw [mixed.store_walk inv validPath here boundI (leafEntry_present size phys flags) isLeaf, place, depth, left]
  rfl

theorem Entered.since {s₁ : Phys} {virt phys flags : Nat} (entered : Entered s₁ s' top virt phys flags size)
    (before : ∀ v, Vmm.walk s₁ top (indices v) = Vmm.walk s top (indices v) ∧ s₁.hhdmOffset = s.hhdmOffset) :
    Entered s s' top virt phys flags size where
  hhdm := entered.hhdm.trans (before 0).2
  walk := fun v => by rw [entered.walk v, (before v).1]

/-- One call of vmm_map_page, in a pagemap whose large pages have the size of the call. -/
theorem Mixed.map_walk (mixed : Mixed s top regions) (inv : Inv s list) (same : ∀ r ∈ regions, r.size = size)
    (sized : PageSize size) {virt phys flags : Nat} (result : vmmMapPageSized s top virt phys flags size = .ok s') :
    ∃ list', Inv s' list' ∧ Mixed s' top (⟨virt, size⟩ :: regions) ∧ Entered s s' top virt phys flags size := by
  have whole := @valid_pathOf anywhere virt trivial
  have valid4 : Valid anywhere ([] ++ [pml4i virt]) := valid_closed anywhere [pml4i virt] _ whole
  have valid3 : Valid anywhere ([pml4i virt] ++ [pml3i virt]) :=
    valid_closed anywhere [pml4i virt, pml3i virt] _ whole
  have valid2 : Valid anywhere ([pml4i virt, pml3i virt] ++ [pml2i virt]) := whole
  unfold vmmMapPageSized at result
  obtain ⟨s₁, ran₁, result⟩ := bind_eq_ok.mp result
  have deep := leafDepth_le size
  have small4 := mixed.small_above same sized valid4 rfl (by simp only [List.length_nil]; omega)
  obtain ⟨list₁, inv₁, mixed₁, to₁⟩ := mixed.ensure inv valid4 rfl small4 ran₁
  have walks₁ := fun v => mixed.ensure_walk (v := v) inv valid4 rfl ran₁
  split at result
  case isTrue jumbo =>
    cases result
    have place : [pml4i virt] ++ [pml3i virt] = leafIndices size virt := by
      rw [leafIndices, leafDepth, if_pos jumbo]
      rfl
    have entry : leafEntry size phys flags = phys &&& pteMask ||| (ptePresent ||| ptePs ||| flags) :=
      if_pos (.inl jumbo)
    rw [writeEntry_eq, ← entry]
    obtain ⟨inv', mixed', entered⟩ := mixed₁.enter inv₁ sized place to₁ phys flags
    exact ⟨list₁, inv', mixed', entered.since walks₁⟩
  case isFalse notJumbo =>
    obtain ⟨s₂, ran₂, result⟩ := bind_eq_ok.mp result
    have three : 3 ≤ leafDepth size := by
      unfold leafDepth
      split
      · contradiction
      · split <;> decide
    have small3 := mixed₁.small_above same sized valid3 to₁ (by simp only [List.length_singleton]; omega)
    obtain ⟨list₂, inv₂, mixed₂, to₂⟩ := mixed₁.ensure inv₁ valid3 to₁ small3 ran₂
    have walks₂ := fun v => mixed₁.ensure_walk (v := v) inv₁ valid3 to₁ ran₂
    split at result
    case isTrue middle =>
      cases result
      have place : [pml4i virt, pml3i virt] ++ [pml2i virt] = leafIndices size virt := by
        rw [leafIndices, leafDepth, if_neg notJumbo, if_pos middle]
        rfl
      have entry : leafEntry size phys flags = phys &&& pteMask ||| (ptePresent ||| ptePs ||| flags) :=
        if_pos (.inr middle)
      rw [writeEntry_eq, ← entry]
      obtain ⟨inv', mixed', entered⟩ := mixed₂.enter inv₂ sized place to₂ phys flags
      exact ⟨list₂, inv', mixed', (entered.since walks₂).since walks₁⟩
    case isFalse notLarge =>
      obtain ⟨s₃, ran₃, result⟩ := bind_eq_ok.mp result
      have depth : leafDepth size = 4 := by
        rw [leafDepth, if_neg notJumbo, if_neg notLarge]
      have small2 := mixed₂.small_above same sized valid2 to₂ (by simp only [depth, List.length_cons, List.length_nil]; omega)
      obtain ⟨list₃, inv₃, mixed₃, to₃⟩ := mixed₂.ensure inv₂ valid2 to₂ small2 ran₃
      have walks₃ := fun v => mixed₂.ensure_walk (v := v) inv₂ valid2 to₂ ran₃
      cases result
      have place : [pml4i virt, pml3i virt, pml2i virt] ++ [pml1i virt] = leafIndices size virt := by
        rw [leafIndices, depth]
        rfl
      have entry : leafEntry size phys flags = phys &&& pteMask ||| (ptePresent ||| flags) := by
        apply if_neg
        rintro (jumbo | middle)
        · exact notJumbo jumbo
        · exact notLarge middle
      rw [writeEntry_eq, ← entry]
      obtain ⟨inv', mixed', entered⟩ := mixed₃.enter inv₃ sized place to₃ phys flags
      exact ⟨list₃, inv', mixed', ((entered.since walks₃).since walks₂).since walks₁⟩

end Call

end EvalynOS.Vmm
