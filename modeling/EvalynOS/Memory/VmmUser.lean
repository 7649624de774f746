import EvalynOS.Memory.VmmDelete

/-! The pages of a process: its tables, and the pages behind its leaf entries. They are what
delete_pagemap frees. -/
namespace EvalynOS.Vmm
open Lib Lib.Word Pmm

def OwnsTable (s : Phys) (top q : Nat) : Prop :=
  ∃ path, Valid lowerHalf path ∧ descend (child s) top path = some (q + s.hhdmOffset)

def OwnsLeaf (s : Phys) (top q : Nat) : Prop :=
  PageIs s q .used ∧ ∃ v, lowerHalf (pml4i v) ∧ isPresent (leaf s top v) = true ∧ leaf s top v &&& pteMask = q

def Owns (s : Phys) (top q : Nat) : Prop := OwnsTable s top q ∨ OwnsLeaf s top q

/-- The lower half of a process: each page behind a leaf entry is in use, is no table and is
mapped once, or is none of the allocator's. -/
structure UserSpace (s : Phys) (top : Nat) : Prop where
  tree : Tree s top lowerHalf
  opened : Open s top lowerHalf
  leaves : ∀ v state, lowerHalf (pml4i v) → isPresent (leaf s top v) = true →
    PageIs s (leaf s top v &&& pteMask) state → state = .used ∧ ¬ OwnsTable s top (leaf s top v &&& pteMask)
  distinct : ∀ v w, lowerHalf (pml4i v) → lowerHalf (pml4i w) → isPresent (leaf s top v) = true →
    isPresent (leaf s top w) = true → leaf s top v &&& pteMask = leaf s top w &&& pteMask →
    ¬ Foreign s (leaf s top v &&& pteMask) → pageBits v = pageBits w

section User

variable {s : Phys} {top q r : Nat} {list : List Nat} {path : List Nat}

theorem valid_nil : Valid lowerHalf [] := ⟨Nat.zero_le _, by simp, by simp⟩

theorem tableOf_frame (layout : Layout s.hhdmOffset s.tables) (used : PageIs s r .used) {entry : Nat}
    (address : tableOf s entry = r + s.hhdmOffset) : entry &&& pteMask = r := by
  obtain ⟨_, _, mapped, _⟩ := layout.page_bounds used
  have bound := masked_lt entry
  unfold tableOf wadd at address
  omega

/-- Tables by their pages. -/
theorem Tree.descend_below (tree : Tree s top lowerHalf) (layout : Layout s.hhdmOffset s.tables)
    (here : top = q + s.hhdmOffset) (valid : Valid lowerHalf path) :
    (descend (below s) q path).map (fun r => r + s.hhdmOffset) = descend (child s) top path := by
  induction path using List.reverseRecOn with
  | nil =>
    rw [here]
    rfl
  | append_singleton path i ih =>
    have shorter := ih (valid_closed lowerHalf path [i] valid)
    rw [descend_snoc, descend_snoc, ← shorter]
    cases reached : descend (below s) q path with
    | none => rfl
    | some r =>
      simp only [Option.bind_some, Option.map_some]
      by_cases present : isPresent (pte s (r + s.hhdmOffset) i) = true
      · have next : descend (child s) top (path ++ [i]) = some (tableOf s (pte s (r + s.hhdmOffset) i)) := by
          rw [descend_snoc, ← shorter, reached, Option.map_some, Option.bind_some]
          simp only [child, if_pos present]
        obtain ⟨p, used, address⟩ := tree.frames _ _ valid next
        simp only [below, child, if_pos present, Option.map_some, address, tableOf_frame layout used address]
      · simp only [below, child, if_neg present, Option.map_none]

/- The address with the given indices. -/
def addressOf (i4 i3 i2 i1 : Nat) : Nat := i4 * 2 ^ 39 + i3 * 2 ^ 30 + i2 * 2 ^ 21 + i1 * 2 ^ 12

theorem addressOf_indices {i4 i3 i2 i1 : Nat} (bound4 : i4 < 512) (bound3 : i3 < 512) (bound2 : i2 < 512)
    (bound1 : i1 < 512) : pathOf (addressOf i4 i3 i2 i1) = [i4, i3, i2] ∧ pml1i (addressOf i4 i3 i2 i1) = i1 := by
  unfold pathOf addressOf pml1i pml2i pml3i pml4i
  simp only [index_eq_mod, Nat.shiftRight_eq_div_pow, List.cons.injEq, and_true]
  omega

/-- The page behind the leaf entry of an address. -/
theorem Tree.descend_leaf (tree : Tree s top lowerHalf) (layout : Layout s.hhdmOffset s.tables)
    (here : top = q + s.hhdmOffset) {v : Nat} (inside : lowerHalf (pml4i v)) :
    descend (below s) q (pathOf v ++ [pml1i v]) =
      if isPresent (leaf s top v) then some (leaf s top v &&& pteMask) else none := by
  have table := tree.descend_below layout here (valid_pathOf inside)
  rw [descend_snoc]
  cases reached : descend (below s) q (pathOf v) with
  | none =>
    rw [reached] at table
    simp only [leaf, ← table, Option.map_none, Option.bind_none, isPresent_zero, Bool.false_eq_true, ↓reduceIte]
  | some r =>
    rw [reached] at table
    rw [leaf_of table.symm]
    rfl

theorem starts_valid (starts : Starts (List.range 512) (List.range 256) path) (short : path.length ≤ 3) :
    Valid lowerHalf path := by
  cases path with
  | nil => exact starts.elim
  | cons i rest =>
    have head : i < 256 := List.mem_range.mp starts.1
    refine ⟨short, ?_, ?_⟩
    · intro j member
      rcases List.mem_cons.mp member with rfl | later
      · omega
      · exact List.mem_range.mp (starts.2 j later)
    · intro j first
      cases Option.some.inj first
      exact head

theorem valid_starts (valid : Valid lowerHalf path) (nonempty : path ≠ []) :
    Starts (List.range 512) (List.range 256) path := by
  cases path with
  | nil => exact absurd rfl nonempty
  | cons i rest =>
    exact ⟨List.mem_range.mpr (valid.2.2 i rfl), fun j member =>
      List.mem_range.mpr (valid.2.1 j (List.mem_cons_of_mem _ member))⟩

/-- A path of four indices is that of an address. -/
theorem starts_address (starts : Starts (List.range 512) (List.range 256) path) (full : path.length = 4) :
    ∃ v, lowerHalf (pml4i v) ∧ path = pathOf v ++ [pml1i v] := by
  obtain ⟨i4, i3, i2, i1, rfl⟩ := List.length_eq_four.mp full
  have bound4 : i4 < 256 := List.mem_range.mp starts.1
  have bound3 : i3 < 512 := List.mem_range.mp (starts.2 i3 (by simp))
  have bound2 : i2 < 512 := List.mem_range.mp (starts.2 i2 (by simp))
  have bound1 : i1 < 512 := List.mem_range.mp (starts.2 i1 (by simp))
  obtain ⟨indices, last⟩ := @addressOf_indices i4 i3 i2 i1 (by omega) bound3 bound2 bound1
  refine ⟨addressOf i4 i3 i2 i1, ?_, ?_⟩
  · have first := (List.cons.inj indices).1
    unfold lowerHalf
    omega
  · rw [indices, last]
    rfl

theorem address_starts {v : Nat} (inside : lowerHalf (pml4i v)) :
    Starts (List.range 512) (List.range 256) (pathOf v ++ [pml1i v]) := by
  obtain ⟨bound1, bound2, bound3, _⟩ := pml_lt v
  refine ⟨List.mem_range.mpr inside, ?_⟩
  intro j member
  have cases : j = pml3i v ∨ j = pml2i v ∨ j = pml1i v := by simpa using member
  rcases cases with rfl | rfl | rfl
  · exact List.mem_range.mpr bound3
  · exact List.mem_range.mpr bound2
  · exact List.mem_range.mpr bound1

/-- What a path of the walk leads to: a table, or the page of a leaf entry. -/
theorem UserSpace.reached_cases (space : UserSpace s top) (layout : Layout s.hhdmOffset s.tables)
    (here : top = q + s.hhdmOffset) (starts : Starts (List.range 512) (List.range 256) path)
    (short : path.length ≤ 4) (reached : descend (below s) q path = some r) :
    (path.length ≤ 3 ∧ Valid lowerHalf path ∧ descend (child s) top path = some (r + s.hhdmOffset) ∧
      PageIs s r .used) ∨
    ∃ v, lowerHalf (pml4i v) ∧ path = pathOf v ++ [pml1i v] ∧ isPresent (leaf s top v) = true ∧
      leaf s top v &&& pteMask = r := by
  by_cases isTable : path.length ≤ 3
  · have valid := starts_valid starts isTable
    have table := space.tree.descend_below layout here valid
    rw [reached, Option.map_some] at table
    obtain ⟨p, used, address⟩ := space.tree.frames path _ valid table.symm
    have same : r = p := by omega
    exact .inl ⟨isTable, valid, table.symm, same ▸ used⟩
  · obtain ⟨v, inside, rfl⟩ := starts_address starts (by omega)
    have page := space.tree.descend_leaf layout here inside
    rw [reached] at page
    split at page
    · rename_i present
      exact .inr ⟨v, inside, rfl, present, (Option.some.inj page).symm⟩
    · cases page

theorem testBit_ps {entry : Nat} (clear : entry.testBit 7 = false) : entry &&& ptePs = 0 := by
  have mask : ptePs = 2 ^ 7 := by decide
  rw [mask, Nat.and_two_pow, clear]
  rfl

theorem UserSpace.subtree (space : UserSpace s top) (layout : Layout s.hhdmOffset s.tables)
    (here : top = q + s.hhdmOffset) (used : PageIs s q .used) : Subtree s 4 q (List.range 256) := by
  refine ⟨used, ?_, ?_, ?_, ?_⟩
  · intro i member
    have below := List.mem_range.mp member
    omega
  · intro path r starts short reached
    rcases space.reached_cases layout here starts (by omega) reached with ⟨_, _, _, usedR⟩ | ⟨v, _, rfl, _⟩
    · exact usedR
    · exact absurd short (by simp [pathOf])
  · intro path i r starts short reached present
    have valid := starts_valid starts (by rw [List.length_append, List.length_singleton]; omega)
    have validPath := valid_closed lowerHalf path [i] valid
    have table := space.tree.descend_below layout here validPath
    rw [reached, Option.map_some] at table
    exact testBit_ps (space.opened path i _ valid table.symm present).2
  · intro path r starts short reached state page
    rcases space.reached_cases layout here starts short reached with ⟨_, _, _, usedR⟩ | ⟨v, inside, _, present, rfl⟩
    · exact layout.page_unique page usedR
    · exact (space.leaves v state inside present page).1

/-- No two paths of the walk lead to the same page. -/
theorem UserSpace.unique (space : UserSpace s top) (layout : Layout s.hhdmOffset s.tables)
    (here : top = q + s.hhdmOffset) {left right : List Nat} (page : ∃ state, PageIs s r state)
    (startsLeft : Starts (List.range 512) (List.range 256) left)
    (startsRight : Starts (List.range 512) (List.range 256) right) (shortLeft : left.length ≤ 4)
    (shortRight : right.length ≤ 4) (toLeft : descend (below s) q left = some r)
    (toRight : descend (below s) q right = some r) : left = right := by
  obtain ⟨state, page⟩ := page
  rcases space.reached_cases layout here startsLeft shortLeft toLeft with
    ⟨_, validLeft, tableLeft, _⟩ | ⟨v, insideV, rfl, presentV, pageV⟩
  · rcases space.reached_cases layout here startsRight shortRight toRight with
      ⟨_, validRight, tableRight, _⟩ | ⟨w, insideW, rfl, presentW, pageW⟩
    · exact space.tree.separated left right _ validLeft validRight tableLeft tableRight
    · have notTable := (space.leaves w state insideW presentW (pageW.symm ▸ page)).2
      rw [pageW] at notTable
      exact absurd ⟨left, validLeft, tableLeft⟩ notTable
  · rcases space.reached_cases layout here startsRight shortRight toRight with
      ⟨_, validRight, tableRight, _⟩ | ⟨w, insideW, rfl, presentW, pageW⟩
    · have notTable := (space.leaves v state insideV presentV (pageV.symm ▸ page)).2
      rw [pageV] at notTable
      exact absurd ⟨right, validRight, tableRight⟩ notTable
    · have bits := space.distinct v w insideV insideW presentV presentW (pageV.trans pageW.symm)
        (fun foreign => foreign state (pageV.symm ▸ page))
      obtain ⟨paths, last⟩ := pageBits_eq_iff.mp bits
      rw [paths, last]

theorem UserSpace.mem_frames (space : UserSpace s top) (layout : Layout s.hhdmOffset s.tables)
    (here : top = q + s.hhdmOffset) (used : PageIs s q .used) :
    r ∈ frames s 4 q (List.range 256) ↔ r ≠ q ∧ Owns s top r := by
  unfold frames
  rw [List.mem_filter, mem_postorder, isPage_iff]
  constructor
  · rintro ⟨⟨path, starts, short, reached⟩, state, page⟩
    have notRoot : r ≠ q := by
      rintro rfl
      rcases space.reached_cases layout here starts short reached with
        ⟨_, valid, table, _⟩ | ⟨v, inside, _, present, pageV⟩
      · have empty := space.tree.separated path [] _ valid valid_nil table (by rw [← here]; rfl)
        rw [empty] at starts
        exact starts
      · have notTable := (space.leaves v state inside present (pageV.symm ▸ page)).2
        rw [pageV] at notTable
        exact notTable ⟨[], valid_nil, by rw [← here]; rfl⟩
    refine ⟨notRoot, ?_⟩
    rcases space.reached_cases layout here starts short reached with
      ⟨_, valid, table, _⟩ | ⟨v, inside, _, present, pageV⟩
    · exact .inl ⟨path, valid, table⟩
    · have isUsed := (space.leaves v state inside present (pageV.symm ▸ page)).1
      exact .inr ⟨isUsed ▸ page, v, inside, present, pageV⟩
  · rintro ⟨notRoot, ⟨path, valid, table⟩ | ⟨usedR, v, inside, present, pageV⟩⟩
    · have nonempty : path ≠ [] := by
        rintro rfl
        rw [here] at table
        have same := Option.some.inj table
        omega
      obtain ⟨p, usedP, address⟩ := space.tree.frames path _ valid table
      have same : r = p := by omega
      have reached := space.tree.descend_below layout here valid
      rw [table] at reached
      obtain ⟨p', toP, shifted⟩ := Option.map_eq_some_iff.mp reached
      have equal : p' = r := by omega
      exact ⟨⟨path, valid_starts valid nonempty, by have short := valid.1; omega, equal ▸ toP⟩, _, same ▸ usedP⟩
    · refine ⟨⟨pathOf v ++ [pml1i v], address_starts inside, by simp [pathOf], ?_⟩, _, usedR⟩
      rw [space.tree.descend_leaf layout here inside, if_pos present, pageV]

/- The pages that delete_pagemap calls free_page on. -/
def deleteCalls (s : Phys) (top : Nat) : List Nat :=
  postorder (below s) (List.range 512) 4 (top - s.hhdmOffset) (List.range 256) ++ [top - s.hhdmOffset]

/-- delete_pagemap frees what the process owns, each page once. What else it calls free_page
on is a mapped page that is none of the allocator's. -/
theorem deletePagemap_calls (inv : Inv s list) (space : UserSpace s top) :
    deletePagemap s top = freeAll (deleteCalls s top) s ∧
      Frees (freeAll (deleteCalls s top) s) s [] (deleteCalls s top) ∧
      ((deleteCalls s top).filter (isPage s)).Nodup ∧
      (∀ r, r ∈ (deleteCalls s top).filter (isPage s) ↔ Owns s top r) ∧
      ∀ r ∈ deleteCalls s top, Foreign s r → ∃ v, lowerHalf (pml4i v) ∧ isPresent (leaf s top v) = true ∧
        leaf s top v &&& pteMask = r := by
  have layout := inv.layout
  obtain ⟨q, used, here⟩ := space.tree.frames [] top valid_nil rfl
  obtain ⟨aligned, positive, mapped, _⟩ := layout.page_bounds used
  have nonnull : top ≠ 0 := by omega
  have root : top - s.hhdmOffset = q := by omega
  have topPhys : wsub top s.hhdmOffset = q := by
    rw [wsub_eq (by omega) (by omega)]
    omega
  have nodup : (frames s 4 q (List.range 256)).Nodup := by
    apply nodup_postorder List.nodup_range List.nodup_range
    intro left right r page startsLeft startsRight shortLeft shortRight toLeft toRight
    exact space.unique layout here (isPage_iff.mp page) startsLeft startsRight shortLeft shortRight toLeft toRight
  have notRoot : q ∉ frames s 4 q (List.range 256) := fun member =>
    ((space.mem_frames layout here used).mp member).1 rfl
  have tree := space.subtree layout here used
  have calls := freeLevels_eq layout 4 tree (Released.refl inv) (List.nodup_cons.mpr ⟨notRoot, nodup⟩)
  have isRoot : isPage s q = true := isPage_iff.mpr ⟨_, used⟩
  have whole : (deleteCalls s top).filter (isPage s) = frames s 4 q (List.range 256) ++ [q] := by
    unfold deleteCalls
    rw [root, List.filter_append, List.filter_cons_of_pos isRoot, List.filter_nil]
    rfl
  have nodupAll : ((deleteCalls s top).filter (isPage s)).Nodup := by
    rw [whole, (List.perm_append_singleton q _).nodup_iff]
    exact List.nodup_cons.mpr ⟨notRoot, nodup⟩
  refine ⟨?_, freeAll_frees _ (Released.refl inv) ?_ nodupAll, nodupAll, ?_, ?_⟩
  · unfold deletePagemap deleteCalls
    rw [if_neg nonnull, topPhys, root, freeAll_append, funext (freeAll_singleton q)]
    dsimp only
    rw [calls]
  · intro c member
    unfold deleteCalls at member
    rw [root] at member
    rcases List.mem_append.mp member with below | last
    · exact tree.known below
    · cases List.mem_singleton.mp last
      refine ⟨aligned, by omega, ?_⟩
      intro state page
      exact layout.page_unique page used
  · intro r
    rw [whole, List.mem_append, List.mem_singleton, space.mem_frames layout here used]
    constructor
    · rintro (⟨_, owns⟩ | rfl)
      · exact owns
      · exact .inl ⟨[], valid_nil, by rw [← here]; rfl⟩
    · intro owns
      by_cases isQ : r = q
      · exact .inr isQ
      · exact .inl ⟨isQ, owns⟩
  · intro r member foreign
    unfold deleteCalls at member
    rw [root] at member
    rcases List.mem_append.mp member with below | last
    · obtain ⟨path, starts, short, reached⟩ := mem_postorder.mp below
      rcases space.reached_cases layout here starts short reached with ⟨_, _, _, usedR⟩ | ⟨v, inside, _, present, pageV⟩
      · exact absurd usedR (foreign _)
      · exact ⟨v, inside, present, pageV⟩
    · cases List.mem_singleton.mp last
      exact absurd used (foreign _)

/-- It can stop only at a page that is none of the allocator's. -/
theorem deletePagemap_outcome (inv : Inv s list) (space : UserSpace s top) :
    (∃ s' freed, deletePagemap s top = .ok s' ∧ Released s s' freed ∧ freed.Nodup ∧
      ∀ r, r ∈ freed ↔ Owns s top r) ∨
    (deletePagemap s top = .error .outOfBounds ∧ ∃ v, lowerHalf (pml4i v) ∧
      isPresent (leaf s top v) = true ∧ Foreign s (leaf s top v &&& pteMask)) := by
  obtain ⟨calls, frees, nodup, owned, others⟩ := deletePagemap_calls inv space
  rw [calls]
  rcases frees with ⟨s', ran, released⟩ | ⟨stops, r, member, foreign⟩
  · exact .inl ⟨s', _, ran, released, nodup, owned⟩
  · obtain ⟨v, inside, present, rfl⟩ := others r member foreign
    exact .inr ⟨stops, v, inside, present, foreign⟩

end User

section Frame

variable {s s' : Phys} {u : Nat}

theorem Owns.used (space : UserSpace s u) {q : Nat} (owns : Owns s u q) : PageIs s q .used := by
  rcases owns with ⟨path, valid, table⟩ | ⟨used, _⟩
  · obtain ⟨p, used, address⟩ := space.tree.frames path _ valid table
    have same : q = p := by omega
    exact same ▸ used
  · exact used

theorem UserSpace.root (space : UserSpace s u) : ∃ q, u = q + s.hhdmOffset ∧ OwnsTable s u q := by
  obtain ⟨q, _, here⟩ := space.tree.frames [] u valid_nil rfl
  exact ⟨q, here, [], valid_nil, congrArg some here⟩

/-- A process is what its tables hold. -/
theorem UserSpace.agree (space : UserSpace s u) (layout : Layout s'.hhdmOffset s'.tables)
    (hhdm : s'.hhdmOffset = s.hhdmOffset) (pages : Pages s s')
    (used : ∀ q, Owns s u q → PageIs s' q .used)
    (tables : ∀ q, OwnsTable s u q → ∀ i < 512, pte s' (q + s.hhdmOffset) i = pte s (q + s.hhdmOffset) i) :
    UserSpace s' u ∧ (∀ q, OwnsTable s' u q ↔ OwnsTable s u q) ∧ (∀ q, OwnsLeaf s' u q ↔ OwnsLeaf s u q) ∧
      ∀ v, lowerHalf (pml4i v) → leaf s' u v = leaf s u v := by
  obtain ⟨tree, lookup, opens, leaves⟩ := space.tree.agree hhdm
    (fun path q valid here _ => used q (.inl ⟨path, valid, here⟩)) (by
      intro path t valid here i bound
      obtain ⟨q, _, rfl⟩ := space.tree.frames path t valid here
      exact tables q ⟨path, valid, here⟩ i bound)
  have sameTables : ∀ q, OwnsTable s' u q ↔ OwnsTable s u q := by
    intro q
    unfold OwnsTable
    rw [hhdm]
    exact exists_congr (fun path => and_congr_right (fun valid => by rw [lookup path valid]))
  have known : ∀ v state, lowerHalf (pml4i v) → isPresent (leaf s u v) = true →
      PageIs s' (leaf s u v &&& pteMask) state → state = .used ∧ OwnsLeaf s u (leaf s u v &&& pteMask) := by
    intro v state inside present page
    obtain ⟨before, pageBefore⟩ := pages _ ⟨state, page⟩
    obtain ⟨rfl, _⟩ := space.leaves v before inside present pageBefore
    have owns : OwnsLeaf s u (leaf s u v &&& pteMask) := ⟨pageBefore, v, inside, present, rfl⟩
    exact ⟨layout.page_unique page (used _ (.inr owns)), owns⟩
  refine ⟨⟨tree, opens space.opened, ?_, ?_⟩, sameTables, ?_, leaves⟩
  · intro v state inside present page
    rw [leaves v inside] at present page ⊢
    obtain ⟨isUsed, owns⟩ := known v state inside present page
    rw [sameTables]
    exact ⟨isUsed, (space.leaves v .used inside present owns.1).2⟩
  · intro v w insideV insideW presentV presentW same notForeign
    rw [leaves v insideV] at presentV same notForeign
    rw [leaves w insideW] at presentW same
    apply space.distinct v w insideV insideW presentV presentW same
    intro foreign
    apply notForeign
    intro state page
    obtain ⟨before, pageBefore⟩ := pages _ ⟨state, page⟩
    exact foreign before pageBefore
  · intro q
    constructor
    · rintro ⟨page, v, inside, present, rfl⟩
      rw [leaves v inside] at present page ⊢
      exact (known v _ inside present page).2
    · rintro ⟨page, v, inside, present, here⟩
      refine ⟨used q (.inr ⟨page, v, inside, present, here⟩), v, inside, ?_, ?_⟩
      · rw [leaves v inside]
        exact present
      · rw [leaves v inside]
        exact here

theorem UserSpace.frame (space : UserSpace s u) (layout : Layout s'.hhdmOffset s'.tables)
    (hhdm : s'.hhdmOffset = s.hhdmOffset) (pages : Pages s s')
    (used : ∀ q, Owns s u q → PageIs s' q .used)
    (tables : ∀ q, OwnsTable s u q → ∀ i < 512, pte s' (q + s.hhdmOffset) i = pte s (q + s.hhdmOffset) i) :
    UserSpace s' u ∧ ∀ q, Owns s' u q ↔ Owns s u q := by
  obtain ⟨space', sameTables, sameLeaves, _⟩ := space.agree layout hhdm pages used tables
  exact ⟨space', fun q => or_congr (sameTables q) (sameLeaves q)⟩

/-- A process gets a page: one in use that is not its own yet, or none of the allocator's. -/
theorem UserSpace.mapped (space : UserSpace s u) (layout : Layout s'.hhdmOffset s'.tables) {v value : Nat}
    (set : LeafSet s s' u lowerHalf v value) (fits : Foreign s (value &&& pteMask) ∨
      (PageIs s (value &&& pteMask) .used ∧ ¬ Owns s u (value &&& pteMask))) :
    UserSpace s' u ∧ ∀ q, Owns s' u q →
      Owns s u q ∨ (q = value &&& pteMask ∧ PageIs s q .used) ∨ ¬ PageIs s q .used := by
  have tables : ∀ q, OwnsTable s' u q → OwnsTable s u q ∨ ¬ PageIs s q .used := by
    rintro q ⟨path, valid, here⟩
    rw [set.kept.hhdm] at here
    rcases set.kept.tables path _ valid here with old | ⟨r, unused, same⟩
    · exact .inl ⟨path, valid, old⟩
    · have equal : q = r := by omega
      exact .inr (equal ▸ unused)
  have backward : ∀ q state, PageIs s' q state → ∃ before, PageIs s q before := fun q state page =>
    set.kept.pages q ⟨state, page⟩
  have value_known : ∀ state, PageIs s' (value &&& pteMask) state →
      PageIs s (value &&& pteMask) .used ∧ ¬ Owns s u (value &&& pteMask) := by
    intro state page
    rcases fits with foreign | known
    · obtain ⟨before, pageBefore⟩ := backward _ _ page
      exact absurd pageBefore (foreign before)
    · exact known
  have leaf_known : ∀ w state, lowerHalf (pml4i w) → isPresent (leaf s u w) = true →
      PageIs s' (leaf s u w &&& pteMask) state → OwnsLeaf s u (leaf s u w &&& pteMask) := by
    intro w state inside present page
    obtain ⟨before, pageBefore⟩ := backward _ _ page
    obtain ⟨rfl, _⟩ := space.leaves w before inside present pageBefore
    exact ⟨pageBefore, w, inside, present, rfl⟩
  refine ⟨⟨set.tree, set.opens space.opened, ?_, ?_⟩, ?_⟩
  · intro w state inside present page
    rw [set.leaves w inside] at present page ⊢
    split at present
    · rename_i same
      rw [if_pos same] at page ⊢
      obtain ⟨used, notOwned⟩ := value_known state page
      refine ⟨layout.page_unique page (set.kept.used _ used), ?_⟩
      intro table
      rcases tables _ table with old | unused
      · exact notOwned (.inl old)
      · exact unused used
    · rename_i different
      rw [if_neg different] at page ⊢
      have owns := leaf_known w state inside present page
      refine ⟨layout.page_unique page (set.kept.used _ owns.1), ?_⟩
      intro table
      rcases tables _ table with old | unused
      · exact (space.leaves w .used inside present owns.1).2 old
      · exact unused owns.1
  · intro w x insideW insideX presentW presentX same notForeign
    obtain ⟨state, page⟩ : ∃ state, PageIs s' (leaf s' u w &&& pteMask) state := by
      by_contra none
      exact notForeign (fun state page => none ⟨state, page⟩)
    rw [set.leaves w insideW] at presentW same page
    rw [set.leaves x insideX] at presentX same
    by_cases bitsW : pageBits w = pageBits v
    · rw [if_pos bitsW] at presentW same page
      by_cases bitsX : pageBits x = pageBits v
      · exact bitsW.trans bitsX.symm
      · rw [if_neg bitsX] at presentX same
        rw [same] at page
        have owns := leaf_known x state insideX presentX page
        exact absurd (.inr owns) (same ▸ (value_known state (same.symm ▸ page)).2)
    · rw [if_neg bitsW] at presentW same page
      have owns := leaf_known w state insideW presentW page
      by_cases bitsX : pageBits x = pageBits v
      · rw [if_pos bitsX] at presentX same
        rw [same] at owns page
        exact absurd (.inr owns) (value_known state page).2
      · rw [if_neg bitsX] at presentX same
        exact space.distinct w x insideW insideX presentW presentX same (fun foreign => foreign _ owns.1)
  · rintro q (table | ⟨page, w, inside, present, rfl⟩)
    · rcases tables q table with old | unused
      · exact .inl (.inl old)
      · exact .inr (.inr unused)
    · rw [set.leaves w inside] at present page ⊢
      split at present
      · rename_i same
        rw [if_pos same] at page ⊢
        exact .inr (.inl ⟨rfl, (value_known _ page).1⟩)
      · rename_i different
        rw [if_neg different] at page ⊢
        exact .inl (.inr (leaf_known w _ inside present page))

end Frame

end EvalynOS.Vmm
