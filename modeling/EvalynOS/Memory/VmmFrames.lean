import EvalynOS.Memory.VmmUser

/-! The pages in use as a finite set. Its size is the allocator's counter, so that what an
operation takes can be told from what it counts: the pages that vmm_map_page takes are the
tables it makes. -/
namespace EvalynOS.Vmm
open Lib Lib.Word Pmm

section Frames

variable {s s' : Phys} {q : Nat}

/- The pages of one PFN table in a state. -/
def tablePages (c : ChildTable) (state : PageState) : List Nat :=
  ((List.range c.pages.length).filter (fun i => c.pages[i]? = some state)).map (fun i => c.start + pageSize * i)

def usedFrames (s : Phys) : Finset Nat := (s.tables.flatMap (fun c => tablePages c .used)).toFinset

theorem length_positions (l : List PageState) (state : PageState) :
    ((List.range l.length).filter (fun i => l[i]? = some state)).length = l.count state := by
  induction l with
  | nil => rfl
  | cons x l ih =>
    rw [List.length_cons, List.range_succ_eq_map, List.filter_cons, List.filter_map, List.count_cons]
    have rest : (List.filter ((fun i => decide ((x :: l)[i]? = some state)) ∘ Nat.succ) (List.range l.length)).length =
        l.count state := by
      rw [← ih]
      rfl
    by_cases here : x = state
    · subst here
      simp [rest]
    · simp [here, rest]

theorem mem_tablePages {c : ChildTable} {state : PageState} :
    q ∈ tablePages c state ↔ ∃ i, c.pages[i]? = some state ∧ q = c.start + pageSize * i := by
  simp only [tablePages, List.mem_map, List.mem_filter, List.mem_range, decide_eq_true_eq]
  constructor
  · rintro ⟨i, ⟨_, entry⟩, rfl⟩
    exact ⟨i, entry, rfl⟩
  · rintro ⟨i, entry, rfl⟩
    obtain ⟨bound, _⟩ := List.getElem?_eq_some_iff.mp entry
    exact ⟨i, ⟨bound, entry⟩, rfl⟩

theorem mem_usedFrames : q ∈ usedFrames s ↔ PageIs s q .used := by
  simp only [usedFrames, List.mem_toFinset, List.mem_flatMap, mem_tablePages]
  constructor
  · rintro ⟨c, member, i, entry, rfl⟩
    obtain ⟨t, here⟩ := List.mem_iff_getElem?.mp member
    exact ⟨t, c, i, here, entry, rfl⟩
  · rintro ⟨t, c, i, here, entry, rfl⟩
    exact ⟨c, List.mem_of_getElem? here, i, entry, rfl⟩

theorem nodup_usedFrames (layout : Layout s.hhdmOffset s.tables) :
    (s.tables.flatMap (fun c => tablePages c .used)).Nodup := by
  rw [List.nodup_flatMap]
  constructor
  · intro c _
    refine List.Nodup.map ?_ (List.nodup_range.filter _)
    intro i j same
    simp only [pageSize] at same
    omega
  · rw [List.pairwise_iff_getElem]
    intro t u boundT boundU order q inT inU
    obtain ⟨i, entry, rfl⟩ := mem_tablePages.mp inT
    obtain ⟨j, entry', same⟩ := mem_tablePages.mp inU
    have first := List.getElem?_eq_getElem boundT
    have second := List.getElem?_eq_getElem boundU
    have places := layout.place_unique first second (layout.entry first entry) (layout.entry second entry') same
    omega

/-- The counter of the allocator. -/
theorem card_usedFrames {list : List Nat} (inv : Inv s list) : (usedFrames s).card = s.usedPages := by
  rw [usedFrames, List.toFinset_card_of_nodup (nodup_usedFrames inv.layout), inv.used, Phys.count,
    List.length_flatMap]
  congr 1
  apply List.map_congr_left
  intro c _
  rw [tablePages, List.length_map]
  exact length_positions c.pages .used

/-- The same pages are in use, so the counter is the same. -/
theorem usedPages_eq {list list' : List Nat} (inv : Inv s list) (inv' : Inv s' list')
    (same : ∀ q, PageIs s' q .used ↔ PageIs s q .used) : s'.usedPages = s.usedPages := by
  rw [← card_usedFrames inv, ← card_usedFrames inv']
  congr 1
  ext q
  rw [mem_usedFrames, mem_usedFrames, same]

end Frames

section Made

variable {s s' : Phys} {top : Nat} {region : Nat → Prop} {virts list list' : List Nat}

/- The page of the table at a path. -/
def tableFrame (s : Phys) (top : Nat) (path : List Nat) : Nat := (descend (child s) top path).getD 0 - s.hhdmOffset

/-- A table that was missing is in a page that was not in use. -/
theorem TablesMade.new_table (kept : Kept s s' top region) (tree : Tree s' top region)
    (made : TablesMade s s' top region virts 0) (inside : ∀ v ∈ virts, region (pml4i v)) {path : List Nat}
    (member : path ∈ missingTables s top virts) :
    Valid region path ∧ descend (child s') top path = some (tableFrame s' top path + s.hhdmOffset) ∧
      PageIs s' (tableFrame s' top path) .used ∧ ¬ PageIs s (tableFrame s' top path) .used := by
  obtain ⟨inVirts, gone⟩ := mem_missingTables.mp member
  obtain ⟨v, inList, ofV⟩ := List.mem_flatMap.mp inVirts
  have valid := valid_tablePaths (inside v inList) ofV
  cases here : descend (child s') top path with
  | none => exact absurd inVirts ((made.tables path valid).mp here).2
  | some t =>
    obtain ⟨q, used, address⟩ := tree.frames path t valid here
    have frame : tableFrame s' top path = q := by
      unfold tableFrame
      rw [here, Option.getD_some, address]
      omega
    rw [frame]
    rcases kept.tables path t valid here with old | ⟨r, unused, same⟩
    · rw [gone] at old
      cases old
    · have hhdm := kept.hhdm
      have equal : q = r := by omega
      exact ⟨valid, by rw [address, hhdm], used, equal ▸ unused⟩

/-- The pages taken are those of the tables made. -/
theorem TablesMade.taken (inv : Inv s list) (inv' : Inv s' list') (kept : Kept s s' top region)
    (tree : Tree s' top region) (made : TablesMade s s' top region virts 0)
    (inside : ∀ v ∈ virts, region (pml4i v)) :
    (missingTables s top virts).image (tableFrame s' top) = usedFrames s' \ usedFrames s := by
  have subset : usedFrames s ⊆ usedFrames s' := by
    intro q member
    exact mem_usedFrames.mpr (kept.used q (mem_usedFrames.mp member))
  apply Finset.eq_of_subset_of_card_le
  · intro q member
    obtain ⟨path, missing, rfl⟩ := Finset.mem_image.mp member
    obtain ⟨_, _, used, unused⟩ := made.new_table kept tree inside missing
    rw [Finset.mem_sdiff, mem_usedFrames, mem_usedFrames]
    exact ⟨used, unused⟩
  · have injective : Set.InjOn (tableFrame s' top) (missingTables s top virts) := by
      intro left inLeft right inRight same
      obtain ⟨validLeft, toLeft, _⟩ := made.new_table kept tree inside inLeft
      obtain ⟨validRight, toRight, _⟩ := made.new_table kept tree inside inRight
      rw [← same] at toRight
      exact tree.separated left right _ validLeft validRight toLeft toRight
    have cost := made.cost
    rw [Finset.card_image_of_injOn injective, Finset.card_sdiff_of_subset subset, card_usedFrames inv,
      card_usedFrames inv']
    omega

/-- A table that was there stays where it is. -/
theorem TablesMade.old_table (inv : Inv s list) (inv' : Inv s' list') (kept : Kept s s' top region)
    (tree : Tree s' top region) (made : TablesMade s s' top region virts 0)
    (inside : ∀ v ∈ virts, region (pml4i v)) {path : List Nat} {t : Nat} (valid : Valid region path)
    (here : descend (child s) top path = some t) : descend (child s') top path = some t := by
  cases after : descend (child s') top path with
  | none =>
    rw [((made.tables path valid).mp after).1] at here
    cases here
  | some t' =>
    rcases kept.tables path t' valid after with old | ⟨r, unused, same⟩
    · exact old.symm.trans here
    · -- the page of a new table has only the path of that table
      obtain ⟨q, used, address⟩ := tree.frames path t' valid after
      have hhdm := kept.hhdm
      have equal : q = r := by omega
      have new : r ∈ usedFrames s' \ usedFrames s := by
        rw [Finset.mem_sdiff, mem_usedFrames, mem_usedFrames]
        exact ⟨equal ▸ used, unused⟩
      rw [← made.taken inv inv' kept tree inside] at new
      obtain ⟨other, missing, frame⟩ := Finset.mem_image.mp new
      obtain ⟨validOther, toOther, _⟩ := made.new_table kept tree inside missing
      rw [frame, ← same] at toOther
      have samePath := tree.separated other path t' validOther valid toOther after
      rw [← samePath, (mem_missingTables.mp missing).2] at here
      cases here

/-- The tables of a process after a mapping: the old ones, and one in each page taken. -/
theorem ownsTable_mapped (inv : Inv s list) (inv' : Inv s' list') {v value : Nat}
    (set : LeafSet s s' top lowerHalf v value) (made : TablesMade s s' top lowerHalf [v] 0)
    (inside : lowerHalf (pml4i v)) (q : Nat) :
    OwnsTable s' top q ↔ OwnsTable s top q ∨ (PageIs s' q .used ∧ ¬ PageIs s q .used) := by
  have insideAll : ∀ w ∈ [v], lowerHalf (pml4i w) := fun w member => List.mem_singleton.mp member ▸ inside
  have hhdm := set.kept.hhdm
  constructor
  · rintro ⟨path, valid, here⟩
    obtain ⟨r, used, address⟩ := set.tree.frames path _ valid here
    have isQ : q = r := by omega
    rcases set.kept.tables path _ valid here with old | ⟨p, unused, same⟩
    · exact .inl ⟨path, valid, by rw [← hhdm]; exact old⟩
    · have equal : q = p := by omega
      exact .inr ⟨isQ ▸ used, equal ▸ unused⟩
  · rintro (⟨path, valid, here⟩ | ⟨used, unused⟩)
    · refine ⟨path, valid, ?_⟩
      rw [hhdm]
      exact made.old_table inv inv' set.kept set.tree insideAll valid here
    · have new : q ∈ usedFrames s' \ usedFrames s := by
        rw [Finset.mem_sdiff, mem_usedFrames, mem_usedFrames]
        exact ⟨used, unused⟩
      rw [← made.taken inv inv' set.kept set.tree insideAll] at new
      obtain ⟨path, missing, frame⟩ := Finset.mem_image.mp new
      obtain ⟨valid, here, _⟩ := made.new_table set.kept set.tree insideAll missing
      refine ⟨path, valid, ?_⟩
      rw [here, frame, hhdm]

end Made

end EvalynOS.Vmm
