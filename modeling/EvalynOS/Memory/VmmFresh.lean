import EvalynOS.Memory.VmmRuns

/-! Loops that allocate a page and map it, address after address, as malloc, sys_mmap and
the stack of a new process do. -/
namespace EvalynOS.Vmm
open Lib Lib.Word Pmm

/- One round of such a loop. -/
def mapNewPage (s : Phys) (topLevel virt flags : Nat) : Except Panic Phys := do
  let (page, s) ← allocatePage s
  vmmMapPage s topLevel virt page flags

def mapNewPages (topLevel flags : Nat) : List Nat → Phys → Except Panic Phys
  | [], s => .ok s
  | virt :: rest, s => do
    let s ← mapNewPage s topLevel virt flags
    mapNewPages topLevel flags rest s

section Agree

variable {s s' : Phys} {top : Nat} {region : Nat → Prop} {list list' : List Nat}

/-- A tree is what its tables hold. -/
theorem Tree.agree (tree : Tree s top region) (hhdm : s'.hhdmOffset = s.hhdmOffset)
    (used : ∀ path q, Valid region path → descend (child s) top path = some (q + s.hhdmOffset) →
      PageIs s q .used → PageIs s' q .used)
    (same : ∀ path t, Valid region path → descend (child s) top path = some t →
      ∀ i < 512, pte s' t i = pte s t i) :
    Tree s' top region ∧
      (∀ path, Valid region path → descend (child s') top path = descend (child s) top path) ∧
      (Open s top region → Open s' top region) ∧
      ∀ v, region (pml4i v) → leaf s' top v = leaf s top v := by
  have lookup : ∀ path, Valid region path →
      descend (child s') top path = descend (child s) top path := by
    intro path valid
    apply descend_congr
    intro before i after t split here
    have validBefore : Valid region before := valid_closed region before (i :: after) (split ▸ valid)
    have bound : i < 512 := valid.2.1 i (by rw [split]; simp)
    exact child_congr hhdm (same before t validBefore here i bound)
  refine ⟨⟨?_, ?_⟩, lookup, ?_, ?_⟩
  · intro left right t validLeft validRight toLeft toRight
    rw [lookup left validLeft] at toLeft
    rw [lookup right validRight] at toRight
    exact tree.separated left right t validLeft validRight toLeft toRight
  · intro path t valid here
    rw [lookup path valid] at here
    obtain ⟨q, usedQ, rfl⟩ := tree.frames path t valid here
    exact ⟨q, used path q valid here usedQ, by rw [hhdm]⟩
  · intro opened path i t valid here present
    have validPath := valid_closed region path [i] valid
    rw [lookup path validPath] at here
    rw [same path t validPath here i (valid_index valid).1] at present ⊢
    exact opened path i t valid here present
  · intro v inside
    have valid := valid_pathOf inside
    unfold leaf
    rw [lookup _ valid]
    cases here : descend (child s) top (pathOf v) with
    | none => rfl
    | some t => exact same _ t valid here _ (pml_lt v).1

/-- Whatever leaves the pages in use alone leaves a tree alone. -/
theorem Tree.frame (tree : Tree s top region) (hhdm : s'.hhdmOffset = s.hhdmOffset)
    (used : ∀ q, PageIs s q .used → PageIs s' q .used)
    (mem : ∀ path q, Valid region path → descend (child s) top path = some (q + s.hhdmOffset) →
      PageIs s q .used → ∀ a, InFrame s q a → s'.mem a = s.mem a) :
    Tree s' top region ∧
      (∀ path, Valid region path → descend (child s') top path = descend (child s) top path) ∧
      (Open s top region → Open s' top region) ∧
      ∀ v, region (pml4i v) → leaf s' top v = leaf s top v := by
  apply tree.agree hhdm (fun _ q _ _ usedQ => used q usedQ)
  intro path t valid here i bound
  obtain ⟨q, usedQ, rfl⟩ := tree.frames path t valid here
  exact mem path q valid here usedQ _ (slot_inFrame s q bound)

/-- Only the tables of the addresses matter for what is missing. -/
theorem missingTables_congr {virts : List Nat} (inside : ∀ v ∈ virts, region (pml4i v))
    (lookup : ∀ path, Valid region path → descend (child s') top path = descend (child s) top path) :
    missingTables s' top virts = missingTables s top virts := by
  apply Finset.filter_congr
  intro path member
  obtain ⟨v, inVirts, here⟩ := List.mem_flatMap.mp (List.mem_toFinset.mp member)
  rw [lookup path (valid_tablePaths (inside v inVirts) here)]

theorem TablesMade.refl (s : Phys) (top : Nat) (region : Nat → Prop) : TablesMade s s top region [] 0 where
  tables := by simp
  cost := by simp [missingTables]

/-- A page taken before the tables are made. -/
theorem TablesMade.after {virts : List Nat} {s₁ : Phys} {data : Nat}
    (inside : ∀ v ∈ virts, region (pml4i v))
    (lookup : ∀ path, Valid region path → descend (child s₁) top path = descend (child s) top path)
    (taken : s₁.usedPages = s.usedPages + 1) (made : TablesMade s₁ s' top region virts data) :
    TablesMade s s' top region virts (data + 1) where
  tables := by
    intro path valid
    rw [made.tables path valid, lookup path valid]
  cost := by
    rw [made.cost, missingTables_congr inside lookup, taken]
    omega

theorem missingTables_cons {s₁ : Phys} {v data : Nat} {rest : List Nat}
    (inside : ∀ w ∈ v :: rest, region (pml4i w)) (first : TablesMade s s₁ top region [v] data) :
    (missingTables s top (v :: rest)).card =
      (missingTables s top [v]).card + (missingTables s₁ top rest).card := by
  have whole : missingTables s top (v :: rest) =
      missingTables s top [v] ∪ missingTables s₁ top rest := by
    ext path
    rw [Finset.mem_union, mem_missingTables, mem_missingTables, mem_missingTables]
    simp only [List.flatMap_cons, List.flatMap_nil, List.append_nil, List.mem_append]
    constructor
    · rintro ⟨here | there, gone⟩
      · exact .inl ⟨here, gone⟩
      · by_cases here : path ∈ tablePaths v
        · exact .inl ⟨here, gone⟩
        · obtain ⟨w, inRest, ofW⟩ := List.mem_flatMap.mp there
          have valid := valid_tablePaths (inside w (List.mem_cons_of_mem _ inRest)) ofW
          refine .inr ⟨there, (first.tables path valid).mpr ⟨gone, ?_⟩⟩
          simpa using here
    · rintro (⟨here, gone⟩ | ⟨there, gone⟩)
      · exact ⟨.inl here, gone⟩
      · obtain ⟨w, inRest, ofW⟩ := List.mem_flatMap.mp there
        have valid := valid_tablePaths (inside w (List.mem_cons_of_mem _ inRest)) ofW
        exact ⟨.inr there, ((first.tables path valid).mp gone).1⟩
  rw [whole, Finset.card_union_of_disjoint]
  rw [Finset.disjoint_left]
  intro path inFirst inRest
  obtain ⟨here, _⟩ := mem_missingTables.mp inFirst
  obtain ⟨there, gone⟩ := mem_missingTables.mp inRest
  obtain ⟨w, member, ofW⟩ := List.mem_flatMap.mp there
  have valid := valid_tablePaths (inside w (List.mem_cons_of_mem _ member)) ofW
  exact ((first.tables path valid).mp gone).2 here

theorem missingTables_mono (s : Phys) (top v : Nat) (rest : List Nat) :
    (missingTables s top [v]).card ≤ (missingTables s top (v :: rest)).card := by
  apply Finset.card_le_card
  intro path member
  rw [mem_missingTables] at member ⊢
  refine ⟨?_, member.2⟩
  simp only [List.flatMap_cons, List.flatMap_nil, List.append_nil, List.mem_append] at *
  exact .inl member.1

/-- The tables of one address are made, then those of the others. -/
theorem TablesMade.cons {s₁ : Phys} {v one two : Nat} {rest : List Nat}
    (inside : ∀ w ∈ v :: rest, region (pml4i w)) (first : TablesMade s s₁ top region [v] one)
    (later : TablesMade s₁ s' top region rest two) :
    TablesMade s s' top region (v :: rest) (one + two) := by
  refine ⟨?_, ?_⟩
  · intro path valid
    rw [later.tables path valid, first.tables path valid]
    simp only [List.flatMap_cons, List.flatMap_nil, List.append_nil, List.mem_append, not_or]
    exact and_assoc
  · rw [later.cost, first.cost, missingTables_cons inside first]
    omega

end Agree

/-- The result of mapping a new page at each address of a list. -/
structure Mapped (s s' : Phys) (top : Nat) (region : Nat → Prop) (virts : List Nat) (flags : Nat) :
    Prop where
  tree : Tree s' top region
  kept : Kept s s' top region
  opens : Open s top region → Open s' top region
  others : ∀ w, region (pml4i w) → (∀ v ∈ virts, pageBits w ≠ pageBits v) →
    leaf s' top w = leaf s top w
  mapped : ∀ v ∈ virts, ∃ p, leaf s' top v = p ||| (ptePresent ||| flags) ∧ PageIs s' p .used ∧
    ¬ PageIs s p .used ∧ (∀ a, InFrame s p a → s'.mem a = 0) ∧
    ∀ path, Valid region path → descend (child s') top path ≠ some (p + s.hhdmOffset)
  distinct : ∀ v ∈ virts, ∀ w ∈ virts, pageBits v ≠ pageBits w →
    ∃ p q, p ≠ q ∧ leaf s' top v = p ||| (ptePresent ||| flags) ∧
      leaf s' top w = q ||| (ptePresent ||| flags) ∧ PageIs s' p .used ∧ PageIs s' q .used
  made : TablesMade s s' top region virts virts.length

section Loop

variable {s : Phys} {top flags : Nat} {region : Nat → Prop} {list : List Nat}

theorem Mapped.refl (tree : Tree s top region) : Mapped s s top region [] flags where
  tree := tree
  kept := Kept.refl s top region
  opens := id
  others := fun _ _ _ => rfl
  mapped := fun _ member => absurd member List.not_mem_nil
  distinct := fun _ member => absurd member List.not_mem_nil
  made := TablesMade.refl s top region

/-- One round: a page `p` that was not in use, and is no table, is mapped at `v`. -/
structure NewPage (s s' : Phys) (top : Nat) (region : Nat → Prop) (v flags p : Nat) : Prop where
  tree : Tree s' top region
  kept : Kept s s' top region
  opens : Open s top region → Open s' top region
  others : ∀ w, region (pml4i w) → pageBits w ≠ pageBits v → leaf s' top w = leaf s top w
  entry : leaf s' top v = p ||| (ptePresent ||| flags)
  used : PageIs s' p .used
  unused : ¬ PageIs s p .used
  zero : ∀ a, InFrame s p a → s'.mem a = 0
  notTable : ∀ path, Valid region path → descend (child s') top path ≠ some (p + s.hhdmOffset)
  made : TablesMade s s' top region [v] 1

theorem newPage_outcome (inv : Inv s list) (tree : Tree s top region) {v : Nat}
    (inside : region (pml4i v)) :
    (∃ p s₁ s' list', allocatePage s = .ok (p, s₁) ∧ vmmMapPage s₁ top v p flags = .ok s' ∧
      Inv s' list' ∧ NewPage s s' top region v flags p) ∨
      (mapNewPage s top v flags = .error .outOfMemory ∧
        s.totalPages < s.usedPages + 1 + (missingTables s top [v]).card) := by
  have insideAll : ∀ w ∈ [v], region (pml4i w) := fun w member => List.mem_singleton.mp member ▸ inside
  rcases allocatePage_outcome inv with ⟨p, s₁, list₁, returned, inv₁, allocated⟩ | ⟨failed, full⟩
  · obtain ⟨state, page, unused⟩ := allocated.fresh
    obtain ⟨aligned, _, _, physical⟩ := inv.layout.page_bounds page
    have notUsed : ¬ PageIs s p .used := fun used => unused (inv.layout.page_unique page used)
    have usedP : PageIs s₁ p .used := (allocated.owned p).mpr (.inl rfl)
    have hhdm := allocated.hhdm
    obtain ⟨tree₁, lookup, opens₁, leaves₁⟩ := tree.frame hhdm
      (fun q used => (allocated.owned q).mpr (.inr used)) (fun _ q _ _ used => allocated.frame q used)
    rcases vmmMapPage_outcome inv₁ tree₁ inside p flags with ⟨s₂, list₂, ran, inv₂, set, made⟩ | ⟨failed, full⟩
    · left
      have notTable₁ : ∀ path, Valid region path → descend (child s₁) top path ≠ some (p + s₁.hhdmOffset) := by
        intro path valid here
        rw [lookup path valid, hhdm] at here
        obtain ⟨q, used, same⟩ := tree.frames path _ valid here
        have equal : p = q := by omega
        exact notUsed (equal ▸ used)
      have topEntries : ∀ j, j < 512 → pte s₁ top j = pte s top j := by
        intro j bound
        obtain ⟨q, used, rfl⟩ := tree.frames [] top (valid_closed region [] _ (valid_pathOf inside)) rfl
        exact allocated.frame q used _ (slot_inFrame s q bound)
      have kept₁ : Kept s s₁ top region :=
        ⟨hhdm, allocated.total, fun q => (allocated.pages q).mp,
          fun q used => (allocated.owned q).mpr (.inr used),
          fun q used _ => allocated.frame q used, fun j bound _ => topEntries j bound,
          fun path t valid here => .inl (lookup path valid ▸ here)⟩
      have masked := page_mask aligned physical
      refine ⟨p, s₁, s₂, list₂, returned, ran, inv₂, ?_⟩
      refine ⟨set.tree, kept₁.trans set.kept, fun opened => set.opens (opens₁ opened), ?_, ?_,
        set.kept.used p usedP, notUsed, ?_, ?_, made.after insideAll lookup allocated.usedPages⟩
      · intro w insideW different
        rw [set.leaves w insideW, if_neg different]
        exact leaves₁ w insideW
      · rw [set.leaves v inside, if_pos rfl, masked]
      · intro a inP
        rw [set.kept.mem p usedP notTable₁ a (by unfold InFrame; rw [hhdm]; exact inP)]
        exact allocated.zero a inP
      · intro path valid here
        rcases set.kept.tables path _ valid here with old | ⟨q, free, same⟩
        · exact notTable₁ path valid (hhdm.symm ▸ old)
        · rw [hhdm] at same
          have equal : p = q := by omega
          exact free (equal ▸ usedP)
    · right
      have one := allocated.usedPages
      have total := allocated.total
      rw [missingTables_congr insideAll lookup] at full
      refine ⟨?_, by omega⟩
      simp only [mapNewPage, returned, bind, Except.bind]
      exact failed
  · right
    refine ⟨?_, by omega⟩
    simp only [mapNewPage, failed, bind, Except.bind]

theorem NewPage.mapped {s' : Phys} {v p : Nat} (new : NewPage s s' top region v flags p) :
    Mapped s s' top region [v] flags where
  tree := new.tree
  kept := new.kept
  opens := new.opens
  others := fun w inside different => new.others w inside (different v List.mem_cons_self)
  mapped := by
    intro w member
    cases List.mem_singleton.mp member
    exact ⟨p, new.entry, new.used, new.unused, new.zero, new.notTable⟩
  distinct := by
    intro w inW u inU different
    cases List.mem_singleton.mp inW
    cases List.mem_singleton.mp inU
    exact absurd rfl different
  made := new.made

/-- Rounds one after the other. -/
theorem Mapped.cons {s₁ s₂ : Phys} {v : Nat} {rest : List Nat}
    (inside : ∀ w ∈ v :: rest, region (pml4i w))
    (one : Mapped s s₁ top region [v] flags) (two : Mapped s₁ s₂ top region rest flags) :
    Mapped s s₂ top region (v :: rest) flags := by
  have hhdm := one.kept.hhdm
  -- the page of an address is mapped for the last time in the first round or in a later one
  have place : ∀ w ∈ v :: rest, (∃ u ∈ rest, pageBits w = pageBits u ∧ leaf s₂ top w = leaf s₂ top u) ∨
      (w = v ∧ leaf s₂ top v = leaf s₁ top v) := by
    intro w member
    by_cases later : ∃ u ∈ rest, pageBits w = pageBits u
    · obtain ⟨u, inRest, same⟩ := later
      exact .inl ⟨u, inRest, same, leaf_congr same⟩
    · have isFirst : w = v := by
        rcases List.mem_cons.mp member with first | inRest
        · exact first
        · exact absurd ⟨w, inRest, rfl⟩ later
      subst isFirst
      refine .inr ⟨rfl, two.others w (inside w List.mem_cons_self) ?_⟩
      exact fun u inRest same => later ⟨u, inRest, same⟩
  refine ⟨two.tree, one.kept.trans two.kept, fun opened => two.opens (one.opens opened), ?_, ?_, ?_, ?_⟩
  · intro w insideW different
    rw [two.others w insideW (fun u member => different u (List.mem_cons_of_mem _ member))]
    apply one.others w insideW
    intro u member
    cases List.mem_singleton.mp member
    exact different _ List.mem_cons_self
  · intro w member
    rcases place w member with ⟨u, inRest, _, leaves⟩ | ⟨rfl, first⟩
    · obtain ⟨p, entry, used, free, zero, notTable⟩ := two.mapped u inRest
      refine ⟨p, leaves.trans entry, used, fun before => free (one.kept.used p before), ?_, ?_⟩
      · intro a inP
        exact zero a (by unfold InFrame; rw [hhdm]; exact inP)
      · rw [hhdm] at notTable
        exact notTable
    · obtain ⟨p, entry, used, free, zero, notTable⟩ := one.mapped w List.mem_cons_self
      refine ⟨p, first.trans entry, two.kept.used p used, free, ?_, ?_⟩
      · intro a inP
        rw [two.kept.mem p used (hhdm.symm ▸ notTable) a (by unfold InFrame; rw [hhdm]; exact inP)]
        exact zero a inP
      · intro path valid here
        rcases two.kept.tables path _ valid here with old | ⟨q, unused, same⟩
        · exact notTable path valid old
        · rw [hhdm] at same
          have equal : p = q := by omega
          exact unused (equal ▸ used)
  · intro w inW u inU different
    obtain ⟨p, entryV, usedV, _⟩ := one.mapped v List.mem_cons_self
    rcases place w inW with ⟨w', inRest, sameW, leavesW⟩ | ⟨rfl, first⟩
    · rcases place u inU with ⟨u', inRest', sameU, leavesU⟩ | ⟨rfl, first⟩
      · rw [leavesW, leavesU]
        exact two.distinct w' inRest u' inRest' (fun same => different (sameW.trans (same.trans sameU.symm)))
      · obtain ⟨q, entry, used, free, _⟩ := two.mapped w' inRest
        refine ⟨q, p, ?_, leavesW.trans entry, first.trans entryV, used, two.kept.used p usedV⟩
        rintro rfl
        exact free usedV
    · rcases place u inU with ⟨u', inRest', _, leavesU⟩ | ⟨rfl, _⟩
      · obtain ⟨q, entry, used, free, _⟩ := two.mapped u' inRest'
        refine ⟨p, q, ?_, first.trans entryV, leavesU.trans entry, two.kept.used p usedV, used⟩
        rintro rfl
        exact free usedV
      · exact absurd rfl different
  · have made := one.made.cons inside two.made
    rwa [List.length_singleton, Nat.add_comm, ← List.length_cons] at made

theorem mapNewPages_outcome (virts : List Nat) (inv : Inv s list) (tree : Tree s top region)
    (inside : ∀ v ∈ virts, region (pml4i v)) :
    (∃ s' list', mapNewPages top flags virts s = .ok s' ∧ Inv s' list' ∧
      Mapped s s' top region virts flags) ∨
    (mapNewPages top flags virts s = .error .outOfMemory ∧
      s.totalPages < s.usedPages + virts.length + (missingTables s top virts).card) := by
  induction virts generalizing s list with
  | nil => exact .inl ⟨s, list, rfl, inv, Mapped.refl tree⟩
  | cons v rest ih =>
    rcases @newPage_outcome s top flags region list inv tree v (inside v List.mem_cons_self) with
      ⟨p, s₀, s₁, list₁, returned, mapped, inv₁, new⟩ | ⟨failed, full⟩
    · have one := new.mapped
      have ran : mapNewPage s top v flags = .ok s₁ := by
        simp only [mapNewPage, returned, bind, Except.bind]
        exact mapped
      rcases ih inv₁ one.tree (fun w member => inside w (List.mem_cons_of_mem _ member)) with
        ⟨s₂, list₂, ran₂, inv₂, two⟩ | ⟨failed, full⟩
      · refine .inl ⟨s₂, list₂, ?_, inv₂, one.cons inside two⟩
        simp only [mapNewPages, ran, bind, Except.bind]
        exact ran₂
      · right
        have cost := one.made.cost
        have total := one.kept.total
        have split := missingTables_cons inside one.made
        simp only [List.length_cons, List.length_nil] at *
        refine ⟨?_, by omega⟩
        simp only [mapNewPages, ran, bind, Except.bind]
        exact failed
    · right
      have some_ := missingTables_mono s top v rest
      simp only [List.length_cons]
      refine ⟨?_, by omega⟩
      simp only [mapNewPages, failed, bind, Except.bind]

end Loop

end EvalynOS.Vmm
