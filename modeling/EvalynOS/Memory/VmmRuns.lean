import EvalynOS.Memory.PmmRuns
import EvalynOS.Memory.VmmTree

/-! vmm_map_page and vmm_unmap_page update one entry of a finite map, and the rights of a
user mapping are those of its leaf entry. -/
namespace EvalynOS.Vmm
open Lib Lib.Word Pmm

section Operations

variable {s : Phys} {top : Nat} {region : Nat → Prop} {list : List Nat}

/-- The effect of an operation that sets the leaf entry of one address. -/
structure LeafSet (s s' : Phys) (top : Nat) (region : Nat → Prop) (v value : Nat) : Prop where
  tree : Tree s' top region
  kept : Kept s s' top region
  opens : Open s top region → Open s' top region
  leaves : ∀ w, region (pml4i w) →
    leaf s' top w = if pageBits w = pageBits v then value else leaf s top w

theorem writeEntry_eq (s : Phys) (t i phys flags : Nat) :
    writeEntry s t i phys flags = setPte s t i (phys &&& pteMask ||| flags) := by
  simp only [writeEntry, setPte_setPte, pte_setPte]

/-- Each missing table took one page and no other table is new; `data` more pages were taken. -/
structure TablesMade (s s' : Phys) (top : Nat) (region : Nat → Prop) (virts : List Nat) (data : Nat) :
    Prop where
  tables : ∀ path, Valid region path → (descend (child s') top path = none ↔
    descend (child s) top path = none ∧ path ∉ virts.flatMap tablePaths)
  cost : s'.usedPages = s.usedPages + data + (missingTables s top virts).card

theorem vmmMapPage_outcome (inv : Inv s list) (tree : Tree s top region) {v : Nat}
    (inside : region (pml4i v)) (p flags : Nat) :
    (∃ s' list', vmmMapPage s top v p flags = .ok s' ∧ Inv s' list' ∧
      LeafSet s s' top region v (p &&& pteMask ||| (ptePresent ||| flags)) ∧
      TablesMade s s' top region [v] 0) ∨
      (vmmMapPage s top v p flags = .error .outOfMemory ∧
        s.totalPages < s.usedPages + (missingTables s top [v]).card) := by
  have validPath := valid_pathOf inside
  have valid4 : Valid region ([] ++ [pml4i v]) := valid_closed region [pml4i v] _ validPath
  have valid3 : Valid region ([pml4i v] ++ [pml3i v]) :=
    valid_closed region [pml4i v, pml3i v] _ validPath
  have valid2 : Valid region ([pml4i v, pml3i v] ++ [pml2i v]) := validPath
  have small : pageSize ≠ jumboPageSize ∧ pageSize ≠ largePageSize := by decide
  have missing := card_missingTables s top v
  unfold vmmMapPage vmmMapPageSized
  simp only [if_neg small.1, if_neg small.2, bind, Except.bind]
  rcases ensureTable_outcome inv tree valid4 rfl with
    ⟨s₁, list₁, t₃, ran₁, inv₁, to₁, at₁⟩ | ⟨failed, full, gone⟩
  · simp only [ran₁, at₁]
    have cost₁ := to₁.cost
    have total₁ := to₁.kept.total
    have second : descend (child s₁) top [pml4i v, pml3i v] = descend (child s) top [pml4i v, pml3i v] :=
      (to₁.lookup _ valid3).trans (if_neg (by simp))
    have third : descend (child s₁) top [pml4i v, pml3i v, pml2i v] =
        descend (child s) top [pml4i v, pml3i v, pml2i v] :=
      (to₁.lookup _ validPath).trans (if_neg (by simp [pathOf]))
    rcases ensureTable_outcome inv₁ to₁.tree valid3 to₁.reached with
      ⟨s₂, list₂, t₂, ran₂, inv₂, to₂, at₂⟩ | ⟨failed, full, gone⟩
    · simp only [ran₂, at₂]
      have cost₂ := to₂.cost
      have total₂ := to₂.kept.total
      have third₂ : descend (child s₂) top [pml4i v, pml3i v, pml2i v] =
          descend (child s₁) top [pml4i v, pml3i v, pml2i v] :=
        (to₂.lookup _ validPath).trans (if_neg (by simp [pathOf]))
      rcases ensureTable_outcome inv₂ to₂.tree valid2 to₂.reached with
        ⟨s₃, list₃, t₁, ran₃, inv₃, to₃, at₃⟩ | ⟨failed, full, gone⟩
      · simp only [ran₃, at₃, writeEntry_eq]
        have cost₃ := to₃.cost
        obtain ⟨inv', tree', kept', opens', leaves', lookup'⟩ := setLeaf_spec inv₃ to₃.tree inside
          to₃.reached (p &&& pteMask ||| (ptePresent ||| flags))
        refine .inl ⟨_, list₃, rfl, inv', ⟨tree', ?_, ?_, ?_⟩, ?_, ?_⟩
        · exact ((to₁.kept.trans to₂.kept).trans to₃.kept).trans kept'
        · exact fun opened => opens' (to₃.opens (to₂.opens (to₁.opens opened)))
        · intro w insideW
          rw [leaves' w insideW, to₃.leaves w insideW, to₂.leaves w insideW, to₁.leaves w insideW]
        · intro path valid
          rw [lookup' path valid, to₃.lookup path valid, to₂.lookup path valid, to₁.lookup path valid]
          simp only [List.flatMap_cons, List.flatMap_nil, List.append_nil, tablePaths, List.mem_cons,
            List.not_mem_nil, or_false, not_or, List.nil_append, List.cons_append]
          split
          · rename_i same
            simp [same]
          · split
            · rename_i same
              simp [same]
            · split
              · rename_i same
                simp [same]
              · rename_i notThree notTwo notOne
                simp [notThree, notTwo, notOne]
        · have used : (setPte s₃ t₁ (pml1i v) (p &&& pteMask ||| (ptePresent ||| flags))).usedPages =
            s₃.usedPages := rfl
          simp only [List.nil_append, List.cons_append] at cost₁ cost₂ cost₃
          rw [used, cost₃, cost₂, cost₁, missing, third₂, third, second]
          omega
      · right
        refine ⟨by simp only [failed], ?_⟩
        simp only [List.nil_append, List.cons_append] at cost₁ cost₂ gone
        rw [third₂, third] at gone
        rw [second] at cost₂
        have one : absent (descend (child s) top [pml4i v, pml3i v, pml2i v]) = 1 := congrArg absent gone
        omega
    · right
      refine ⟨by simp only [failed], ?_⟩
      simp only [List.nil_append, List.cons_append] at cost₁ gone
      rw [second] at gone
      have one : absent (descend (child s) top [pml4i v, pml3i v]) = 1 := congrArg absent gone
      omega
  · right
    refine ⟨by simp only [failed], ?_⟩
    simp only [List.nil_append] at gone
    have one : absent (descend (child s) top [pml4i v]) = 1 := congrArg absent gone
    omega

theorem vmmUnmapPage_spec (inv : Inv s list) (tree : Tree s top region) {v : Nat}
    (inside : region (pml4i v)) :
    Inv (vmmUnmapPage s top v) list ∧ LeafSet s (vmmUnmapPage s top v) top region v 0 := by
  rw [vmmUnmapPage_eq]
  cases here : descend (child s) top (pathOf v) with
  | none =>
    refine ⟨inv, tree, Kept.refl s top region, id, ?_⟩
    intro w _
    simp only
    split
    · rename_i same
      obtain ⟨paths, _⟩ := pageBits_eq_iff.mp same
      simp only [leaf, paths, here]
    · rfl
  | some t =>
    obtain ⟨inv', tree', kept', opens', leaves', _⟩ := setLeaf_spec inv tree inside here 0
    exact ⟨inv', tree', kept', opens', leaves'⟩

/-- Where the intermediate entries are open, the processor sees the leaf entry's rights. -/
theorem hardwareWalk_eq (opened : Open s top region) {v : Nat} (inside : region (pml4i v))
    (present : isPresent (leaf s top v) = true) :
    hardwareWalk s top v = some (leaf s top v &&& pteMask, rightsOf (leaf s top v)) := by
  have validPath := valid_pathOf inside
  have valid4 : Valid region ([] ++ [pml4i v]) := valid_closed region [pml4i v] _ validPath
  have valid3 : Valid region ([pml4i v] ++ [pml3i v]) :=
    valid_closed region [pml4i v, pml3i v] _ validPath
  have valid2 : Valid region ([pml4i v, pml3i v] ++ [pml2i v]) := validPath
  cases here : descend (child s) top (pathOf v) with
  | none =>
    simp only [leaf, here, isPresent_zero] at present
    cases present
  | some t =>
    have entries := here
    simp only [pathOf, descend, Option.bind_eq_some_iff, Option.some.injEq] at entries
    obtain ⟨t₃, link4, t₂, link3, t₁, link2, rfl⟩ := entries
    have to3 : descend (child s) top [pml4i v] = some t₃ := by simp [descend, link4]
    have to2 : descend (child s) top [pml4i v, pml3i v] = some t₂ := by simp [descend, link4, link3]
    have presentOf : ∀ u j n, child s u j = some n → isPresent (pte s u j) = true := by
      intro u j n link
      by_contra absent
      simp [child, absent] at link
    have present4 := presentOf _ _ _ link4
    have present3 := presentOf _ _ _ link3
    have present2 := presentOf _ _ _ link2
    obtain ⟨rights4, _⟩ := opened [] _ top valid4 rfl present4
    obtain ⟨rights3, noPs3⟩ := opened _ _ _ valid3 to3 present3
    obtain ⟨rights2, noPs2⟩ := opened _ _ _ valid2 to2 present2
    have atLeaf := leaf_of here
    rw [atLeaf] at present
    simp only [hardwareWalk, child_some link4, child_some link3, child_some link2, present4, present3,
      present2, present, noPs3, noPs2, rights4, rights3, rights2, atLeaf]
    simp [Rights.meet, rightsOf]

end Operations

/-! The lower half of a pagemap. -/

def lowerHalf (i : Nat) : Prop := i < 256

/-- The top level is a page in use with nothing in its lower half. -/
structure EmptyLowerHalf (s : Phys) (top : Nat) : Prop where
  frame : ∃ q, PageIs s q .used ∧ top = q + s.hhdmOffset
  empty : ∀ i, i < 256 → pte s top i = 0

inductive Reach (top : Nat) (s₀ : Phys) : Phys → Prop where
  | start : Reach top s₀ s₀
  | map {s s' : Phys} {v p flags : Nat} : Reach top s₀ s → v < 2 ^ 47 →
      vmmMapPage s top v p flags = .ok s' → Reach top s₀ s'
  | unmap {s : Phys} {v : Nat} : Reach top s₀ s → v < 2 ^ 47 → Reach top s₀ (vmmUnmapPage s top v)

/-- The tables that an upper-half address is looked up in are pages in use other than the
top level, so allocate_page() does not hand them out. -/
def UpperInUse (s : Phys) (top w : Nat) : Prop :=
  256 ≤ pml4i w ∧ ∀ path rest t, pathOf w = path ++ rest → path ≠ [] →
    descend (child s) top path = some t → t ≠ top ∧ ∃ q, PageIs s q .used ∧ t = q + s.hhdmOffset

/- All the flag bits of vmm.h. -/
def pteFlags : Nat :=
  ptePresent ||| pteWritable ||| pteUser ||| ptePwt ||| ptePcd ||| pteAccessed ||| pteDirty ||| ptePs |||
    ptePat ||| pteGlobal ||| pteLocked ||| pteCow ||| pteAvl ||| pteNx

def IsFlags (flags : Nat) : Prop := flags &&& pteFlags = flags

theorem IsFlags.masked {flags : Nat} (isFlags : IsFlags flags) :
    (ptePresent ||| flags) &&& pteMask = 0 := by
  have apart : pteFlags &&& pteMask = 0 := by decide
  have present : ptePresent &&& pteMask = 0 := by decide
  rw [Nat.and_or_distrib_right, present, ← isFlags, Nat.and_assoc, apart, Nat.and_zero, Nat.or_zero]

/-- An entry for a page is present and leads to it. -/
theorem IsFlags.entry {flags p : Nat} (isFlags : IsFlags flags) (aligned : pageSize ∣ p)
    (physical : p < 2 ^ 52) : isPresent (p ||| (ptePresent ||| flags)) = true ∧
      (p ||| (ptePresent ||| flags)) &&& pteMask = p := by
  refine ⟨?_, entry_mask aligned physical isFlags.masked⟩
  rw [isPresent_eq, entry_bit aligned physical (by decide), Nat.testBit_or]
  rfl

section Lower

variable {s₀ s : Phys} {top : Nat} {list₀ : List Nat}

theorem lowerHalf_pml4i {v : Nat} (canonical : v < 2 ^ 47) : lowerHalf (pml4i v) := by
  unfold lowerHalf pml4i
  simp only [index_eq_mod, Nat.shiftRight_eq_div_pow]
  omega

/-- With an empty lower half the top level is the only table. -/
theorem EmptyLowerHalf.only_top (empty : EmptyLowerHalf s top) {path : List Nat} {t : Nat}
    (valid : Valid lowerHalf path) (here : descend (child s) top path = some t) : path = [] ∧ t = top := by
  cases path with
  | nil => exact ⟨rfl, (Option.some.inj here).symm⟩
  | cons i path =>
    have inside : i < 256 := valid.2.2 i rfl
    have absent : child s top i = none := by simp [child, empty.empty i inside, isPresent_zero]
    simp [descend, absent] at here

theorem EmptyLowerHalf.tree (empty : EmptyLowerHalf s top) : Tree s top lowerHalf where
  separated := fun left right t validLeft validRight toLeft toRight =>
    (empty.only_top validLeft toLeft).1.trans (empty.only_top validRight toRight).1.symm
  frames := fun path t valid here => by
    obtain ⟨_, rfl⟩ := empty.only_top valid here
    exact empty.frame

theorem EmptyLowerHalf.opened (empty : EmptyLowerHalf s top) : Open s top lowerHalf := by
  intro path i t valid here present
  obtain ⟨rfl, rfl⟩ := empty.only_top (valid_closed lowerHalf path [i] valid) here
  have inside : i < 256 := valid.2.2 i rfl
  rw [empty.empty i inside, isPresent_zero] at present
  cases present

/-- What a run of map and unmap calls on the lower half keeps. -/
structure LowerRun (s₀ s : Phys) (top : Nat) : Prop where
  inv : ∃ list, Inv s list
  tree : Tree s top lowerHalf
  opened : Open s top lowerHalf
  kept : Kept s₀ s top lowerHalf

theorem LowerRun.set (run : LowerRun s₀ s top) {s' : Phys} {v value : Nat} {list : List Nat}
    (inv' : Inv s' list) (set : LeafSet s s' top lowerHalf v value) : LowerRun s₀ s' top :=
  ⟨⟨list, inv'⟩, set.tree, set.opens run.opened, run.kept.trans set.kept⟩

theorem reach_lowerRun (inv : Inv s₀ list₀) (empty : EmptyLowerHalf s₀ top) (reach : Reach top s₀ s) :
    LowerRun s₀ s top := by
  induction reach with
  | start => exact ⟨⟨list₀, inv⟩, empty.tree, empty.opened, Kept.refl s₀ top lowerHalf⟩
  | map _ canonical result ih =>
    rename_i v p flags _
    obtain ⟨list, inv'⟩ := ih.inv
    rcases vmmMapPage_outcome inv' ih.tree (lowerHalf_pml4i canonical) p flags with
      ⟨s₁, list₁, ran, inv₁, set, _⟩ | ⟨failed, _⟩
    · cases Except.ok.inj (ran.symm.trans result)
      exact ih.set inv₁ set
    · cases failed.symm.trans result
  | unmap _ canonical ih =>
    obtain ⟨list, inv'⟩ := ih.inv
    obtain ⟨inv₁, set⟩ := vmmUnmapPage_spec inv' ih.tree (lowerHalf_pml4i canonical)
    exact ih.set inv₁ set

/-- Lookups in the upper half read the same words throughout the run. -/
theorem LowerRun.upper (run : LowerRun s₀ s top) (empty : EmptyLowerHalf s₀ top) {w : Nat}
    (inUse : UpperInUse s₀ top w) : leaf s top w = leaf s₀ top w := by
  obtain ⟨upper, tables⟩ := inUse
  have hhdm := run.kept.hhdm
  obtain ⟨bound1, bound2, bound3, bound4⟩ := pml_lt w
  have entries : ∀ path rest t i, pathOf w = path ++ rest → descend (child s₀) top path = some t →
      i < 512 → (path = [] → i = pml4i w) → pte s t i = pte s₀ t i := by
    intro path rest t i split here bound first
    by_cases isTop : path = []
    · subst isTop
      cases Option.some.inj here
      rw [first rfl]
      exact run.kept.topEntries _ bound4 (Nat.not_lt_of_le upper)
    · obtain ⟨other, q, used, rfl⟩ := tables path rest t split isTop here
      apply run.kept.mem q used _ _ (slot_inFrame s₀ q bound)
      intro lowerPath valid there
      exact other (empty.only_top valid there).2
  have same : descend (child s) top (pathOf w) = descend (child s₀) top (pathOf w) := by
    apply descend_congr
    intro before i after t split here
    have bound : i < 512 := by
      have member : i ∈ pathOf w := by
        rw [split]
        simp
      simp only [pathOf, List.mem_cons, List.not_mem_nil, or_false] at member
      rcases member with rfl | rfl | rfl
      · exact bound4
      · exact bound3
      · exact bound2
    apply child_congr hhdm
    apply entries before (i :: after) t i split here bound
    rintro rfl
    exact (List.cons.inj split).1.symm
  unfold leaf
  rw [same]
  cases here : descend (child s₀) top (pathOf w) with
  | none => rfl
  | some t =>
    exact entries (pathOf w) [] t _ (List.append_nil _).symm here bound1 (fun none => by cases none)

/-- A page that was just allocated can serve as an empty top level. -/
theorem emptyLowerHalf_of_allocated {p : Nat} {s' : Phys} (allocated : Allocated s p s') :
    EmptyLowerHalf s' (p + s.hhdmOffset) where
  frame := ⟨p, (allocated.owned p).mpr (.inl rfl), by rw [allocated.hhdm]⟩
  empty := fun i lower => allocated.zero _ (slot_inFrame s p (by omega))

end Lower

end EvalynOS.Vmm
