import EvalynOS.Lib.Radix
import EvalynOS.Memory.PmmInvariant
import EvalynOS.Memory.Vmm

/-! The tables of a pagemap form a separated radix tree in pages of their own. Each step
of vmm_map_page keeps that, and changes no other leaf entry. `region` says which
entries of the top level the tree is made of, such as those of the lower half. -/
namespace EvalynOS.Vmm
open Lib Lib.Word Pmm

def child (s : Phys) (table i : Nat) : Option Nat :=
  if isPresent (pte s table i) then some (tableOf s (pte s table i)) else none

def Valid (region : Nat → Prop) (path : List Nat) : Prop :=
  path.length ≤ 3 ∧ (∀ i ∈ path, i < 512) ∧ ∀ i, path.head? = some i → region i

structure Tree (s : Phys) (top : Nat) (region : Nat → Prop) : Prop where
  separated : Separated (child s) top (Valid region)
  frames : ∀ path t, Valid region path → descend (child s) top path = some t →
    ∃ q, PageIs s q .used ∧ t = q + s.hhdmOffset

/-- The three upper indices of an address. -/
def pathOf (virt : Nat) : List Nat := [pml4i virt, pml3i virt, pml2i virt]

/- The paths of the three tables that an address needs below the top level. -/
def tablePaths (virt : Nat) : List (List Nat) :=
  [[pml4i virt], [pml4i virt, pml3i virt], [pml4i virt, pml3i virt, pml2i virt]]

/- One for a table that is missing. -/
def absent : Option Nat → Nat
  | none => 1
  | some _ => 0

/-- The tables that mapping these addresses has to add. -/
def missingTables (s : Phys) (top : Nat) (virts : List Nat) : Finset (List Nat) :=
  (virts.flatMap tablePaths).toFinset.filter (fun path => descend (child s) top path = none)

/-- Bits 12 to 47, which choose the leaf entry. -/
def pageBits (virt : Nat) : Nat := (virt >>> 12) &&& (2 ^ 36 - 1)

def leaf (s : Phys) (top virt : Nat) : Nat :=
  match descend (child s) top (pathOf virt) with
  | some t => pte s t (pml1i virt)
  | none => 0

/-- What an operation on a tree leaves alone: the pages in use that are not its tables, and
the top-level entries outside its region. New tables are pages that were not in use. -/
structure Kept (s s' : Phys) (top : Nat) (region : Nat → Prop) : Prop where
  hhdm : s'.hhdmOffset = s.hhdmOffset
  total : s'.totalPages = s.totalPages
  pages : Pages s s'
  used : ∀ q, PageIs s q .used → PageIs s' q .used
  mem : ∀ q, PageIs s q .used →
    (∀ path, Valid region path → descend (child s) top path ≠ some (q + s.hhdmOffset)) →
    ∀ a, InFrame s q a → s'.mem a = s.mem a
  topEntries : ∀ j, j < 512 → ¬ region j → pte s' top j = pte s top j
  tables : ∀ path t, Valid region path → descend (child s') top path = some t →
    descend (child s) top path = some t ∨ ∃ q, ¬ PageIs s q .used ∧ t = q + s.hhdmOffset

/-! Indices and entries. -/

theorem index_eq_mod (x : Nat) : x &&& 0x1ff = x % 512 := Nat.and_two_pow_sub_one_eq_mod x 9

theorem pml_lt (virt : Nat) : pml1i virt < 512 ∧ pml2i virt < 512 ∧ pml3i virt < 512 ∧ pml4i virt < 512 := by
  unfold pml1i pml2i pml3i pml4i
  simp only [index_eq_mod]
  omega

theorem pageBits_eq (virt : Nat) : pageBits virt = virt / 4096 % 2 ^ 36 := by
  unfold pageBits
  rw [Nat.and_two_pow_sub_one_eq_mod, Nat.shiftRight_eq_div_pow]

/-- Within 2^48 bytes the page bits are the number of the page. -/
theorem pageBits_within {v w : Nat} (within : v / 2 ^ 48 = w / 2 ^ 48) :
    pageBits v = pageBits w ↔ v / 4096 = w / 4096 := by
  rw [pageBits_eq, pageBits_eq]
  omega

theorem pageBits_eq_iff {v w : Nat} :
    pageBits v = pageBits w ↔ pathOf v = pathOf w ∧ pml1i v = pml1i w := by
  unfold pageBits pathOf pml1i pml2i pml3i pml4i
  simp only [index_eq_mod, Nat.and_two_pow_sub_one_eq_mod, Nat.shiftRight_eq_div_pow, List.cons.injEq,
    and_true]
  omega

theorem valid_closed (region : Nat → Prop) : PathClosed (Valid region) := by
  intro path rest valid
  refine ⟨?_, fun i member => valid.2.1 i (List.mem_append_left _ member), ?_⟩
  · have length := valid.1
    rw [List.length_append] at length
    omega
  · intro i first
    apply valid.2.2
    cases path with
    | nil => cases first
    | cons j path => exact first

theorem valid_pathOf {region : Nat → Prop} {virt : Nat} (inside : region (pml4i virt)) :
    Valid region (pathOf virt) := by
  obtain ⟨_, two, three, four⟩ := pml_lt virt
  refine ⟨Nat.le_refl _, ?_, ?_⟩
  · intro i member
    simp only [pathOf, List.mem_cons, List.not_mem_nil, or_false] at member
    rcases member with rfl | rfl | rfl
    · exact four
    · exact three
    · exact two
  · rintro i first
    cases Option.some.inj first
    exact inside

theorem valid_tablePaths {region : Nat → Prop} {virt : Nat} (inside : region (pml4i virt))
    {path : List Nat} (member : path ∈ tablePaths virt) : Valid region path := by
  have whole := valid_pathOf inside
  simp only [tablePaths, List.mem_cons, List.not_mem_nil, or_false] at member
  rcases member with rfl | rfl | rfl
  · exact valid_closed region [pml4i virt] [pml3i virt, pml2i virt] whole
  · exact valid_closed region [pml4i virt, pml3i virt] [pml2i virt] whole
  · exact whole

theorem mem_missingTables {s : Phys} {top : Nat} {virts : List Nat} {path : List Nat} :
    path ∈ missingTables s top virts ↔
      path ∈ virts.flatMap tablePaths ∧ descend (child s) top path = none := by
  rw [missingTables, Finset.mem_filter, List.mem_toFinset]

theorem card_missingTables (s : Phys) (top virt : Nat) : (missingTables s top [virt]).card =
    absent (descend (child s) top [pml4i virt]) + absent (descend (child s) top [pml4i virt, pml3i virt]) +
    absent (descend (child s) top [pml4i virt, pml3i virt, pml2i virt]) := by
  have distinct : (tablePaths virt).Nodup := by simp [tablePaths]
  have whole : missingTables s top [virt] =
      ((tablePaths virt).filter (fun path => descend (child s) top path = none)).toFinset := by
    rw [missingTables, List.flatMap_cons, List.flatMap_nil, List.append_nil, List.toFinset_filter]
    simp only [decide_eq_true_eq]
  rw [whole, List.toFinset_card_of_nodup (distinct.filter _), ← List.countP_eq_length_filter]
  have counts : ∀ o : Option Nat, (if o = none then 1 else 0) = absent o := by
    intro o
    cases o with
    | none => rfl
    | some t => rfl
  simp only [tablePaths, List.countP_cons, List.countP_nil, decide_eq_true_eq, counts]
  omega

theorem card_missingTables_le (s : Phys) (top : Nat) (virts : List Nat) :
    (missingTables s top virts).card ≤ 3 * virts.length := by
  have length : (virts.flatMap tablePaths).length = 3 * virts.length := by
    simp [List.length_flatMap, tablePaths, Nat.mul_comm]
  rw [← length]
  exact (Finset.card_filter_le _ _).trans (List.toFinset_card_le _)

theorem pteMask_eq : pteMask = 2 ^ 52 - 2 ^ 12 := by decide

/-- An entry made of a page address and flags gives both back. -/
theorem entry_mask {p f : Nat} (aligned : pageSize ∣ p) (bound : p < 2 ^ 52) (flags : f &&& pteMask = 0) :
    (p ||| f) &&& pteMask = p := by
  rw [pteMask_eq] at flags ⊢
  exact field_lor (by decide) aligned bound flags

theorem page_mask {p : Nat} (aligned : pageSize ∣ p) (bound : p < 2 ^ 52) : p &&& pteMask = p := by
  have whole := @entry_mask p 0 aligned bound (by decide)
  rwa [Nat.or_zero] at whole

theorem entry_bit {p f i : Nat} (aligned : pageSize ∣ p) (bound : p < 2 ^ 52) (outside : i < 12 ∨ 52 ≤ i) :
    (p ||| f).testBit i = f.testBit i := by
  rw [Nat.testBit_or]
  cases bit : p.testBit i with
  | false => rw [Bool.false_or]
  | true =>
    obtain ⟨low, high⟩ := @testBit_inside 12 52 p i aligned bound bit
    omega

theorem isPresent_zero : isPresent 0 = false := by decide

theorem isPresent_eq (entry : Nat) : isPresent entry = entry.testBit 0 := by
  unfold isPresent ptePresent
  rw [Nat.testBit_zero, Nat.and_one_is_mod]
  rcases Nat.mod_two_eq_zero_or_one entry with even | odd
  · simp [even]
  · simp [odd]

@[simp] theorem setPte_setPte (s : Phys) (t i a b : Nat) :
    setPte (setPte s t i a) t i b = setPte s t i b := by
  simp only [setPte, Memory.store_store]

@[simp] theorem pte_setPte (s : Phys) (t i a : Nat) : pte (setPte s t i a) t i = a :=
  Memory.store_same _ _ _

section Slots

variable {s : Phys} {q r i j : Nat} {state other : PageState}

theorem slot_inFrame (s : Phys) (q : Nat) (bound : i < 512) :
    InFrame s q (slot (q + s.hhdmOffset) i) := by
  unfold InFrame slot pageSize
  omega

theorem slot_unique (layout : Layout s.hhdmOffset s.tables) (one : PageIs s q state)
    (two : PageIs s r other) (boundI : i < 512) (boundJ : j < 512)
    (same : slot (q + s.hhdmOffset) i = slot (r + s.hhdmOffset) j) : q = r ∧ i = j := by
  obtain ⟨k, rfl⟩ := (layout.page_bounds one).1
  obtain ⟨l, rfl⟩ := (layout.page_bounds two).1
  unfold slot pageSize at *
  omega

/-- Writing one entry of a table changes no other entry of a table. -/
theorem pte_setPte_other (layout : Layout s.hhdmOffset s.tables) (one : PageIs s r state)
    (two : PageIs s q other) (boundJ : j < 512) (boundI : i < 512) {value : Nat}
    (different : ¬ (r = q ∧ j = i)) :
    pte (setPte s (q + s.hhdmOffset) i value) (r + s.hhdmOffset) j = pte s (r + s.hhdmOffset) j := by
  apply Memory.store_other
  intro same
  exact different (slot_unique layout one two boundJ boundI same)

theorem inv_setPte {list : List Nat} (inv : Inv s list) (used : PageIs s q .used) (bound : i < 512)
    (value : Nat) : Inv (setPte s (q + s.hhdmOffset) i value) list := by
  apply inv.write
  intro a outside
  apply Memory.store_other
  rintro rfl
  exact outside q used (slot_inFrame s q bound)

end Slots

/-- On the pages in use before, the two states differ in at most one entry. -/
structure Touched (s s' : Phys) (t i : Nat) : Prop where
  hhdm : s'.hhdmOffset = s.hhdmOffset
  total : s'.totalPages = s.totalPages
  pages : Pages s s'
  used : ∀ q, PageIs s q .used → PageIs s' q .used
  mem : ∀ q, PageIs s q .used → ∀ a, InFrame s q a → a ≠ slot t i → s'.mem a = s.mem a

section Touch

variable {s s' : Phys} {top t i : Nat} {region : Nat → Prop} {path : List Nat} {list : List Nat}

theorem Touched.pte_other (touched : Touched s s' t i) (layout : Layout s.hhdmOffset s.tables)
    (tree : Tree s top region) (validPath : Valid region path)
    (here : descend (child s) top path = some t) (boundI : i < 512) {other : List Nat} {u j : Nat}
    (validOther : Valid region other) (there : descend (child s) top other = some u) (boundJ : j < 512)
    (different : ¬ (u = t ∧ j = i)) : pte s' u j = pte s u j := by
  obtain ⟨q, usedQ, rfl⟩ := tree.frames other u validOther there
  obtain ⟨r, usedR, rfl⟩ := tree.frames path t validPath here
  apply touched.mem q usedQ _ (slot_inFrame s q boundJ)
  intro same
  obtain ⟨rfl, rfl⟩ := slot_unique layout usedQ usedR boundJ boundI same
  exact different ⟨rfl, rfl⟩

theorem child_some {u j n : Nat} (entry : child s u j = some n) : tableOf s (pte s u j) = n := by
  unfold child at entry
  split at entry
  · exact Option.some.inj entry
  · cases entry

theorem child_congr (hhdm : s'.hhdmOffset = s.hhdmOffset) {u j : Nat} (same : pte s' u j = pte s u j) :
    child s' u j = child s u j := by
  unfold child tableOf
  rw [same, hhdm]

theorem Touched.agree (touched : Touched s s' t i) (layout : Layout s.hhdmOffset s.tables)
    (tree : Tree s top region) (validPath : Valid region path)
    (here : descend (child s) top path = some t) (boundI : i < 512) :
    AgreeBut (child s) (child s') top (Valid region) t i := by
  intro other u j validStep there different
  have validOther := valid_closed region other [j] validStep
  have boundJ := validStep.2.1 j (by simp)
  exact child_congr touched.hhdm
    (touched.pte_other layout tree validPath here boundI validOther there boundJ different)

theorem valid_index {i : Nat} (valid : Valid region (path ++ [i])) :
    i < 512 ∧ path.length ≤ 2 ∧ (path = [] → region i) := by
  refine ⟨valid.2.1 i (by simp), ?_, ?_⟩
  · have length := valid.1
    rw [List.length_append, List.length_singleton] at length
    omega
  · rintro rfl
    exact valid.2.2 i rfl

theorem Touched.kept (touched : Touched s s' t i) (layout : Layout s.hhdmOffset s.tables)
    (tree : Tree s top region) (validPath : Valid region path)
    (here : descend (child s) top path = some t) (boundI : i < 512) (inside : path = [] → region i)
    (tables : ∀ path t, Valid region path → descend (child s') top path = some t →
      descend (child s) top path = some t ∨ ∃ q, ¬ PageIs s q .used ∧ t = q + s.hhdmOffset) :
    Kept s s' top region := by
  have validTop : Valid region [] := valid_closed region [] path validPath
  refine ⟨touched.hhdm, touched.total, touched.pages, touched.used, ?_, ?_, tables⟩
  · intro q usedQ noTable a inQ
    apply touched.mem q usedQ a inQ
    rintro rfl
    obtain ⟨r, usedR, rfl⟩ := tree.frames path t validPath here
    have same := frame_apart layout usedQ usedR inQ (slot_inFrame s r boundI)
    exact noTable path validPath (same ▸ here)
  · intro j boundJ outside
    apply touched.pte_other layout tree validPath here boundI validTop rfl boundJ
    rintro ⟨rfl, rfl⟩
    exact outside (inside (tree.separated path [] top validPath validTop here rfl))

/-- Leaf entries outside the touched one are as before, as long as their table is. -/
theorem Touched.leaf_other (touched : Touched s s' t i) (layout : Layout s.hhdmOffset s.tables)
    (tree : Tree s top region) (validPath : Valid region path)
    (here : descend (child s) top path = some t) (boundI : i < 512) {v : Nat}
    (inside : region (pml4i v))
    (same : descend (child s') top (pathOf v) = descend (child s) top (pathOf v))
    (different : ¬ (path = pathOf v ∧ i = pml1i v)) : leaf s' top v = leaf s top v := by
  unfold leaf
  rw [same]
  cases there : descend (child s) top (pathOf v) with
  | none => rfl
  | some u =>
    apply touched.pte_other layout tree validPath here boundI (valid_pathOf inside) there (pml_lt v).1
    rintro ⟨rfl, index⟩
    have paths := tree.separated path (pathOf v) u validPath (valid_pathOf inside) here there
    exact different ⟨paths, index.symm⟩

end Touch

/-- Intermediate entries grant everything, so that the leaf entry decides. -/
def Open (s : Phys) (top : Nat) (region : Nat → Prop) : Prop :=
  ∀ path i t, Valid region (path ++ [i]) → descend (child s) top path = some t →
    isPresent (pte s t i) = true → rightsOf (pte s t i) = ⟨true, true, false⟩ ∧
      (pte s t i).testBit 7 = false

/-- The result of a step that makes sure of the table at a path. -/
structure Ensured (s s' : Phys) (top : Nat) (region : Nat → Prop) (path : List Nat) (n : Nat) : Prop where
  tree : Tree s' top region
  reached : descend (child s') top path = some n
  leaves : ∀ v, region (pml4i v) → leaf s' top v = leaf s top v
  opens : Open s top region → Open s' top region
  kept : Kept s s' top region
  lookup : ∀ other, Valid region other →
    descend (child s') top other = if other = path then some n else descend (child s) top other
  cost : s'.usedPages = s.usedPages + absent (descend (child s) top path)

section Ensure

variable {s : Phys} {top t i : Nat} {region : Nat → Prop} {path : List Nat} {list : List Nat}

theorem Kept.refl (s : Phys) (top : Nat) (region : Nat → Prop) : Kept s s top region :=
  ⟨rfl, rfl, fun _ page => page, fun _ used => used, fun _ _ _ _ _ => rfl, fun _ _ _ => rfl,
    fun _ _ _ here => .inl here⟩

/-- A page that was just allocated is entered into a table: nothing else is touched, and the
new table is empty. -/
theorem Touched.attach {p r : Nat} {s₁ : Phys} (layout : Layout s.hhdmOffset s.tables) (allocated : Allocated s p s₁)
    (usedR : PageIs s r .used) (boundI : i < 512) (value : Nat) :
    Touched s (setPte s₁ (r + s.hhdmOffset) i value) (r + s.hhdmOffset) i ∧
      ∀ j < 512, pte (setPte s₁ (r + s.hhdmOffset) i value) (p + s.hhdmOffset) j = 0 := by
  obtain ⟨state, page, unused⟩ := allocated.fresh
  have notUsed : ¬ PageIs s p .used := fun used => unused (layout.page_unique page used)
  refine ⟨⟨allocated.hhdm, allocated.total, fun q => (allocated.pages q).mp,
    fun q used => (allocated.owned q).mpr (.inr used), ?_⟩, ?_⟩
  · intro q used a inQ other
    rw [← allocated.frame q used a inQ]
    exact Memory.store_other _ other
  · intro j boundJ
    have other : slot (p + s.hhdmOffset) j ≠ slot (r + s.hhdmOffset) i := by
      intro same
      obtain ⟨rfl, _⟩ := slot_unique layout page usedR boundJ boundI same
      exact notUsed usedR
    exact (Memory.store_other _ other).trans (allocated.zero _ (slot_inFrame s p boundJ))

/-- A fresh page entered as a table. -/
theorem attach_spec {p : Nat} {s₁ : Phys} {list₁ : List Nat} (inv : Inv s list) (tree : Tree s top region)
    (valid : Valid region (path ++ [i])) (here : descend (child s) top path = some t)
    (missing : child s t i = none) (inv₁ : Inv s₁ list₁) (allocated : Allocated s p s₁) :
    ∃ s', s' = setPte s₁ t i (p ||| 7) ∧ Inv s' list₁ ∧ child s' t i = some (p + s.hhdmOffset) ∧
      Ensured s s' top region (path ++ [i]) (p + s.hhdmOffset) := by
  obtain ⟨boundI, short, inside⟩ := valid_index valid
  have closed := valid_closed region
  have validPath := closed path [i] valid
  have layout := inv.layout
  obtain ⟨r, usedR, rfl⟩ := tree.frames path t validPath here
  obtain ⟨state, page, unused⟩ := allocated.fresh
  obtain ⟨aligned, _, mapped, physical⟩ := layout.page_bounds page
  have notUsed : ¬ PageIs s p .used := fun used => unused (layout.page_unique page used)
  have usedP : PageIs s₁ p .used := (allocated.owned p).mpr (.inl rfl)
  have usedR₁ : PageIs s₁ r .used := (allocated.owned r).mpr (.inr usedR)
  let s' : Phys := setPte s₁ (r + s.hhdmOffset) i (p ||| 7)
  have hhdm : s'.hhdmOffset = s.hhdmOffset := allocated.hhdm
  have inv' : Inv s' list₁ := by
    have written := inv_setPte inv₁ usedR₁ boundI (p ||| 7)
    rwa [allocated.hhdm] at written
  obtain ⟨touched, zero⟩ : Touched s s' (r + s.hhdmOffset) i ∧ ∀ j < 512, pte s' (p + s.hhdmOffset) j = 0 :=
    Touched.attach layout allocated usedR boundI (p ||| 7)
  have agree := touched.agree layout tree validPath here boundI
  have written : pte s' (r + s.hhdmOffset) i = p ||| 7 := Memory.store_same _ _ _
  have entry : child s' (r + s.hhdmOffset) i = some (p + s.hhdmOffset) := by
    have present : isPresent (p ||| 7) = true := by
      rw [isPresent_eq, entry_bit aligned physical (by decide)]
      rfl
    unfold child tableOf
    rw [written, if_pos present, entry_mask aligned physical (by decide), hhdm, wadd_eq (by omega)]
  have attached : Attached (child s) (child s') top (Valid region) path (r + s.hhdmOffset) i
      (p + s.hhdmOffset) := by
    refine ⟨agree, here, missing, entry, ?_, ?_⟩
    · intro j validNext
      unfold child
      rw [zero j (validNext.2.1 j (by simp)), isPresent_zero]
      rfl
    · intro other validOther there
      obtain ⟨q, usedQ, same⟩ := tree.frames other _ validOther there
      have equal : p = q := by omega
      exact notUsed (equal ▸ usedQ)
  have lookup := fun (other : List Nat) (validOther : Valid region other) =>
    attached.lookup closed tree.separated valid validOther
  have gone : descend (child s) top (path ++ [i]) = none := by
    rw [descend_snoc, here, Option.bind_some, missing]
  refine ⟨s', rfl, inv', entry, ⟨attached.separated closed tree.separated valid, ?_⟩, ?_, ?_, ?_, ?_,
    lookup, ?_⟩
  · intro other u validOther there
    rw [lookup other validOther] at there
    split at there
    · cases Option.some.inj there
      exact ⟨p, usedP, by rw [hhdm]⟩
    · obtain ⟨q, usedQ, rfl⟩ := tree.frames other u validOther there
      exact ⟨q, touched.used q usedQ, by rw [hhdm]⟩
  · rw [lookup _ valid, if_pos rfl]
  · intro v insideV
    have validV := valid_pathOf insideV
    by_cases new : pathOf v = path ++ [i]
    · have after : descend (child s') top (pathOf v) = some (p + s.hhdmOffset) := by
        rw [lookup _ validV, if_pos new]
      have before : descend (child s) top (pathOf v) = none := by rw [new, gone]
      simp only [leaf, after, before, zero _ (pml_lt v).1]
    · apply touched.leaf_other layout tree validPath here boundI insideV
      · rw [lookup _ validV, if_neg new]
      · rintro ⟨rfl, _⟩
        exact absurd short (by simp [pathOf])
  · intro opened other j u validStep there present
    have validOther := closed other [j] validStep
    have boundJ := (valid_index validStep).1
    rw [lookup other validOther] at there
    split at there
    · cases Option.some.inj there
      rw [zero j boundJ, isPresent_zero] at present
      cases present
    · by_cases same : u = r + s.hhdmOffset ∧ j = i
      · obtain ⟨rfl, rfl⟩ := same
        unfold rightsOf
        rw [written, entry_bit aligned physical (by decide), entry_bit aligned physical (by decide),
          entry_bit aligned physical (by decide), entry_bit aligned physical (by decide)]
        decide
      · have kept := touched.pte_other layout tree validPath here boundI validOther there boundJ same
        rw [kept] at present ⊢
        exact opened other j u validStep there present
  · apply touched.kept layout tree validPath here boundI inside
    intro other u validOther there
    rw [lookup other validOther] at there
    split at there
    · cases Option.some.inj there
      exact .inr ⟨p, notUsed, rfl⟩
    · exact .inl there
  · rw [gone]
    exact allocated.usedPages

/-- A table can be missing afterwards only when no page was left for it. -/
theorem ensureTable_outcome (inv : Inv s list) (tree : Tree s top region)
    (valid : Valid region (path ++ [i])) (here : descend (child s) top path = some t) :
    (∃ s' list' n, ensureTable s t i = .ok s' ∧ Inv s' list' ∧
      Ensured s s' top region (path ++ [i]) n ∧ tableOf s' (pte s' t i) = n) ∨
      (ensureTable s t i = .error .outOfMemory ∧ s.usedPages = s.totalPages ∧
        descend (child s) top (path ++ [i]) = none) := by
  by_cases present : isPresent (pte s t i) = true
  · have there : descend (child s) top (path ++ [i]) = some (tableOf s (pte s t i)) := by
      simp only [descend_snoc, here, Option.bind_some, child, if_pos present]
    refine .inl ⟨s, list, tableOf s (pte s t i), ?_, inv, ⟨tree, there, fun _ _ => rfl, id,
      Kept.refl s top region, ?_, ?_⟩, rfl⟩
    · simp only [ensureTable, if_pos present]
    · intro other _
      split
      · rename_i same
        rw [same]
        exact there
      · rfl
    · rw [there]
      rfl
  · have missing : child s t i = none := by simp only [child, if_neg present]
    rcases allocatePage_outcome inv with ⟨p, s₁, list₁, returned, inv₁, allocated⟩ | ⟨failed, full⟩
    · obtain ⟨s', shape, inv', entry, ensured⟩ := attach_spec inv tree valid here missing inv₁ allocated
      obtain ⟨state, page, _⟩ := allocated.fresh
      obtain ⟨aligned, _, mapped, physical⟩ := inv.layout.page_bounds page
      refine .inl ⟨s', list₁, p + s.hhdmOffset, ?_, inv', ensured, child_some entry⟩
      have masked := page_mask aligned physical
      simp only [ensureTable, if_neg present, returned, bind, Except.bind, masked, setPte_setPte,
        pte_setPte]
      rw [shape]
      rfl
    · refine .inr ⟨?_, full, ?_⟩
      · simp only [ensureTable, if_neg present, failed, bind, Except.bind]
      · rw [descend_snoc, here, Option.bind_some, missing]

theorem Kept.trans {s s' s'' : Phys} (one : Kept s s' top region) (two : Kept s' s'' top region) :
    Kept s s'' top region := by
  refine ⟨two.hhdm.trans one.hhdm, two.total.trans one.total, fun q page => one.pages q (two.pages q page),
    fun q used => two.used q (one.used q used),
    ?_, fun j bound outside => (two.topEntries j bound outside).trans (one.topEntries j bound outside), ?_⟩
  · intro q used noTable a inQ
    rw [← one.mem q used noTable a inQ]
    apply two.mem q (one.used q used)
    · intro path valid there
      rw [one.hhdm] at there
      rcases one.tables path _ valid there with before | ⟨r, unused, same⟩
      · exact noTable path valid before
      · have equal : q = r := by omega
        exact unused (equal ▸ used)
    · unfold InFrame
      rw [one.hhdm]
      exact inQ
  · intro path t valid there
    rcases two.tables path t valid there with before | ⟨r, unused, same⟩
    · exact one.tables path t valid before
    · refine .inr ⟨r, fun used => unused (one.used r used), ?_⟩
      rw [same, one.hhdm]

end Ensure

/-! Leaf entries. -/

section Leaf

variable {s : Phys} {top v t : Nat} {region : Nat → Prop} {list : List Nat}

theorem leaf_of {t : Nat} (here : descend (child s) top (pathOf v) = some t) :
    leaf s top v = pte s t (pml1i v) := by
  simp only [leaf, here]

/-- The leaf entry belongs to the page. -/
theorem leaf_congr {w : Nat} (same : pageBits v = pageBits w) : leaf s top v = leaf s top w := by
  obtain ⟨paths, index⟩ := pageBits_eq_iff.mp same
  unfold leaf
  rw [paths, index]

/-- Writing the leaf entry of an address. -/
theorem setLeaf_spec (inv : Inv s list) (tree : Tree s top region) (inside : region (pml4i v))
    (here : descend (child s) top (pathOf v) = some t) (value : Nat) :
    Inv (setPte s t (pml1i v) value) list ∧ Tree (setPte s t (pml1i v) value) top region ∧
      Kept s (setPte s t (pml1i v) value) top region ∧
      (Open s top region → Open (setPte s t (pml1i v) value) top region) ∧
      (∀ w, region (pml4i w) → leaf (setPte s t (pml1i v) value) top w =
        if pageBits w = pageBits v then value else leaf s top w) ∧
      ∀ other, Valid region other →
        descend (child (setPte s t (pml1i v) value)) top other = descend (child s) top other := by
  have validPath := valid_pathOf inside
  have layout := inv.layout
  obtain ⟨boundI, _⟩ := pml_lt v
  have touched : Touched s (setPte s t (pml1i v) value) t (pml1i v) :=
    ⟨rfl, rfl, fun _ page => page, fun _ used => used, fun _ _ _ _ other => Memory.store_other _ other⟩
  -- a leaf table is at the end of its path, so no path continues through its entries
  have inner : ∀ other u j, Valid region (other ++ [j]) → descend (child s) top other = some u →
      pte (setPte s t (pml1i v) value) u j = pte s u j := by
    intro other u j validStep there
    have validOther := valid_closed region other [j] validStep
    obtain ⟨boundJ, short, _⟩ := valid_index validStep
    apply touched.pte_other layout tree validPath here boundI validOther there boundJ
    rintro ⟨rfl, _⟩
    have same := tree.separated other (pathOf v) u validOther validPath there here
    rw [same] at short
    exact absurd short (by simp [pathOf])
  have lookup : ∀ other, Valid region other →
      descend (child (setPte s t (pml1i v) value)) top other = descend (child s) top other := by
    intro other validOther
    apply descend_congr
    intro before j after u split there
    apply child_congr touched.hhdm
    apply inner before u j _ there
    apply valid_closed region _ after
    rwa [List.append_assoc, List.singleton_append, ← split]
  refine ⟨?_, ⟨?_, ?_⟩, ?_, ?_, ?_, lookup⟩
  · obtain ⟨q, used, rfl⟩ := tree.frames _ t validPath here
    exact inv_setPte inv used boundI value
  · intro left right u validLeft validRight toLeft toRight
    rw [lookup left validLeft] at toLeft
    rw [lookup right validRight] at toRight
    exact tree.separated left right u validLeft validRight toLeft toRight
  · intro other u validOther there
    rw [lookup other validOther] at there
    exact tree.frames other u validOther there
  · apply touched.kept layout tree validPath here boundI (fun none => by cases none)
    intro other u validOther there
    rw [lookup other validOther] at there
    exact .inl there
  · intro opened other j u validStep there present
    rw [lookup other (valid_closed region other [j] validStep)] at there
    rw [inner other u j validStep there] at present ⊢
    exact opened other j u validStep there present
  · intro w insideW
    split
    · rename_i same
      obtain ⟨paths, index⟩ := pageBits_eq_iff.mp same
      have there : descend (child (setPte s t (pml1i v) value)) top (pathOf w) = some t := by
        rw [lookup _ (valid_pathOf insideW), paths, here]
      rw [leaf_of there, index]
      exact Memory.store_same _ _ _
    · rename_i different
      apply touched.leaf_other layout tree validPath here boundI insideW
        (lookup _ (valid_pathOf insideW))
      rintro ⟨paths, index⟩
      exact different (pageBits_eq_iff.mpr ⟨paths.symm, index.symm⟩)

theorem vmmGetPhys_eq (s : Phys) (top v : Nat) :
    vmmGetPhys s top v = if isPresent (leaf s top v) then leaf s top v &&& pteMask else 0 := by
  unfold vmmGetPhys leaf pathOf
  simp only [descend, child]
  by_cases four : isPresent (pte s top (pml4i v)) = true
  · simp only [four, ↓reduceIte, not_true_eq_false, Option.bind_some]
    by_cases three : isPresent (pte s (tableOf s (pte s top (pml4i v))) (pml3i v)) = true
    · simp only [three, ↓reduceIte, not_true_eq_false, Option.bind_some]
      by_cases two : isPresent (pte s (tableOf s (pte s (tableOf s (pte s top (pml4i v)))
          (pml3i v))) (pml2i v)) = true
      · simp [two]
      · simp [two, isPresent_zero]
    · simp [three, isPresent_zero]
  · simp [four, isPresent_zero]

theorem vmmUnmapPage_eq (s : Phys) (top v : Nat) :
    vmmUnmapPage s top v = match descend (child s) top (pathOf v) with
      | some t => setPte s t (pml1i v) 0
      | none => s := by
  unfold vmmUnmapPage pathOf
  simp only [descend, child]
  by_cases four : isPresent (pte s top (pml4i v)) = true
  · simp only [four, ↓reduceIte, not_true_eq_false, Option.bind_some]
    by_cases three : isPresent (pte s (tableOf s (pte s top (pml4i v))) (pml3i v)) = true
    · simp only [three, ↓reduceIte, not_true_eq_false, Option.bind_some]
      by_cases two : isPresent (pte s (tableOf s (pte s (tableOf s (pte s top (pml4i v)))
          (pml3i v))) (pml2i v)) = true
      · simp [two]
      · simp [two]
    · simp [three]
  · simp [four]

end Leaf

end EvalynOS.Vmm
