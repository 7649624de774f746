import EvalynOS.Lib.Results
import EvalynOS.Memory.VmmKernel

/-! Pagemaps with pages of all three sizes. The processor ends its walk at an entry for a
large page; vmm_get_phys and vmm_unmap_page look at the present bit only. -/
namespace EvalynOS.Vmm
open Lib Lib.Word Pmm

/- A region that a call of vmm_map_page has mapped. -/
structure Region where
  virt : Nat
  size : Nat
  deriving DecidableEq

def Region.Covers (r : Region) (v : Nat) : Prop := r.virt ≤ v ∧ v < r.virt + r.size
def Region.Apart (r r' : Region) : Prop := r.virt + r.size ≤ r'.virt ∨ r'.virt + r'.size ≤ r.virt

def Canonical (v : Nat) : Prop := v < 2 ^ 47 ∨ (2 ^ 64 - 2 ^ 47 ≤ v ∧ v < 2 ^ 64)

structure Region.Legal (r : Region) : Prop where
  sized : r.size = pageSize ∨ r.size = largePageSize ∨ r.size = jumboPageSize
  aligned : r.size ∣ r.virt
  canonical : Canonical r.virt

/- The place of the entry for a region's large page. -/
def Region.entryPath (r : Region) : List Nat :=
  if r.size = jumboPageSize then [pml4i r.virt, pml3i r.virt] else pathOf r.virt

/- The link of an entry to a table of the next level, as the processor sees it. -/
def link (s : Phys) (table i : Nat) : Option Nat :=
  if isPresent (pte s table i) && !(pte s table i).testBit 7 then some (tableOf s (pte s table i)) else none

def anywhere (_ : Nat) : Prop := True

/-- The tables that the processor can reach are apart, in pages of their own, and every
entry for a large page is that of a region. -/
structure Mixed (s : Phys) (top : Nat) (regions : List Region) : Prop where
  separated : Separated (link s) top (Valid anywhere)
  frames : ∀ path t, Valid anywhere path → descend (link s) top path = some t →
    ∃ q, PageIs s q .used ∧ t = q + s.hhdmOffset
  large : ∀ path t i, Valid anywhere (path ++ [i]) → descend (link s) top path = some t →
    isLarge (pte s t i) = true → ∃ r ∈ regions, r.size ≠ pageSize ∧ r.entryPath = path ++ [i]

structure EmptyTop (s : Phys) (top : Nat) : Prop where
  frame : ∃ q, PageIs s q .used ∧ top = q + s.hhdmOffset
  empty : ∀ i < 512, pte s top i = 0

/- A sequence of calls on regions that do not overlap. -/
inductive Built (top : Nat) (s₀ : Phys) : List Region → Phys → Prop
  | start : Built top s₀ [] s₀
  | map {regions : List Region} {s s' : Phys} {r : Region} {phys flags : Nat}
      (before : Built top s₀ regions s) (legal : r.Legal) (apart : ∀ r' ∈ regions, r.Apart r')
      (result : vmmMapPageSized s top r.virt phys flags r.size = .ok s') : Built top s₀ (r :: regions) s'

/- Bits 30 to 51 and 21 to 51. -/
def jumboMask : Nat := 0x000fffffc0000000
def largeMask : Nat := 0x000fffffffe00000

/- The walk of the processor: the physical address of the 4 KiB around an address. -/
def pageWalk (s : Phys) (top v : Nat) : Option Nat :=
  let e4 := pte s top (pml4i v)
  if ¬ isPresent e4 ∨ e4.testBit 7 then none
  else
    let e3 := pte s (tableOf s e4) (pml3i v)
    if ¬ isPresent e3 then none
    else if e3.testBit 7 then some ((e3 &&& jumboMask) + v % jumboPageSize / pageSize * pageSize)
    else
      let e2 := pte s (tableOf s e3) (pml2i v)
      if ¬ isPresent e2 then none
      else if e2.testBit 7 then some ((e2 &&& largeMask) + v % largePageSize / pageSize * pageSize)
      else
        let e1 := pte s (tableOf s e2) (pml1i v)
        if isPresent e1 then some (e1 &&& pteMask) else none

/-- The lookup finds what the processor finds, and the store of vmm_unmap_page, if there is
one, goes to a table of leaf entries of this pagemap. -/
structure AgreesWithWalk (s : Phys) (top v : Nat) : Prop where
  lookup : vmmGetPhys s top v = (pageWalk s top v).getD 0
  unmap : (descend (child s) top (pathOf v) = none ∧ vmmUnmapPage s top v = s) ∨
    ∃ t, descend (link s) top (pathOf v) = some t ∧ vmmUnmapPage s top v = setPte s t (pml1i v) 0

/-! Entries and places. -/

theorem link_eq (s : Phys) (t i : Nat) :
    link s t i = if isLarge (pte s t i) then none else child s t i := by
  unfold link isLarge child
  cases isPresent (pte s t i) <;> cases (pte s t i).testBit 7 <;> rfl

theorem link_small {s : Phys} {t i : Nat} (small : isLarge (pte s t i) = false) : link s t i = child s t i := by
  rw [link_eq, small]
  rfl

theorem link_some {s : Phys} {t i n : Nat} (entry : link s t i = some n) :
    isLarge (pte s t i) = false ∧ child s t i = some n := by
  rw [link_eq] at entry
  cases large : isLarge (pte s t i) with
  | true =>
    rw [large] at entry
    cases entry
  | false =>
    rw [large] at entry
    exact ⟨rfl, entry⟩

theorem link_congr {s s' : Phys} (hhdm : s'.hhdmOffset = s.hhdmOffset) {u j : Nat}
    (same : pte s' u j = pte s u j) : link s' u j = link s u j := by
  rw [link_eq, link_eq, same, child_congr hhdm same]

/- The entry for a large page on the way to an address covers that address. -/
theorem Region.covers_of_path {r : Region} (legal : r.Legal) {v : Nat} (canonical : Canonical v)
    (large : r.size ≠ pageSize) (onWay : r.entryPath = [pml4i v, pml3i v] ∨ r.entryPath = pathOf v) :
    r.Covers v := by
  have aligned := legal.aligned
  have place := legal.canonical
  unfold Canonical at place canonical
  unfold Region.entryPath pathOf pml2i pml3i pml4i at onWay
  unfold Region.Covers
  simp only [index_eq_mod, Nat.shiftRight_eq_div_pow] at onWay
  rcases legal.sized with page | middle | jumbo
  · exact absurd page large
  · have different : r.size ≠ jumboPageSize := by
      rw [middle]
      decide
    rw [if_neg different] at onWay
    simp only [List.cons.injEq, reduceCtorEq, and_false, and_true, false_or] at onWay
    rw [middle] at aligned ⊢
    unfold largePageSize at *
    omega
  · rw [if_pos jumbo] at onWay
    simp only [List.cons.injEq, reduceCtorEq, and_false, and_true, or_false] at onWay
    rw [jumbo] at aligned ⊢
    unfold jumboPageSize at *
    omega

section Steps

variable {s s' : Phys} {top t i n : Nat} {path : List Nat} {regions : List Region} {list : List Nat}

theorem Mixed.pte_other (mixed : Mixed s top regions) (layout : Layout s.hhdmOffset s.tables)
    (touched : Touched s s' t i) (validPath : Valid anywhere path) (here : descend (link s) top path = some t)
    (boundI : i < 512) {other : List Nat} {u j : Nat} (validOther : Valid anywhere other)
    (there : descend (link s) top other = some u) (boundJ : j < 512) (different : ¬ (u = t ∧ j = i)) :
    pte s' u j = pte s u j := by
  obtain ⟨q, usedQ, rfl⟩ := mixed.frames other u validOther there
  obtain ⟨r, usedR, rfl⟩ := mixed.frames path t validPath here
  apply touched.mem q usedQ _ (slot_inFrame s q boundJ)
  intro same
  obtain ⟨rfl, rfl⟩ := slot_unique layout usedQ usedR boundJ boundI same
  exact different ⟨rfl, rfl⟩

theorem Mixed.weaken (mixed : Mixed s top regions) (r : Region) : Mixed s top (r :: regions) where
  separated := mixed.separated
  frames := mixed.frames
  large := by
    intro path t i valid here large
    obtain ⟨r', member, shape⟩ := mixed.large path t i valid here large
    exact ⟨r', List.mem_cons_of_mem r member, shape⟩

/-- An entry that is no link is written: into a table of leaf entries, or for the large page
of a region. -/
theorem Mixed.store (mixed : Mixed s top regions) (inv : Inv s list) (validPath : Valid anywhere path)
    (here : descend (link s) top path = some t) (boundI : i < 512) (value : Nat)
    (listed : path.length ≤ 2 → isLarge value = true ∧
      ∃ r ∈ regions, r.size ≠ pageSize ∧ r.entryPath = path ++ [i]) :
    Inv (setPte s t i value) list ∧ Mixed (setPte s t i value) top regions := by
  have touched : Touched s (setPte s t i value) t i :=
    ⟨rfl, rfl, fun _ page => page, fun _ used => used, fun _ _ _ _ other => Memory.store_other _ other⟩
  have short : ∀ {other : List Nat} {j : Nat}, Valid anywhere (other ++ [j]) →
      descend (link s) top other = some t → path.length ≤ 2 := by
    intro other j validStep there
    have validOther := valid_closed anywhere other [j] validStep
    rw [mixed.separated path other t validPath validOther here there]
    exact (valid_index validStep).2.1
  -- nothing is found that was not there, since the written entry links to nothing
  have old : ∀ other u, Valid anywhere other → descend (link (setPte s t i value)) top other = some u →
      descend (link s) top other = some u := by
    intro other u validOther found
    apply descend_of_sub _ found
    intro before j after w m split reached entry
    have validStep : Valid anywhere (before ++ [j]) := by
      apply valid_closed anywhere _ after
      rwa [List.append_assoc, List.singleton_append, ← split]
    have validBefore := valid_closed anywhere before [j] validStep
    by_cases written : w = t ∧ j = i
    · obtain ⟨rfl, rfl⟩ := written
      have noLink := (link_some entry).1
      rw [pte_setPte, (listed (short validStep reached)).1] at noLink
      cases noLink
    · have same := mixed.pte_other inv.layout touched validPath here boundI validBefore reached
        (valid_index validStep).1 written
      exact (link_congr touched.hhdm same).symm.trans entry
  refine ⟨?_, ?_, ?_, ?_⟩
  · obtain ⟨q, used, rfl⟩ := mixed.frames path t validPath here
    exact inv_setPte inv used boundI value
  · intro left right u validLeft validRight toLeft toRight
    exact mixed.separated left right u validLeft validRight (old left u validLeft toLeft)
      (old right u validRight toRight)
  · exact fun other u validOther there => mixed.frames other u validOther (old other u validOther there)
  · intro other u j validStep there large
    have validOther := valid_closed anywhere other [j] validStep
    have before := old other u validOther there
    by_cases written : u = t ∧ j = i
    · obtain ⟨rfl, rfl⟩ := written
      rw [mixed.separated other path u validOther validPath before here]
      exact (listed (short validStep before)).2
    · have same := mixed.pte_other inv.layout touched validPath here boundI validOther before
        (valid_index validStep).1 written
      rw [same] at large
      exact mixed.large other u j validStep before large

/-- A fresh page is entered as a table. -/
theorem Mixed.attach {p : Nat} {s₁ : Phys} {list₁ : List Nat} (mixed : Mixed s top regions) (inv : Inv s list)
    (valid : Valid anywhere (path ++ [i])) (here : descend (link s) top path = some t)
    (missing : isPresent (pte s t i) = false) (inv₁ : Inv s₁ list₁) (allocated : Allocated s p s₁) :
    Inv (setPte s₁ t i (p ||| 7)) list₁ ∧ Mixed (setPte s₁ t i (p ||| 7)) top regions ∧
      descend (link (setPte s₁ t i (p ||| 7))) top (path ++ [i]) = some (p + s.hhdmOffset) ∧
      tableOf (setPte s₁ t i (p ||| 7)) (p ||| 7) = p + s.hhdmOffset := by
  obtain ⟨boundI, -, -⟩ := valid_index valid
  have closed := valid_closed anywhere
  have validPath := closed path [i] valid
  have layout := inv.layout
  obtain ⟨r, usedR, rfl⟩ := mixed.frames path t validPath here
  obtain ⟨state, page, unused⟩ := allocated.fresh
  obtain ⟨aligned, _, mapped, physical⟩ := layout.page_bounds page
  have notUsed : ¬ PageIs s p .used := fun used => unused (layout.page_unique page used)
  have usedR₁ : PageIs s₁ r .used := (allocated.owned r).mpr (.inr usedR)
  let s' : Phys := setPte s₁ (r + s.hhdmOffset) i (p ||| 7)
  have hhdm : s'.hhdmOffset = s.hhdmOffset := allocated.hhdm
  obtain ⟨touched, zero⟩ : Touched s s' (r + s.hhdmOffset) i ∧ ∀ j < 512, pte s' (p + s.hhdmOffset) j = 0 :=
    Touched.attach layout allocated usedR boundI (p ||| 7)
  have agree : AgreeBut (link s) (link s') top (Valid anywhere) (r + s.hhdmOffset) i := by
    intro other u j validStep there different
    have validOther := closed other [j] validStep
    exact link_congr hhdm (mixed.pte_other layout touched validPath here boundI validOther there
      (valid_index validStep).1 different)
  have written : pte s' (r + s.hhdmOffset) i = p ||| 7 := Memory.store_same _ _ _
  have small : isLarge (p ||| 7) = false := by
    unfold isLarge
    rw [entry_bit aligned physical (by decide), Bool.and_eq_false_iff]
    exact .inr (by decide)
  have address : tableOf s' (p ||| 7) = p + s.hhdmOffset := by
    unfold tableOf
    rw [entry_mask aligned physical (by decide), hhdm, wadd_eq (by omega)]
  have entry : link s' (r + s.hhdmOffset) i = some (p + s.hhdmOffset) := by
    have present : isPresent (p ||| 7) = true := by
      rw [isPresent_eq, entry_bit aligned physical (by decide)]
      rfl
    rw [link_small (by rw [written, small]), child_eq, written, if_pos present, address]
  have attached : Attached (link s) (link s') top (Valid anywhere) path (r + s.hhdmOffset) i
      (p + s.hhdmOffset) := by
    refine ⟨agree, here, ?_, entry, ?_, ?_⟩
    · unfold link
      rw [missing]
      rfl
    · intro j validNext
      unfold link
      rw [zero j (validNext.2.1 j (by simp)), isPresent_zero]
      rfl
    · intro other validOther there
      obtain ⟨q, usedQ, same⟩ := mixed.frames other _ validOther there
      have equal : p = q := by omega
      exact notUsed (equal ▸ usedQ)
  have lookup := fun (other : List Nat) (validOther : Valid anywhere other) =>
    attached.lookup closed mixed.separated valid validOther
  refine ⟨?_, ⟨attached.separated closed mixed.separated valid, ?_, ?_⟩, ?_, address⟩
  · have stored := inv_setPte inv₁ usedR₁ boundI (p ||| 7)
    rwa [allocated.hhdm] at stored
  · intro other u validOther there
    rw [lookup other validOther] at there
    split at there
    · cases Option.some.inj there
      exact ⟨p, (allocated.owned p).mpr (.inl rfl), congrArg (p + ·) hhdm.symm⟩
    · obtain ⟨q, usedQ, rfl⟩ := mixed.frames other u validOther there
      exact ⟨q, touched.used q usedQ, congrArg (q + ·) hhdm.symm⟩
  · intro other u j validStep there large
    have validOther := closed other [j] validStep
    have boundJ := (valid_index validStep).1
    rw [lookup other validOther] at there
    split at there
    · cases Option.some.inj there
      change isLarge (pte s' (p + s.hhdmOffset) j) = true at large
      rw [zero j boundJ, isLarge_zero] at large
      cases large
    · by_cases same : u = r + s.hhdmOffset ∧ j = i
      · obtain ⟨rfl, rfl⟩ := same
        change isLarge (pte s' (r + s.hhdmOffset) j) = true at large
        rw [written, small] at large
        cases large
      · have kept := mixed.pte_other layout touched validPath here boundI validOther there boundJ same
        change isLarge (pte s' u j) = true at large
        rw [kept] at large
        exact mixed.large other u j validStep there large
  · rw [lookup _ valid, if_pos rfl]

/-- A step of vmm_map_page that makes sure of a table. -/
theorem Mixed.ensure (mixed : Mixed s top regions) (inv : Inv s list) (valid : Valid anywhere (path ++ [i]))
    (here : descend (link s) top path = some t) (small : isLarge (pte s t i) = false)
    (result : ensureTable s t i = .ok s') :
    ∃ list', Inv s' list' ∧ Mixed s' top regions ∧
      descend (link s') top (path ++ [i]) = some (tableOf s' (pte s' t i)) := by
  by_cases present : isPresent (pte s t i) = true
  · rw [ensureTable, if_pos present] at result
    cases result
    refine ⟨list, inv, mixed, ?_⟩
    rw [descend_snoc, here, Option.bind_some, link_small small, child_eq, if_pos present]
  · have missing : isPresent (pte s t i) = false := by simpa using present
    rcases allocatePage_outcome inv with ⟨p, s₁, list₁, returned, inv₁, allocated⟩ | ⟨failed, -⟩
    · obtain ⟨state, page, -⟩ := allocated.fresh
      obtain ⟨aligned, -, -, physical⟩ := inv.layout.page_bounds page
      have masked := page_mask aligned physical
      obtain ⟨inv', mixed', reached, address⟩ := mixed.attach inv valid here missing inv₁ allocated
      simp only [ensureTable, if_neg present, returned, bind, Except.bind, masked, setPte_setPte, pte_setPte,
        Except.ok.injEq] at result
      change setPte s₁ t i (p ||| 7) = s' at result
      subst result
      rw [pte_setPte, address]
      exact ⟨list₁, inv', mixed', reached⟩
    · simp only [ensureTable, if_neg present, failed, bind, Except.bind] at result
      cases result

/- On the way to an address that no large page covers there is no entry for one. -/
theorem Mixed.small_on_way (mixed : Mixed s top regions) (legal : ∀ r ∈ regions, r.Legal) {v : Nat}
    (canonical : Canonical v) (uncovered : ∀ r ∈ regions, r.size = pageSize ∨ ¬ r.Covers v)
    (valid : Valid anywhere (path ++ [i])) (here : descend (link s) top path = some t)
    (onWay : path ++ [i] = [pml4i v] ∨ path ++ [i] = [pml4i v, pml3i v] ∨ path ++ [i] = pathOf v) :
    isLarge (pte s t i) = false := by
  cases large : isLarge (pte s t i) with
  | false => rfl
  | true =>
    obtain ⟨r, member, notPage, place⟩ := mixed.large path t i valid here large
    rw [← place] at onWay
    rcases onWay with first | later
    · unfold Region.entryPath pathOf at first
      split at first <;> simp at first
    · rcases uncovered r member with page | outside
      · exact absurd page notPage
      · exact absurd (Region.covers_of_path (legal r member) canonical notPage later) outside

/-- One call of vmm_map_page. -/
theorem Mixed.map (mixed : Mixed s top regions) (inv : Inv s list) (legal : ∀ r ∈ regions, r.Legal) {r : Region}
    (legalNew : r.Legal) (apart : ∀ r' ∈ regions, r.Apart r') {phys flags : Nat}
    (result : vmmMapPageSized s top r.virt phys flags r.size = .ok s') :
    ∃ list', Inv s' list' ∧ Mixed s' top (r :: regions) := by
  have uncovered : ∀ r' ∈ regions, r'.size = pageSize ∨ ¬ r'.Covers r.virt := by
    intro r' member
    have nonempty : 0 < r.size := by
      rcases legalNew.sized with size | size | size <;> rw [size] <;> decide
    have separate := apart r' member
    unfold Region.Apart at separate
    unfold Region.Covers
    exact .inr (by omega)
  have whole := @valid_pathOf anywhere r.virt trivial
  have valid4 : Valid anywhere ([] ++ [pml4i r.virt]) := valid_closed anywhere [pml4i r.virt] _ whole
  have valid3 : Valid anywhere ([pml4i r.virt] ++ [pml3i r.virt]) :=
    valid_closed anywhere [pml4i r.virt, pml3i r.virt] _ whole
  have valid2 : Valid anywhere ([pml4i r.virt, pml3i r.virt] ++ [pml2i r.virt]) := whole
  obtain ⟨bound1, bound2, bound3, -⟩ := pml_lt r.virt
  have largeEntry := isLarge_entry phys flags
  unfold vmmMapPageSized at result
  obtain ⟨s₁, ran₁, result⟩ := bind_eq_ok.mp result
  have small4 := mixed.small_on_way legal legalNew.canonical uncovered valid4 rfl (.inl rfl)
  obtain ⟨list₁, inv₁, mixed₁, to₁⟩ := mixed.ensure inv valid4 rfl small4 ran₁
  have small3 := mixed₁.small_on_way legal legalNew.canonical uncovered valid3 to₁ (.inr (.inl rfl))
  split at result
  case isTrue jumbo =>
    cases result
    rw [writeEntry_eq]
    refine ⟨list₁, (mixed₁.weaken r).store inv₁ valid4 to₁ bound3 _ fun _ => ⟨largeEntry, ?_⟩⟩
    refine ⟨r, List.mem_cons_self, by rw [jumbo]; decide, ?_⟩
    rw [Region.entryPath, if_pos jumbo]
    rfl
  case isFalse notJumbo =>
    obtain ⟨s₂, ran₂, result⟩ := bind_eq_ok.mp result
    obtain ⟨list₂, inv₂, mixed₂, to₂⟩ := mixed₁.ensure inv₁ valid3 to₁ small3 ran₂
    have small2 := mixed₂.small_on_way legal legalNew.canonical uncovered valid2 to₂ (.inr (.inr rfl))
    split at result
    case isTrue middle =>
      cases result
      rw [writeEntry_eq]
      refine ⟨list₂, (mixed₂.weaken r).store inv₂ valid3 to₂ bound2 _ fun _ => ⟨largeEntry, ?_⟩⟩
      refine ⟨r, List.mem_cons_self, by rw [middle]; decide, ?_⟩
      rw [Region.entryPath, if_neg notJumbo]
      rfl
    case isFalse =>
      obtain ⟨s₃, ran₃, result⟩ := bind_eq_ok.mp result
      obtain ⟨list₃, inv₃, mixed₃, to₃⟩ := mixed₂.ensure inv₂ valid2 to₂ small2 ran₃
      cases result
      rw [writeEntry_eq]
      exact ⟨list₃, (mixed₃.weaken r).store inv₃ valid2 to₃ bound1 _ fun short => absurd short (by simp)⟩

end Steps

section Runs

variable {s₀ s : Phys} {top : Nat} {regions : List Region} {list₀ list : List Nat}

/- In an empty top level the only table is itself. -/
theorem EmptyTop.mixed (empty : EmptyTop s top) : Mixed s top [] := by
  have onlyTop : ∀ path t, Valid anywhere path → descend (link s) top path = some t → path = [] ∧ t = top := by
    intro path t valid there
    cases path with
    | nil => exact ⟨rfl, (Option.some.inj there).symm⟩
    | cons i rest =>
      have none : link s top i = none := by
        unfold link
        rw [empty.empty i (valid.2.1 i List.mem_cons_self), isPresent_zero]
        rfl
      simp only [descend, none, Option.bind_none] at there
      cases there
  refine ⟨?_, ?_, ?_⟩
  · intro left right t validLeft validRight toLeft toRight
    rw [(onlyTop left t validLeft toLeft).1, (onlyTop right t validRight toRight).1]
  · intro path t valid there
    rw [(onlyTop path t valid there).2]
    exact empty.frame
  · intro path t i valid there large
    rw [(onlyTop path t (valid_closed anywhere path [i] valid) there).2,
      empty.empty i (valid_index valid).1, isLarge_zero] at large
    cases large

theorem Built.mixed (inv₀ : Inv s₀ list₀) (empty : EmptyTop s₀ top) (built : Built top s₀ regions s) :
    (∃ list, Inv s list ∧ Mixed s top regions) ∧ ∀ r ∈ regions, r.Legal := by
  induction built with
  | start => exact ⟨⟨list₀, inv₀, empty.mixed⟩, by simp⟩
  | map _ legalNew apart result ih =>
    obtain ⟨⟨list, inv, mixed⟩, legal⟩ := ih
    refine ⟨mixed.map inv legal legalNew apart result, ?_⟩
    intro r member
    rcases List.mem_cons.mp member with rfl | old
    · exact legalNew
    · exact legal r old

theorem link_follow {t i : Nat} {path : List Nat} (here : descend (link s) top path = some t)
    (small : isLarge (pte s t i) = false) (present : isPresent (pte s t i) = true) :
    descend (link s) top (path ++ [i]) = some (tableOf s (pte s t i)) := by
  rw [descend_snoc, here, Option.bind_some, link_small small, child_eq, if_pos present]

theorem plain_entry {entry : Nat} (small : isLarge entry = false) (present : isPresent entry = true) :
    entry.testBit 7 = false := by
  rwa [isLarge, present, Bool.true_and] at small

/-- Where no large page covers the address the two walks are the same. -/
theorem Mixed.agrees (mixed : Mixed s top regions) (legal : ∀ r ∈ regions, r.Legal) {v : Nat}
    (canonical : Canonical v) (uncovered : ∀ r ∈ regions, r.size = pageSize ∨ ¬ r.Covers v) :
    AgreesWithWalk s top v := by
  have whole := @valid_pathOf anywhere v trivial
  have valid4 : Valid anywhere ([] ++ [pml4i v]) := valid_closed anywhere [pml4i v] _ whole
  have valid3 : Valid anywhere ([pml4i v] ++ [pml3i v]) := valid_closed anywhere [pml4i v, pml3i v] _ whole
  have valid2 : Valid anywhere ([pml4i v, pml3i v] ++ [pml2i v]) := whole
  have small4 := mixed.small_on_way legal canonical uncovered valid4 rfl (.inl rfl)
  by_cases present4 : isPresent (pte s top (pml4i v)) = true
  case neg =>
    refine ⟨?_, .inl ⟨?_, ?_⟩⟩
    · simp [vmmGetPhys, pageWalk, present4]
    · simp [pathOf, descend, child, present4]
    · simp [vmmUnmapPage, present4]
  case pos =>
    have plain4 := plain_entry small4 present4
    have to3 : descend (link s) top ([] ++ [pml4i v]) = _ := link_follow rfl small4 present4
    have small3 := mixed.small_on_way legal canonical uncovered valid3 to3 (.inr (.inl rfl))
    by_cases present3 : isPresent (pte s (tableOf s (pte s top (pml4i v))) (pml3i v)) = true
    case neg =>
      refine ⟨?_, .inl ⟨?_, ?_⟩⟩
      · simp [vmmGetPhys, pageWalk, present4, plain4, present3]
      · simp [pathOf, descend, child, present4, present3]
      · simp [vmmUnmapPage, present4, present3]
    case pos =>
      have plain3 := plain_entry small3 present3
      have to2 := link_follow to3 small3 present3
      have small2 := mixed.small_on_way legal canonical uncovered valid2 to2 (.inr (.inr rfl))
      by_cases present2 : isPresent (pte s (tableOf s (pte s (tableOf s (pte s top (pml4i v))) (pml3i v)))
          (pml2i v)) = true
      case neg =>
        refine ⟨?_, .inl ⟨?_, ?_⟩⟩
        · simp [vmmGetPhys, pageWalk, present4, plain4, present3, plain3, present2]
        · simp [pathOf, descend, child, present4, present3, present2]
        · simp [vmmUnmapPage, present4, present3, present2]
      case pos =>
        have plain2 := plain_entry small2 present2
        have to1 := link_follow to2 small2 present2
        refine ⟨?_, .inr ⟨_, to1, ?_⟩⟩
        · simp only [vmmGetPhys, pageWalk, present4, plain4, present3, plain3, present2, plain2,
            not_true_eq_false, Bool.false_eq_true, or_self, if_false]
          split <;> rfl
        · simp only [vmmUnmapPage, present4, present3, present2, not_true_eq_false, if_false]

/-- Where the walk ends at an entry for 2 MiB, vmm_unmap_page always stores behind it. -/
theorem large_entry_never_agrees {v t : Nat} (here : descend (link s) top [pml4i v, pml3i v] = some t)
    (large : isLarge (pte s t (pml2i v)) = true) : ¬ AgreesWithWalk s top v := by
  intro agrees
  have split : pathOf v = [pml4i v, pml3i v] ++ [pml2i v] := rfl
  rcases agrees.unmap with ⟨missing, -⟩ | ⟨u, found, -⟩
  · have found : descend (child s) top [pml4i v, pml3i v] = some t := by
      apply descend_of_sub _ here
      exact fun _ _ _ _ _ _ _ entry => (link_some entry).2
    have present : isPresent (pte s t (pml2i v)) = true := (Bool.and_eq_true_iff.mp large).1
    rw [split, descend_snoc, found, Option.bind_some, child_eq, if_pos present] at missing
    cases missing
  · rw [split, descend_snoc, here, Option.bind_some, link_eq, large] at found
    cases found

/-- In every pagemap built from an empty one, lookup and unmap do what the processor's walk
says at each address that no page of 2 MiB or 1 GiB covers. -/
theorem lookup_agrees_with_walk (inv₀ : Inv s₀ list₀) (empty : EmptyTop s₀ top)
    (built : Built top s₀ regions s) {v : Nat} (canonical : Canonical v)
    (uncovered : ∀ r ∈ regions, r.size = pageSize ∨ ¬ r.Covers v) : AgreesWithWalk s top v := by
  obtain ⟨⟨list, inv, mixed⟩, legal⟩ := built.mixed inv₀ empty
  exact mixed.agrees legal canonical uncovered

theorem emptyTop_of_allocated {p : Nat} {s' : Phys} (allocated : Allocated s p s') :
    EmptyTop s' (p + s.hhdmOffset) where
  frame := ⟨p, (allocated.owned p).mpr (.inl rfl), congrArg (p + ·) allocated.hhdm.symm⟩
  empty := fun _ bound => allocated.zero _ (slot_inFrame s p bound)

end Runs

/- The small machine with an empty top level in its first free page. -/
def emptyPagemap : Except Panic (Nat × Phys) := do
  let s ← setupPmm 0xFFFF800000000000 smallMap (fun _ => 7)
  let (p, s) ← allocatePage s
  .ok (p + 0xFFFF800000000000, s)

theorem emptyPagemap_empty {top : Nat} {s : Phys} (made : emptyPagemap = .ok (top, s)) :
    (∃ list, Inv s list) ∧ EmptyTop s top := by
  obtain ⟨s₀, boots, made⟩ := bind_eq_ok.mp made
  obtain ⟨⟨p, s₁⟩, taken, made⟩ := bind_eq_ok.mp made
  cases made
  obtain ⟨list₀, inv₀⟩ := setupPmm_inv smallMap_limine boots
  have offset : s₀.hhdmOffset = 0xFFFF800000000000 := by
    cases Except.ok.inj boots
    rfl
  rcases allocatePage_outcome inv₀ with ⟨p', s', list', returned, inv', allocated⟩ | ⟨failed, -⟩
  · cases returned.symm.trans taken
    exact ⟨⟨list', inv'⟩, offset ▸ emptyTop_of_allocated allocated⟩
  · cases failed.symm.trans taken

/- One call on it. -/
def oneRegion (virt phys size : Nat) : Except Panic (Nat × Phys × Phys) := do
  let (top, s) ← emptyPagemap
  let s' ← vmmMapPageSized s top virt phys 3 size
  .ok (top, s, s')

/- What the two walks make of an address, and the word behind the large page's address
before and after vmm_unmap_page. -/
def observe (v word : Nat) (r : Nat × Phys × Phys) : Nat × Option Nat × Nat × Nat :=
  let (top, _, s) := r
  (vmmGetPhys s top v, pageWalk s top v, s.mem word, (vmmUnmapPage s top v).mem word)

theorem oneRegion_ok {virt phys size v word : Nat} {seen : Nat × Option Nat × Nat × Nat}
    (observed : (oneRegion virt phys size).toOption.map (observe v word) = some seen) :
    ∃ top s s', oneRegion virt phys size = .ok (top, s, s') ∧ observe v word (top, s, s') = seen := by
  cases ran : oneRegion virt phys size with
  | error e =>
    rw [ran] at observed
    cases observed
  | ok r =>
    rw [ran] at observed
    exact ⟨r.1, r.2.1, r.2.2, rfl, Option.some.inj observed⟩

theorem oneRegion_built {virt phys size top : Nat} {s s' : Phys} (legal : Region.Legal ⟨virt, size⟩)
    (ran : oneRegion virt phys size = .ok (top, s, s')) :
    (∃ list, Inv s list) ∧ EmptyTop s top ∧ Built top s [⟨virt, size⟩] s' := by
  obtain ⟨⟨top', s₁⟩, made, ran⟩ := bind_eq_ok.mp ran
  obtain ⟨s₂, mapped, ran⟩ := bind_eq_ok.mp ran
  cases ran
  obtain ⟨inv, empty⟩ := emptyPagemap_empty made
  exact ⟨inv, empty, .map .start legal (by simp) mapped⟩

theorem lookup_agrees_small : ∃ top s s', Built top s [⟨0x400000, pageSize⟩] s' ∧
    AgreesWithWalk s' top 0x400000 := by
  obtain ⟨top, s, s', ran, -⟩ := @oneRegion_ok 0x400000 0x5000 pageSize 0x400000 0
    (0x5000, some 0x5000, 7, 7) (by decide +kernel)
  have legal : Region.Legal ⟨0x400000, pageSize⟩ := ⟨.inl rfl, by decide, .inl (by decide)⟩
  obtain ⟨⟨list, inv⟩, empty, built⟩ := oneRegion_built legal ran
  refine ⟨top, s, s', built, ?_⟩
  exact lookup_agrees_with_walk inv empty built (.inl (by decide)) (by simp)

/-- A page of 2 MiB that leads to device memory whose first word is 7: the lookup returns
NULL, and vmm_unmap_page clears the word. -/
theorem large_page_taken_for_table : ∃ top s s', (∃ list, Inv s list) ∧ EmptyTop s top ∧
    Built top s [⟨0x200000, largePageSize⟩] s' ∧ Canonical 0x200000 ∧
    pageWalk s' top 0x200000 = some 0x40000000 ∧ vmmGetPhys s' top 0x200000 = 0 ∧
    s'.mem 0xFFFF800040000000 = 7 ∧ (vmmUnmapPage s' top 0x200000).mem 0xFFFF800040000000 = 0 ∧
    ¬ AgreesWithWalk s' top 0x200000 := by
  obtain ⟨top, s, s', ran, seen⟩ := @oneRegion_ok 0x200000 0x40000000 largePageSize 0x200000
    0xFFFF800040000000 (0, some 0x40000000, 7, 0) (by decide +kernel)
  have legal : Region.Legal ⟨0x200000, largePageSize⟩ := ⟨.inr (.inl rfl), by decide, .inl (by decide)⟩
  obtain ⟨inv, empty, built⟩ := oneRegion_built legal ran
  simp only [observe, Prod.mk.injEq] at seen
  obtain ⟨lookup, walk, before, after⟩ := seen
  refine ⟨top, s, s', inv, empty, built, .inl (by decide), walk, lookup, before, after, ?_⟩
  intro agrees
  have same := agrees.lookup
  rw [lookup, walk] at same
  cases same

end EvalynOS.Vmm
