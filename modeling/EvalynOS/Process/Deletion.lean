import EvalynOS.Memory.VmmFrames
import EvalynOS.Process.Coherence

/-! From new_pagemap to delete_pagemap. Each page that was taken for the process is freed by
one call of free_page, and no other page is. -/
namespace EvalynOS.Process
open Lib Lib.Word Pmm Vmm

/- A pagemap that is being filled: the pages that allocate_page() returned and that are not
mapped yet, those that vmm_map_page took for its tables, and those that are mapped. -/
structure Building where
  phys : Phys
  topLevel : Nat
  pool : List Nat
  tables : Finset Nat
  leaves : List Nat

inductive Built (s₀ : Phys) (kernelTop : Nat) : Building → Prop where
  | created {space : AddressSpace} : newPagemap s₀ kernelTop = .ok space →
      Built s₀ kernelTop ⟨space.phys, space.topLevel, [], ∅, []⟩
  | allocated {b : Building} {p : Nat} {s' : Phys} : Built s₀ kernelTop b →
      allocatePage b.phys = .ok (p, s') → Built s₀ kernelTop { b with phys := s', pool := p :: b.pool }
  | mapped {b : Building} {v p flags : Nat} {s' : Phys} : Built s₀ kernelTop b → v < 2 ^ 47 →
      isPresent (leaf b.phys b.topLevel v) = false → p ∈ b.pool → IsFlags flags →
      vmmMapPage b.phys b.topLevel v p flags = .ok s' →
      Built s₀ kernelTop { b with
        phys := s', pool := b.pool.erase p, tables := b.tables ∪ (usedFrames s' \ usedFrames b.phys),
        leaves := p :: b.leaves }

/-- Every page in use was in use before new_pagemap, or is in one of the roles. -/
structure Balanced (s₀ : Phys) (root : Nat) (b : Building) : Prop where
  inv : ∃ list, Inv b.phys list
  hhdm : b.phys.hhdmOffset = s₀.hhdmOffset
  space : UserSpace b.phys b.topLevel
  top : b.topLevel = root + s₀.hhdmOffset
  tables : ∀ q, OwnsTable b.phys b.topLevel q ↔ q = root ∨ q ∈ b.tables
  leaves : ∀ q, OwnsLeaf b.phys b.topLevel q ↔ q ∈ b.leaves
  known : ∀ v, lowerHalf (pml4i v) → isPresent (leaf b.phys b.topLevel v) = true →
    leaf b.phys b.topLevel v &&& pteMask ∈ b.leaves
  used : ∀ q, PageIs b.phys q .used ↔ PageIs s₀ q .used ∨ Owns b.phys b.topLevel q ∨ q ∈ b.pool
  apart : ∀ q, PageIs s₀ q .used → ¬ Owns b.phys b.topLevel q ∧ q ∉ b.pool
  free : ∀ q ∈ b.pool, ¬ Owns b.phys b.topLevel q
  nodup : b.pool.Nodup

/-- A process and the pages of others: every page in use is one of theirs or has a role. -/
structure Holds (others : Nat → Prop) (root : Nat) (b : Building) : Prop where
  inv : ∃ list, Inv b.phys list
  space : UserSpace b.phys b.topLevel
  top : b.topLevel = root + b.phys.hhdmOffset
  tables : ∀ q, OwnsTable b.phys b.topLevel q ↔ q = root ∨ q ∈ b.tables
  leaves : ∀ q, OwnsLeaf b.phys b.topLevel q ↔ q ∈ b.leaves
  known : ∀ v, lowerHalf (pml4i v) → isPresent (leaf b.phys b.topLevel v) = true →
    leaf b.phys b.topLevel v &&& pteMask ∈ b.leaves
  used : ∀ q, PageIs b.phys q .used ↔ others q ∨ Owns b.phys b.topLevel q ∨ q ∈ b.pool
  apart : ∀ q, others q → ¬ Owns b.phys b.topLevel q ∧ q ∉ b.pool
  free : ∀ q ∈ b.pool, ¬ Owns b.phys b.topLevel q
  nodup : b.pool.Nodup

section Hold

variable {others others' : Nat → Prop} {root : Nat} {b : Building}

theorem Holds.mine (holds : Holds others root b) {q : Nat} (owns : Owns b.phys b.topLevel q) :
    PageIs b.phys q .used :=
  (holds.used q).mpr (.inr (.inl owns))

/-- The tables stay as they are; pages of others and pages that are not mapped come and go. -/
theorem Holds.frame (holds : Holds others root b) {s' : Phys} {list' pool' : List Nat} (inv' : Inv s' list')
    (hhdm : s'.hhdmOffset = b.phys.hhdmOffset) (pages : Pages b.phys s')
    (words : ∀ q, OwnsTable b.phys b.topLevel q → ∀ i < 512,
      pte s' (q + b.phys.hhdmOffset) i = pte b.phys (q + b.phys.hhdmOffset) i)
    (used : ∀ q, PageIs s' q .used ↔ others' q ∨ Owns b.phys b.topLevel q ∨ q ∈ pool')
    (apart : ∀ q, others' q → ¬ Owns b.phys b.topLevel q ∧ q ∉ pool')
    (free : ∀ q ∈ pool', ¬ Owns b.phys b.topLevel q) (nodup : pool'.Nodup) :
    Holds others' root { b with phys := s', pool := pool' } ∧
      ∀ v, lowerHalf (pml4i v) → leaf s' b.topLevel v = leaf b.phys b.topLevel v := by
  obtain ⟨space', tables, leaves, entries⟩ := holds.space.agree inv'.layout hhdm pages
    (fun q owns => (used q).mpr (.inr (.inl owns))) words
  have same : ∀ q, Owns s' b.topLevel q ↔ Owns b.phys b.topLevel q := fun q => or_congr (tables q) (leaves q)
  refine ⟨⟨⟨list', inv'⟩, space', ?_, ?_, ?_, ?_, ?_, ?_, ?_, nodup⟩, entries⟩
  · dsimp only
    rw [hhdm]
    exact holds.top
  · exact fun q => (tables q).trans (holds.tables q)
  · exact fun q => (leaves q).trans (holds.leaves q)
  · intro v inside present
    dsimp only at present ⊢
    rw [entries v inside] at present ⊢
    exact holds.known v inside present
  · intro q
    dsimp only
    rw [same q]
    exact used q
  · intro q other
    dsimp only
    rw [same q]
    exact apart q other
  · intro q member
    dsimp only
    rw [same q]
    exact free q member

theorem Holds.allocate (holds : Holds others root b) {p : Nat} {s' : Phys}
    (ran : allocatePage b.phys = .ok (p, s')) :
    Holds others root { b with phys := s', pool := p :: b.pool } ∧
      ∀ v, lowerHalf (pml4i v) → leaf s' b.topLevel v = leaf b.phys b.topLevel v := by
  obtain ⟨list, inv⟩ := holds.inv
  rcases allocatePage_outcome inv with ⟨p₁, s₁, list₁, returned, inv₁, allocated⟩ | ⟨failed, _⟩
  swap
  · cases failed.symm.trans ran
  cases Except.ok.inj (returned.symm.trans ran)
  obtain ⟨state, page, unused⟩ := allocated.fresh
  have notUsed : ¬ PageIs b.phys p .used := fun isUsed => unused (inv.layout.page_unique page isUsed)
  refine holds.frame inv₁ allocated.hhdm (fun q => (allocated.pages q).mp) ?_ ?_ ?_ ?_ ?_
  · intro q table i bound
    exact allocated.frame q (holds.mine (.inl table)) _ (slot_inFrame b.phys q bound)
  · intro q
    rw [allocated.owned q, holds.used q, List.mem_cons]
    tauto
  · intro q other
    obtain ⟨notOwned, notPool⟩ := holds.apart q other
    refine ⟨notOwned, ?_⟩
    intro member
    rcases List.mem_cons.mp member with rfl | old
    · exact notUsed ((holds.used q).mpr (.inl other))
    · exact notPool old
  · intro q member
    rcases List.mem_cons.mp member with rfl | old
    · exact fun owns => notUsed (holds.mine owns)
    · exact holds.free q old
  · refine List.nodup_cons.mpr ⟨fun member => notUsed ?_, holds.nodup⟩
    exact (holds.used p).mpr (.inr (.inr member))

/-- The entry that vmm_map_page writes for a page. -/
theorem mapped_entry {s : Phys} {list : List Nat} (inv : Inv s list) {p flags : Nat} (used : PageIs s p .used)
    (isFlags : IsFlags flags) :
    (p &&& pteMask ||| (ptePresent ||| flags)) &&& pteMask = p ∧
      isPresent (p &&& pteMask ||| (ptePresent ||| flags)) = true := by
  obtain ⟨aligned, _, _, physical⟩ := inv.layout.page_bounds used
  constructor
  · have whole := @entry_mask p 0 aligned physical (by decide)
    rw [mapped_page isFlags]
    rwa [Nat.or_zero] at whole
  · rw [isPresent_eq, Nat.testBit_or, Nat.testBit_or]
    simp [ptePresent]

/-- One more page is mapped, at an address that had none. -/
theorem Holds.mapped_leaves (holds : Holds others root b) {v p value : Nat} {s' : Phys}
    (set : LeafSet b.phys s' b.topLevel lowerHalf v value) (inside : lowerHalf (pml4i v))
    (absent : isPresent (leaf b.phys b.topLevel v) = false) (used : PageIs b.phys p .used)
    (page : value &&& pteMask = p) (present : isPresent value = true) :
    (∀ w, lowerHalf (pml4i w) → isPresent (leaf s' b.topLevel w) = true →
      leaf s' b.topLevel w &&& pteMask ∈ p :: b.leaves) ∧
    ∀ q, OwnsLeaf s' b.topLevel q ↔ q ∈ p :: b.leaves := by
  have known : ∀ w, lowerHalf (pml4i w) → isPresent (leaf s' b.topLevel w) = true →
      leaf s' b.topLevel w &&& pteMask ∈ p :: b.leaves := by
    intro w insideW presentW
    rw [set.leaves w insideW] at presentW ⊢
    by_cases same : pageBits w = pageBits v
    · rw [if_pos same, page]
      exact List.mem_cons_self
    · rw [if_neg same] at presentW ⊢
      exact List.mem_cons_of_mem _ (holds.known w insideW presentW)
  refine ⟨known, ?_⟩
  intro q
  constructor
  · rintro ⟨_, w, insideW, presentW, rfl⟩
    exact known w insideW presentW
  · intro inLeaves
    rcases List.mem_cons.mp inLeaves with rfl | old
    · refine ⟨set.kept.used _ used, v, inside, ?_, ?_⟩
      · rw [set.leaves v inside, if_pos rfl]
        exact present
      · rw [set.leaves v inside, if_pos rfl, page]
    · obtain ⟨usedQ, w, insideW, presentW, here⟩ := (holds.leaves q).mpr old
      have other : pageBits w ≠ pageBits v := by
        intro same
        rw [leaf_congr same, absent] at presentW
        cases presentW
      refine ⟨set.kept.used _ usedQ, w, insideW, ?_, ?_⟩
      · rw [set.leaves w insideW, if_neg other]
        exact presentW
      · rw [set.leaves w insideW, if_neg other]
        exact here

theorem Holds.map (holds : Holds others root b) {v p flags : Nat} {s' : Phys} (low : v < 2 ^ 47)
    (absent : isPresent (leaf b.phys b.topLevel v) = false) (member : p ∈ b.pool) (isFlags : IsFlags flags)
    (ran : vmmMapPage b.phys b.topLevel v p flags = .ok s') :
    Holds others root { b with
      phys := s', pool := b.pool.erase p, tables := b.tables ∪ (usedFrames s' \ usedFrames b.phys),
      leaves := p :: b.leaves } := by
  obtain ⟨list, inv⟩ := holds.inv
  have inside := lowerHalf_pml4i low
  have usedP : PageIs b.phys p .used := (holds.used p).mpr (.inr (.inr member))
  obtain ⟨value, present⟩ := mapped_entry inv usedP isFlags
  rcases vmmMapPage_outcome inv holds.space.tree inside p flags with
    ⟨s₁, list₁, returned, inv₁, set, made⟩ | ⟨failed, _⟩
  swap
  · cases failed.symm.trans ran
  cases Except.ok.inj (returned.symm.trans ran)
  obtain ⟨space', _⟩ := holds.space.mapped inv₁.layout set (.inr (value.symm ▸ ⟨usedP, holds.free p member⟩))
  have tables := ownsTable_mapped inv inv₁ set made inside
  obtain ⟨known, leaves⟩ := holds.mapped_leaves set inside absent usedP value present
  have owns : ∀ q, Owns s' b.topLevel q ↔ Owns b.phys b.topLevel q ∨ q = p ∨
      (PageIs s' q .used ∧ ¬ PageIs b.phys q .used) := by
    intro q
    unfold Owns
    rw [tables q, leaves q, holds.leaves q, List.mem_cons]
    tauto
  have inPool : ∀ q, q ∈ b.pool.erase p ↔ q ≠ p ∧ q ∈ b.pool := fun q => holds.nodup.mem_erase_iff
  refine ⟨⟨list₁, inv₁⟩, space', ?_, ?_, leaves, known, ?_, ?_, ?_, holds.nodup.erase p⟩
  · dsimp only
    rw [set.kept.hhdm]
    exact holds.top
  · intro q
    dsimp only
    rw [tables q, holds.tables q, Finset.mem_union, Finset.mem_sdiff, mem_usedFrames, mem_usedFrames]
    exact or_assoc
  · intro q
    dsimp only
    rw [owns q, inPool q]
    have before := holds.used q
    have stays := set.kept.used q
    by_cases isP : q = p
    · subst isP
      tauto
    · tauto
  · intro q other
    obtain ⟨notBefore, notPool⟩ := holds.apart q other
    have used := (holds.used q).mpr (.inl other)
    dsimp only
    rw [owns q, inPool q]
    refine ⟨?_, fun both => notPool both.2⟩
    rintro (old | rfl | ⟨_, unused⟩)
    · exact notBefore old
    · exact notPool member
    · exact unused used
  · intro q inErased
    obtain ⟨other, old⟩ := (inPool q).mp inErased
    dsimp only
    rw [owns q]
    rintro (owned | same | ⟨_, unused⟩)
    · exact holds.free q old owned
    · exact other same
    · exact unused ((holds.used q).mpr (.inr (.inr old)))

theorem mapNewPages_cons {top flags v : Nat} {virts : List Nat} {s s' : Phys}
    (ran : Vmm.mapNewPages top flags (v :: virts) s = .ok s') :
    ∃ p s₁ s₂, allocatePage s = .ok (p, s₁) ∧ vmmMapPage s₁ top v p flags = .ok s₂ ∧
      Vmm.mapNewPages top flags virts s₂ = .ok s' := by
  simp only [Vmm.mapNewPages, mapNewPage, bind, Except.bind] at ran
  cases taken : allocatePage s with
  | error panic =>
    rw [taken] at ran
    cases ran
  | ok result =>
    rw [taken] at ran
    dsimp only at ran
    cases mapped : vmmMapPage result.2 top v result.1 flags with
    | error panic =>
      rw [mapped] at ran
      cases ran
    | ok s₂ =>
      rw [mapped] at ran
      exact ⟨result.1, result.2, s₂, rfl, mapped, ran⟩

/-- Pages from allocate_page() are mapped at addresses that have none. -/
theorem Holds.mapNewPages {flags : Nat} (isFlags : IsFlags flags) {virts : List Nat} {s' : Phys}
    (holds : Holds others root b) (low : ∀ v ∈ virts, v < 2 ^ 47)
    (distinct : virts.Pairwise (fun v w => pageBits v ≠ pageBits w))
    (absent : ∀ v ∈ virts, isPresent (leaf b.phys b.topLevel v) = false)
    (ran : Vmm.mapNewPages b.topLevel flags virts b.phys = .ok s') :
    ∃ tables leaves, Holds others root { b with phys := s', tables := tables, leaves := leaves } := by
  induction virts generalizing b with
  | nil =>
    cases ran
    exact ⟨b.tables, b.leaves, holds⟩
  | cons v virts ih =>
    obtain ⟨notSame, later⟩ := List.pairwise_cons.mp distinct
    obtain ⟨p, s₁, s₂, taken, mapped, rest⟩ := mapNewPages_cons ran
    obtain ⟨allocated, leaves₁⟩ := holds.allocate taken
    have lowV := low v List.mem_cons_self
    have absentV : isPresent (leaf s₁ b.topLevel v) = false := by
      rw [leaves₁ v (lowerHalf_pml4i lowV)]
      exact absent v List.mem_cons_self
    have next := allocated.map lowV absentV List.mem_cons_self isFlags mapped
    rw [List.erase_cons_head] at next
    have absentLater : ∀ w ∈ virts, isPresent (leaf s₂ b.topLevel w) = false := by
      intro w member
      have lowW := lowerHalf_pml4i (low w (List.mem_cons_of_mem v member))
      obtain ⟨list₁, inv₁⟩ := allocated.inv
      rcases vmmMapPage_outcome inv₁ allocated.space.tree (lowerHalf_pml4i lowV) p flags with
        ⟨s₃, _, returned, _, set, _⟩ | ⟨failed, _⟩
      · cases Except.ok.inj (returned.symm.trans mapped)
        have kept := set.leaves w lowW
        rw [if_neg (fun same => notSame w member same.symm)] at kept
        rw [kept, leaves₁ w lowW]
        exact absent w (List.mem_cons_of_mem v member)
      · cases failed.symm.trans mapped
    obtain ⟨tables, leaves, final⟩ := ih next (fun w member => low w (List.mem_cons_of_mem v member)) later
      absentLater rest
    exact ⟨tables, leaves, final⟩

/-- delete_pagemap() frees the pages of the process, each by one call. -/
theorem Holds.delete (holds : Holds others root b) :
    ∃ s' list', deletePagemap b.phys b.topLevel = freeAll (deleteCalls b.phys b.topLevel) b.phys ∧
      freeAll (deleteCalls b.phys b.topLevel) b.phys = .ok s' ∧ (deleteCalls b.phys b.topLevel).Nodup ∧
      (∀ q, q ∈ deleteCalls b.phys b.topLevel ↔ Owns b.phys b.topLevel q) ∧ Inv s' list' ∧
      s'.hhdmOffset = b.phys.hhdmOffset ∧ (∀ q, PageIs s' q .used ↔ others q ∨ q ∈ b.pool) := by
  obtain ⟨list, inv⟩ := holds.inv
  obtain ⟨calls, frees, nodup, owned, foreigners⟩ := deletePagemap_calls inv holds.space
  -- a page behind an entry is one that allocate_page() returned
  have known : ∀ q ∈ deleteCalls b.phys b.topLevel, isPage b.phys q = true := by
    intro q member
    rw [isPage_iff]
    by_contra unknown
    obtain ⟨v, inside, present, here⟩ := foreigners q member (fun state page => unknown ⟨state, page⟩)
    have mapped := holds.known v inside present
    rw [here] at mapped
    exact unknown ⟨_, ((holds.leaves q).mpr mapped).1⟩
  have whole : (deleteCalls b.phys b.topLevel).filter (isPage b.phys) = deleteCalls b.phys b.topLevel :=
    List.filter_eq_self.mpr known
  rw [whole] at nodup owned
  rcases frees with ⟨s', ran, released⟩ | ⟨_, q, member, foreign⟩
  · rw [whole, List.nil_append] at released
    obtain ⟨list', inv'⟩ := released.inv
    refine ⟨s', list', calls, ran, nodup, owned, inv', released.hhdm, ?_⟩
    intro q
    rw [released.pages q .used, owned q, holds.used q]
    have apart := holds.apart q
    have free := holds.free q
    simp only [reduceCtorEq, and_false, false_or]
    tauto
  · obtain ⟨state, page⟩ := isPage_iff.mp (known q member)
    exact absurd page (foreign state)

end Hold

section Build

variable {s₀ : Phys} {list : List Nat} {kernelTop root : Nat} {b : Building}

theorem balanced_iff : Balanced s₀ root b ↔
    Holds (fun q => PageIs s₀ q .used) root b ∧ b.phys.hhdmOffset = s₀.hhdmOffset := by
  constructor
  · intro balanced
    refine ⟨⟨balanced.inv, balanced.space, ?_, balanced.tables, balanced.leaves, balanced.known, balanced.used,
      balanced.apart, balanced.free, balanced.nodup⟩, balanced.hhdm⟩
    rw [balanced.hhdm]
    exact balanced.top
  · rintro ⟨holds, hhdm⟩
    exact ⟨holds.inv, hhdm, holds.space, hhdm ▸ holds.top, holds.tables, holds.leaves, holds.known, holds.used,
      holds.apart, holds.free, holds.nodup⟩

theorem newPagemap_taken {space : AddressSpace} (inv : Inv s₀ list)
    (made : newPagemap s₀ kernelTop = .ok space) :
    ∃ p, space.topLevel = p + s₀.hhdmOffset ∧ ¬ PageIs s₀ p .used ∧
      ∀ q, PageIs space.phys q .used ↔ q = p ∨ PageIs s₀ q .used := by
  rcases allocatePage_outcome inv with ⟨p, s₁, list₁, returned, inv₁, allocated⟩ | ⟨failed, _⟩
  · simp only [newPagemap, returned, bind, Except.bind, Except.ok.injEq] at made
    subst made
    obtain ⟨state, page, unused⟩ := allocated.fresh
    obtain ⟨_, _, bound, _⟩ := inv.layout.page_bounds page
    refine ⟨p, ?_, fun isUsed => unused (inv.layout.page_unique page isUsed), allocated.owned⟩
    dsimp only
    rw [allocated.hhdm, wadd_eq (by omega)]
  · simp only [newPagemap, failed, bind, Except.bind] at made
    cases made

theorem balanced_created {space : AddressSpace} (inv : Inv s₀ list)
    (made : newPagemap s₀ kernelTop = .ok space) :
    ∃ root, Balanced s₀ root ⟨space.phys, space.topLevel, [], ∅, []⟩ := by
  obtain ⟨p, top, unused, owned⟩ := newPagemap_taken inv made
  obtain ⟨inv', hhdm, empty, _⟩ := newPagemap_spec inv made
  obtain ⟨space', only⟩ := emptyLowerHalf_userSpace empty
  obtain ⟨r, atRoot, table⟩ := space'.root
  have isRoot : r = p := by omega
  have absent : ∀ v, lowerHalf (pml4i v) → isPresent (leaf space.phys space.topLevel v) = true → False := by
    intro v inside present
    rw [emptyLowerHalf_absent empty inside] at present
    cases present
  have owns : ∀ q, Owns space.phys space.topLevel q ↔ q = p := by
    intro q
    constructor
    · intro owned
      have address := only q owned
      omega
    · rintro rfl
      exact .inl (isRoot ▸ table)
  refine ⟨p, inv', hhdm, space', top, ?_, ?_, ?_, ?_, ?_, ?_, List.nodup_nil⟩
  · intro q
    constructor
    · exact fun table => .inl ((owns q).mp (.inl table))
    · rintro (rfl | none)
      · exact isRoot ▸ table
      · simp at none
  · intro q
    constructor
    · rintro ⟨_, v, inside, present, _⟩
      exact (absent v inside present).elim
    · intro none
      simp at none
  · exact fun v inside present => (absent v inside present).elim
  · intro q
    rw [owned q, owns q]
    simp only [List.not_mem_nil, or_false]
    exact or_comm
  · intro q before
    rw [owns q]
    exact ⟨fun same => unused (same ▸ before), List.not_mem_nil⟩
  · exact fun q none => absurd none List.not_mem_nil

theorem Balanced.allocate (balanced : Balanced s₀ root b) {p : Nat} {s' : Phys}
    (ran : allocatePage b.phys = .ok (p, s')) :
    Balanced s₀ root { b with phys := s', pool := p :: b.pool } := by
  obtain ⟨list, inv⟩ := balanced.inv
  obtain ⟨holds, hhdm⟩ := balanced_iff.mp balanced
  refine balanced_iff.mpr ⟨(holds.allocate ran).1, ?_⟩
  rcases allocatePage_outcome inv with ⟨p₁, s₁, list₁, returned, _, allocated⟩ | ⟨failed, _⟩
  · cases Except.ok.inj (returned.symm.trans ran)
    exact allocated.hhdm.trans hhdm
  · cases failed.symm.trans ran

theorem Balanced.map (balanced : Balanced s₀ root b) {v p flags : Nat} {s' : Phys} (low : v < 2 ^ 47)
    (absent : isPresent (leaf b.phys b.topLevel v) = false) (member : p ∈ b.pool) (isFlags : IsFlags flags)
    (ran : vmmMapPage b.phys b.topLevel v p flags = .ok s') :
    Balanced s₀ root { b with
      phys := s', pool := b.pool.erase p, tables := b.tables ∪ (usedFrames s' \ usedFrames b.phys),
      leaves := p :: b.leaves } := by
  obtain ⟨list, inv⟩ := balanced.inv
  obtain ⟨holds, hhdm⟩ := balanced_iff.mp balanced
  refine balanced_iff.mpr ⟨holds.map low absent member isFlags ran, ?_⟩
  rcases vmmMapPage_outcome inv balanced.space.tree (lowerHalf_pml4i low) p flags with
    ⟨s₁, list₁, returned, _, set, _⟩ | ⟨failed, _⟩
  · cases Except.ok.inj (returned.symm.trans ran)
    exact set.kept.hhdm.trans hhdm
  · cases failed.symm.trans ran

theorem Built.balanced (inv : Inv s₀ list) (built : Built s₀ kernelTop b) : ∃ root, Balanced s₀ root b := by
  induction built with
  | created made => exact balanced_created inv made
  | allocated _ ran ih =>
    obtain ⟨root, balanced⟩ := ih
    exact ⟨root, balanced.allocate ran⟩
  | mapped _ low absent member isFlags ran ih =>
    obtain ⟨root, balanced⟩ := ih
    exact ⟨root, balanced.map low absent member isFlags ran⟩

end Build

/-- delete_pagemap() calls free_page once on the top level, on each table that was made and on
each page that was mapped, and on no other page. What is in use then is what was in use
before new_pagemap(), and the pages that were never mapped. -/
theorem deletePagemap_frees_once {s₀ : Phys} {list : List Nat} {kernelTop : Nat} {b : Building}
    (inv : Inv s₀ list) (built : Built s₀ kernelTop b) :
    ∃ s', deletePagemap b.phys b.topLevel = freeAll (deleteCalls b.phys b.topLevel) b.phys ∧
      freeAll (deleteCalls b.phys b.topLevel) b.phys = .ok s' ∧ (deleteCalls b.phys b.topLevel).Nodup ∧
      (∀ q, q ∈ deleteCalls b.phys b.topLevel ↔
        b.topLevel = q + s₀.hhdmOffset ∨ q ∈ b.tables ∨ q ∈ b.leaves) ∧
      (∀ q, PageIs s' q .used ↔ PageIs s₀ q .used ∨ q ∈ b.pool) ∧
      s'.usedPages = s₀.usedPages + b.pool.length := by
  obtain ⟨root, balanced⟩ := built.balanced inv
  obtain ⟨holds, _⟩ := balanced_iff.mp balanced
  obtain ⟨s', list', calls, ran, nodup, owned, inv', _, used⟩ := holds.delete
  have top := balanced.top
  refine ⟨s', calls, ran, nodup, ?_, used, ?_⟩
  · intro q
    rw [owned q, Owns, balanced.tables q, balanced.leaves q, or_assoc]
    have isRoot : q = root ↔ b.topLevel = q + s₀.hhdmOffset := by omega
    rw [isRoot]
  · have frames : usedFrames s' = usedFrames s₀ ∪ b.pool.toFinset := by
      ext q
      rw [Finset.mem_union, mem_usedFrames, mem_usedFrames, List.mem_toFinset]
      exact used q
    have disjoint : Disjoint (usedFrames s₀) b.pool.toFinset := by
      rw [Finset.disjoint_left]
      intro q before inPool
      exact (balanced.apart q (mem_usedFrames.mp before)).2 (List.mem_toFinset.mp inPool)
    rw [← card_usedFrames inv', ← card_usedFrames inv, frames, Finset.card_union_of_disjoint disjoint,
      List.toFinset_card_of_nodup balanced.nodup]

/-- A process with one page on the small machine. -/
theorem deletePagemap_frees_once_page : ∃ s list b s', Inv s list ∧ Built s 0xFFFF800000101000 b ∧
    b.leaves.length = 1 ∧ deletePagemap b.phys b.topLevel = .ok s' ∧ s'.usedPages = s.usedPages := by
  obtain ⟨s, list, space₀, inv, _, made, agrees, _, room⟩ := smallProcess
  obtain ⟨list₀, inv₀⟩ := agrees.inv
  rcases allocatePage_outcome inv₀ with ⟨p, s₁, list₁, returned, inv₁, allocated⟩ | ⟨_, full⟩
  · have built := Built.allocated (Built.created made) returned
    obtain ⟨root, balanced⟩ := built.balanced inv
    have inside : lowerHalf (pml4i 0x1000) := by
      unfold lowerHalf
      decide
    rcases vmmMapPage_outcome inv₁ balanced.space.tree inside p 0 with ⟨s₂, list₂, ran, _⟩ | ⟨_, full⟩
    · have absent : isPresent (leaf s₁ space₀.topLevel 0x1000) = false := by
        by_contra present
        have member := balanced.known 0x1000 inside (by simpa using present)
        cases member
      have isFlags : IsFlags 0 := Nat.zero_and _
      have mapped := Built.mapped built (by decide) absent List.mem_cons_self isFlags ran
      obtain ⟨s', calls, freed, _, _, _, used⟩ := deletePagemap_frees_once inv mapped
      refine ⟨s, list, _, s', inv, mapped, rfl, calls.trans freed, ?_⟩
      rw [used]
      simp
    · have few := card_missingTables_le s₁ space₀.topLevel [0x1000]
      have one := allocated.usedPages
      have total := allocated.total
      simp only [List.length_cons, List.length_nil] at few
      dsimp only at full
      omega
  · omega

end EvalynOS.Process
