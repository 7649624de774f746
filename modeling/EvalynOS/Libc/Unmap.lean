import EvalynOS.Libc.Frames

/-! The loop of free over the pages of a block. -/
namespace EvalynOS.Stdlib
open Lib Lib.Word Pmm Vmm Heap
open Vma (Ranges Tiling UsedAt FreeAt Carve PageRange roundup vallocInitWindow)

/- The pages that are mapped at some addresses, in their order. -/
def mappedFrames (s : Phys) (top : Nat) (virts : List Nat) : List Nat :=
  (virts.map (vmmGetPhys s top)).filter (fun q => q ≠ 0)

/-- The addresses `virts` are not mapped any more, the pages `back` are free, and the entries
and the states of all others are as they were. -/
structure Returned (s s' : Phys) (top : Nat) (virts back : List Nat) : Prop where
  leaves : ∀ w, kernelRegion (pml4i w) →
    leaf s' top w = if ∃ v ∈ virts, pageBits w = pageBits v then 0 else leaf s top w
  states : ∀ q state, PageIs s' q state ↔ (q ∈ back ∧ state = .free) ∨ (q ∉ back ∧ PageIs s q state)

section Round

variable {k : Kernel} {live own list : List Nat} {runs : List (Nat × Nat)} {slabsOf free : Nat → List Nat}
  {v q : Nat}

/-- vmm_unmap_page takes an entry away; its page is not mapped any more. -/
theorem FramesInv.unmapped (frames : FramesInv k live own runs slabsOf free list) (placed : Placed runs v) :
    FramesInv (k.withPhys (vmmUnmapPage k.phys k.topLevel v)) live own runs slabsOf free list ∧
      Spares k (k.withPhys (vmmUnmapPage k.phys k.topLevel v)) live own ∧
      ∀ w, kernelRegion (pml4i w) → leaf (vmmUnmapPage k.phys k.topLevel v) k.topLevel w =
        if pageBits w = pageBits v then 0 else leaf k.phys k.topLevel w := by
  obtain ⟨inv', set⟩ := vmmUnmapPage_spec frames.inv.heap.pmm frames.inv.tree (paged_region (frames.paged placed))
  change Inv (vmmUnmapPage k.phys k.topLevel v) list at inv'
  change LeafSet k.phys (vmmUnmapPage k.phys k.topLevel v) k.topLevel kernelRegion v 0 at set
  generalize vmmUnmapPage k.phys k.topLevel v = s' at inv' set ⊢
  have kept := set.kept
  obtain ⟨heap', apart'⟩ := frames.inv.kept inv' kept
  -- the entries that are left are those of before
  have before : ∀ w, kernelRegion (pml4i w) → isPresent (leaf s' k.topLevel w) = true →
      leaf s' k.topLevel w = leaf k.phys k.topLevel w := by
    intro w region present
    rw [set.leaves w region] at present ⊢
    split
    · rename_i same
      rw [if_pos same, isPresent_zero] at present
      cases present
    · rfl
  have mapsBefore : ∀ w r, kernelRegion (pml4i w) → r ∈ own → MapsTo s' k.topLevel w r →
      MapsTo k.phys k.topLevel w r := by
    intro w r region isOwn maps
    have present := (maps.looked inv'.layout (kept.used r (frames.owned.used r isOwn))).1
    exact (before w region present).symm.trans maps
  refine ⟨⟨⟨heap', set.tree, apart', frames.inv.tiling, ?_, frames.inv.direct.kept kept.hhdm kept.total kept.pages,
    fun r none => absurd none List.not_mem_nil⟩, ⟨frames.owned.nodup, ?_, ?_⟩, ?_, frames.window, ?_, ?_⟩,
    ⟨rfl, kept.hhdm, ?_, ?_⟩, set.leaves⟩
  · intro w low high present
    apply frames.inv.reserved w low high
    rw [← before w (paged_region (.inr ⟨low, high⟩)) present]
    exact present
  · exact fun r isOwn => kept.used r (frames.owned.used r isOwn)
  · intro r isOwn c member isSlab
    change r + s'.hhdmOffset ∈ slabsOf c at isSlab
    rw [kept.hhdm] at isSlab
    exact frames.owned.notSlab r isOwn c member isSlab
  · intro r isOwn path valid there
    change descend (child s') k.topLevel path = some (r + s'.hhdmOffset) at there
    rw [kept.hhdm] at there
    rcases kept.tables path _ valid there with old | ⟨t, unused, address⟩
    · exact frames.noTable r isOwn path valid old
    · cases Nat.add_right_cancel address
      exact unused (frames.owned.used r isOwn)
  · intro r isOwn w x placedW placedX mapsW mapsX
    exact frames.single r isOwn w x placedW placedX
      (mapsBefore w r (paged_region (frames.paged placedW)) isOwn mapsW)
      (mapsBefore x r (paged_region (frames.paged placedX)) isOwn mapsX)
  · intro w placedW present
    have same := before w (paged_region (frames.paged placedW)) present
    change isPresent (leaf s' k.topLevel w) = true at present
    rw [same] at present
    obtain ⟨r, isOwn, maps⟩ := frames.entries w placedW present
    exact ⟨r, isOwn, same.trans maps⟩
  · exact fun p alive => objSize_kept frames.inv.heap heap' alive
  · exact fun a mayWrite => kept_words frames kept mayWrite

/-- free_page of a page that is not mapped any more. -/
theorem FramesInv.freed (frames : FramesInv k live own runs slabsOf free list) (isOwn : q ∈ own)
    (unmapped : ∀ v, Placed runs v → ¬ MapsTo k.phys k.topLevel v q) :
    ∃ s', freePage k.phys q = .ok s' ∧ Freed k.phys q s' ∧
      FramesInv (k.withPhys s') live (own.erase q) runs slabsOf free ((q + k.phys.hhdmOffset) :: list) ∧
      Spares k (k.withPhys s') live (own.erase q) ∧
      ∀ w, kernelRegion (pml4i w) → leaf s' k.topLevel w = leaf k.phys k.topLevel w := by
  have inv := frames.inv
  have layout := inv.heap.pmm.layout
  have usedQ := frames.owned.used q isOwn
  obtain ⟨s', ran, inv', freed⟩ := freePage_spec inv.heap.pmm usedQ
  change freePage k.phys q = .ok s' at ran
  change Freed k.phys q s' at freed
  have hhdm := freed.hhdm
  have stays : ∀ r, r ≠ q → PageIs k.phys r .used → PageIs s' r .used := fun r other used =>
    (freed.pages r .used).mpr (.inr ⟨other, used⟩)
  have words : ∀ r, r ≠ q → PageIs k.phys r .used → ∀ a, InFrame k.phys r a → s'.mem a = k.phys.mem a := by
    intro r other used a inFrame
    apply freed.mem
    rintro rfl
    exact other (frame_apart layout used usedQ inFrame (first_word k.phys q))
  have notTable : ∀ path r, Valid kernelRegion path →
      descend (child k.phys) k.topLevel path = some (r + k.phys.hhdmOffset) → r ≠ q := by
    rintro path r valid there rfl
    exact frames.noTable r isOwn path valid there
  have notSlab : ∀ c ∈ slabSizes, ∀ r, r + k.phys.hhdmOffset ∈ slabsOf c → r ≠ q := by
    rintro c member r there rfl
    exact frames.owned.notSlab r isOwn c member there
  obtain ⟨tree', lookup, _, leaves⟩ := @Tree.agree k.phys s' k.topLevel kernelRegion inv.tree hhdm
    (fun path r valid there used => stays r (notTable path r valid there) used) (by
      intro path t valid there i bound
      obtain ⟨r, used, rfl⟩ := inv.tree.frames path t valid there
      exact words r (notTable path r valid there) used _ (slot_inFrame k.phys r bound))
  have heap' : HeapInv { k.heap with phys := s' } live slabsOf free ((q + k.phys.hhdmOffset) :: list) := by
    apply inv.heap.frame inv' hhdm
    · rintro r used ⟨c, member, there⟩
      exact stays r (notSlab c member r there) used
    · intro c member slab here a low high
      obtain ⟨r, used, rfl⟩ := inv.heap.frames c member slab here
      exact words r (notSlab c member r here) used a ⟨low, high⟩
  have pages : Pages k.phys s' := by
    rintro r ⟨state, page⟩
    rcases (freed.pages r state).mp page with ⟨rfl, _⟩ | ⟨_, old⟩
    · exact ⟨.used, usedQ⟩
    · exact ⟨state, old⟩
  have distinct := frames.owned.nodup
  refine ⟨s', ran, freed, ⟨⟨heap', tree', ?_, inv.tiling, ?_, inv.direct.kept hhdm freed.total pages,
    fun r none => absurd none List.not_mem_nil⟩, ⟨distinct.erase q, ?_, ?_⟩, ?_, frames.window, ?_, ?_⟩,
    ⟨rfl, hhdm, ?_, ?_⟩, leaves⟩
  · intro path t valid there
    exact inv.apart path t valid ((lookup path valid).symm.trans there)
  · intro w low high present
    apply inv.reserved w low high
    rw [← leaves w (paged_region (.inr ⟨low, high⟩))]
    exact present
  · intro r later
    obtain ⟨other, old⟩ := distinct.mem_erase_iff.mp later
    exact stays r other (frames.owned.used r old)
  · intro r later c member isSlab
    change r + s'.hhdmOffset ∈ slabsOf c at isSlab
    rw [hhdm] at isSlab
    exact frames.owned.notSlab r (List.mem_of_mem_erase later) c member isSlab
  · intro r later path valid there
    change descend (child s') k.topLevel path = some (r + s'.hhdmOffset) at there
    rw [hhdm, lookup path valid] at there
    exact frames.noTable r (List.mem_of_mem_erase later) path valid there
  · intro r later w x placedW placedX mapsW mapsX
    exact frames.single r (List.mem_of_mem_erase later) w x placedW placedX
      ((leaves w (paged_region (frames.paged placedW))).symm.trans mapsW)
      ((leaves x (paged_region (frames.paged placedX))).symm.trans mapsX)
  · intro w placedW present
    have same := leaves w (paged_region (frames.paged placedW))
    change isPresent (leaf s' k.topLevel w) = true at present
    rw [same] at present
    obtain ⟨r, isOwn', maps⟩ := frames.entries w placedW present
    refine ⟨r, distinct.mem_erase_iff.mpr ⟨?_, isOwn'⟩, same.trans maps⟩
    rintro rfl
    exact unmapped w placedW maps
  · exact fun p alive => objSize_kept inv.heap heap' alive
  · rintro a (⟨p, alive, inside⟩ | ⟨r, later, inFrame⟩)
    · apply freed.mem
      rintro rfl
      exact object_not_own inv.heap frames.owned alive inside isOwn (first_word _ q)
    · obtain ⟨other, old⟩ := distinct.mem_erase_iff.mp later
      exact words r other (frames.owned.used r old) a inFrame

theorem mappedFrames_congr {s s' : Phys} {top : Nat} {virts : List Nat}
    (same : ∀ v ∈ virts, leaf s' top v = leaf s top v) :
    mappedFrames s' top virts = mappedFrames s top virts := by
  unfold mappedFrames
  congr 1
  apply List.map_congr_left
  intro v member
  rw [vmmGetPhys_eq, vmmGetPhys_eq, same v member]

theorem pageIs_unmap (s : Phys) (top v q : Nat) (state : PageState) :
    PageIs (vmmUnmapPage s top v) q state ↔ PageIs s q state := by
  rw [vmmUnmapPage_eq]
  cases descend (child s) top (pathOf v) with
  | none => exact Iff.rfl
  | some t => exact Iff.rfl

/-- One round of the loop. -/
theorem FramesInv.round (frames : FramesInv k live own runs slabsOf free list) (placed : Placed runs v) :
    ∃ s' own', (if vmmGetPhys k.phys k.topLevel v ≠ 0 then
        freePage (vmmUnmapPage k.phys k.topLevel v) (vmmGetPhys k.phys k.topLevel v)
        else .ok (vmmUnmapPage k.phys k.topLevel v)) = .ok s' ∧
      Returned k.phys s' k.topLevel [v] (mappedFrames k.phys k.topLevel [v]) ∧
      (∀ q, q ∈ own' ↔ q ∈ own ∧ q ∉ mappedFrames k.phys k.topLevel [v]) ∧
      FramesInv (k.withPhys s') live own' runs slabsOf free
        ((mappedFrames k.phys k.topLevel [v]).map (fun q => q + k.phys.hhdmOffset) ++ list) ∧
      Spares k (k.withPhys s') live own' := by
  obtain ⟨frames₁, spares₁, leaves₁⟩ := frames.unmapped placed
  have single : ∀ w, (∃ u ∈ [v], pageBits w = pageBits u) ↔ pageBits w = pageBits v := by simp
  have looked := vmmGetPhys_eq k.phys k.topLevel v
  cases present : isPresent (leaf k.phys k.topLevel v) with
  | false =>
    rw [present] at looked
    simp only [Bool.false_eq_true, ↓reduceIte] at looked
    have none : mappedFrames k.phys k.topLevel [v] = [] := by simp [mappedFrames, looked]
    refine ⟨_, own, by simp [looked], ⟨?_, ?_⟩, by simp [none], ?_, spares₁⟩
    · intro w region
      simp only [single]
      exact leaves₁ w region
    · intro q state
      rw [pageIs_unmap, none]
      simp
    · rw [none]
      exact frames₁
  | true =>
    obtain ⟨q, isOwn, maps⟩ := frames.entries v placed present
    have used := frames.owned.used q isOwn
    have layout := frames.inv.heap.pmm.layout
    have frame := (maps.looked layout used).2
    have positive := (layout.page_bounds used).2.1
    have one : mappedFrames k.phys k.topLevel [v] = [q] := by simp [mappedFrames, frame, positive.ne']
    have gone : ∀ w, Placed runs w → ¬ MapsTo (vmmUnmapPage k.phys k.topLevel v) k.topLevel w q := by
      intro w placedW maps'
      have present' := (maps'.looked frames₁.inv.heap.pmm.layout (frames₁.owned.used q isOwn)).1
      have entry := leaves₁ w (paged_region (frames.paged placedW))
      split at entry
      · rw [entry, isPresent_zero] at present'
        cases present'
      · rename_i different
        exact different (frames.single q isOwn w v placedW placed (entry.symm.trans maps') maps)
    obtain ⟨s', ran, freed, frames', spares', leaves'⟩ := frames₁.freed isOwn gone
    have offset : (vmmUnmapPage k.phys k.topLevel v).hhdmOffset = k.phys.hhdmOffset := spares₁.hhdm
    refine ⟨s', own.erase q, ?_, ⟨?_, ?_⟩, ?_, ?_, (spares₁.mono (fun _ alive => alive) ?_).trans spares'⟩
    · rw [frame, if_pos positive.ne']
      exact ran
    · intro w region
      simp only [single]
      rw [← leaves₁ w region]
      exact leaves' w region
    · intro r state
      have states := freed.pages r state
      change PageIs s' r state ↔ (r = q ∧ state = .free) ∨ (r ≠ q ∧ PageIs (vmmUnmapPage k.phys k.topLevel v) r state)
        at states
      rw [pageIs_unmap] at states
      simpa only [one, List.mem_singleton] using states
    · intro r
      rw [one, List.mem_singleton, frames.owned.nodup.mem_erase_iff, and_comm]
    · rw [one]
      change FramesInv (k.withPhys s') live (own.erase q) runs slabsOf free
        ((q + (vmmUnmapPage k.phys k.topLevel v).hhdmOffset) :: list) at frames'
      rw [offset] at frames'
      exact frames'
    · exact fun r later => List.mem_of_mem_erase later

theorem Returned.trans {s s₁ s' : Phys} {top : Nat} {here rest back back' : List Nat}
    (first : Returned s s₁ top here back) (later : Returned s₁ s' top rest back') :
    Returned s s' top (here ++ rest) (back ++ back') where
  leaves := by
    intro w region
    rw [later.leaves w region, first.leaves w region]
    simp only [List.mem_append, or_and_right, exists_or]
    by_cases inRest : ∃ u ∈ rest, pageBits w = pageBits u
    · simp only [inRest, or_true, ↓reduceIte]
    · simp only [inRest, or_false, ↓reduceIte]
  states := by
    intro q state
    rw [later.states q state, first.states q state, List.mem_append]
    by_cases inLater : q ∈ back'
    · simp [inLater]
    · simp [inLater]

/-- Different addresses have different pages of malloc. -/
theorem FramesInv.ownFrames (frames : FramesInv k live own runs slabsOf free list) {virts : List Nat}
    (placed : ∀ v ∈ virts, Placed runs v) (distinct : virts.Pairwise (fun v w => pageBits v ≠ pageBits w)) :
    (mappedFrames k.phys k.topLevel virts).Nodup ∧
      ∀ q ∈ mappedFrames k.phys k.topLevel virts, q ∈ own ∧ ∃ v ∈ virts, MapsTo k.phys k.topLevel v q := by
  have looked : ∀ v ∈ virts, vmmGetPhys k.phys k.topLevel v ≠ 0 →
      vmmGetPhys k.phys k.topLevel v ∈ own ∧
        MapsTo k.phys k.topLevel v (vmmGetPhys k.phys k.topLevel v) := by
    intro v member some_
    cases present : isPresent (leaf k.phys k.topLevel v) with
    | false => simp [vmmGetPhys_eq, present] at some_
    | true =>
      obtain ⟨q, isOwn, maps⟩ := frames.entries v (placed v member) present
      rw [(maps.looked frames.inv.heap.pmm.layout (frames.owned.used q isOwn)).2]
      exact ⟨isOwn, maps⟩
  constructor
  · refine List.pairwise_filter.mpr (List.pairwise_map.mpr (distinct.imp_of_mem ?_))
    intro v w inV inW different someV someW same
    obtain ⟨isOwn, mapsV⟩ := looked v inV (of_decide_eq_true someV)
    obtain ⟨_, mapsW⟩ := looked w inW (of_decide_eq_true someW)
    rw [← same] at mapsW
    exact different (frames.single _ isOwn v w (placed v inV) (placed w inW) mapsV mapsW)
  · intro q member
    obtain ⟨inMap, some_⟩ := List.mem_filter.mp member
    obtain ⟨v, inVirts, rfl⟩ := List.mem_map.mp inMap
    obtain ⟨isOwn, maps⟩ := looked v inVirts (of_decide_eq_true some_)
    exact ⟨isOwn, v, inVirts, maps⟩

/-- The loop takes the pages of placed addresses away and gives their frames back, in their order. -/
theorem FramesInv.unmapAll (frames : FramesInv k live own runs slabsOf free list) {virts : List Nat}
    (placed : ∀ v ∈ virts, Placed runs v) (distinct : virts.Pairwise (fun v w => pageBits v ≠ pageBits w)) :
    ∃ s' own', unmapPages k.topLevel virts k.phys = .ok s' ∧
      Returned k.phys s' k.topLevel virts (mappedFrames k.phys k.topLevel virts) ∧
      (∀ q, q ∈ own' ↔ q ∈ own ∧ q ∉ mappedFrames k.phys k.topLevel virts) ∧
      FramesInv (k.withPhys s') live own' runs slabsOf free
        ((mappedFrames k.phys k.topLevel virts).reverse.map (fun q => q + k.phys.hhdmOffset) ++ list) ∧
      Spares k (k.withPhys s') live own' := by
  induction virts generalizing k own list with
  | nil =>
    refine ⟨k.phys, own, rfl, ⟨?_, ?_⟩, by simp [mappedFrames], frames, Spares.refl k live own⟩
    · intro w _
      simp
    · intro q state
      simp [mappedFrames]
  | cons v rest ih =>
    obtain ⟨apart, distinctRest⟩ := List.pairwise_cons.mp distinct
    obtain ⟨s₁, own₁, ran₁, back₁, own₁_iff, frames₁, spares₁⟩ := frames.round (placed v List.mem_cons_self)
    obtain ⟨s', own', ran', back', own'_iff, frames', spares'⟩ :=
      ih frames₁ (fun w member => placed w (List.mem_cons_of_mem _ member)) distinctRest
    have same : mappedFrames s₁ k.topLevel rest = mappedFrames k.phys k.topLevel rest := by
      apply mappedFrames_congr
      intro w member
      rw [back₁.leaves w (paged_region (frames.paged (placed w (List.mem_cons_of_mem _ member)))), if_neg]
      rintro ⟨u, isFirst, equal⟩
      rw [List.mem_singleton.mp isFirst] at equal
      exact apart w member equal.symm
    have split : mappedFrames k.phys k.topLevel (v :: rest) =
        mappedFrames k.phys k.topLevel [v] ++ mappedFrames k.phys k.topLevel rest := by
      simp only [mappedFrames, ← List.filter_append, ← List.map_append, List.singleton_append]
    change unmapPages k.topLevel rest s₁ = .ok s' at ran'
    change Returned s₁ s' k.topLevel rest (mappedFrames s₁ k.topLevel rest) at back'
    change ∀ q, q ∈ own' ↔ q ∈ own₁ ∧ q ∉ mappedFrames s₁ k.topLevel rest at own'_iff
    change FramesInv (k.withPhys s') live own' runs slabsOf free
      ((mappedFrames s₁ k.topLevel rest).reverse.map (fun q => q + s₁.hhdmOffset) ++ _) at frames'
    have offset : s₁.hhdmOffset = k.phys.hhdmOffset := spares₁.hhdm
    rw [same] at back' own'_iff frames'
    rw [offset] at frames'
    have fewer : ∀ q ∈ own', q ∈ own₁ := fun q member => ((own'_iff q).mp member).1
    refine ⟨s', own', ?_, ?_, ?_, ?_, (spares₁.mono (fun _ alive => alive) fewer).trans spares'⟩
    · simp only [unmapPages, bind, Except.bind]
      split
      · rename_i some_
        rw [if_pos some_] at ran₁
        simp only [ran₁]
        exact ran'
      · rename_i none
        rw [if_neg none] at ran₁
        cases Except.ok.inj ran₁
        exact ran'
    · rw [split]
      exact back₁.trans back'
    · intro q
      rw [own'_iff, own₁_iff, split, List.mem_append, not_or, and_assoc]
    · rw [split]
      have length : (mappedFrames k.phys k.topLevel [v]).length ≤ 1 := List.length_filter_le _ _
      have turned : (mappedFrames k.phys k.topLevel [v]).reverse = mappedFrames k.phys k.topLevel [v] := by
        match mappedFrames k.phys k.topLevel [v], length with
        | [], _ => rfl
        | [_], _ => rfl
      rw [List.reverse_append, List.map_append, turned, List.append_assoc]
      exact frames'

end Round

end EvalynOS.Stdlib
