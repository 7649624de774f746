import EvalynOS.Memory.VmaRuns

/-! Reservation at a fixed address. The call meets its contract exactly when the
request ends with the free range it starts in, or starts in a used range and one
of the early returns applies. Otherwise a size is subtracted from a smaller one,
or the address handed back is not the requested one. -/
namespace EvalynOS.Vma
open Lib Lib.Word

/-- What a caller of valloc(pagemap, size, fixed_addr, noreplace) relies on. -/
structure FixedContract (w : Window) (pm : Ranges) (size fixedAddr : Nat) (noreplace : Bool) :
    Prop where
  tiling : Tiling w (vallocFixed pm size fixedAddr noreplace).2
  granted : (vallocFixed pm size fixedAddr noreplace).1 ≠ 0 →
    (vallocFixed pm size fixedAddr noreplace).1 = fixedAddr ∧
    (∀ x, Inside x (allocated fixedAddr size) →
      UsedAt (vallocFixed pm size fixedAddr noreplace).2 x) ∧
    (∀ x, ¬ Inside x (allocated fixedAddr size) →
      (UsedAt (vallocFixed pm size fixedAddr noreplace).2 x ↔ UsedAt pm x) ∧
      (FreeAt (vallocFixed pm size fixedAddr noreplace).2 x ↔ FreeAt pm x)) ∧
    (noreplace = true → ∀ x, Inside x (allocated fixedAddr size) → FreeAt pm x)
  denied : (vallocFixed pm size fixedAddr noreplace).1 = 0 →
    (vallocFixed pm size fixedAddr noreplace).2 = pm

/-- The requests the code handles: in a used range an early return must apply, in a
free range the request must not run past its end. -/
structure FixedFits (pm : Ranges) (size fixedAddr : Nat) (noreplace : Bool) : Prop where
  used : ∀ u ∈ pm.usedRanges.nodes, Inside fixedAddr u.span → noreplace = true ∨
    (roundup size ≤ u.size ∧ ∀ x, Inside x (allocated fixedAddr size) → UsedAt pm x) ∨
    (u.size < roundup size ∧ ¬ FreeAt pm (fixedAddr + u.size))
  free : ∀ r ∈ pm.freeRanges.nodes, Inside fixedAddr r.span →
    fixedAddr + roundup size ≤ r.vaddr + r.size

/-! An insertion never loses a node, accepted or not, and never touches the other tree. -/

theorem mem_insertFree {pm : Ranges} {e : PageRange} (r : PageRange)
    (member : e ∈ pm.freeRanges.nodes) : e ∈ (pm.insertFree r).freeRanges.nodes := by
  unfold Ranges.insertFree
  split
  · rename_i t inserted
    unfold SearchTree.insert at inserted
    split at inserted
    · cases inserted
    · cases Option.some.inj inserted
      exact (List.mem_orderedInsert _).mpr (.inr member)
  · exact member

@[simp] theorem insertFree_used (pm : Ranges) (r : PageRange) :
    (pm.insertFree r).usedRanges = pm.usedRanges := by
  unfold Ranges.insertFree
  split <;> rfl

@[simp] theorem insertUsed_free (pm : Ranges) (r : PageRange) :
    (pm.insertUsed r).freeRanges = pm.freeRanges := by
  unfold Ranges.insertUsed
  split <;> rfl

section Reserve

variable {w : Window} {pm : Ranges}

theorem insertUsed_perm (tiling : Tiling w pm) {r : PageRange} (outside : ¬ UsedAt pm r.vaddr)
    (pm' : Ranges) (same : pm'.usedRanges = pm.usedRanges) :
    (pm'.insertUsed r).usedRanges.nodes.Perm (r :: pm.usedRanges.nodes) := by
  obtain ⟨t, inserted, order⟩ := tiling.sound_used.insert outside
  simp only [Ranges.insertUsed, same, inserted]
  exact order

/-- Every success of the second half returns the address it was asked for. -/
theorem reserve_fst {size addr : Nat} {r : PageRange}
    (found : pm.freeRanges.find ⟨addr, 0⟩ = some r) : (vallocFixed.reserve pm size addr).1 = addr := by
  unfold vallocFixed.reserve
  rw [found]
  dsimp only
  split
  · rename_i start
    split
    · exact start.symm
    · exact start.symm
  · rfl

theorem reserve_fits (tiling : Tiling w pm) {size addr : Nat} {r : PageRange}
    (found : pm.freeRanges.find ⟨addr, 0⟩ = some r) (positive : 0 < size)
    (fits : addr + size ≤ r.vaddr + r.size) :
    ∃ f u, vallocFixed.reserve pm size addr = (addr, ⟨f, u, pm.refused⟩) ∧
      Carve pm.freeRanges.nodes f.nodes pm.usedRanges.nodes u.nodes r ⟨addr, size⟩ := by
  obtain ⟨member, inside⟩ := tiling.sound_free.find_some found
  have limits := tiling.sound_free r member
  unfold vallocFixed.reserve
  rw [found]
  dsimp only
  split
  · rename_i start
    subst start
    split
    · rename_i same
      obtain ⟨d, inserted, carve⟩ := carve_whole tiling.tiles tiling.sound_used member limits.1
      refine ⟨pm.freeRanges.remove r, d, ?_, ?_⟩
      · simp only [Ranges.removeFree, Ranges.insertUsed, inserted]
      · rw [same]
        exact carve
    · obtain ⟨s, d, kept, inserted, carve⟩ := carve_start tiling.tiles tiling.sound_free
        tiling.sound_used member positive (by omega)
      refine ⟨s, d, ?_, carve⟩
      simp only [Ranges.removeFree, Ranges.insertFree, Ranges.insertUsed, kept, inserted]
  · rename_i later
    have low : r.vaddr < addr := Nat.lt_of_le_of_ne inside.1 (Ne.symm later)
    obtain ⟨p, s, d, first, rest, inserted, carve⟩ := carve_middle tiling.tiles
      tiling.sound_free tiling.sound_used member positive low fits
    refine ⟨s, d, ?_, carve⟩
    have pre : 0 < wsub addr r.vaddr := by
      rw [wsub_eq (by omega) low.le]
      omega
    simp only [Ranges.removeFree, Ranges.insertUsed, inserted, if_pos pre, Ranges.insertFree, first]
    rw [insertRest] at rest
    split at rest
    · rename_i post
      simp only [if_pos post, rest]
    · rename_i post
      simp only [if_neg post, Option.some.inj rest]

/-- Whatever its size, a request that starts in a free range ends up used in full,
while all other ranges stay where they were. -/
theorem reserve_members (tiling : Tiling w pm) {size addr : Nat} {r : PageRange}
    (found : pm.freeRanges.find ⟨addr, 0⟩ = some r) (beyond : r.vaddr + r.size < addr + size) :
    let pm' := (vallocFixed.reserve pm size addr).2
    ⟨addr, size⟩ ∈ pm'.usedRanges.nodes ∧ (∀ e ∈ pm.usedRanges.nodes, e ∈ pm'.usedRanges.nodes) ∧
      (∀ e ∈ pm.freeRanges.nodes.erase r, e ∈ pm'.freeRanges.nodes) := by
  obtain ⟨member, inside⟩ := tiling.sound_free.find_some found
  have outside : ¬ UsedAt pm addr := (erased_outside tiling.tiles member inside).2
  unfold vallocFixed.reserve
  rw [found]
  dsimp only
  split
  · rename_i start
    subst start
    split
    · omega
    · have order := insertUsed_perm tiling (r := ⟨r.vaddr, size⟩) outside _
        (insertFree_used (pm.removeFree r) ⟨wadd r.vaddr size, wsub r.size size⟩)
      refine ⟨order.mem_iff.mpr List.mem_cons_self,
        fun e old => order.mem_iff.mpr (List.mem_cons_of_mem _ old), fun e old => ?_⟩
      rw [insertUsed_free]
      exact @mem_insertFree (pm.removeFree r) e _ old
  · have order := insertUsed_perm tiling (r := ⟨addr, size⟩) outside
      (pm.removeFree r) rfl
    refine ⟨?_, ?_, ?_⟩
    · split <;> split <;>
        simpa only [insertFree_used] using order.mem_iff.mpr List.mem_cons_self
    · intro e old
      split <;> split <;>
        simpa only [insertFree_used] using order.mem_iff.mpr (List.mem_cons_of_mem _ old)
    · intro e old
      have start : e ∈ ((pm.removeFree r).insertUsed ⟨addr, size⟩).freeRanges.nodes := by
        rw [insertUsed_free]
        exact old
      split <;> split <;>
        first | exact start | exact mem_insertFree _ start | exact mem_insertFree _ (mem_insertFree _ start)

/-- A request that runs past the free range it starts in breaks the tiling: the
first address behind that range is now covered twice, or was never in the window. -/
theorem reserve_overrun (tiling : Tiling w pm) {size addr : Nat} {r : PageRange}
    (found : pm.freeRanges.find ⟨addr, 0⟩ = some r) (beyond : r.vaddr + r.size < addr + size) :
    ¬ Tiling w (vallocFixed.reserve pm size addr).2 := by
  intro after
  obtain ⟨member, inside⟩ := tiling.sound_free.find_some found
  obtain ⟨placed, keptUsed, keptFree⟩ := reserve_members tiling found beyond
  have limits := after.limits (List.mem_append_right _ placed)
  have low := tiling.limits (List.mem_append_left _ member)
  have behind : Inside (r.vaddr + r.size) (PageRange.span ⟨addr, size⟩) :=
    ⟨inside.2.le, beyond⟩
  have window : Inside (r.vaddr + r.size) (w.lo, w.hi) :=
    ⟨low.1.trans (Nat.le_add_right _ _), beyond.trans_le limits.2.1⟩
  obtain ⟨s, listed, reached⟩ := (tiling.tiles.covers _).mpr window
  obtain ⟨e, old, rfl⟩ := List.mem_map.mp listed
  have kept : e ∈ (vallocFixed.reserve pm size addr).2.freeRanges.nodes ++
      (vallocFixed.reserve pm size addr).2.usedRanges.nodes := by
    rcases List.mem_append.mp old with free | used
    · have different : e ≠ r := by
        rintro rfl
        exact lt_irrefl _ reached.2
      exact List.mem_append_left _ (keptFree e ((List.mem_erase_of_ne different).mpr free))
    · exact List.mem_append_right _ (keptUsed e used)
  have same : e.span = PageRange.span ⟨addr, size⟩ := after.tiles.unique
    (List.mem_map_of_mem kept) (List.mem_map_of_mem (List.mem_append_right _ placed)) reached behind
  -- the old range would start at the requested address, which lies in `r`
  have start : e.vaddr = addr := congrArg Prod.fst same
  have twice : e.span = r.span := tiling.tiles.unique listed
    (List.mem_map_of_mem (List.mem_append_left _ member))
    (x := addr) ⟨start.le, by rw [same]; exact behind.1.trans_lt behind.2⟩ inside
  rw [twice] at reached
  exact lt_irrefl _ reached.2

end Reserve

theorem Sound.find_unique {t : VallocTree} (sound : Sound t) {u : PageRange} {x : Nat}
    (member : u ∈ t.nodes) (inside : Inside x u.span)
    (unique : ∀ e ∈ t.nodes, Inside x e.span → e = u) : t.find ⟨x, 0⟩ = some u := by
  cases found : t.find ⟨x, 0⟩ with
  | none =>
    have covered : Covers (spans t.nodes) x := ⟨u.span, List.mem_map_of_mem member, inside⟩
    exact absurd covered (sound.find_none.mp found)
  | some e =>
    obtain ⟨listed, reached⟩ := sound.find_some found
    exact congrArg some (unique e listed reached)

theorem Tiling.find_used {w : Window} {pm : Ranges} (tiling : Tiling w pm) {u : PageRange} {x : Nat}
    (member : u ∈ pm.usedRanges.nodes) (inside : Inside x u.span) :
    pm.usedRanges.find ⟨x, 0⟩ = some u :=
  tiling.sound_used.find_unique member inside fun _ listed reached =>
    tiling.unique (List.mem_append_right _ listed) (List.mem_append_right _ member) reached inside

theorem Tiling.find_free {w : Window} {pm : Ranges} (tiling : Tiling w pm) {r : PageRange} {x : Nat}
    (member : r ∈ pm.freeRanges.nodes) (inside : Inside x r.span) :
    pm.freeRanges.find ⟨x, 0⟩ = some r :=
  tiling.sound_free.find_unique member inside fun _ listed reached =>
    tiling.unique (List.mem_append_left _ listed) (List.mem_append_left _ member) reached inside

section Contract

variable {w : Window} {pm : Ranges} {size fixedAddr : Nat} {noreplace : Bool}

/-- The result for a request that starts in a used range. -/
theorem vallocFixed_used (aligned : pageSize ∣ fixedAddr)
    (bound : fixedAddr + roundup size < 2 ^ 64) {u : PageRange}
    (found : pm.usedRanges.find ⟨fixedAddr, 0⟩ = some u) :
    vallocFixed pm size fixedAddr noreplace =
      if noreplace = true then (0, pm)
      else if roundup size ≤ u.size then (fixedAddr, pm)
      else vallocFixed.reserve pm (roundup size - u.size) (fixedAddr + u.size) := by
  have grain : size + 4095 < 2 ^ 64 := by
    unfold roundup at bound
    omega
  unfold vallocFixed
  rw [if_neg (by simpa using (isAligned_page fixedAddr).mpr aligned), alignUp_roundup grain, found]
  cases noreplace with
  | true => rfl
  | false =>
    by_cases large : roundup size ≤ u.size
    · simp [large]
    · simp only [Bool.false_eq_true, false_and, ↓reduceIte, large]
      rw [wsub_eq (by omega) (by omega), wadd_eq (by omega)]

theorem vallocFixed_free (aligned : pageSize ∣ fixedAddr)
    (bound : fixedAddr + roundup size < 2 ^ 64)
    (missing : pm.usedRanges.find ⟨fixedAddr, 0⟩ = none) :
    vallocFixed pm size fixedAddr noreplace = vallocFixed.reserve pm (roundup size) fixedAddr := by
  have grain : size + 4095 < 2 ^ 64 := by
    unfold roundup at bound
    omega
  unfold vallocFixed
  rw [if_neg (by simpa using (isAligned_page fixedAddr).mpr aligned), alignUp_roundup grain, missing]
  simp

theorem contract_unchanged {ret : Nat} (tiling : Tiling w pm)
    (result : vallocFixed pm size fixedAddr noreplace = (ret, pm))
    (granted : ret ≠ 0 → ret = fixedAddr ∧ noreplace = false ∧
      ∀ x, Inside x (allocated fixedAddr size) → UsedAt pm x) :
    FixedContract w pm size fixedAddr noreplace := by
  constructor
  · rw [result]
    exact tiling
  · rw [result]
    intro success
    obtain ⟨same, replace, used⟩ := granted success
    exact ⟨same, used, fun _ _ => ⟨Iff.rfl, Iff.rfl⟩, fun no => by rw [replace] at no; cases no⟩
  · rw [result]
    exact fun _ => rfl

theorem contract_carved {r : PageRange} {f u : VallocTree} (tiling : Tiling w pm)
    (aligned : pageSize ∣ fixedAddr)
    (result : vallocFixed pm size fixedAddr noreplace = (fixedAddr, ⟨f, u, pm.refused⟩))
    (carve : Carve pm.freeRanges.nodes f.nodes pm.usedRanges.nodes u.nodes r
      ⟨fixedAddr, roundup size⟩) :
    FixedContract w pm size fixedAddr noreplace := by
  have limits := tiling.limits (List.mem_append_left _ carve.member)
  constructor
  · rw [result]
    exact tiling.of_alloc carve aligned (roundup_dvd size)
  · rw [result]
    intro _
    refine ⟨rfl, fun x inside => (carve.dst_covers x).mpr (.inl inside), ?_, ?_⟩
    · intro x outside
      exact ⟨(carve.dst_covers x).trans (or_iff_right outside),
        (carve.src_covers tiling.tiles x).trans (and_iff_left outside)⟩
    · intro _ x inside
      exact ⟨r.span, List.mem_map_of_mem carve.member, carve.low.trans inside.1,
        inside.2.trans_le carve.high⟩
  · rw [result]
    intro zero
    have low := carve.low
    have positive := w.positive
    simp only at zero low
    omega

theorem contract_of_fits (tiling : Tiling w pm) (aligned : pageSize ∣ fixedAddr)
    (positive : 1 ≤ size) (bound : fixedAddr + roundup size < 2 ^ 64)
    (fits : FixedFits pm size fixedAddr noreplace) : FixedContract w pm size fixedAddr noreplace := by
  cases found : pm.usedRanges.find ⟨fixedAddr, 0⟩ with
  | some u =>
    obtain ⟨member, inside⟩ := tiling.sound_used.find_some found
    have result := @vallocFixed_used pm size fixedAddr noreplace aligned bound u found
    rcases fits.used u member inside with no | ⟨large, used⟩ | ⟨small, gap⟩
    · rw [if_pos no] at result
      exact contract_unchanged tiling result (fun success => absurd rfl success)
    · cases noreplace with
      | true => exact contract_unchanged tiling result (fun success => absurd rfl success)
      | false =>
        rw [if_neg (by decide), if_pos large] at result
        exact contract_unchanged tiling result (fun _ => ⟨rfl, rfl, used⟩)
    · have none : pm.freeRanges.find ⟨fixedAddr + u.size, 0⟩ = none :=
        tiling.sound_free.find_none.mpr gap
      have nothing : vallocFixed.reserve pm (roundup size - u.size) (fixedAddr + u.size) = (0, pm) := by
        simp only [vallocFixed.reserve, none]
      rw [if_neg (Nat.not_le.mpr small), nothing, ite_self] at result
      exact contract_unchanged tiling result (fun success => absurd rfl success)
  | none =>
    have result := @vallocFixed_free pm size fixedAddr noreplace aligned bound found
    cases place : pm.freeRanges.find ⟨fixedAddr, 0⟩ with
    | none =>
      have nothing : vallocFixed.reserve pm (roundup size) fixedAddr = (0, pm) := by
        simp only [vallocFixed.reserve, place]
      rw [nothing] at result
      exact contract_unchanged tiling result (fun success => absurd rfl success)
    | some r =>
      obtain ⟨member, inside⟩ := tiling.sound_free.find_some place
      obtain ⟨f, u, reserved, carve⟩ := reserve_fits tiling place (roundup_pos positive)
        (fits.free r member inside)
      rw [reserved] at result
      exact contract_carved tiling aligned result carve

theorem fits_of_contract (tiling : Tiling w pm) (aligned : pageSize ∣ fixedAddr)
    (bound : fixedAddr + roundup size < 2 ^ 64)
    (contract : FixedContract w pm size fixedAddr noreplace) : FixedFits pm size fixedAddr noreplace := by
  constructor
  · intro u member inside
    have limits := tiling.limits (List.mem_append_right _ member)
    have nonzero : fixedAddr ≠ 0 := Nat.ne_of_gt (w.positive.trans_le (limits.1.trans inside.1))
    have result := @vallocFixed_used pm size fixedAddr noreplace aligned bound u
      (tiling.find_used member inside)
    cases noreplace with
    | true => exact .inl rfl
    | false =>
      right
      rw [if_neg (by decide)] at result
      by_cases large : roundup size ≤ u.size
      · rw [if_pos large] at result
        have granted := contract.granted
        rw [result] at granted
        exact .inl ⟨large, (granted nonzero).2.1⟩
      · rw [if_neg large] at result
        refine .inr ⟨Nat.not_le.mp large, ?_⟩
        rintro ⟨s, listed, reached⟩
        obtain ⟨r, free, rfl⟩ := List.mem_map.mp listed
        have shifted := @reserve_fst pm (roundup size - u.size) _ r
          (tiling.find_free free reached)
        have granted := contract.granted
        rw [result, shifted] at granted
        have same := (granted (by omega)).1
        omega
  · intro r member inside
    by_contra beyond
    have missing : pm.usedRanges.find ⟨fixedAddr, 0⟩ = none :=
      tiling.sound_used.find_none.mpr (erased_outside tiling.tiles member inside).2
    have result := @vallocFixed_free pm size fixedAddr noreplace aligned bound missing
    have after := contract.tiling
    rw [result] at after
    exact reserve_overrun tiling (tiling.find_free member inside) (Nat.not_le.mp beyond) after

/-- The reservation keeps its contract exactly on the requests that fit. -/
theorem vallocFixed_contract_iff (tiling : Tiling w pm) (aligned : pageSize ∣ fixedAddr)
    (positive : 1 ≤ size) (bound : fixedAddr + roundup size < 2 ^ 64) :
    FixedContract w pm size fixedAddr noreplace ↔ FixedFits pm size fixedAddr noreplace :=
  ⟨fits_of_contract tiling aligned bound, contract_of_fits tiling aligned positive bound⟩

end Contract

/-- One page is used at 0x1000; two are then requested there. The answer is 0x2000. -/
theorem vallocFixed_answers_elsewhere :
    let pm := (valloc newPagemapWindow.fresh 4096).2
    Tiling newPagemapWindow pm ∧ (vallocFixed pm 0x2000 0x1000 false).1 = 0x2000 ∧
      ¬ FixedContract newPagemapWindow pm 0x2000 0x1000 false := by
  have answer : (vallocFixed (valloc newPagemapWindow.fresh 4096).2 0x2000 0x1000 false).1 =
      0x2000 := by decide
  refine ⟨(@step_valloc_inv _ _ (fresh_inv newPagemapWindow) 4096 (by decide) (by decide)).tiling,
    answer, ?_⟩
  intro contract
  have granted := contract.granted
  rw [answer] at granted
  exact absurd (granted (by decide)).1 (by decide)

theorem vallocFixed_contract_iff_fresh :
    FixedContract newPagemapWindow newPagemapWindow.fresh 0x3000 0x400000 true ↔
      FixedFits newPagemapWindow.fresh 0x3000 0x400000 true :=
  vallocFixed_contract_iff newPagemapWindow.fresh_tiling (by decide) (by decide) (by decide)

end EvalynOS.Vma
