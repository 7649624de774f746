import EvalynOS.Memory.VmaFixed

/-! vfree on every address and size. The end of the interval is compared after a wrapping
addition, and a size may round to zero, so the comparison alone does not keep the interval
inside the range that holds its first page. -/
namespace EvalynOS.Vma
open Lib Lib.Word

/-- What may be released: whole pages of one used range. -/
structure Releasable (pm : Ranges) (vaddr size : Nat) : Prop where
  aligned : pageSize ∣ vaddr
  positive : 1 ≤ size
  held : ∃ r ∈ pm.usedRanges.nodes, r.vaddr ≤ vaddr ∧ vaddr + roundup size ≤ r.vaddr + r.size

/-- vfree releases what may be released, and nothing else. -/
structure FreeContract (w : Window) (pm : Ranges) (vaddr size : Nat) : Prop where
  success : (vfree pm vaddr size).1 ≠ 0 ↔ Releasable pm vaddr size
  moved : Releasable pm vaddr size → ∀ x,
    (UsedAt (vfree pm vaddr size).2 x ↔ UsedAt pm x ∧ ¬ Inside x (allocated vaddr size)) ∧
    (FreeAt (vfree pm vaddr size).2 x ↔ Inside x (allocated vaddr size) ∨ FreeAt pm x)
  tiling : Releasable pm vaddr size → Tiling w (vfree pm vaddr size).2
  unchanged : ¬ Releasable pm vaddr size → (vfree pm vaddr size).2 = pm

section Free

variable {w : Window} {pm : Ranges} {vaddr size : Nat}

/-- The tests that vfree makes. -/
theorem vfree_success : (vfree pm vaddr size).1 ≠ 0 ↔ pageSize ∣ vaddr ∧
    ∃ r, pm.usedRanges.find ⟨vaddr, 0⟩ = some r ∧
      wadd vaddr (alignUp size pageSize) ≤ wadd r.vaddr r.size := by
  rw [← isAligned_page]
  unfold vfree
  split
  · rename_i misaligned
    simp [misaligned]
  · rename_i aligned
    have fine : isAligned vaddr pageSize = true := by simpa using aligned
    dsimp only
    split
    · rename_i missing
      simp [missing]
    · rename_i r found
      split
      · rename_i short
        simp [found, short]
      · rename_i enough
        have reaches : wadd vaddr (alignUp size pageSize) ≤ wadd r.vaddr r.size := Nat.not_lt.mp enough
        simp only [fine, found, Option.some.injEq, exists_eq_left', reaches, and_self, iff_true]
        split
        · split
          · exact one_ne_zero
          · exact two_ne_zero
        · exact three_ne_zero

theorem vfree_failed (failed : (vfree pm vaddr size).1 = 0) : (vfree pm vaddr size).2 = pm := by
  unfold vfree at failed ⊢
  split
  · rfl
  · rename_i aligned
    rw [if_neg aligned] at failed
    dsimp only at failed ⊢
    split
    · rfl
    · rename_i r found
      rw [found] at failed
      dsimp only at failed
      split
      · rfl
      · rename_i enough
        rw [if_neg enough] at failed
        split at failed
        · split at failed
          · exact absurd failed one_ne_zero
          · exact absurd failed two_ne_zero
        · exact absurd failed three_ne_zero

theorem Tiling.used_range (tiling : Tiling w pm) (used : UsedAt pm vaddr) :
    ∃ r ∈ pm.usedRanges.nodes, Inside vaddr r.span ∧ r.vaddr + r.size < 2 ^ 64 ∧
      pm.usedRanges.find ⟨vaddr, 0⟩ = some r := by
  obtain ⟨s, listed, inside⟩ := used
  obtain ⟨r, member, rfl⟩ := List.mem_map.mp listed
  exact ⟨r, member, inside, (tiling.sound_used r member).2, tiling.find_used member inside⟩

theorem Releasable.used (releasable : Releasable pm vaddr size) : UsedAt pm vaddr := by
  obtain ⟨r, member, low, high⟩ := releasable.held
  have positive := roundup_pos releasable.positive
  exact ⟨r.span, List.mem_map_of_mem member, low, by simp only [PageRange.span]; omega⟩

theorem Tiling.releasable_bound (tiling : Tiling w pm) (releasable : Releasable pm vaddr size) :
    vaddr + roundup size < 2 ^ 64 := by
  obtain ⟨r, member, low, high⟩ := releasable.held
  have limit := (tiling.sound_used r member).2
  omega

/-- An interval that wraps or is empty passes the test of its end. -/
theorem end_passes {stop : Nat} (small : size < 2 ^ 64) (address : vaddr < stop)
    (escapes : ¬ (1 ≤ size ∧ vaddr + roundup size < 2 ^ 64)) :
    wadd vaddr (alignUp size pageSize) ≤ stop := by
  have shape : alignUp size (2 ^ 12) = wadd size (2 ^ 12 - 1) / 2 ^ 12 * 2 ^ 12 := alignUp_pow (by decide)
  have page : pageSize = 2 ^ 12 := by decide
  rw [page, shape]
  unfold roundup at escapes
  unfold wadd
  omega

theorem Tiling.vfree_success_iff (tiling : Tiling w pm) (positive : 1 ≤ size)
    (bound : vaddr + roundup size < 2 ^ 64) :
    (vfree pm vaddr size).1 ≠ 0 ↔ Releasable pm vaddr size := by
  have grain : size + 4095 < 2 ^ 64 := by
    unfold roundup at bound
    omega
  rw [vfree_success, alignUp_roundup grain, wadd_eq bound]
  constructor
  · rintro ⟨aligned, r, found, reaches⟩
    obtain ⟨member, inside⟩ := tiling.sound_used.find_some found
    rw [wadd_eq (tiling.sound_used r member).2] at reaches
    exact ⟨aligned, positive, r, member, inside.1, reaches⟩
  · intro releasable
    obtain ⟨r, member, low, high⟩ := releasable.held
    have rounded := roundup_pos positive
    have inside : Inside vaddr r.span := ⟨low, by simp only [PageRange.span]; omega⟩
    refine ⟨releasable.aligned, r, tiling.find_used member inside, ?_⟩
    rw [wadd_eq (tiling.sound_used r member).2]
    exact high

/-- A range that is released as it was reserved goes back whole. -/
theorem Tiling.vfree_whole (tiling : Tiling w pm) (rounds : size + 4095 < 2 ^ 64)
    (member : ⟨vaddr, roundup size⟩ ∈ pm.usedRanges.nodes) :
    ∃ f u, vfree pm vaddr size = (1, ⟨f, u, pm.refused⟩) ∧
      Carve pm.usedRanges.nodes u.nodes pm.freeRanges.nodes f.nodes ⟨vaddr, roundup size⟩ ⟨vaddr, roundup size⟩ ∧
      u.nodes = pm.usedRanges.nodes.erase ⟨vaddr, roundup size⟩ := by
  have limits := tiling.sound_used _ member
  have aligned := (tiling.aligned _ (List.mem_append_right _ member)).1
  have found : pm.usedRanges.find ⟨vaddr, 0⟩ = some ⟨vaddr, roundup size⟩ :=
    tiling.find_used member ⟨Nat.le_refl _, Nat.lt_add_of_pos_right limits.1⟩
  obtain ⟨d, inserted, carve⟩ := carve_whole tiling.swapped tiling.sound_free member limits.1
  refine ⟨d, pm.usedRanges.remove ⟨vaddr, roundup size⟩, ?_, carve, rfl⟩
  have fine : isAligned vaddr pageSize = true := (isAligned_page vaddr).mpr aligned
  simp only [vfree, fine, alignUp_roundup rounds, found, not_true_eq_false, lt_irrefl, ↓reduceIte,
    Ranges.removeUsed, Ranges.insertFree, inserted]

/-- vfree keeps its contract exactly when it is not given an empty or a wrapping interval
that starts in a used range. -/
theorem vfree_contract_iff (tiling : Tiling w pm) (small : size < 2 ^ 64) :
    FreeContract w pm vaddr size ↔
      (pageSize ∣ vaddr → UsedAt pm vaddr → 1 ≤ size ∧ vaddr + roundup size < 2 ^ 64) := by
  constructor
  · intro contract aligned used
    by_contra escapes
    obtain ⟨r, member, inside, limit, found⟩ := tiling.used_range used
    have passes : wadd vaddr (alignUp size pageSize) ≤ wadd r.vaddr r.size := by
      rw [wadd_eq limit]
      exact end_passes small inside.2 escapes
    have releasable := contract.success.mp (vfree_success.mpr ⟨aligned, r, found, passes⟩)
    exact escapes ⟨releasable.positive, tiling.releasable_bound releasable⟩
  · intro fits
    have success : (vfree pm vaddr size).1 ≠ 0 ↔ Releasable pm vaddr size := by
      by_cases starts : pageSize ∣ vaddr ∧ UsedAt pm vaddr
      · obtain ⟨positive, bound⟩ := fits starts.1 starts.2
        exact tiling.vfree_success_iff positive bound
      · constructor
        · intro code
          obtain ⟨aligned, r, found, _⟩ := vfree_success.mp code
          obtain ⟨member, inside⟩ := tiling.sound_used.find_some found
          exact absurd ⟨aligned, r.span, List.mem_map_of_mem member, inside⟩ starts
        · intro releasable
          exact absurd ⟨releasable.aligned, releasable.used⟩ starts
    have carved : Releasable pm vaddr size → ∃ r f u,
        (vfree pm vaddr size).2 = ⟨f, u, pm.refused⟩ ∧
        Carve pm.usedRanges.nodes u.nodes pm.freeRanges.nodes f.nodes r ⟨vaddr, roundup size⟩ := by
      intro releasable
      rcases vfree_cases tiling releasable.aligned releasable.positive (tiling.releasable_bound releasable) with
        failed | ⟨code, r, f, u, _, result, carve⟩
      · exact absurd (by rw [failed]) (success.mpr releasable)
      · exact ⟨r, f, u, by rw [result], carve⟩
    refine ⟨success, ?_, ?_, ?_⟩
    · intro releasable x
      obtain ⟨r, f, u, result, carve⟩ := carved releasable
      rw [result]
      exact ⟨carve.src_covers tiling.swapped x, carve.dst_covers x⟩
    · intro releasable
      obtain ⟨r, f, u, result, carve⟩ := carved releasable
      rw [result]
      exact tiling.of_free carve releasable.aligned (roundup_dvd size)
    · intro refused
      apply vfree_failed
      by_contra code
      exact refused (success.mp code)

end Free

/-- One page is used at 0x1000, and nothing of it is released: vfree answers 2. -/
theorem vfree_releases_nothing :
    let pm := (valloc newPagemapWindow.fresh 4096).2
    Tiling newPagemapWindow pm ∧ (vfree pm 0x1000 0).1 = 2 ∧ ¬ FreeContract newPagemapWindow pm 0x1000 0 := by
  have answer : (vfree (valloc newPagemapWindow.fresh 4096).2 0x1000 0).1 = 2 := by decide
  refine ⟨(@step_valloc_inv _ _ (fresh_inv newPagemapWindow) 4096 (by decide) (by decide)).tiling, answer, ?_⟩
  intro contract
  have success := contract.success
  rw [answer] at success
  exact absurd (success.mp (by decide)).positive (by decide)

theorem vfree_contract_iff_page :
    let pm := (valloc newPagemapWindow.fresh 4096).2
    FreeContract newPagemapWindow pm 0x1000 4096 ↔
      (pageSize ∣ 0x1000 → UsedAt pm 0x1000 → 1 ≤ 4096 ∧ 0x1000 + roundup 4096 < 2 ^ 64) :=
  vfree_contract_iff (@step_valloc_inv _ _ (fresh_inv newPagemapWindow) 4096 (by decide) (by decide)).tiling
    (by decide)

end EvalynOS.Vma
