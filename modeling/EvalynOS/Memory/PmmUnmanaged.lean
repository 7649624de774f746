import EvalynOS.Memory.PmmRuns

/-! free_page() on an address that no table manages, as delete_pagemap() calls it on the
pages of a framebuffer. -/
namespace EvalynOS.Pmm
open Lib Lib.Word

def Unmanaged (s : Phys) (p : Nat) : Prop := ∀ c ∈ s.tables, p < c.start ∨ c.endAddr ≤ p

instance (s : Phys) (p : Nat) : Decidable (Unmanaged s p) :=
  inferInstanceAs (Decidable (∀ c ∈ s.tables, p < c.start ∨ c.endAddr ≤ p))

/-- The address is not found, and freeing it returns with nothing changed. -/
def FreedHarmlessly (s : Phys) (p : Nat) : Prop := getPageInfo s p = .ok none ∧ freePage s p = .ok s

theorem findPage_none {phys : Nat} {tables : List ChildTable} (n : Nat)
    (outside : ∀ c ∈ tables, phys < c.start ∨ c.endAddr < phys) : findPage phys n tables = .ok none := by
  induction tables generalizing n with
  | nil => rfl
  | cons c tables ih =>
    have skipped : ¬ (c.start ≤ phys ∧ phys ≤ c.endAddr) := by
      have here := outside c List.mem_cons_self
      omega
    rw [findPage, if_neg skipped]
    exact ih (n + 1) fun d member => outside d (List.mem_cons_of_mem c member)

/- The first table whose range ends at the address gives it the index of a page too many. -/
theorem findPage_end {hhdmOffset phys : Nat} {tables : List ChildTable} (n : Nat)
    (sound : ∀ c ∈ tables, c.Sound hhdmOffset) (outside : ∀ c ∈ tables, phys < c.start ∨ c.endAddr ≤ phys)
    (ends : ∃ c ∈ tables, phys = c.endAddr) : findPage phys n tables = .error .outOfBounds := by
  induction tables generalizing n with
  | nil =>
    obtain ⟨c, member, -⟩ := ends
    cases member
  | cons c tables ih =>
    have shape := sound c List.mem_cons_self
    have whole := shape.ends
    by_cases here : phys = c.endAddr
    · have within : c.start ≤ phys ∧ phys ≤ c.endAddr := by omega
      have index : wsub (alignDown phys pageSize) c.start / pageSize = c.numPages := by
        obtain ⟨k, start⟩ := shape.aligned
        have mapped := shape.mapped
        simp only [pageSize] at *
        have down : alignDown phys 4096 = phys := by
          have rounded := alignDown_page (x := phys) (by omega)
          simp only [pageSize] at rounded
          omega
        rw [down, wsub_eq (by omega) (by omega)]
        omega
      rw [findPage, if_pos within]
      simp only [index, ge_iff_le, Nat.le_refl, if_true]
    · have skipped : ¬ (c.start ≤ phys ∧ phys ≤ c.endAddr) := by
        have apart := outside c List.mem_cons_self
        omega
      rw [findPage, if_neg skipped]
      apply ih (n + 1)
      · exact fun d member => sound d (List.mem_cons_of_mem c member)
      · exact fun d member => outside d (List.mem_cons_of_mem c member)
      · obtain ⟨d, member, stop⟩ := ends
        rcases List.mem_cons.mp member with rfl | later
        · exact absurd stop here
        · exact ⟨d, later, stop⟩

/-- An unmanaged address is freed harmlessly exactly when no managed range ends at it. -/
theorem unmanaged_harmless_iff {hhdmOffset : Nat} {memmap : List MemmapEntry} {mem : Memory} {s₀ s : Phys}
    {p : Nat} (limine : LimineMap hhdmOffset memmap) (boots : setupPmm hhdmOffset memmap mem = .ok s₀)
    (reach : Reach s₀ s) (unmanaged : Unmanaged s p) :
    FreedHarmlessly s p ↔ ∀ c ∈ s.tables, p ≠ c.endAddr := by
  obtain ⟨list₀, inv₀⟩ := setupPmm_inv limine boots
  obtain ⟨list, inv⟩ := reach_inv inv₀ reach
  constructor
  · intro harmless c member stop
    have panics := findPage_end 0 inv.layout.sound unmanaged ⟨c, member, stop⟩
    cases panics.symm.trans harmless.1
  · intro noEnd
    have missing : getPageInfo s p = .ok none := by
      apply findPage_none
      intro c member
      have apart := unmanaged c member
      have different := noEnd c member
      omega
    refine ⟨missing, ?_⟩
    unfold freePage
    rw [missing]

/- Above the memory of the small machine. -/
theorem unmanaged_harmless_device : ∃ s₀, setupPmm 0xFFFF800000000000 smallMap (fun _ => 7) = .ok s₀ ∧
    FreedHarmlessly s₀ 0xFD000000 := by
  refine ⟨_, rfl, ?_⟩
  apply (unmanaged_harmless_iff smallMap_limine rfl Reach.start ?_).mpr
  · decide +kernel
  · decide +kernel

/-- Device memory that starts where the usable region ends: freeing its first page panics. -/
theorem free_panics_behind_region : ∃ s₀, setupPmm 0xFFFF800000000000 smallMap (fun _ => 7) = .ok s₀ ∧
    Unmanaged s₀ 0x112000 ∧ freePage s₀ 0x112000 = .error .outOfBounds ∧ ¬ FreedHarmlessly s₀ 0x112000 := by
  refine ⟨_, rfl, ?_, rfl, ?_⟩
  · decide +kernel
  · intro harmless
    cases harmless.2

end EvalynOS.Pmm
