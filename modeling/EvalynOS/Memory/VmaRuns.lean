import EvalynOS.Memory.VmaOps

/-! Runs of the range allocator. A run starts from one free window and is any list
of allocations and releases; the allocations not yet released are recorded beside
the trees, so that their disjointness can be stated. -/
namespace EvalynOS.Vma
open Lib Lib.Word

inductive Call where
  | valloc (size : Nat)
  | vfree (vaddr size : Nat)

/-- What the callers promise: a non-zero size, an aligned address, and no rounding
or interval that leaves the 64-bit range. -/
def Call.Admissible : Call → Prop
  | .valloc size => 1 ≤ size ∧ size ≤ 2 ^ 64 - 4096
  | .vfree vaddr size => pageSize ∣ vaddr ∧ 1 ≤ size ∧ vaddr + roundup size < 2 ^ 64

instance (c : Call) : Decidable c.Admissible :=
  match c with
  | .valloc size => inferInstanceAs (Decidable (1 ≤ size ∧ size ≤ 2 ^ 64 - 4096))
  | .vfree vaddr size =>
    inferInstanceAs (Decidable (pageSize ∣ vaddr ∧ 1 ≤ size ∧ vaddr + roundup size < 2 ^ 64))

structure Run where
  ranges : Ranges
  live : List (Nat × Nat)

def allocated (base size : Nat) : Nat × Nat := (base, base + roundup size)

/-- A release ends every allocation it touches. -/
def stillLive (freed : Nat × Nat) (s : Nat × Nat) : Bool :=
  decide (s.2 ≤ freed.1) || decide (freed.2 ≤ s.1)

def Run.step (s : Run) : Call → Run
  | .valloc size =>
    let (base, ranges) := valloc s.ranges size
    ⟨ranges, if base = 0 then s.live else allocated base size :: s.live⟩
  | .vfree vaddr size =>
    let (code, ranges) := vfree s.ranges vaddr size
    ⟨ranges, if code = 0 then s.live else s.live.filter (stillLive (allocated vaddr size))⟩

structure Run.Inv (w : Window) (s : Run) : Prop where
  tiling : Tiling w s.ranges
  accepted : s.ranges.refused = []
  nonempty : ∀ l ∈ s.live, l.1 < l.2
  apart : s.live.Pairwise Apart
  used : ∀ l ∈ s.live, ∀ x, Inside x l → UsedAt s.ranges x

theorem fresh_inv (w : Window) : Run.Inv w ⟨w.fresh, []⟩ where
  tiling := w.fresh_tiling
  accepted := rfl
  nonempty := fun _ member => absurd member List.not_mem_nil
  apart := .nil
  used := fun _ member => absurd member List.not_mem_nil

/-- Every address a successful allocation returns was free before and is used after. -/
theorem valloc_from_free {w : Window} {pm : Ranges} (tiling : Tiling w pm) {size : Nat}
    (positive : 1 ≤ size) (bound : size + 4095 < 2 ^ 64) (success : (valloc pm size).1 ≠ 0) {x : Nat}
    (inside : Inside x (allocated (valloc pm size).1 size)) :
    FreeAt pm x ∧ UsedAt (valloc pm size).2 x := by
  rcases valloc_cases tiling positive bound with ⟨failed, _⟩ | ⟨r, f, u, result, carve⟩
  · exact absurd (congrArg Prod.fst failed) success
  · rw [result] at inside ⊢
    refine ⟨⟨r.span, List.mem_map_of_mem carve.member, inside.1, ?_⟩, ?_⟩
    · exact inside.2.trans_le carve.high
    · exact (carve.dst_covers x).mpr (.inl inside)

theorem step_valloc_inv {w : Window} {s : Run} (inv : s.Inv w) {size : Nat}
    (positive : 1 ≤ size) (bound : size + 4095 < 2 ^ 64) : (s.step (.valloc size)).Inv w := by
  have fromFree := @valloc_from_free w s.ranges inv.tiling size positive bound
  rcases valloc_cases inv.tiling positive bound with ⟨failed, _⟩ | ⟨r, f, u, result, carve⟩
  · simp only [Run.step, failed, ↓reduceIte]
    exact inv
  · have limits := inv.tiling.limits (List.mem_append_left _ carve.member)
    have nonzero : r.vaddr ≠ 0 := Nat.ne_of_gt (w.positive.trans_le limits.1)
    rw [result] at fromFree
    simp only [Run.step, result, nonzero, ↓reduceIte]
    have aligned := inv.tiling.aligned r (List.mem_append_left _ carve.member)
    have fresh : ∀ l ∈ s.live, ∀ x, Inside x l → ¬ Inside x (allocated r.vaddr size) := by
      intro l member x reached inner
      exact inv.tiling.free_not_used (fromFree nonzero inner).1 (inv.used l member x reached)
    have proper : (allocated r.vaddr size).1 < (allocated r.vaddr size).2 :=
      Nat.lt_add_of_pos_right (roundup_pos positive)
    constructor
    · exact inv.tiling.of_alloc carve aligned.1 (roundup_dvd size)
    · exact inv.accepted
    · intro l member
      rcases List.mem_cons.mp member with rfl | old
      · exact proper
      · exact inv.nonempty l old
    · refine List.pairwise_cons.mpr ⟨fun l member => ?_, inv.apart⟩
      exact (apart_of_disjoint (inv.nonempty l member) proper (fresh l member)).symm
    · intro l member x reached
      rcases List.mem_cons.mp member with rfl | old
      · exact (fromFree nonzero reached).2
      · exact (carve.dst_covers x).mpr (.inr (inv.used l old x reached))

theorem step_vfree_inv {w : Window} {s : Run} (inv : s.Inv w) {vaddr size : Nat}
    (aligned : pageSize ∣ vaddr) (positive : 1 ≤ size) (bound : vaddr + roundup size < 2 ^ 64) :
    (s.step (.vfree vaddr size)).Inv w := by
  rcases vfree_cases inv.tiling aligned positive bound with
    failed | ⟨code, r, f, u, success, result, carve⟩
  · simp only [Run.step, failed, ↓reduceIte]
    exact inv
  · simp only [Run.step, result, Nat.ne_of_gt success, ↓reduceIte]
    constructor
    · exact inv.tiling.of_free carve aligned (roundup_dvd size)
    · exact inv.accepted
    · exact fun l member => inv.nonempty l (List.mem_of_mem_filter member)
    · exact inv.apart.filter _
    · intro l member x reached
      obtain ⟨old, kept⟩ := List.mem_filter.mp member
      have apart : Apart l (allocated vaddr size) := by
        simpa [stillLive, Apart, or_comm] using kept
      exact (carve.src_covers inv.tiling.swapped x).mpr
        ⟨inv.used l old x reached, apart.not_both reached⟩

theorem step_inv {w : Window} {s : Run} (inv : s.Inv w) {call : Call}
    (admissible : call.Admissible) : (s.step call).Inv w := by
  cases call with
  | valloc size =>
    obtain ⟨positive, bound⟩ := admissible
    exact step_valloc_inv inv positive (by omega)
  | vfree vaddr size =>
    obtain ⟨aligned, positive, bound⟩ := admissible
    exact step_vfree_inv inv aligned positive bound

theorem run_inv {w : Window} (calls : List Call) (admissible : ∀ c ∈ calls, c.Admissible)
    {s : Run} (inv : s.Inv w) : (calls.foldl Run.step s).Inv w := by
  induction calls generalizing s with
  | nil => exact inv
  | cons call calls ih =>
    have head := admissible call List.mem_cons_self
    exact ih (fun c member => admissible c (List.mem_cons_of_mem _ member)) (step_inv inv head)

/-- After any run the trees tile the window, no insertion was refused, the live
allocations are pairwise apart and used, and what the next successful allocation
returns was wholly free. -/
theorem runs_keep_tiling (w : Window) (calls : List Call) (admissible : ∀ c ∈ calls, c.Admissible) :
    let s := calls.foldl Run.step ⟨w.fresh, []⟩
    Tiling w s.ranges ∧ s.ranges.refused = [] ∧ s.live.Pairwise Apart ∧
    (∀ l ∈ s.live, ∀ x, Inside x l → UsedAt s.ranges x) ∧
    (∀ size, 1 ≤ size → size ≤ 2 ^ 64 - 4096 → (valloc s.ranges size).1 ≠ 0 →
      ∀ x, Inside x (allocated (valloc s.ranges size).1 size) →
        FreeAt s.ranges x ∧ UsedAt (valloc s.ranges size).2 x) := by
  have inv := run_inv calls admissible (fresh_inv w)
  refine ⟨inv.tiling, inv.accepted, inv.apart, inv.used, ?_⟩
  intro size positive bound success x inside
  exact valloc_from_free inv.tiling positive (by omega) success inside

theorem runs_keep_tiling_process :
    let calls := [.valloc 8192, .valloc 1, .vfree 0x2000 4096, .valloc 5000]
    let s := calls.foldl Run.step ⟨newPagemapWindow.fresh, []⟩
    s.live = [(0x4000, 0x6000), (0x3000, 0x4000)] ∧ Tiling newPagemapWindow s.ranges := by
  exact ⟨by decide, (runs_keep_tiling newPagemapWindow _ (by decide)).1⟩

end EvalynOS.Vma
