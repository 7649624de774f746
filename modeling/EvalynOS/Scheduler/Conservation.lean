import EvalynOS.Scheduler.Runs

/-! Which threads a call of schedule() keeps. The only pointer it has to the list
before the threads it unlinks is the running thread, so it loses the sleepers
between the two; the ring is conserved exactly when there are none. -/
namespace EvalynOS.Scheduler
open Lib Lib.Word

def ringSet (s : Sched) : Set Ptr := {p | ∃ head, s.threads = some head ∧ Reachable s.next head p}
def reapSet (s : Sched) : Set Ptr :=
  {p | ∃ head, s.threadsToReap = some head ∧ Reachable s.next head p}

/-- The threads that are on the reap list after a call and were not before. -/
def pushed (s s' : Sched) : Set Ptr := reapSet s' \ reapSet s

def Circular (s : Sched) : Prop := ∃ head ring, s.threads = some head ∧ Ring s.next head ring

/-- When the walk from `threads` passes at least one sleeper, the first thread it finds
awake is not exiting. -/
def Orderly (s : Sched) (now : Nat) : Prop :=
  ∀ head skipped c, s.threads = some head → Path s.next head (head :: skipped) c → skipped ≠ [] →
    (∀ p ∈ skipped, asleep s now p = true) → asleep s now c = false → exiting s c = false

def Event.Orderly (s : Sched) : Event → Prop
  | .schedule preempt now => preempt = false ∨ Scheduler.Orderly s now
  | _ => True

/-- Every thread structure in use is on the ring or waits for the reaper. -/
def Complete (s : Sched) : Prop := ∀ p t, s.heap p = some t → p ∈ ringSet s ∨ p ∈ reapSet s

section Sets

variable {idle head : Ptr} {s : Sched} {ring reap : List Ptr}

theorem WellFormed.mem_ringSet (wf : WellFormed idle s head ring reap) (p : Ptr) :
    p ∈ ringSet s ↔ p ∈ ring := by
  rw [← wf.isRing.reachable_iff]
  constructor
  · rintro ⟨h, current, reach⟩
    cases Option.some.inj (wf.current.symm.trans current)
    exact reach
  · exact fun reach => ⟨head, wf.current, reach⟩

theorem WellFormed.mem_reapSet (wf : WellFormed idle s head ring reap) (p : Ptr) :
    p ∈ reapSet s ↔ p ∈ reap := by
  have chain := wf.isChain
  constructor
  · rintro ⟨h, list, reach⟩
    rw [list] at chain
    exact chain.reachable_iff.mp reach
  · intro member
    cases reap with
    | nil => cases member
    | cons x xs =>
      have list : s.threadsToReap = some x := chain.1
      rw [list] at chain
      exact ⟨x, list, chain.reachable_iff.mpr member⟩

end Sets

section Calls

variable {idle head : Ptr} {s : Sched} {order reap : List Ptr} {now : Nat}

theorem mem_pushed {s' : Sched} {head' : Ptr} {ring ring' dead : List Ptr}
    (wf : WellFormed idle s head ring reap)
    (after : WellFormed idle s' head' ring' (dead.reverse ++ reap)) (p : Ptr) :
    p ∈ pushed s s' ↔ p ∈ dead := by
  have distinct := after.nodup.of_append_right
  rw [pushed, Set.mem_sdiff, after.mem_reapSet, wf.mem_reapSet, List.mem_append, List.mem_reverse]
  constructor
  · rintro ⟨dead | old, new⟩
    · exact dead
    · exact absurd old new
  · intro member
    refine ⟨.inl member, fun old => ?_⟩
    exact (List.nodup_append.mp distinct).2.2 p (List.mem_reverse.mpr member) p old rfl

theorem orderly_iff (wf : WellFormed idle s head (head :: order) reap)
    {skipped dead tail : List Ptr} {n : Ptr}
    (pass : Pass s now (order ++ [head]) skipped dead n tail) :
    Orderly s now ↔ dropped skipped dead = [] := by
  obtain ⟨first, link, ring⟩ := wf.successors
  obtain ⟨c, rest, candidate, toCandidate, _⟩ := pass.stops ring
  have awake := pass.awake c rest candidate
  constructor
  · intro orderly
    unfold dropped
    split
    · rfl
    · rename_i some_dead
      by_contra some_skipped
      have stays := orderly head skipped c wf.current ⟨rfl, first, link, toCandidate⟩ some_skipped
        pass.sleepers awake
      have doomed : exiting s c = true := by
        cases dead with
        | nil => exact absurd rfl some_dead
        | cons x dead =>
          rw [← (List.cons.inj candidate).1]
          exact pass.doomed x List.mem_cons_self
      rw [stays] at doomed
      cases doomed
  · intro none head' skipped' c' current path some_skipped sleepers awake'
    cases Option.some.inj (wf.current.symm.trans current)
    obtain ⟨_, first', link', path'⟩ := path
    cases Option.some.inj (link.symm.trans link')
    -- both descriptions of the first loop stop at the same thread
    obtain ⟨same, rfl⟩ := toCandidate.first_unique path' pass.sleepers awake sleepers awake'
    cases dead with
    | nil =>
      rw [← (List.cons.inj candidate).1]
      exact pass.stays
    | cons x dead => exact absurd (same.symm.trans none) some_skipped

/-- The threads a call keeps, in terms of what it pushed and what it lost. -/
theorem conserved_iff {s' : Sched} {skipped dead tail : List Ptr} {n : Ptr}
    (wf : WellFormed idle s head (head :: order) reap)
    (cut : order ++ [head] = skipped ++ (dead ++ n :: tail))
    (after : WellFormed idle s' n (ringAfter skipped dead n tail) (dead.reverse ++ reap)) :
    ringSet s' = ringSet s \ pushed s s' ↔ dropped skipped dead = [] := by
  have rotation : (order ++ [head]).Perm (head :: order) := List.perm_append_comm
  have parts := ringAfter_perm skipped dead n tail []
  rw [List.append_nil, List.append_nil, ← cut] at parts
  have whole := rotation.symm.trans parts
  have distinct := whole.nodup_iff.mp wf.isRing.nodup
  have members : ∀ p, p ∈ ringSet s \ pushed s s' ↔
      p ∈ dropped skipped dead ∨ p ∈ ringAfter skipped dead n tail := by
    intro p
    rw [Set.mem_sdiff, wf.mem_ringSet, mem_pushed wf after, whole.mem_iff, List.mem_append,
      List.mem_append, List.mem_reverse]
    constructor
    · rintro ⟨lost | kept | dead, alive⟩
      · exact .inl lost
      · exact .inr kept
      · exact absurd dead alive
    · rintro (lost | kept)
      · refine ⟨.inl lost, fun member => ?_⟩
        exact (List.nodup_append.mp distinct).2.2 p lost p
          (List.mem_append_right _ (List.mem_reverse.mpr member)) rfl
      · refine ⟨.inr (.inl kept), fun member => ?_⟩
        exact (List.nodup_append.mp distinct.of_append_right).2.2 p kept p
          (List.mem_reverse.mpr member) rfl
  constructor
  · intro same
    by_contra some_lost
    obtain ⟨p, lost⟩ := List.exists_mem_of_ne_nil _ some_lost
    have kept : p ∈ ringSet s' := by
      rw [same]
      exact (members p).mpr (.inl lost)
    exact (List.nodup_append.mp distinct).2.2 p lost p
      (List.mem_append_left _ ((after.mem_ringSet p).mp kept)) rfl
  · intro none
    ext p
    rw [members, none, after.mem_ringSet]
    simp

theorem WellFormed.circular {ring : List Ptr} (wf : WellFormed idle s head ring reap) : Circular s :=
  ⟨head, ring, wf.current, wf.isRing⟩

theorem schedule_conserves_iff (shape : RingState idle s) (now : Nat) :
    ∃ s', Step idle s (.schedule true now) s' ∧ Circular s' ∧
      (∀ p ∈ pushed s s', exiting s p = true) ∧
      (ringSet s' = ringSet s \ pushed s s' ↔ Orderly s now) := by
  obtain ⟨head, order, reap, wf⟩ := shape
  obtain ⟨skipped, dead, n, tail, s', pass, runs, _, after⟩ := schedule_spec wf now
  refine ⟨s', ⟨trivial, _, runs _ (Nat.lt_succ_self _)⟩, after.circular, ?_, ?_⟩
  · exact fun p member => pass.doomed p ((mem_pushed wf after p).mp member)
  · exact (conserved_iff wf pass.cut after).trans (orderly_iff wf pass).symm

theorem create_adds {p : Ptr} (shape : RingState idle s) (fresh : s.heap p = none) (fds stack : Ptr)
    (pagemap : Option Ptr) :
    ∃ s', Step idle s (.create p fds stack pagemap) s' ∧ Circular s' ∧
      ringSet s' = insert p (ringSet s) := by
  obtain ⟨head, order, reap, wf⟩ := shape
  obtain ⟨s', created, after, _⟩ := create_spec wf fresh fds stack pagemap
  refine ⟨s', ⟨fresh, 0, created⟩, after.circular, ?_⟩
  ext q
  rw [Set.mem_insert_iff, after.mem_ringSet, wf.mem_ringSet]
  simp only [List.mem_cons]
  exact or_left_comm

end Calls

/-! In a run without losses every thread structure in use stays accounted for. -/

section Complete

variable {idle head : Ptr} {s s' : Sched} {order ring reap : List Ptr}

theorem WellFormed.complete_iff (wf : WellFormed idle s head ring reap) :
    Complete s ↔ ∀ p t, s.heap p = some t → p ∈ ring ++ reap := by
  unfold Complete
  simp only [wf.mem_ringSet, wf.mem_reapSet, List.mem_append]

theorem heap_of_core {p : Ptr} {t : Thread}
    (core : (s'.heap p).map Thread.core = (s.heap p).map Thread.core) (here : s'.heap p = some t) :
    ∃ u, s.heap p = some u := by
  cases before : s.heap p with
  | none =>
    rw [here, before] at core
    cases core
  | some u => exact ⟨u, rfl⟩

theorem step_complete {e : Event} (shape : RingState idle s) (complete : Complete s)
    (orderly : e.Orderly s) (step : Step idle s e s') : Complete s' := by
  obtain ⟨head, order, reap, wf⟩ := shape
  have listed := wf.complete_iff.mp complete
  have marked : ∀ f : Thread → Thread, (∀ t, (f t).nextThread = t.nextThread) →
      s.threads ≠ some idle → s.mark f = some s' → Complete s' := by
    intro f link other result
    obtain ⟨t, here, changed, after⟩ := mark_spec wf other f link
    cases Option.some.inj (changed.symm.trans result)
    rw [after.complete_iff]
    intro p u there
    by_cases same : p = head
    · rw [same]
      simp
    · simp only [Sched.put, same, ↓reduceIte] at there
      exact listed p u there
  obtain ⟨enabled, fuel, result⟩ := step
  cases e with
  | create p fds stack pagemap =>
    obtain ⟨t, created, after, others, _⟩ := create_spec wf enabled fds stack pagemap
    cases Option.some.inj (created.symm.trans result)
    rw [after.complete_iff]
    intro q u there
    by_cases new : q = p
    · rw [new]
      simp
    · obtain ⟨v, before⟩ := heap_of_core (others q new) there
      have old := listed q v before
      simp only [List.cons_append, List.mem_cons] at old ⊢
      rcases old with same | rest
      · exact .inl same
      · exact .inr (.inr rest)
  | markSleep now ms =>
    exact marked (fun t => { t with sleepAwakeTime := wadd now ms }) (fun _ => rfl) enabled result
  | markExit =>
    exact marked (fun t => { t with threadState := .reaping }) (fun _ => rfl) enabled result
  | schedule preempt now =>
    cases preempt with
    | false =>
      cases Option.some.inj result
      exact complete
    | true =>
      obtain ⟨skipped, dead, n, tail, s₁, pass, runs, core, after⟩ := schedule_spec wf now
      have one : Step idle s (.schedule true now) s₁ := ⟨trivial, _, runs _ (Nat.lt_succ_self _)⟩
      have same : s₁ = s' := step_deterministic one ⟨enabled, fuel, result⟩
      subst same
      have nothing := (orderly_iff wf pass).mp (orderly.resolve_left (by decide))
      have parts := ringAfter_perm skipped dead n tail reap
      rw [nothing, List.nil_append, ← pass.cut] at parts
      have rotation : (order ++ [head] ++ reap).Perm (head :: order ++ reap) :=
        List.perm_append_comm.append_right reap
      rw [after.complete_iff]
      intro p u there
      obtain ⟨v, before⟩ := heap_of_core (core p) there
      exact parts.mem_iff.mp (rotation.mem_iff.mpr (listed p v before))
  | reap =>
    obtain ⟨t, reaped, after, freed, kept⟩ := reap_spec wf
    cases Option.some.inj (reaped.symm.trans result)
    rw [after.complete_iff]
    intro p u there
    have notFirst : reap.head? ≠ some p := by
      intro first
      rw [freed p first] at there
      cases there
    have old := listed p u ((kept p notFirst).symm.trans there)
    cases reap with
    | nil => exact old
    | cons x xs =>
      have moved := List.perm_middle.mem_iff.mp old
      rcases List.mem_cons.mp moved with same | rest
      · exact absurd (congrArg some same.symm) notFirst
      · exact rest

end Complete

/-- In every reachable state: the list is circular, schedule() terminates and pushes
only exiting threads, and it conserves the ring exactly in an orderly state; a new
thread is added and nothing else. In a run of orderly steps no thread is ever lost. -/
theorem ring_conservation {idle : Ptr} {s₀ : Sched} (shape : RingState idle s₀) :
    (∀ s, Reach idle (fun _ _ => True) s₀ s → Circular s ∧
      (∀ now, ∃ s', Step idle s (.schedule true now) s' ∧ Circular s' ∧
        (∀ p ∈ pushed s s', exiting s p = true) ∧
        (ringSet s' = ringSet s \ pushed s s' ↔ Orderly s now)) ∧
      (∀ p fds stack pagemap, s.heap p = none →
        ∃ s', Step idle s (.create p fds stack pagemap) s' ∧ Circular s' ∧
          ringSet s' = insert p (ringSet s))) ∧
    (Complete s₀ → ∀ s, Reach idle Event.Orderly s₀ s → Complete s) := by
  constructor
  · intro s reach
    have here := reach_ringState shape reach
    obtain ⟨head, order, reap, wf⟩ := here
    exact ⟨wf.circular, schedule_conserves_iff wf.ringState,
      fun p fds stack pagemap fresh => create_adds wf.ringState fresh fds stack pagemap⟩
  · intro complete s reach
    induction reach with
    | start => exact complete
    | step before orderly step ih =>
      exact step_complete (reach_ringState shape before) ih orderly step

/-- The ring at the end of kmain: the idle thread 1, the reaper 2 and the shell 3. -/
def ringAtBoot : Sched :=
  (kmainThreads bootSched (1, 101, 0x10000) (2, 102, 0x20000) (3, 103, 0x30000)).getD bootSched

theorem ringAtBoot_ringState : RingState 1 ringAtBoot := by
  obtain ⟨s, runs, shape⟩ := @kmainThreads_ringState bootSched rfl rfl (1, 101, 0x10000)
    (2, 102, 0x20000) (3, 103, 0x30000) rfl rfl (by decide)
  rw [ringAtBoot, runs]
  exact shape

theorem ringAtBoot_complete : Complete ringAtBoot := by
  have ring : Ring ringAtBoot.next 1 [1, 3, 2] :=
    ⟨⟨rfl, 3, by decide +kernel, rfl, 2, by decide +kernel, rfl, 1, by decide +kernel, rfl⟩,
      by simp, by decide⟩
  intro p t here
  refine .inl ⟨1, rfl, ring.reachable_iff.mpr ?_⟩
  by_contra other
  simp only [List.mem_cons, List.not_mem_nil, or_false, not_or] at other
  obtain ⟨not1, not3, not2⟩ := other
  have absent : ringAtBoot.heap p = none := by
    simp [ringAtBoot, kmainThreads, createThread, Sched.setNext, Sched.put, bootSched, not1, not2, not3]
  rw [absent] at here
  cases here

theorem ring_conservation_boot : RingState 1 ringAtBoot ∧ Circular ringAtBoot ∧
    Complete ringAtBoot ∧ ∀ s, Reach 1 Event.Orderly ringAtBoot s → Complete s :=
  ⟨ringAtBoot_ringState, ((ring_conservation ringAtBoot_ringState).1 ringAtBoot Reach.start).1,
    ringAtBoot_complete, (ring_conservation ringAtBoot_ringState).2 ringAtBoot_complete⟩

/- The shell starts two threads; the second sleeps and the first, which now stands
behind it, exits. Then everything is scheduled round to the shell again. -/
def sleeperBeforeExit : List Event :=
  [.schedule true 10, .create 4 104 0x40000 none, .create 5 105 0x50000 none,
    .schedule true 10, .markSleep 10 1000, .schedule true 10, .markExit,
    .schedule true 10, .schedule true 10, .schedule true 10]

/-- The next call unlinks the exiting thread 4 behind the shell and the sleeper 5 with it. -/
theorem schedule_drops_sleeper :
    ∃ s s', replay 1 8 sleeperBeforeExit ringAtBoot = some s ∧
      Reach 1 (fun _ _ => True) ringAtBoot s ∧ Step 1 s (.schedule true 20) s' ∧
      asleep s 20 5 = true ∧ exiting s 5 = false ∧
      5 ∈ ringSet s ∧ 5 ∉ pushed s s' ∧ 5 ∉ ringSet s' := by
  have before : (replay 1 8 sleeperBeforeExit ringAtBoot).map (fun s =>
      (s.threads, [3, 5, 4, 2, 1].map s.next, asleep s 20 5, exiting s 5)) =
      some (some 3, [some 5, some 4, some 2, some 1, some 3], true, false) := by
    decide +kernel
  have after : ((replay 1 8 sleeperBeforeExit ringAtBoot).bind (schedule 8 true 20)).map (fun s =>
      (s.threads, s.threadsToReap, [2, 1, 3, 4].map s.next)) =
      some (some 2, some 4, [some 1, some 3, some 2, none]) := by
    decide +kernel
  obtain ⟨s, runs, shape⟩ := Option.map_eq_some_iff.mp before
  rw [runs, Option.bind_some] at after
  obtain ⟨s', calls, shape'⟩ := Option.map_eq_some_iff.mp after
  simp only [List.map_cons, List.map_nil, Prod.mk.injEq, List.cons.injEq, and_true] at shape shape'
  obtain ⟨current, ⟨l3, l5, l4, l2, l1⟩, sleeps, stays⟩ := shape
  obtain ⟨current', list', l2', l1', l3', l4'⟩ := shape'
  have ring : Ring s.next 3 [3, 5, 4, 2, 1] :=
    ⟨⟨rfl, 5, l3, rfl, 4, l5, rfl, 2, l4, rfl, 1, l2, rfl, 3, l1, rfl⟩, by simp, by decide⟩
  have ring' : Ring s'.next 2 [2, 1, 3] :=
    ⟨⟨rfl, 1, l2', rfl, 3, l1', rfl, 2, l3', rfl⟩, by simp, by decide⟩
  have chain' : Chain s'.next (some 4) [4] := ⟨rfl, l4'⟩
  refine ⟨s, s', runs, reach_of_replay .start runs, ⟨trivial, 8, calls⟩, sleeps, stays, ?_, ?_, ?_⟩
  · exact ⟨3, current, ring.reachable_iff.mpr (by decide)⟩
  · rintro ⟨⟨h, isList, reach⟩, _⟩
    cases Option.some.inj (list'.symm.trans isList)
    exact absurd (chain'.reachable_iff.mp reach) (by decide)
  · rintro ⟨h, isCurrent, reach⟩
    cases Option.some.inj (current'.symm.trans isCurrent)
    exact absurd (ring'.reachable_iff.mp reach) (by decide)

end EvalynOS.Scheduler
