import EvalynOS.Scheduler.Eligibility

/-! Turns. A call of schedule() moves the running place along the ring, so a thread that is
ready comes nearer with every call, and an exiting thread comes nearer to the reap list.
Only a new thread, which is put right behind the running one, moves the others back. -/
namespace EvalynOS.Scheduler
open Lib Lib.Word

namespace Event

def calls : Event → Nat
  | .schedule true _ => 1
  | _ => 0

def creations : Event → Nat
  | .create _ _ _ _ => 1
  | _ => 0

end Event

/-- Runs with a clock that never goes back. -/
inductive Timed (idle : Ptr) : Nat → Sched → List Event → Nat → Sched → Prop where
  | done {now : Nat} {s : Sched} : Timed idle now s [] now s
  | step {now t : Nat} {s s₁ s' : Sched} {e : Event} {events : List Event} : now ≤ e.clock now →
      Step idle s e s₁ → Timed idle (e.clock now) s₁ events t s' → Timed idle now s (e :: events) t s'

def calls (events : List Event) : Nat := (events.map Event.calls).sum

def creations (events : List Event) : Nat := (events.map Event.creations).sum

/-- In the ring `ahead` threads stand between the running thread and `p`. -/
def Behind (idle : Ptr) (s : Sched) (p : Ptr) (ahead : Nat) : Prop :=
  ∃ head pre post reap, WellFormed idle s head (head :: (pre ++ p :: post)) reap ∧ pre.length = ahead

section Turns

variable {idle p : Ptr} {s s' : Sched} {ahead now : Nat}

theorem Behind.off (behind : Behind idle s p ahead) : s.threads ≠ some p := by
  obtain ⟨head, pre, post, reap, wf, _⟩ := behind
  rw [wf.current]
  rintro same
  cases Option.some.inj same
  have distinct := (List.nodup_append.mp wf.nodup).1
  exact (List.nodup_cons.mp distinct).1 (by simp)

theorem Behind.off_list (behind : Behind idle s p ahead) : p ∉ reapSet s := by
  obtain ⟨head, pre, post, reap, wf, _⟩ := behind
  rw [wf.mem_reapSet]
  exact fun listed => (List.nodup_append.mp wf.nodup).2.2 p (by simp) p listed rfl

/-- Every thread of the ring but the running one has some of the others before it. -/
theorem behind_of_mem (shape : RingState idle s) (member : p ∈ ringSet s) (off : s.threads ≠ some p) :
    ∃ ahead, Behind idle s p ahead ∧ ahead + 2 ≤ (ringSet s).ncard := by
  obtain ⟨head, order, reap, wf⟩ := shape
  have distinct := (List.nodup_append.mp wf.nodup).1
  have size : (ringSet s).ncard = (head :: order).length := by
    have same : ringSet s = ((head :: order).toFinset : Set Ptr) := by
      ext q
      rw [wf.mem_ringSet, Finset.mem_coe, List.mem_toFinset]
    rw [same, Set.ncard_coe_finset, List.toFinset_card_of_nodup distinct]
  have inOrder : p ∈ order := by
    rcases List.mem_cons.mp ((wf.mem_ringSet p).mp member) with rfl | later
    · exact absurd wf.current off
    · exact later
  obtain ⟨pre, post, rfl⟩ := List.append_of_mem inOrder
  refine ⟨pre.length, ⟨head, pre, post, reap, wf, rfl⟩, ?_⟩
  rw [size]
  simp only [List.length_cons, List.length_append]
  omega

/-- What a call passes over is neither awake and alive, nor exiting and left in the ring. -/
theorem passed {pre rest front tail : List Ptr} {n : Ptr} (cut : pre ++ p :: rest = front ++ n :: tail)
    (outside : p ∉ front) : p = n ∨ ∃ between, tail = between ++ p :: rest ∧ between.length < pre.length := by
  rcases List.append_eq_append_iff.mp cut with ⟨beyond, rfl, split⟩ | ⟨short, rfl, split⟩
  · cases beyond with
    | nil => exact .inl (List.cons.inj split).1
    | cons x beyond =>
      have same := (List.cons.inj split).1
      exact absurd (by simp [same]) outside
  · cases short with
    | nil => exact .inl (List.cons.inj split).1.symm
    | cons x short =>
      refine .inr ⟨short, (List.cons.inj split).2, ?_⟩
      simp only [List.length_append, List.length_cons]
      omega

/-- A call runs a ready thread, queues an exiting one, or brings it nearer. -/
theorem schedule_turn (behind : Behind idle s p ahead) (awake : asleep s now p = false)
    (step : Step idle s (.schedule true now) s') : (s'.heap p).map Thread.core = (s.heap p).map Thread.core ∧
      ((exiting s p = false ∧ s'.threads = some p) ∨ (exiting s p = true ∧ p ∈ reapSet s') ∨
        ∃ fewer < ahead, Behind idle s' p fewer) := by
  obtain ⟨head, pre, post, reap, wf, rfl⟩ := behind
  obtain ⟨skipped, dead, n, tail, s₁, pass, runs, core, after⟩ := schedule_spec wf now
  have one : Step idle s (.schedule true now) s₁ := ⟨trivial, _, runs _ (Nat.lt_succ_self _)⟩
  cases step_deterministic one step
  refine ⟨core p, ?_⟩
  have notSkipped : p ∉ skipped := by
    intro member
    rw [pass.sleepers p member] at awake
    cases awake
  by_cases inDead : p ∈ dead
  · refine .inr (.inl ⟨pass.doomed p inDead, ?_⟩)
    rw [after.mem_reapSet]
    exact List.mem_append_left _ (List.mem_reverse.mpr inDead)
  · have cut := pass.cut
    rw [List.append_assoc, List.cons_append, ← List.append_assoc skipped] at cut
    have outside : p ∉ skipped ++ dead := fun member =>
      (List.mem_append.mp member).elim notSkipped inDead
    rcases passed cut outside with rfl | ⟨between, rfl, fewer⟩
    · exact .inl ⟨pass.stays, after.current⟩
    · rw [ringAfter, List.append_assoc, List.cons_append] at after
      exact .inr (.inr ⟨between.length, fewer, n, between, _, _, after, rfl⟩)

/-- No other step moves a thread of the ring, but for one place at the creation of another. -/
theorem other_turn {e : Event} (behind : Behind idle s p ahead) (other : e.calls = 0) (step : Step idle s e s') :
    (s'.heap p).map Thread.core = (s.heap p).map Thread.core ∧ Behind idle s' p (ahead + e.creations) := by
  have off := behind.off
  have offList := behind.off_list
  obtain ⟨head, pre, post, reap, wf, rfl⟩ := behind
  have notHead : p ≠ head := by
    rintro rfl
    exact off wf.current
  obtain ⟨enabled, fuel, result⟩ := step
  have marked : ∀ f : Thread → Thread, (∀ t, (f t).nextThread = t.nextThread) →
      s.threads ≠ some idle → s.mark f = some s' →
      (s'.heap p).map Thread.core = (s.heap p).map Thread.core ∧ Behind idle s' p pre.length := by
    intro f link others result
    obtain ⟨t, _, changed, after⟩ := mark_spec wf others f link
    cases Option.some.inj (changed.symm.trans result)
    exact ⟨by simp [Sched.put, notHead], head, pre, post, reap, after, rfl⟩
  cases e with
  | create q fds stack pagemap =>
    obtain ⟨t, created, after, others, _⟩ := create_spec wf enabled fds stack pagemap
    cases Option.some.inj (created.symm.trans result)
    refine ⟨others p ?_, head, q :: pre, post, reap, after, rfl⟩
    rintro rfl
    obtain ⟨t, here⟩ := wf.allocated p (by simp)
    have fresh : s.heap p = none := enabled
    rw [fresh] at here
    cases here
  | markSleep now ms =>
    exact marked (fun t => { t with sleepAwakeTime := wadd now ms }) (fun _ => rfl) enabled result
  | markExit => exact marked (fun t => { t with threadState := .reaping }) (fun _ => rfl) enabled result
  | schedule preempt now =>
    cases preempt with
    | false =>
      cases Option.some.inj result
      exact ⟨rfl, head, pre, post, reap, wf, rfl⟩
    | true => cases other
  | reap =>
    obtain ⟨t, reaped, after, _, kept⟩ := reap_spec wf
    cases Option.some.inj (reaped.symm.trans result)
    refine ⟨?_, head, pre, post, _, after, rfl⟩
    rw [kept p]
    intro first
    rw [wf.mem_reapSet] at offList
    exact offList (List.mem_of_mem_head? first)

theorem awake_later {now later : Nat} (same : (s'.heap p).map Thread.core = (s.heap p).map Thread.core)
    (order : now ≤ later) (awake : asleep s now p = false) : asleep s' later p = false := by
  unfold asleep at awake ⊢
  rw [same]
  cases core : (s.heap p).map Thread.core with
  | none => rfl
  | some pair =>
    rw [core] at awake
    simp only [Option.any_some, decide_eq_false_iff_not, Nat.not_lt] at awake ⊢
    exact awake.trans order

theorem calls_zero_or_call (e : Event) : e.calls = 0 ∨ ∃ now, e = .schedule true now := by
  cases e with
  | schedule preempt now =>
    cases preempt with
    | false => exact .inl rfl
    | true => exact .inr ⟨now, rfl⟩
  | _ => exact .inl rfl

/-- A thread of the ring gets its turn, unless there are too few calls. -/
theorem turn_comes {events : List Event} {t : Nat} (behind : Behind idle s p ahead)
    (awake : asleep s now p = false) (run : Timed idle now s events t s')
    (long : ahead + creations events < calls events) :
    ∃ before after t₁ s₁, events = before ++ after ∧ Timed idle now s before t₁ s₁ ∧
      ((exiting s p = false ∧ s₁.threads = some p) ∨ (exiting s p = true ∧ p ∈ reapSet s₁)) := by
  induction run generalizing ahead with
  | done => simp [calls, creations] at long
  | @step now t s s₁ s' e events later step run ih =>
    simp only [calls, creations, List.map_cons, List.sum_cons] at long
    have goOn : ∀ ahead₁, Behind idle s₁ p ahead₁ →
        (s₁.heap p).map Thread.core = (s.heap p).map Thread.core → asleep s (e.clock now) p = false →
        ahead₁ + (events.map Event.creations).sum < (events.map Event.calls).sum →
        ∃ before after t₁ s₂, e :: events = before ++ after ∧ Timed idle now s before t₁ s₂ ∧
          ((exiting s p = false ∧ s₂.threads = some p) ∨ (exiting s p = true ∧ p ∈ reapSet s₂)) := by
      intro ahead₁ behind₁ core awake₁ long₁
      obtain ⟨before, after, t₁, s₂, rfl, part, turn⟩ := ih behind₁ (awake_later core (Nat.le_refl _) awake₁) long₁
      have state : exiting s₁ p = exiting s p := by rw [exiting, core, exiting]
      rw [state] at turn
      exact ⟨e :: before, after, t₁, s₂, rfl, .step later step part, turn⟩
    have awake₁ : asleep s (e.clock now) p = false := awake_later rfl later awake
    rcases calls_zero_or_call e with none | ⟨time, rfl⟩
    · obtain ⟨core, behind₁⟩ := other_turn behind none step
      exact goOn _ behind₁ core awake₁ (by omega)
    · obtain ⟨core, turn⟩ := schedule_turn behind awake₁ step
      have only : Timed idle now s [.schedule true time] time s₁ := .step later step .done
      rcases turn with ⟨alive, runs⟩ | ⟨exits, queued⟩ | ⟨fewer, less, behind₁⟩
      · exact ⟨[.schedule true time], events, time, s₁, rfl, only, .inl ⟨alive, runs⟩⟩
      · exact ⟨[.schedule true time], events, time, s₁, rfl, only, .inr ⟨exits, queued⟩⟩
      · have one : (Event.schedule true time).calls = 1 := rfl
        exact goOn fewer behind₁ core awake₁ (by omega)

end Turns

end EvalynOS.Scheduler
