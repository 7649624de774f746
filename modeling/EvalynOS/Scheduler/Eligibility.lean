import EvalynOS.Scheduler.Conservation

/-! Which thread schedule() switches to. The second loop steps past exiting threads
without looking at the awake time again, so it may stop at a sleeper. -/
namespace EvalynOS.Scheduler
open Lib Lib.Word

/-- When the first thread found awake is exiting, the first one behind it that is not
exiting is awake. -/
def Followed (s : Sched) (now : Nat) : Prop :=
  ∀ head skipped c dead n, s.threads = some head → Path s.next head (head :: skipped) c →
    (∀ p ∈ skipped, asleep s now p = true) → asleep s now c = false → exiting s c = true →
    Path s.next c dead n → (∀ p ∈ dead, exiting s p = true) → exiting s n = false →
    asleep s now n = false

def SwitchesToRunnable (s : Sched) (now : Nat) (s' : Sched) : Prop :=
  ∀ n, s'.threads = some n → s.threads ≠ some n → asleep s now n = false ∧ exiting s n = false

section Target

variable {idle head : Ptr} {s : Sched} {order reap : List Ptr} {now : Nat}

/-- The call comes back to its caller only from the idle thread. -/
theorem Pass.own_turn {skipped dead tail : List Ptr}
    (wf : WellFormed idle s head (head :: order) reap)
    (pass : Pass s now (order ++ [head]) skipped dead head tail) : head = idle := by
  have ready := @WellFormed.idle_awake idle head s order reap now wf
  obtain ⟨first, _, ring⟩ := wf.successors
  have distinct := ring.nodup
  have member : idle ∈ order ++ [head] := List.perm_append_comm.mem_iff.mp wf.idleMember
  obtain ⟨init, ends⟩ := cut_ends pass.cut
  rw [pass.cut] at member distinct
  have single : tail = [] := by
    cases init with
    | nil => exact (List.cons.inj ends).2
    | cons x init =>
      obtain ⟨rfl, shape⟩ := List.cons.inj ends
      have again : head ∈ tail := by
        rw [shape]
        simp
      exact absurd again (List.nodup_cons.mp distinct.of_append_right.of_append_right).1
  rw [single] at member
  rcases List.mem_append.mp member with early | later
  · rw [pass.sleepers idle early] at ready
    exact Bool.noConfusion ready.1
  · rcases List.mem_append.mp later with doomed | last
    · rw [pass.doomed idle doomed] at ready
      exact Bool.noConfusion ready.2
    · exact (List.mem_singleton.mp last).symm

theorem followed_iff (wf : WellFormed idle s head (head :: order) reap)
    {skipped dead tail : List Ptr} {n : Ptr}
    (pass : Pass s now (order ++ [head]) skipped dead n tail) :
    Followed s now ↔ asleep s now n = false := by
  obtain ⟨first, link, ring⟩ := wf.successors
  obtain ⟨c, rest, candidate, toCandidate, toNext⟩ := pass.stops ring
  have awake := pass.awake c rest candidate
  constructor
  · intro followed
    cases dead with
    | nil =>
      cases toNext
      exact awake
    | cons x dead =>
      have isFirst : x = c := (List.cons.inj candidate).1
      have doomed : exiting s c = true := isFirst ▸ pass.doomed x List.mem_cons_self
      exact followed head skipped c (x :: dead) n wf.current ⟨rfl, first, link, toCandidate⟩
        pass.sleepers awake doomed toNext pass.doomed pass.stays
  · intro ready head' skipped' c' dead' n' current path sleepers awake' _ toNext' doomed' stays'
    cases Option.some.inj (wf.current.symm.trans current)
    obtain ⟨_, first', link', path'⟩ := path
    cases Option.some.inj (link.symm.trans link')
    obtain ⟨_, rfl⟩ := toCandidate.first_unique path' pass.sleepers awake sleepers awake'
    obtain ⟨_, rfl⟩ := toNext.first_unique toNext' pass.doomed pass.stays doomed' stays'
    exact ready

theorem schedule_runnable_iff (shape : RingState idle s) (now : Nat) :
    ∃ s', Step idle s (.schedule true now) s' ∧ (SwitchesToRunnable s now s' ↔ Followed s now) := by
  obtain ⟨head, order, reap, wf⟩ := shape
  obtain ⟨skipped, dead, n, tail, s', pass, runs, _, after⟩ := schedule_spec wf now
  refine ⟨s', ⟨trivial, _, runs _ (Nat.lt_succ_self _)⟩, ?_⟩
  rw [followed_iff wf pass]
  constructor
  · intro runnable
    by_cases own : n = head
    · subst own
      rw [pass.own_turn wf]
      exact (@WellFormed.idle_awake idle n s order reap now wf).1
    · have switched : s.threads ≠ some n := by
        rw [wf.current]
        exact fun same => own (Option.some.inj same).symm
      exact (runnable n after.current switched).1
  · intro ready m current _
    cases Option.some.inj (after.current.symm.trans current)
    exact ⟨ready, pass.stays⟩

/-- A thread other than the idle thread always gives up the processor. -/
theorem schedule_leaves {s' : Sched} {p : Ptr} (shape : RingState idle s) (current : s.threads = some p)
    (other : p ≠ idle) (step : Step idle s (.schedule true now) s') : s'.threads ≠ some p := by
  obtain ⟨head, order, reap, wf⟩ := shape
  cases Option.some.inj (wf.current.symm.trans current)
  obtain ⟨skipped, dead, n, tail, s₁, pass, runs, _, after⟩ := schedule_spec wf now
  have one : Step idle s (.schedule true now) s₁ := ⟨trivial, _, runs _ (Nat.lt_succ_self _)⟩
  cases step_deterministic one step
  rw [after.current]
  intro own
  cases Option.some.inj own
  exact other (pass.own_turn wf)

end Target

/-! Runs with a clock that never goes back. -/

def Event.Followed (s : Sched) : Event → Prop
  | .schedule preempt now => preempt = false ∨ Scheduler.Followed s now
  | _ => True

def Event.clock (now : Nat) : Event → Nat
  | .markSleep t _ => t
  | .schedule _ t => t
  | _ => now

inductive TimedRun (idle : Ptr) (t₀ : Nat) (s₀ : Sched) : Nat → Sched → Prop where
  | start : TimedRun idle t₀ s₀ t₀ s₀
  | step {now : Nat} {s s' : Sched} {e : Event} : TimedRun idle t₀ s₀ now s → now ≤ e.clock now →
      e.Followed s → Step idle s e s' → TimedRun idle t₀ s₀ (e.clock now) s'

/-- The running thread calls sys_sleep_ms(ms) at time t and loses the processor at time
now, be it in its own call of schedule() or in a timer interrupt just before. A thread
that is exiting makes no system call. -/
def SleepCall (idle p : Ptr) (t ms now : Nat) (s s' : Sched) : Prop :=
  s.threads = some p ∧ exiting s p = false ∧ t ≤ now ∧
    ∃ marked, Step idle s (.markSleep t ms) marked ∧ Step idle marked (.schedule true now) s'

/-- The thread is still as it fell asleep, or its time has come. -/
def Waits (p : Ptr) (wake clock : Nat) (s : Sched) : Prop :=
  wake ≤ clock ∨ (s.threads ≠ some p ∧
    ∃ state, state ≠ .reaping ∧ (s.heap p).map Thread.core = some (wake, state))

section Sleep

variable {idle p : Ptr} {s s' : Sched}

theorem sysSleepMs_sleepCall {fuel t ms : Nat} (current : s.threads = some p) (other : p ≠ idle)
    (alive : exiting s p = false) (result : sysSleepMs fuel true t ms s = some s') :
    SleepCall idle p t ms t s s' := by
  obtain ⟨c, isCurrent, result⟩ := Option.bind_eq_some_iff.mp result
  obtain ⟨u, here, result⟩ := Option.bind_eq_some_iff.mp result
  have enabled : s.threads ≠ some idle := by
    rw [current]
    exact fun same => other (Option.some.inj same)
  refine ⟨current, alive, le_rfl, s.put c { u with sleepAwakeTime := wadd t ms }, ⟨enabled, 0, ?_⟩,
    trivial, fuel, result⟩
  simp only [exec, Sched.mark, isCurrent, here, Option.bind_eq_bind, Option.bind_some]

/-- No step changes the awake time or the state of a thread that is neither running nor
exiting. -/
theorem step_core {e : Event} (shape : RingState idle s) (off : s.threads ≠ some p)
    (present : (s.heap p).isSome) (alive : exiting s p = false) (step : Step idle s e s') :
    (s'.heap p).map Thread.core = (s.heap p).map Thread.core := by
  obtain ⟨head, order, reap, wf⟩ := shape
  have notHead : p ≠ head := by
    rintro rfl
    exact off wf.current
  have marked : ∀ f : Thread → Thread, (∀ t, (f t).nextThread = t.nextThread) →
      s.threads ≠ some idle → s.mark f = some s' →
      (s'.heap p).map Thread.core = (s.heap p).map Thread.core := by
    intro f link other result
    obtain ⟨t, _, changed, _⟩ := mark_spec wf other f link
    cases Option.some.inj (changed.symm.trans result)
    simp [Sched.put, notHead]
  obtain ⟨enabled, fuel, result⟩ := step
  cases e with
  | create q fds stack pagemap =>
    obtain ⟨t, created, _, others, _⟩ := create_spec wf enabled fds stack pagemap
    cases Option.some.inj (created.symm.trans result)
    apply others
    rintro rfl
    have fresh : s.heap p = none := enabled
    rw [fresh] at present
    cases present
  | markSleep now ms =>
    exact marked (fun t => { t with sleepAwakeTime := wadd now ms }) (fun _ => rfl) enabled result
  | markExit =>
    exact marked (fun t => { t with threadState := .reaping }) (fun _ => rfl) enabled result
  | schedule preempt now =>
    cases preempt with
    | false => cases Option.some.inj result; rfl
    | true =>
      obtain ⟨_, _, _, _, s₁, _, runs, core, _⟩ := schedule_spec wf now
      have one : Step idle s (.schedule true now) s₁ := ⟨trivial, _, runs _ (Nat.lt_succ_self _)⟩
      cases step_deterministic one ⟨enabled, fuel, result⟩
      exact core p
  | reap =>
    obtain ⟨t, reaped, _, _, kept⟩ := reap_spec wf
    cases Option.some.inj (reaped.symm.trans result)
    rw [kept p]
    intro first
    rw [wf.dead p (List.mem_of_mem_head? first)] at alive
    cases alive

/-- Only schedule() changes the running thread. -/
theorem step_threads {e : Event} (shape : RingState idle s) (step : Step idle s e s')
    (changed : s'.threads ≠ s.threads) : ∃ now, e = .schedule true now := by
  obtain ⟨head, order, reap, wf⟩ := shape
  have marked : ∀ f : Thread → Thread, s.mark f = some s' → s'.threads = s.threads := by
    intro f result
    obtain ⟨c, _, result⟩ := Option.bind_eq_some_iff.mp result
    obtain ⟨u, _, result⟩ := Option.bind_eq_some_iff.mp result
    cases Option.some.inj result
    rfl
  obtain ⟨enabled, fuel, result⟩ := step
  cases e with
  | create q fds stack pagemap =>
    obtain ⟨t, created, after, _⟩ := create_spec wf enabled fds stack pagemap
    cases Option.some.inj (created.symm.trans result)
    exact absurd (after.current.trans wf.current.symm) changed
  | markSleep now ms => exact absurd (marked _ result) changed
  | markExit => exact absurd (marked _ result) changed
  | schedule preempt now =>
    cases preempt with
    | false => exact absurd (congrArg Sched.threads (Option.some.inj result).symm) changed
    | true => exact ⟨now, rfl⟩
  | reap =>
    obtain ⟨t, reaped, after, _⟩ := reap_spec wf
    cases Option.some.inj (reaped.symm.trans result)
    exact absurd (after.current.trans wf.current.symm) changed

theorem step_waits {e : Event} {wake clock : Nat} (shape : RingState idle s)
    (waits : Waits p wake clock s) (later : clock ≤ e.clock clock) (followed : e.Followed s)
    (step : Step idle s e s') : Waits p wake (e.clock clock) s' := by
  rcases waits with elapsed | ⟨off, state, alive, core⟩
  · exact .inl (elapsed.trans later)
  · have present : (s.heap p).isSome := by
      obtain ⟨t, here, _⟩ := Option.map_eq_some_iff.mp core
      exact Option.isSome_of_eq_some here
    have stays : exiting s p = false := by
      simp [exiting, core, alive]
    have kept := step_core shape off present stays step
    by_cases on : s'.threads = some p
    · obtain ⟨now, rfl⟩ := step_threads shape step (fun same => off (same ▸ on))
      obtain ⟨s₁, one, runnable⟩ := schedule_runnable_iff shape now
      cases step_deterministic one step
      have ready := (runnable.mpr (followed.resolve_left (by decide)) p on off).1
      have due : wake ≤ now := by
        simpa [asleep, core] using ready
      exact .inl due
    · exact .inr ⟨on, state, alive, kept.trans core⟩

theorem timedRun_waits {wake t₀ clock : Nat} {s₀ : Sched} (shape : RingState idle s₀)
    (waits : Waits p wake t₀ s₀) (run : TimedRun idle t₀ s₀ clock s) :
    RingState idle s ∧ Waits p wake clock s := by
  induction run with
  | start => exact ⟨shape, waits⟩
  | step _ later followed step ih =>
    exact ⟨step_ringState ih.1 step, step_waits ih.1 ih.2 later followed step⟩

theorem sleepCall_waits {t ms now : Nat} (shape : RingState idle s) (exact_sum : t + ms < 2 ^ 64)
    (call : SleepCall idle p t ms now s s') : RingState idle s' ∧ Waits p (t + ms) now s' := by
  obtain ⟨current, alive, _, m, mark, left⟩ := call
  have shape' := step_ringState shape mark
  have other : p ≠ idle := by
    rintro rfl
    exact mark.1 current
  obtain ⟨head, order, reap, wf⟩ := shape
  cases Option.some.inj (wf.current.symm.trans current)
  obtain ⟨u, here, marked, _⟩ := mark_spec wf mark.1
    (fun t' => { t' with sleepAwakeTime := wadd t ms }) (fun _ => rfl)
  have is : Step idle s (.markSleep t ms) (s.put p { u with sleepAwakeTime := wadd t ms }) :=
    ⟨mark.1, 0, marked⟩
  cases step_deterministic is mark
  have alive' : u.threadState ≠ .reaping := by
    simpa [exiting, here, Thread.core] using alive
  refine ⟨step_ringState shape' left, .inr ⟨schedule_leaves shape' current other left,
    u.threadState, alive', ?_⟩⟩
  obtain ⟨head', order', reap', wf'⟩ := shape'
  obtain ⟨_, _, _, _, s₁, _, runs, core, _⟩ := schedule_spec wf' now
  cases step_deterministic (show Step idle _ (.schedule true now) s₁ from
    ⟨trivial, _, runs _ (Nat.lt_succ_self _)⟩) left
  rw [core p]
  have sum : wadd t ms = t + ms := Nat.mod_eq_of_lt exact_sum
  simp [Sched.put, Thread.core, sum]

end Sleep

/-- In every reachable state the thread schedule() switches to is never exiting, and it is
awake exactly when the thread behind the exiting ones is; in a run where that holds at
every call, a sleeper runs again only once its time has come. -/
theorem switches_to_runnable {idle : Ptr} {s₀ s : Sched} (shape : RingState idle s₀)
    (reach : Reach idle (fun _ _ => True) s₀ s) :
    (∀ now, ∃ s', Step idle s (.schedule true now) s' ∧
      (SwitchesToRunnable s now s' ↔ Followed s now)) ∧
    (∀ p t ms now s₁, SleepCall idle p t ms now s s₁ → t + ms < 2 ^ 64 →
      ∀ clock s₂, TimedRun idle now s₁ clock s₂ → s₂.threads = some p → t + ms ≤ clock) := by
  have here := reach_ringState shape reach
  refine ⟨schedule_runnable_iff here, ?_⟩
  intro p t ms now s₁ call exact_sum clock s₂ run on
  obtain ⟨shape₁, waits₁⟩ := sleepCall_waits here exact_sum call
  rcases (timedRun_waits shape₁ waits₁ run).2 with elapsed | ⟨off, _⟩
  · exact elapsed
  · exact absurd on off

theorem switches_to_runnable_shell :
    ∃ s s₁, Reach 1 (fun _ _ => True) ringAtBoot s ∧ SleepCall 1 3 10 1000 10 s s₁ ∧
      ∀ clock s₂, TimedRun 1 10 s₁ clock s₂ → s₂.threads = some 3 → 10 + 1000 ≤ clock := by
  have before : (replay 1 8 [.schedule true 10] ringAtBoot).map (fun s => (s.threads, exiting s 3)) =
      some (some 3, false) := by
    decide +kernel
  have sleeps : ((replay 1 8 [.schedule true 10] ringAtBoot).bind
      (sysSleepMs 8 true 10 1000)).isSome = true := by
    decide +kernel
  obtain ⟨s, runs, shape⟩ := Option.map_eq_some_iff.mp before
  rw [runs, Option.bind_some] at sleeps
  obtain ⟨s₁, result⟩ := Option.isSome_iff_exists.mp sleeps
  obtain ⟨current, alive⟩ := Prod.mk.inj shape
  have reach := reach_of_replay (Reach.start) runs
  have call : SleepCall 1 3 10 1000 10 s s₁ := sysSleepMs_sleepCall current (by decide) alive result
  exact ⟨s, s₁, reach, call,
    (switches_to_runnable ringAtBoot_ringState reach).2 3 10 1000 10 s₁ call (by decide)⟩

/- The shell starts two threads. The one that stands further behind sleeps, the other
exits, and the ring is scheduled round to the shell. -/
def exitBeforeSleeper : List Event :=
  [.schedule true 10, .create 4 104 0x40000 none, .create 5 105 0x50000 none,
    .schedule true 10, .schedule true 10, .markSleep 10 1000, .schedule true 10, .schedule true 10,
    .schedule true 10, .schedule true 10, .markExit, .schedule true 10, .schedule true 10,
    .schedule true 10]

/-- The next call unlinks thread 5 and switches to thread 4, which sleeps until 1010. -/
theorem schedule_wakes_sleeper :
    ∃ s s', replay 1 8 exitBeforeSleeper ringAtBoot = some s ∧
      Reach 1 (fun _ _ => True) ringAtBoot s ∧ Step 1 s (.schedule true 20) s' ∧
      s.threads = some 3 ∧ s'.threads = some 4 ∧ asleep s 20 4 = true ∧
      (s.heap 4).map Thread.sleepAwakeTime = some 1010 := by
  have before : (replay 1 8 exitBeforeSleeper ringAtBoot).map (fun s =>
      (s.threads, asleep s 20 4, (s.heap 4).map Thread.sleepAwakeTime)) =
      some (some 3, true, some 1010) := by
    decide +kernel
  have after : ((replay 1 8 exitBeforeSleeper ringAtBoot).bind (schedule 8 true 20)).map
      Sched.threads = some (some 4) := by
    decide +kernel
  obtain ⟨s, runs, shape⟩ := Option.map_eq_some_iff.mp before
  rw [runs, Option.bind_some] at after
  obtain ⟨s', calls, current'⟩ := Option.map_eq_some_iff.mp after
  simp only [Prod.mk.injEq] at shape
  obtain ⟨current, sleeps, wake⟩ := shape
  exact ⟨s, s', runs, reach_of_replay .start runs, ⟨trivial, 8, calls⟩, current, current', sleeps, wake⟩

end EvalynOS.Scheduler
