import EvalynOS.Scheduler.Ring

/-! Runs of the scheduler: any order of thread creation, sleeping, exiting, calls of
schedule() and reaping. A thread marks itself as sleeping or exiting in one step
and gives up the processor in another, so an interrupt may come between. -/
namespace EvalynOS.Scheduler
open Lib Lib.Word

inductive Event where
  | create (newThread fds stack : Ptr) (pagemap : Option Ptr)
  | markSleep (now ms : Nat)
  | markExit
  | schedule (preempt : Bool) (now : Nat)
  | reap

def Sched.mark (s : Sched) (f : Thread → Thread) : Option Sched := do
  let current ← getCurrentThread s
  let t ← s.heap current
  some (s.put current (f t))

def exec (fuel : Nat) (s : Sched) : Event → Option Sched
  | .create newThread fds stack pagemap => createThread s newThread fds stack pagemap
  | .markSleep now ms => s.mark (fun t => { t with sleepAwakeTime := wadd now ms })
  | .markExit => s.mark (fun t => { t with threadState := .reaping })
  | .schedule preempt now => schedule fuel preempt now s
  | .reap => reapOne s

/-- malloc hands out a structure that is not in use; the idle thread, whose body is a
loop around hlt, neither sleeps nor exits. -/
def Enabled (idle : Ptr) (s : Sched) : Event → Prop
  | .create newThread _ _ _ => s.heap newThread = none
  | .markSleep _ _ => s.threads ≠ some idle
  | .markExit => s.threads ≠ some idle
  | .schedule _ _ => True
  | .reap => True

instance (idle : Ptr) (s : Sched) (e : Event) : Decidable (Enabled idle s e) :=
  match e with
  | .create newThread _ _ _ => inferInstanceAs (Decidable (s.heap newThread = none))
  | .markSleep _ _ => inferInstanceAs (Decidable (s.threads ≠ some idle))
  | .markExit => inferInstanceAs (Decidable (s.threads ≠ some idle))
  | .schedule _ _ => inferInstanceAs (Decidable True)
  | .reap => inferInstanceAs (Decidable True)

/-- A step is an execution with some amount of fuel; more fuel changes nothing. -/
def Step (idle : Ptr) (s : Sched) (e : Event) (s' : Sched) : Prop :=
  Enabled idle s e ∧ ∃ fuel, exec fuel s e = some s'

inductive Reach (idle : Ptr) (allowed : Sched → Event → Prop) (s₀ : Sched) : Sched → Prop where
  | start : Reach idle allowed s₀ s₀
  | step {s s' : Sched} {e : Event} : Reach idle allowed s₀ s → allowed s e → Step idle s e s' →
      Reach idle allowed s₀ s'

/-- A circular list that contains the idle thread, which is ready, and apart from it
the list of threads to reap. -/
def RingState (idle : Ptr) (s : Sched) : Prop :=
  ∃ head order reap, WellFormed idle s head (head :: order) reap

theorem WellFormed.ringState {idle head : Ptr} {s : Sched} {ring reap : List Ptr}
    (wf : WellFormed idle s head ring reap) : RingState idle s := by
  have path := wf.isRing.path
  cases ring with
  | nil => exact absurd rfl wf.isRing.nonempty
  | cons x order =>
    cases path.1
    exact ⟨head, order, reap, wf⟩

/-! Determinism: the loops return the same for every sufficient amount of fuel. -/

theorem skipSleepers_mono {s : Sched} {now fuel : Nat} {p c : Ptr}
    (result : skipSleepers s now fuel p = some c) : skipSleepers s now (fuel + 1) p = some c := by
  induction fuel generalizing p with
  | zero => cases result
  | succ fuel ih =>
    unfold skipSleepers at result ⊢
    simp only [Option.bind_eq_bind, Option.bind_eq_some_iff] at result ⊢
    obtain ⟨t, here, result⟩ := result
    refine ⟨t, here, ?_⟩
    split
    · rename_i sleeps
      rw [if_pos sleeps] at result
      obtain ⟨n, link, result⟩ := Option.bind_eq_some_iff.mp result
      exact Option.bind_eq_some_iff.mpr ⟨n, link, ih result⟩
    · rename_i ready
      rwa [if_neg ready] at result

theorem reapLoop_mono {previous : Ptr} {fuel : Nat} {s : Sched} {p : Ptr} {r : Sched × Ptr}
    (result : reapLoop previous fuel s p = some r) : reapLoop previous (fuel + 1) s p = some r := by
  induction fuel generalizing s p with
  | zero => cases result
  | succ fuel ih =>
    unfold reapLoop at result ⊢
    simp only [Option.bind_eq_bind, Option.bind_eq_some_iff] at result ⊢
    obtain ⟨t, here, result⟩ := result
    refine ⟨t, here, ?_⟩
    split
    · rename_i doomed
      rw [if_pos doomed] at result
      obtain ⟨m, unlink, result⟩ := Option.bind_eq_some_iff.mp result
      exact Option.bind_eq_some_iff.mpr ⟨m, unlink, ih result⟩
    · rename_i stays
      rwa [if_neg stays] at result

theorem schedule_mono {fuel : Nat} {preempt : Bool} {now : Nat} {s s' : Sched}
    (result : schedule fuel preempt now s = some s') :
    schedule (fuel + 1) preempt now s = some s' := by
  unfold schedule at result ⊢
  split
  · rename_i held
    rwa [if_pos held] at result
  · rename_i free
    rw [if_neg free] at result
    simp only [Option.bind_eq_bind, Option.bind_eq_some_iff] at result ⊢
    obtain ⟨previous, threads, p, here, first, link, candidate, skips, r, reaps, rest⟩ := result
    exact ⟨previous, threads, p, here, first, link, candidate, skipSleepers_mono skips, r,
      reapLoop_mono reaps, rest⟩

theorem exec_mono {fuel : Nat} {s s' : Sched} {e : Event} (result : exec fuel s e = some s') (k : Nat) :
    exec (fuel + k) s e = some s' := by
  induction k with
  | zero => exact result
  | succ k ih =>
    cases e with
    | schedule preempt now => exact schedule_mono ih
    | _ => exact ih

theorem step_deterministic {idle : Ptr} {s a b : Sched} {e : Event} (left : Step idle s e a)
    (right : Step idle s e b) : a = b := by
  obtain ⟨_, f, resultF⟩ := left
  obtain ⟨_, g, resultG⟩ := right
  have more := exec_mono resultF g
  rw [Nat.add_comm, exec_mono resultG f] at more
  exact (Option.some.inj more).symm

/-! The shape is kept by every step. -/

section Steps

variable {idle : Ptr} {s : Sched}

theorem schedule_step (shape : RingState idle s) (now : Nat) :
    ∃ s', Step idle s (.schedule true now) s' ∧ RingState idle s' := by
  obtain ⟨head, order, reap, wf⟩ := shape
  obtain ⟨_, _, _, _, s', _, runs, _, after⟩ := schedule_spec wf now
  exact ⟨s', ⟨trivial, _, runs _ (Nat.lt_succ_self _)⟩, after.ringState⟩

/-- Marking the running thread changes no link. -/
theorem mark_spec {head : Ptr} {order reap : List Ptr} (wf : WellFormed idle s head (head :: order) reap)
    (other : s.threads ≠ some idle) (f : Thread → Thread)
    (link : ∀ t, (f t).nextThread = t.nextThread) :
    ∃ t, s.heap head = some t ∧ s.mark f = some (s.put head (f t)) ∧
      WellFormed idle (s.put head (f t)) head (head :: order) reap := by
  obtain ⟨t, here⟩ := wf.allocated head (by simp)
  have different : idle ≠ head := by
    rintro rfl
    exact other wf.current
  have links : (s.put head (f t)).next = s.next := next_put_same here (link t)
  refine ⟨t, here, by simp [Sched.mark, getCurrentThread, wf.current, here], ?_⟩
  constructor
  · exact wf.current
  · exact links ▸ wf.isRing
  · exact links ▸ wf.isChain
  · exact wf.nodup
  · intro p member
    by_cases same : p = head
    · exact ⟨f t, by simp [Sched.put, same]⟩
    · obtain ⟨u, there⟩ := wf.allocated p member
      exact ⟨u, by simp [Sched.put, same, there]⟩
  · intro p member
    have same : p ≠ head := by
      rintro rfl
      exact (List.nodup_append.mp wf.nodup).2.2 p (by simp) p member rfl
    have before := wf.dead p member
    simpa [exiting, Sched.put, same] using before
  · exact wf.idleMember
  · obtain ⟨u, there, ready⟩ := wf.idleReady
    exact ⟨u, by simp [Sched.put, different, there], ready⟩

/-- The new thread stands right behind the running one; nothing else moves. -/
theorem create_spec {head p : Ptr} {order reap : List Ptr}
    (wf : WellFormed idle s head (head :: order) reap) (fresh : s.heap p = none) (fds stack : Ptr)
    (pagemap : Option Ptr) :
    ∃ s', createThread s p fds stack pagemap = some s' ∧
      WellFormed idle s' head (head :: p :: order) reap ∧
      (∀ q, q ≠ p → (s'.heap q).map Thread.core = (s.heap q).map Thread.core) ∧
      (s'.heap p).map Thread.core = some (0, .running) := by
  obtain ⟨t, here⟩ := wf.allocated head (by simp)
  obtain ⟨_, first, link, rest⟩ := wf.isRing.path
  have link' : t.nextThread = some first := (next_eq here).symm.trans link
  have absent : p ∉ head :: order ++ reap := by
    intro member
    obtain ⟨u, there⟩ := wf.allocated p member
    rw [fresh] at there
    cases there
  have different : head ≠ p := by
    rintro rfl
    exact absent (by simp)
  let fields : Thread := { initThread s.nextThreadId fds stack pagemap with nextThread := some first }
  let s₁ : Sched := { s with nextThreadId := s.nextThreadId + 1 }
  have result : createThread s p fds stack pagemap =
      some ((s₁.put p fields).put head { t with nextThread := some p }) := by
    simp [createThread, Sched.setNext, wf.current, here, link', Sched.put, different, s₁, fields]
  have links : ∀ q, ((s₁.put p fields).put head { t with nextThread := some p }).next q =
      if q = head then some p else if q = p then some first else s.next q := by
    intro q
    rw [next_put, next_put]
    rfl
  have others : ∀ q ∈ order ++ reap, ((s₁.put p fields).put head { t with nextThread := some p }).next q =
      s.next q := by
    intro q member
    have notHead : q ≠ head := by
      rintro rfl
      exact (List.nodup_cons.mp wf.nodup).1 member
    have notNew : q ≠ p := by
      rintro rfl
      exact absent (List.mem_cons_of_mem _ member)
    rw [links, if_neg notHead, if_neg notNew]
  refine ⟨_, result, ?_, ?_, ?_⟩
  · constructor
    · exact wf.current
    · refine ⟨⟨rfl, p, ?_, rfl, first, ?_, ?_⟩, List.cons_ne_nil _ _, ?_⟩
      · rw [links, if_pos rfl]
      · rw [links, if_neg different.symm, if_pos rfl]
      · exact rest.congr (fun q member => others q (List.mem_append_left _ member))
      · have swap : (head :: p :: order).Perm (p :: head :: order) := List.Perm.swap _ _ _
        rw [swap.nodup_iff, List.nodup_cons]
        exact ⟨fun member => absent (List.mem_append_left _ member), wf.isRing.nodup⟩
    · exact wf.isChain.congr (fun q member => others q (List.mem_append_right _ member))
    · have swap : (head :: p :: order ++ reap).Perm (p :: (head :: order ++ reap)) := List.Perm.swap _ _ _
      rw [swap.nodup_iff, List.nodup_cons]
      exact ⟨absent, wf.nodup⟩
    · intro q member
      by_cases isHead : q = head
      · exact ⟨_, by simp [Sched.put, isHead]; rfl⟩
      · by_cases isNew : q = p
        · exact ⟨fields, by simp [Sched.put, isNew, different.symm]⟩
        · have old : q ∈ head :: order ++ reap := by
            rcases List.mem_cons.mp member with same | rest
            · exact absurd same isHead
            · rcases List.mem_cons.mp rest with same | rest
              · exact absurd same isNew
              · exact List.mem_cons_of_mem _ rest
          obtain ⟨u, there⟩ := wf.allocated q old
          exact ⟨u, by simp [Sched.put, isHead, isNew, s₁, there]⟩
    · intro q member
      have before := wf.dead q member
      have notHead : q ≠ head := by
        rintro rfl
        exact (List.nodup_cons.mp wf.nodup).1 (List.mem_append_right _ member)
      have notNew : q ≠ p := by
        rintro rfl
        exact absent (List.mem_append_right _ member)
      simpa [exiting, Sched.put, notHead, notNew, s₁] using before
    · have member := wf.idleMember
      rcases List.mem_cons.mp member with same | rest
      · exact same ▸ List.mem_cons_self
      · exact List.mem_cons_of_mem _ (List.mem_cons_of_mem _ rest)
    · obtain ⟨u, there, ready⟩ := wf.idleReady
      have notNew : idle ≠ p := by
        rintro rfl
        rw [fresh] at there
        cases there
      by_cases isHead : idle = head
      · have same : t = u := by
          rw [isHead, here] at there
          exact Option.some.inj there
        refine ⟨_, by simp [Sched.put, isHead]; rfl, ?_⟩
        rw [← ready, ← same]
        rfl
      · exact ⟨u, by simp [Sched.put, isHead, notNew, s₁, there], ready⟩
  · intro q notNew
    by_cases isHead : q = head
    · simp [Sched.put, isHead, here, Thread.core]
    · simp [Sched.put, isHead, notNew, s₁]
  · simp [Sched.put, different.symm, fields, Thread.core, initThread]

/-- Threads may go from the front of the reap list; what is left of the two lists must be as
it was. -/
theorem WellFormed.without {head : Ptr} {ring gone reap : List Ptr} {s' : Sched}
    (wf : WellFormed idle s head ring (gone ++ reap)) (frame : ∀ q ∈ ring ++ reap, s'.heap q = s.heap q)
    (threads : s'.threads = s.threads) (list : Chain s.next s'.threadsToReap reap) :
    WellFormed idle s' head ring reap := by
  have links : ∀ q ∈ ring ++ reap, s'.next q = s.next q := by
    intro q member
    simp only [Sched.next, frame q member]
  have still : ∀ q ∈ ring ++ reap, q ∈ ring ++ (gone ++ reap) := by
    intro q member
    rcases List.mem_append.mp member with inRing | inReap
    · exact List.mem_append_left _ inRing
    · exact List.mem_append_right _ (List.mem_append_right _ inReap)
  constructor
  · exact threads.trans wf.current
  · exact wf.isRing.congr (fun q member => links q (List.mem_append_left _ member))
  · exact list.congr (fun q member => links q (List.mem_append_right _ member))
  · exact wf.nodup.sublist ((List.sublist_append_right gone reap).append_left ring)
  · intro q member
    obtain ⟨u, there⟩ := wf.allocated q (still q member)
    exact ⟨u, (frame q member).trans there⟩
  · intro q member
    have before := wf.dead q (List.mem_append_right _ member)
    rwa [exiting, ← frame q (List.mem_append_right _ member)] at before
  · exact wf.idleMember
  · obtain ⟨u, there, ready⟩ := wf.idleReady
    exact ⟨u, (frame idle (List.mem_append_left _ wf.idleMember)).trans there, ready⟩

/-- The reaper takes the first thread off its list and frees it. -/
theorem reap_spec {head : Ptr} {order reap : List Ptr}
    (wf : WellFormed idle s head (head :: order) reap) :
    ∃ s', reapOne s = some s' ∧ WellFormed idle s' head (head :: order) reap.tail ∧
      (∀ q, reap.head? = some q → s'.heap q = none) ∧
      (∀ q, reap.head? ≠ some q → s'.heap q = s.heap q) := by
  cases reap with
  | nil =>
    have empty : s.threadsToReap = none := wf.isChain
    refine ⟨s, by simp [reapOne, getNextThreadToReap, empty], wf, ?_, fun _ _ => rfl⟩
    intro q none
    cases none
  | cons p reap =>
    obtain ⟨list, rest⟩ := wf.isChain
    obtain ⟨t, here⟩ := wf.allocated p (by simp)
    let freed : Sched := { s with
      threadsToReap := t.nextThread, heap := fun q => if q = p then none else s.heap q }
    have result : reapOne s = some freed := by
      simp only [reapOne, getNextThreadToReap, list, here, Sched.setNext, Sched.put, freed,
        Option.bind_eq_bind, Option.bind_some]
      congr 2
      funext q
      by_cases same : q = p
      · simp [same]
      · simp [same]
    have outside : ∀ q ∈ head :: order ++ reap, q ≠ p := by
      rintro q member rfl
      have moved := List.perm_middle.nodup_iff.mp wf.nodup
      exact (List.nodup_cons.mp moved).1 member
    have frame : ∀ q, q ≠ p → freed.heap q = s.heap q := fun q other => if_neg other
    refine ⟨freed, result, ?_, ?_, ?_⟩
    · refine @WellFormed.without idle s head (head :: order) [p] reap freed wf ?_ rfl ?_
      · exact fun q member => frame q (outside q member)
      · rw [next_eq here] at rest
        exact rest
    · intro q first
      exact if_pos (Option.some.inj first).symm
    · exact fun q other => frame q (fun same => other (by rw [same]; rfl))

theorem step_ringState {s' : Sched} {e : Event} (shape : RingState idle s) (step : Step idle s e s') :
    RingState idle s' := by
  obtain ⟨head, order, reap, wf⟩ := shape
  obtain ⟨enabled, fuel, result⟩ := step
  cases e with
  | create p fds stack pagemap =>
    obtain ⟨t, created, after, _⟩ := create_spec wf enabled fds stack pagemap
    cases Option.some.inj (created.symm.trans result)
    exact after.ringState
  | markSleep now ms =>
    obtain ⟨t, _, marked, after⟩ := mark_spec wf enabled
      (fun t => { t with sleepAwakeTime := wadd now ms }) (fun _ => rfl)
    cases Option.some.inj (marked.symm.trans result)
    exact after.ringState
  | markExit =>
    obtain ⟨t, _, marked, after⟩ := mark_spec wf enabled
      (fun t => { t with threadState := .reaping }) (fun _ => rfl)
    cases Option.some.inj (marked.symm.trans result)
    exact after.ringState
  | schedule preempt now =>
    cases preempt with
    | false =>
      cases Option.some.inj result
      exact wf.ringState
    | true =>
      obtain ⟨s'', step, after⟩ := schedule_step wf.ringState now
      cases step_deterministic step ⟨enabled, fuel, result⟩
      exact after
  | reap =>
    obtain ⟨t, reaped, after, _⟩ := reap_spec wf
    cases Option.some.inj (reaped.symm.trans result)
    exact after.ringState

theorem reach_ringState {allowed : Sched → Event → Prop} {s₀ : Sched} (shape : RingState idle s₀)
    (reach : Reach idle allowed s₀ s) : RingState idle s := by
  induction reach with
  | start => exact shape
  | step _ _ step ih => exact step_ringState ih step

end Steps

/-! The ring kmain sets up, and runs given by a list of events. -/

/-- The end of kmain: the idle thread first, then the reaper and the shell. Each triple
is what malloc returned for the structure, the file table and the stack. -/
def kmainThreads (s : Sched) (idle reaper shell : Ptr × Ptr × Ptr) : Option Sched := do
  let s ← createThread s idle.1 idle.2.1 idle.2.2 none
  let s ← createThread s reaper.1 reaper.2.1 reaper.2.2 none
  createThread s shell.1 shell.2.1 shell.2.2 none

theorem first_thread {s : Sched} (noThreads : s.threads = none) (noReap : s.threadsToReap = none)
    (p fds stack : Ptr) :
    ∃ s', createThread s p fds stack none = some s' ∧ WellFormed p s' p [p] [] ∧
      ∀ q, q ≠ p → s'.heap q = s.heap q := by
  let fields : Thread := { initThread s.nextThreadId fds stack none with nextThread := some p }
  let s₁ : Sched := { s with nextThreadId := s.nextThreadId + 1 }
  refine ⟨{ s₁.put p fields with threads := some p }, by simp [createThread, noThreads, s₁, fields], ?_, ?_⟩
  · have here : ({ s₁.put p fields with threads := some p } : Sched).heap p = some fields := if_pos rfl
    constructor
    · rfl
    · exact ⟨⟨rfl, p, next_eq here, rfl⟩, List.cons_ne_nil _ _, List.nodup_singleton p⟩
    · exact noReap
    · exact List.nodup_singleton p
    · intro q member
      cases List.mem_singleton.mp member
      exact ⟨fields, here⟩
    · exact fun q none => absurd none List.not_mem_nil
    · exact List.mem_singleton.mpr rfl
    · exact ⟨fields, here, rfl⟩
  · intro q other
    exact if_neg other

theorem kmainThreads_ringState {s : Sched} (noThreads : s.threads = none)
    (noReap : s.threadsToReap = none) (idle reaper shell : Ptr × Ptr × Ptr)
    (freshReaper : s.heap reaper.1 = none) (freshShell : s.heap shell.1 = none)
    (distinct : [idle.1, reaper.1, shell.1].Nodup) :
    ∃ s', kmainThreads s idle reaper shell = some s' ∧ RingState idle.1 s' := by
  simp only [List.nodup_cons, List.mem_cons, List.not_mem_nil, or_false, not_or] at distinct
  obtain ⟨⟨notReaper, notShell⟩, different, _⟩ := distinct
  obtain ⟨s₁, first, wf₁, frame⟩ := first_thread noThreads noReap idle.1 idle.2.1 idle.2.2
  have absent₁ : s₁.heap reaper.1 = none := (frame _ (Ne.symm notReaper)).trans freshReaper
  obtain ⟨s₂, second, wf₂, others, _⟩ := create_spec wf₁ absent₁ reaper.2.1 reaper.2.2 none
  have absent₂ : s₂.heap shell.1 = none := by
    have core := others shell.1 (Ne.symm different)
    rw [frame _ (Ne.symm notShell), freshShell] at core
    exact Option.map_eq_none_iff.mp core
  obtain ⟨s₃, third, wf₃, _⟩ := create_spec wf₂ absent₂ shell.2.1 shell.2.2 none
  refine ⟨s₃, ?_, wf₃.ringState⟩
  simp only [kmainThreads, first, second, third, Option.bind_eq_bind, Option.bind_some]

def replay (idle : Ptr) (fuel : Nat) : List Event → Sched → Option Sched
  | [], s => some s
  | e :: events, s =>
    if Enabled idle s e then (exec fuel s e).bind (replay idle fuel events) else none

theorem reach_of_replay {idle : Ptr} {fuel : Nat} {events : List Event} {s₀ s s' : Sched}
    (reach : Reach idle (fun _ _ => True) s₀ s) (result : replay idle fuel events s = some s') :
    Reach idle (fun _ _ => True) s₀ s' := by
  induction events generalizing s with
  | nil => exact Option.some.inj result ▸ reach
  | cons e events ih =>
    unfold replay at result
    split at result
    · rename_i enabled
      obtain ⟨next, runs, rest⟩ := Option.bind_eq_some_iff.mp result
      exact ih (reach.step trivial ⟨enabled, fuel, runs⟩) rest
    · cases result

/- A processor that comes out of kmain, with 0x9000 as its stack pointer. -/
def bootSched : Sched where
  heap := fun _ => none
  threads := none
  threadsToReap := none
  nextThreadId := 0
  fredEnabled := false
  cpu := {
    cr3 := .kernel, tssRsp0 := 0, fredRsp0 := 0, fsbase := 0, fpu := 0, rsp := 0x9000
    currentThread := none }

end EvalynOS.Scheduler
