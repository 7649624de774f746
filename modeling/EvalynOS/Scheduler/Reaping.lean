import EvalynOS.Scheduler.Conservation

/-! The way of a thread from the ring over the reap list to the reaper. What the reaper has
taken off its list it may free at any later time, and only then can malloc hand out the
structure again; a thread is therefore known by its number and not by its address. -/
namespace EvalynOS.Scheduler
open Lib Lib.Word

/-- What create_thread gives to a thread for good. -/
def Thread.made (t : Thread) : Nat × PagemapRef × Ptr × Nat := (t.threadId, t.pagemap, t.fds, t.stack)

def Sched.made (s : Sched) (p : Ptr) : Option (Nat × PagemapRef × Ptr × Nat) := (s.heap p).map Thread.made

/- No thread comes, goes or is made anew. -/
structure SameMade (s s' : Sched) : Prop where
  made : ∀ p, s'.made p = s.made p
  count : s'.nextThreadId = s.nextThreadId

theorem SameMade.refl (s : Sched) : SameMade s s := ⟨fun _ => rfl, rfl⟩

theorem SameMade.trans {s s' s'' : Sched} (first : SameMade s s') (second : SameMade s' s'') : SameMade s s'' :=
  ⟨fun p => (second.made p).trans (first.made p), second.count.trans first.count⟩

theorem SameMade.put {s : Sched} {p : Ptr} {t t' : Thread} (before : s.heap p = some t)
    (made : t'.made = t.made) : SameMade s (s.put p t') := by
  refine ⟨?_, rfl⟩
  intro q
  by_cases same : q = p
  · simp [Sched.made, Sched.put, same, before, made]
  · simp [Sched.made, Sched.put, same]

theorem setNext_made {s s' : Sched} {p : Ptr} {n : Option Ptr} (result : s.setNext p n = some s') :
    SameMade s s' := by
  obtain ⟨t, here, result⟩ := Option.bind_eq_some_iff.mp result
  cases Option.some.inj result
  exact .put here rfl

theorem mark_made {s s' : Sched} {f : Thread → Thread} (kept : ∀ t, (f t).made = t.made)
    (result : s.mark f = some s') : SameMade s s' := by
  obtain ⟨current, -, result⟩ := Option.bind_eq_some_iff.mp result
  obtain ⟨t, here, result⟩ := Option.bind_eq_some_iff.mp result
  cases Option.some.inj result
  exact .put here (kept t)

theorem unlinkOne_made {s : Sched} {previous toReap : Ptr} {r : Sched × Ptr}
    (result : unlinkOne s previous toReap = some r) : SameMade s r.1 := by
  obtain ⟨t, -, result⟩ := Option.bind_eq_some_iff.mp result
  obtain ⟨s₁, first, result⟩ := Option.bind_eq_some_iff.mp result
  obtain ⟨t₁, -, result⟩ := Option.bind_eq_some_iff.mp result
  obtain ⟨s₂, second, result⟩ := Option.bind_eq_some_iff.mp result
  have cut : SameMade s s₂ := (setNext_made first).trans ⟨(setNext_made second).made, (setNext_made second).count⟩
  dsimp only at result
  split at result
  · obtain ⟨s₃, pushed, result⟩ := Option.bind_eq_some_iff.mp result
    obtain ⟨next, -, result⟩ := Option.bind_eq_some_iff.mp result
    cases Option.some.inj pushed
    cases Option.some.inj result
    exact ⟨cut.made, cut.count⟩
  · obtain ⟨s₃, linked, result⟩ := Option.bind_eq_some_iff.mp result
    obtain ⟨s₄, pushed, result⟩ := Option.bind_eq_some_iff.mp result
    obtain ⟨next, -, result⟩ := Option.bind_eq_some_iff.mp result
    cases Option.some.inj pushed
    cases Option.some.inj result
    have last := cut.trans (setNext_made linked)
    exact ⟨last.made, last.count⟩

theorem reapLoop_made {previous : Ptr} {fuel : Nat} {s : Sched} {p : Ptr} {r : Sched × Ptr}
    (result : reapLoop previous fuel s p = some r) : SameMade s r.1 := by
  induction fuel generalizing s p with
  | zero => cases result
  | succ fuel ih =>
    obtain ⟨t, -, result⟩ := Option.bind_eq_some_iff.mp result
    split at result
    · obtain ⟨r₁, unlinked, result⟩ := Option.bind_eq_some_iff.mp result
      exact (unlinkOne_made unlinked).trans (ih result)
    · cases Option.some.inj result
      exact .refl s

theorem switchTo_made {s s' : Sched} {previous next : Ptr} (result : switchTo s previous next = some s') :
    SameMade s s' := by
  obtain ⟨n, -, result⟩ := Option.bind_eq_some_iff.mp result
  obtain ⟨t, here, result⟩ := Option.bind_eq_some_iff.mp result
  cases Option.some.inj result
  have saved : (saveRegisters s.cpu t).made = t.made := by
    unfold saveRegisters
    split <;> rfl
  exact ⟨(SameMade.put here saved).made, rfl⟩

theorem schedule_made {fuel : Nat} {preempt : Bool} {now : Nat} {s s' : Sched}
    (result : schedule fuel preempt now s = some s') : SameMade s s' := by
  unfold schedule at result
  split at result
  · cases Option.some.inj result
    exact .refl s
  · obtain ⟨previous, -, result⟩ := Option.bind_eq_some_iff.mp result
    obtain ⟨t, -, result⟩ := Option.bind_eq_some_iff.mp result
    obtain ⟨first, -, result⟩ := Option.bind_eq_some_iff.mp result
    obtain ⟨candidate, -, result⟩ := Option.bind_eq_some_iff.mp result
    obtain ⟨⟨s₁, next⟩, loop, result⟩ := Option.bind_eq_some_iff.mp result
    have unlinked := reapLoop_made loop
    have cut : SameMade s s₁ := ⟨unlinked.made, unlinked.count⟩
    dsimp only at result
    split at result
    · cases Option.some.inj result
      exact cut
    · exact cut.trans (switchTo_made result)

theorem sysExit_made {fuel : Nat} {preempt : Bool} {now : Nat} {s s' : Sched}
    (result : sysExit fuel preempt now s = some s') : SameMade s s' := by
  obtain ⟨current, -, result⟩ := Option.bind_eq_some_iff.mp result
  obtain ⟨t, here, result⟩ := Option.bind_eq_some_iff.mp result
  have marked : SameMade s (s.put current { t with threadState := .reaping }) := .put here rfl
  exact marked.trans (schedule_made result)

theorem getNextThreadToReap_made {s s' : Sched} {popped : Option Ptr}
    (result : getNextThreadToReap s = some (popped, s')) : SameMade s s' := by
  unfold getNextThreadToReap at result
  split at result
  · cases Option.some.inj result
    exact .refl s
  · obtain ⟨t, -, result⟩ := Option.bind_eq_some_iff.mp result
    obtain ⟨s₁, cut, result⟩ := Option.bind_eq_some_iff.mp result
    cases Option.some.inj result
    have same := setNext_made cut
    exact ⟨same.made, same.count⟩

/- A new thread gets the next number. -/
theorem createThread_made {s s' : Sched} {p fds stack : Ptr} {pagemap : Option Ptr}
    (result : createThread s p fds stack pagemap = some s') :
    s'.made p = some (initThread s.nextThreadId fds stack pagemap).made ∧
      (∀ q, q ≠ p → s'.made q = s.made q) ∧ s'.nextThreadId = s.nextThreadId + 1 := by
  unfold createThread at result
  dsimp only at result
  split at result
  · cases Option.some.inj result
    refine ⟨by simp [Sched.made, Sched.put, Thread.made], ?_, rfl⟩
    intro q other
    simp [Sched.made, Sched.put, other]
  · rename_i head _
    obtain ⟨t, here, result⟩ := Option.bind_eq_some_iff.mp result
    have linked := setNext_made result
    refine ⟨?_, ?_, linked.count⟩
    · rw [linked.made]
      simp [Sched.made, Sched.put, Thread.made]
    · intro q other
      rw [linked.made]
      simp [Sched.made, Sched.put, other]

theorem setNext_core {s s' : Sched} {p : Ptr} {n : Option Ptr} (result : s.setNext p n = some s') :
    SameCore s s' := by
  obtain ⟨t, here, result⟩ := Option.bind_eq_some_iff.mp result
  cases Option.some.inj result
  exact .of_put here rfl

/-- A new thread does not exit, and no other thread begins to. -/
theorem createThread_exiting {s s' : Sched} {p fds stack q : Ptr} {pagemap : Option Ptr}
    (result : createThread s p fds stack pagemap = some s') (exits : exiting s' q = true) :
    q ≠ p ∧ exiting s q = true := by
  unfold createThread at result
  dsimp only at result
  split at result
  · cases Option.some.inj result
    by_cases isNew : q = p
    · simp [exiting, Sched.put, isNew, Thread.core, initThread] at exits
    · exact ⟨isNew, by simpa [exiting, Sched.put, isNew] using exits⟩
  · obtain ⟨t, here, result⟩ := Option.bind_eq_some_iff.mp result
    rw [(setNext_core result).exiting q] at exits
    by_cases isNew : q = p
    · simp [exiting, Sched.put, isNew, Thread.core, initThread] at exits
    · exact ⟨isNew, by simpa [exiting, Sched.put, isNew] using exits⟩

/-! Threads on the reaper's hands. -/

/- The scheduler, the threads that the reaper has taken and not freed, and the numbers of
all that it was ever given, the last first. -/
structure Reaper where
  sched : Sched
  taken : List Ptr
  returned : List Nat

inductive Action where
  | call (e : Event)
  | take
  | release (p : Ptr)

def Sched.number (s : Sched) (p : Ptr) : Option Nat := (s.heap p).map Thread.threadId

def Action.exec (fuel : Nat) (r : Reaper) : Action → Option Reaper
  | .call e => do
    let s ← Scheduler.exec fuel r.sched e
    some { r with sched := s }
  | .take => do
    let (popped, s) ← getNextThreadToReap r.sched
    match popped with
    | none => some { r with sched := s }
    | some p => do
      let number ← s.number p
      some ⟨s, p :: r.taken, number :: r.returned⟩
  | .release p =>
    some { r with
      sched := { r.sched with heap := fun q => if q = p then none else r.sched.heap q }
      taken := r.taken.erase p }

/- The reaper frees what it has taken. -/
def Action.Enabled (idle : Ptr) (r : Reaper) : Action → Prop
  | .call e => e ≠ .reap ∧ Scheduler.Enabled idle r.sched e
  | .take => True
  | .release p => p ∈ r.taken

instance (e : Event) : Decidable (e ≠ .reap) :=
  match e with
  | .reap => isFalse (fun different => different rfl)
  | .create _ _ _ _ => isTrue Event.noConfusion
  | .markSleep _ _ => isTrue Event.noConfusion
  | .markExit => isTrue Event.noConfusion
  | .schedule _ _ => isTrue Event.noConfusion

instance (idle : Ptr) (r : Reaper) (a : Action) : Decidable (a.Enabled idle r) :=
  match a with
  | .call _ => inferInstanceAs (Decidable (_ ∧ _))
  | .take => inferInstanceAs (Decidable True)
  | .release p => inferInstanceAs (Decidable (p ∈ r.taken))

def replayActions (idle : Ptr) (fuel : Nat) : List Action → Reaper → Option Reaper
  | [], r => some r
  | a :: actions, r => if a.Enabled idle r then (a.exec fuel r).bind (replayActions idle fuel actions) else none

inductive Reaped (idle : Ptr) (s₀ : Sched) : Reaper → Prop
  | start : Reaped idle s₀ ⟨s₀, [], []⟩
  | step {r r' : Reaper} {a : Action} {fuel : Nat} (before : Reaped idle s₀ r) (enabled : a.Enabled idle r)
      (result : a.exec fuel r = some r') : Reaped idle s₀ r'

theorem reaped_of_replay {idle : Ptr} {s₀ : Sched} {fuel : Nat} {actions : List Action} {r r' : Reaper}
    (before : Reaped idle s₀ r) (result : replayActions idle fuel actions r = some r') : Reaped idle s₀ r' := by
  induction actions generalizing r with
  | nil => exact Option.some.inj result ▸ before
  | cons a actions ih =>
    unfold replayActions at result
    split at result
    case isTrue enabled =>
      obtain ⟨next, done, rest⟩ := Option.bind_eq_some_iff.mp result
      exact ih (before.step enabled done) rest
    case isFalse => cases result

/- Numbers are given once, and a thread that was returned is in the reaper's hands only. -/
structure Custody (idle : Ptr) (r : Reaper) (head : Ptr) (ring reap : List Ptr) : Prop where
  shape : WellFormed idle r.sched head ring reap
  apart : ∀ p ∈ r.taken, p ∉ ring ++ reap
  distinct : r.taken.Nodup
  used : ∀ p ∈ r.taken, ∃ number ∈ r.returned, r.sched.number p = some number
  below : ∀ p number, r.sched.number p = some number → number < r.sched.nextThreadId
  unique : ∀ p q number, r.sched.number p = some number → r.sched.number q = some number → p = q
  known : ∀ number ∈ r.returned, number < r.sched.nextThreadId
  held : ∀ p number, r.sched.number p = some number → number ∈ r.returned → p ∈ r.taken
  once : r.returned.Nodup

section Steps
variable {idle head : Ptr} {s s' : Sched} {order ring reap : List Ptr}

theorem number_eq (s : Sched) (p : Ptr) : s.number p = (s.made p).map Prod.fst := by
  simp only [Sched.number, Sched.made, Option.map_map]
  rfl

theorem SameMade.number (same : SameMade s s') (p : Ptr) : s'.number p = s.number p := by
  rw [number_eq, number_eq, same.made p]

/-- get_next_thread_to_reap takes the first thread of the list. -/
theorem take_spec (wf : WellFormed idle s head ring reap) :
    ∃ s', getNextThreadToReap s = some (reap.head?, s') ∧ WellFormed idle s' head ring reap.tail ∧
      SameMade s s' ∧ SameCore s s' := by
  cases reap with
  | nil =>
    have empty : s.threadsToReap = none := wf.isChain
    exact ⟨s, by simp [getNextThreadToReap, empty], wf, .refl s, fun _ => rfl⟩
  | cons p reap =>
    obtain ⟨list, rest⟩ := wf.isChain
    obtain ⟨t, here⟩ := wf.allocated p (by simp)
    let popped : Sched := { s with threadsToReap := t.nextThread }.put p { t with nextThread := none }
    have result : getNextThreadToReap s = some (some p, popped) := by
      simp [getNextThreadToReap, list, here, Sched.setNext, popped]
    have outside : ∀ q ∈ ring ++ reap, q ≠ p := by
      rintro q member rfl
      have moved := List.perm_middle.nodup_iff.mp wf.nodup
      exact (List.nodup_cons.mp moved).1 member
    have core : SameCore s (s.put p { t with nextThread := none }) := .of_put here rfl
    refine ⟨popped, result, ?_, ?_, core⟩
    · refine @WellFormed.without idle s head ring [p] reap popped wf ?_ rfl ?_
      · intro q member
        simp [popped, Sched.put, outside q member]
      · rw [next_eq here] at rest
        exact rest
    · have kept : SameMade s (s.put p { t with nextThread := none }) := .put here rfl
      exact ⟨kept.made, kept.count⟩

/- A step that makes no thread and keeps the lists apart from what the reaper holds. -/
theorem Custody.same {r : Reaper} {head' : Ptr} {ring' reap' : List Ptr} (custody : Custody idle r head ring reap)
    (same : SameMade r.sched s') (shape : WellFormed idle s' head' ring' reap')
    (inside : ∀ p ∈ ring' ++ reap', p ∈ ring ++ reap) :
    Custody idle { r with sched := s' } head' ring' reap' where
  shape := shape
  apart p member listed := custody.apart p member (inside p listed)
  distinct := custody.distinct
  used p member := by
    obtain ⟨number, returned, there⟩ := custody.used p member
    exact ⟨number, returned, (same.number p).trans there⟩
  below p number there := by
    rw [same.count]
    exact custody.below p number ((same.number p).symm.trans there)
  unique p q number left right :=
    custody.unique p q number ((same.number p).symm.trans left) ((same.number q).symm.trans right)
  known number member := by
    rw [same.count]
    exact custody.known number member
  held p number there member := custody.held p number ((same.number p).symm.trans there) member
  once := custody.once

theorem Custody.create {r : Reaper} (custody : Custody idle r head (head :: order) reap) {p : Ptr}
    (fresh : r.sched.heap p = none) (fds stack : Ptr) (pagemap : Option Ptr) :
    ∃ s', createThread r.sched p fds stack pagemap = some s' ∧
      Custody idle { r with sched := s' } head (head :: p :: order) reap := by
  obtain ⟨s', created, shape, -⟩ := create_spec custody.shape fresh fds stack pagemap
  obtain ⟨madeNew, madeOld, count⟩ := createThread_made created
  have new : s'.number p = some r.sched.nextThreadId := by
    rw [number_eq, madeNew]
    rfl
  have old : ∀ q, q ≠ p → s'.number q = r.sched.number q := by
    intro q other
    rw [number_eq, number_eq, madeOld q other]
  have notTaken : p ∉ r.taken := by
    intro member
    obtain ⟨number, -, there⟩ := custody.used p member
    simp [Sched.number, fresh] at there
  have number_cases : ∀ q number, s'.number q = some number →
      (q = p ∧ number = r.sched.nextThreadId) ∨ (q ≠ p ∧ r.sched.number q = some number) := by
    intro q number there
    by_cases isNew : q = p
    · rw [isNew, new] at there
      exact .inl ⟨isNew, (Option.some.inj there).symm⟩
    · exact .inr ⟨isNew, (old q isNew).symm.trans there⟩
  refine ⟨s', created, shape, ?_, custody.distinct, ?_, ?_, ?_, ?_, ?_, custody.once⟩
  case refine_1 =>
    intro q member listed
    simp only [List.cons_append, List.mem_cons] at listed
    have before := custody.apart q member
    simp only [List.cons_append, List.mem_cons, not_or] at before
    rcases listed with isHead | isNew | rest
    · exact before.1 isHead
    · exact notTaken (isNew ▸ member)
    · exact before.2 rest
  case refine_2 =>
    intro q member
    obtain ⟨number, returned, there⟩ := custody.used q member
    have other : q ≠ p := fun same => notTaken (same ▸ member)
    exact ⟨number, returned, (old q other).trans there⟩
  case refine_3 =>
    intro q number there
    dsimp only
    rw [count]
    rcases number_cases q number there with ⟨-, rfl⟩ | ⟨-, before⟩
    · exact Nat.lt_succ_self _
    · exact Nat.lt_succ_of_lt (custody.below q number before)
  case refine_4 =>
    intro q q' number left right
    rcases number_cases q number left with ⟨rfl, rfl⟩ | ⟨-, before⟩
    · rcases number_cases q' _ right with ⟨rfl, -⟩ | ⟨-, before'⟩
      · rfl
      · exact absurd (custody.below q' _ before') (Nat.lt_irrefl _)
    · rcases number_cases q' number right with ⟨rfl, rfl⟩ | ⟨-, before'⟩
      · exact absurd (custody.below q _ before) (Nat.lt_irrefl _)
      · exact custody.unique q q' number before before'
  case refine_5 =>
    intro number member
    dsimp only
    rw [count]
    exact Nat.lt_succ_of_lt (custody.known number member)
  case refine_6 =>
    intro q number there member
    rcases number_cases q number there with ⟨-, rfl⟩ | ⟨-, before⟩
    · exact absurd (custody.known _ member) (Nat.lt_irrefl _)
    · exact custody.held q number before member

/- A thread is returned for the first time, since it was still on the list. -/
theorem Custody.take {r : Reaper} {p : Ptr} (custody : Custody idle r head ring (p :: reap)) {number : Nat}
    (same : SameMade r.sched s') (shape : WellFormed idle s' head ring reap)
    (numbered : s'.number p = some number) :
    Custody idle ⟨s', p :: r.taken, number :: r.returned⟩ head ring reap := by
  have listed : p ∈ ring ++ p :: reap := by simp
  have notTaken : p ∉ r.taken := fun member => custody.apart p member listed
  have first : number ∉ r.returned := by
    intro member
    exact notTaken (custody.held p number ((same.number p).symm.trans numbered) member)
  have kept := custody.same same shape (by
    intro q member
    rcases List.mem_append.mp member with inRing | inReap
    · exact List.mem_append_left _ inRing
    · exact List.mem_append_right _ (List.mem_cons_of_mem _ inReap))
  refine ⟨shape, ?_, List.nodup_cons.mpr ⟨notTaken, kept.distinct⟩, ?_, kept.below, kept.unique, ?_, ?_,
    List.nodup_cons.mpr ⟨first, kept.once⟩⟩
  case refine_1 =>
    intro q member
    rcases List.mem_cons.mp member with rfl | before
    · have moved := List.perm_middle.nodup_iff.mp custody.shape.nodup
      exact (List.nodup_cons.mp moved).1
    · exact kept.apart q before
  case refine_2 =>
    intro q member
    rcases List.mem_cons.mp member with rfl | before
    · exact ⟨number, List.mem_cons_self, numbered⟩
    · obtain ⟨other, returned, there⟩ := kept.used q before
      exact ⟨other, List.mem_cons_of_mem _ returned, there⟩
  case refine_3 =>
    intro other member
    rcases List.mem_cons.mp member with rfl | before
    · exact kept.below p other numbered
    · exact kept.known other before
  case refine_4 =>
    intro q other there member
    rcases List.mem_cons.mp member with rfl | before
    · rw [kept.unique q p other there numbered]
      exact List.mem_cons_self
    · exact List.mem_cons_of_mem _ (kept.held q other there before)

theorem Custody.release {r : Reaper} (custody : Custody idle r head ring reap) {p : Ptr} (held : p ∈ r.taken) :
    Custody idle { r with
      sched := { r.sched with heap := fun q => if q = p then none else r.sched.heap q }
      taken := r.taken.erase p } head ring reap := by
  have outside : ∀ q ∈ ring ++ reap, q ≠ p := by
    rintro q member rfl
    exact custody.apart q held member
  have numbers : ∀ q number,
      ({ r.sched with heap := fun q => if q = p then none else r.sched.heap q } : Sched).number q = some number →
        q ≠ p ∧ r.sched.number q = some number := by
    intro q number there
    by_cases freed : q = p
    · simp [Sched.number, freed] at there
    · exact ⟨freed, by simpa [Sched.number, freed] using there⟩
  refine ⟨?_, ?_, custody.distinct.erase p, ?_, ?_, ?_, custody.known, ?_, custody.once⟩
  case refine_1 =>
    refine @WellFormed.without idle r.sched head ring [] reap _ custody.shape ?_ rfl custody.shape.isChain
    intro q member
    exact if_neg (outside q member)
  case refine_2 =>
    intro q member
    exact custody.apart q (List.mem_of_mem_erase member)
  case refine_3 =>
    intro q member
    have other : q ≠ p := fun same => custody.distinct.not_mem_erase (same ▸ member)
    obtain ⟨number, returned, there⟩ := custody.used q (List.mem_of_mem_erase member)
    exact ⟨number, returned, by simpa [Sched.number, other] using there⟩
  case refine_4 =>
    intro q number there
    exact custody.below q number (numbers q number there).2
  case refine_5 =>
    intro q q' number left right
    exact custody.unique q q' number (numbers q number left).2 (numbers q' number right).2
  case refine_6 =>
    intro q number there member
    obtain ⟨other, before⟩ := numbers q number there
    exact (List.mem_erase_of_ne other).mpr (custody.held q number before member)

/- The call takes threads from the two lists and from nowhere else. -/
theorem Pass.listed {now : Nat} {skipped dead tail : List Ptr} {n : Ptr}
    (pass : Pass s now (order ++ [head]) skipped dead n tail) {p : Ptr}
    (member : p ∈ ringAfter skipped dead n tail ++ (dead.reverse ++ reap)) : p ∈ head :: order ++ reap := by
  have parts := ringAfter_perm skipped dead n tail reap
  rw [← pass.cut] at parts
  have rotation : (order ++ [head] ++ reap).Perm (head :: order ++ reap) :=
    List.perm_append_comm.append_right reap
  exact rotation.mem_iff.mp (parts.mem_iff.mpr (List.mem_append_right _ member))

/- The running thread comes last in the pass, behind the thread that it stops at. -/
theorem Pass.running_stays {now : Nat} {skipped dead tail : List Ptr} {n : Ptr}
    (pass : Pass s now (order ++ [head]) skipped dead n tail) (distinct : (head :: order).Nodup) :
    head ∉ dead := by
  intro member
  have whole : (skipped ++ (dead ++ n :: tail)).Nodup := by
    rw [← pass.cut]
    exact List.perm_append_comm.nodup_iff.mp distinct
  have last : (n :: tail).getLast (List.cons_ne_nil _ _) = head := by
    have ends := congrArg List.getLast? pass.cut
    rw [List.getLast?_append, ← List.append_assoc, List.getLast?_append] at ends
    simpa [List.getLast?_eq_some_getLast] using ends.symm
  have again : head ∈ n :: tail := last ▸ List.getLast_mem _
  exact (List.nodup_append.mp whole.of_append_right).2.2 head member head again rfl

/-- Numbers are given once, and what was returned is off both lists. -/
def Safe (idle : Ptr) (r : Reaper) : Prop :=
  ∃ head order reap, Custody idle r head (head :: order) reap

theorem Custody.safe {r : Reaper} (custody : Custody idle r head ring reap) : Safe idle r := by
  have path := custody.shape.isRing.path
  cases ring with
  | nil => exact absurd rfl custody.shape.isRing.nonempty
  | cons x order =>
    cases path.1
    exact ⟨head, order, reap, custody⟩

theorem exec_safe {r r' : Reaper} {a : Action} {fuel : Nat} (safe : Safe idle r) (enabled : a.Enabled idle r)
    (result : a.exec fuel r = some r') : Safe idle r' := by
  obtain ⟨head, order, reap, custody⟩ := safe
  cases a with
  | call e =>
    obtain ⟨notReap, allowed⟩ := enabled
    obtain ⟨s', called, result⟩ := Option.bind_eq_some_iff.mp result
    cases Option.some.inj result
    cases e with
    | create p fds stack pagemap =>
      obtain ⟨s₁, created, after⟩ := custody.create allowed fds stack pagemap
      cases Option.some.inj (created.symm.trans called)
      exact after.safe
    | markSleep now ms =>
      have same := mark_made (fun t => by rfl) called
      obtain ⟨t, -, marked, shape⟩ := mark_spec custody.shape allowed
        (fun t => { t with sleepAwakeTime := wadd now ms }) (fun _ => rfl)
      cases Option.some.inj (marked.symm.trans called)
      exact (custody.same same shape (fun p member => member)).safe
    | markExit =>
      have same := mark_made (fun t => by rfl) called
      obtain ⟨t, -, marked, shape⟩ := mark_spec custody.shape allowed
        (fun t => { t with threadState := .reaping }) (fun _ => rfl)
      cases Option.some.inj (marked.symm.trans called)
      exact (custody.same same shape (fun p member => member)).safe
    | schedule preempt now =>
      have same := schedule_made called
      cases preempt with
      | false =>
        cases Option.some.inj called
        exact custody.safe
      | true =>
        obtain ⟨_, _, _, _, s₁, pass, runs, -, shape⟩ := schedule_spec custody.shape now
        have one : Step idle r.sched (.schedule true now) s₁ := ⟨trivial, _, runs _ (Nat.lt_succ_self _)⟩
        cases step_deterministic one ⟨trivial, fuel, called⟩
        exact (custody.same same shape (fun p member => pass.listed member)).safe
    | reap => exact absurd rfl notReap
  | take =>
    obtain ⟨s', taken, shape, same, -⟩ := take_spec custody.shape
    obtain ⟨popped, popping, result⟩ := Option.bind_eq_some_iff.mp result
    cases Option.some.inj (taken.symm.trans popping)
    cases reap with
    | nil =>
      cases Option.some.inj result
      exact (custody.same same shape (fun p member => member)).safe
    | cons p reap =>
      obtain ⟨number, numbered, result⟩ := Option.bind_eq_some_iff.mp result
      cases Option.some.inj result
      exact (custody.take same shape numbered).safe
  | release p =>
    cases Option.some.inj result
    exact (custody.release enabled).safe

/- The actions that make no thread and free none. -/
def Action.quiet : Action → Bool
  | .call (.create _ _ _ _) => false
  | .release _ => false
  | _ => true

/-- Such an action keeps what threads are made of. Only the running thread can begin to exit,
and only threads that exit come into the hands of the reaper. -/
structure QuietStep (r r' : Reaper) (a : Action) : Prop where
  made : SameMade r.sched r'.sched
  exits : ∀ p, exiting r'.sched p = true → exiting r.sched p = true ∨
    (a = .call .markExit ∧ r.sched.threads = some p)
  takes : ∀ p ∈ r'.taken, p ∈ r.taken ∨ exiting r.sched p = true

theorem exec_quiet {r r' : Reaper} {a : Action} {fuel : Nat} (safe : Safe idle r) (enabled : a.Enabled idle r)
    (result : a.exec fuel r = some r') (quiet : a.quiet = true) : QuietStep r r' a := by
  obtain ⟨head, order, reap, custody⟩ := safe
  cases a with
  | call e =>
    obtain ⟨notReap, allowed⟩ := enabled
    obtain ⟨s', called, result⟩ := Option.bind_eq_some_iff.mp result
    cases Option.some.inj result
    cases e with
    | create p fds stack pagemap => cases quiet
    | markSleep now ms =>
      refine ⟨mark_made (fun t => by rfl) called, ?_, fun p member => .inl member⟩
      obtain ⟨t, here, marked, -⟩ := mark_spec custody.shape allowed
        (fun t => { t with sleepAwakeTime := wadd now ms }) (fun _ => rfl)
      cases Option.some.inj (marked.symm.trans called)
      intro p exits
      left
      by_cases isHead : p = head
      · simpa [exiting, Sched.put, Thread.core, isHead, here] using exits
      · simpa [exiting, Sched.put, Thread.core, isHead] using exits
    | markExit =>
      refine ⟨mark_made (fun t => by rfl) called, ?_, fun p member => .inl member⟩
      obtain ⟨t, here, marked, -⟩ := mark_spec custody.shape allowed
        (fun t => { t with threadState := .reaping }) (fun _ => rfl)
      cases Option.some.inj (marked.symm.trans called)
      intro p exits
      by_cases isHead : p = head
      · exact .inr ⟨rfl, isHead ▸ custody.shape.current⟩
      · left
        simpa [exiting, Sched.put, Thread.core, isHead] using exits
    | schedule preempt now =>
      refine ⟨schedule_made called, ?_, fun p member => .inl member⟩
      intro p exits
      left
      cases preempt with
      | false =>
        cases Option.some.inj called
        exact exits
      | true =>
        obtain ⟨_, _, _, _, s₁, pass, runs, core, -⟩ := schedule_spec custody.shape now
        have one : Step idle r.sched (.schedule true now) s₁ := ⟨trivial, _, runs _ (Nat.lt_succ_self _)⟩
        cases step_deterministic one ⟨trivial, fuel, called⟩
        exact (core.exiting p).symm.trans exits
    | reap => exact absurd rfl notReap
  | take =>
    obtain ⟨s', taken, -, same, core⟩ := take_spec custody.shape
    obtain ⟨popped, popping, result⟩ := Option.bind_eq_some_iff.mp result
    cases Option.some.inj (taken.symm.trans popping)
    cases reap with
    | nil =>
      cases Option.some.inj result
      exact ⟨same, fun p exits => .inl ((core.exiting p).symm.trans exits), fun p member => .inl member⟩
    | cons p reap =>
      obtain ⟨number, numbered, result⟩ := Option.bind_eq_some_iff.mp result
      cases Option.some.inj result
      refine ⟨same, fun q exits => .inl ((core.exiting q).symm.trans exits), ?_⟩
      intro q member
      rcases List.mem_cons.mp member with rfl | before
      · exact .inr (custody.shape.dead q List.mem_cons_self)
      · exact .inl before
  | release p => cases quiet

theorem reaped_safe {s₀ : Sched} {r : Reaper} (start : Safe idle ⟨s₀, [], []⟩) (reaped : Reaped idle s₀ r) :
    Safe idle r := by
  induction reaped with
  | start => exact start
  | step _ enabled result ih => exact exec_safe ih enabled result

end Steps

/- The three threads of kmain have the first three numbers. -/
theorem kmainThreads_safe {s₀ s : Sched} (empty : ∀ p, s₀.heap p = none) (noThreads : s₀.threads = none)
    (noReap : s₀.threadsToReap = none) {idle reaper shell : Ptr × Ptr × Ptr}
    (distinct : [idle.1, reaper.1, shell.1].Nodup) (boot : kmainThreads s₀ idle reaper shell = some s) :
    Safe idle.1 ⟨s, [], []⟩ := by
  simp only [List.nodup_cons, List.mem_cons, List.not_mem_nil, or_false, not_or] at distinct
  obtain ⟨⟨notReaper, notShell⟩, different, _⟩ := distinct
  obtain ⟨s₁, first, shape, frame⟩ := first_thread noThreads noReap idle.1 idle.2.1 idle.2.2
  obtain ⟨madeNew, -, count⟩ := createThread_made first
  have numbers : ∀ q number, s₁.number q = some number → q = idle.1 ∧ number = s₀.nextThreadId := by
    intro q number there
    by_cases isIdle : q = idle.1
    · rw [isIdle, number_eq, madeNew] at there
      exact ⟨isIdle, (Option.some.inj there).symm⟩
    · rw [Sched.number, frame q isIdle, empty q] at there
      cases there
  have start : Custody idle.1 ⟨s₁, [], []⟩ idle.1 [idle.1] [] := by
    refine ⟨shape, by simp, List.nodup_nil, by simp, ?_, ?_, by simp, by simp, List.nodup_nil⟩
    · intro q number there
      dsimp only
      rw [count, (numbers q number there).2]
      exact Nat.lt_succ_self _
    · intro q q' number left right
      rw [(numbers q number left).1, (numbers q' number right).1]
  obtain ⟨a, created, boot⟩ := Option.bind_eq_some_iff.mp boot
  cases Option.some.inj (first.symm.trans created)
  obtain ⟨s₂, created₂, boot⟩ := Option.bind_eq_some_iff.mp boot
  have fresh₁ : s₁.heap reaper.1 = none := (frame _ (Ne.symm notReaper)).trans (empty _)
  obtain ⟨_, second, custody₂⟩ := start.create fresh₁ reaper.2.1 reaper.2.2 none
  cases Option.some.inj (second.symm.trans created₂)
  have fresh₂ : s₂.heap shell.1 = none := by
    have made := (createThread_made second).2.1 shell.1 (Ne.symm different)
    rw [Sched.made, Sched.made, frame _ (Ne.symm notShell), empty] at made
    exact Option.map_eq_none_iff.mp made
  obtain ⟨_, third, custody₃⟩ := custody₂.create fresh₂ shell.2.1 shell.2.2 none
  cases Option.some.inj (third.symm.trans boot)
  exact custody₃.safe

/-- A thread that exits is unlinked by another thread's call of schedule(), is returned to
the reaper once, and never runs again. -/
theorem reaping_safe {s₀ s : Sched} (empty : ∀ p, s₀.heap p = none) (noThreads : s₀.threads = none)
    (noReap : s₀.threadsToReap = none) {idle reaper shell : Ptr × Ptr × Ptr}
    (distinct : [idle.1, reaper.1, shell.1].Nodup) (boot : kmainThreads s₀ idle reaper shell = some s)
    {r : Reaper} (reaped : Reaped idle.1 s r) :
    (∀ now, ∃ fuel s', schedule fuel true now r.sched = some s' ∧
        (∀ p, r.sched.threads = some p → p ∉ pushed r.sched s') ∧
        ∀ p number, s'.threads = some p → s'.number p = some number → number ∉ r.returned) ∧
      Disjoint (ringSet r.sched) (reapSet r.sched) ∧ r.returned.Nodup ∧
      ∀ p ∈ ringSet r.sched ∪ reapSet r.sched, ∀ number, r.sched.number p = some number →
        number ∉ r.returned := by
  have start := kmainThreads_safe empty noThreads noReap distinct boot
  obtain ⟨head, order, reap, custody⟩ := reaped_safe start reaped
  have shape := custody.shape
  refine ⟨?_, ?_, custody.once, ?_⟩
  case refine_1 =>
    intro now
    obtain ⟨skipped, dead, n, tail, s', pass, runs, -, after⟩ := schedule_spec shape now
    have called := runs _ (Nat.lt_succ_self _)
    have later := custody.same (schedule_made called) after (fun p member => pass.listed member)
    refine ⟨_, s', called, ?_, ?_⟩
    · intro p current pushes
      cases Option.some.inj (shape.current.symm.trans current)
      exact pass.running_stays shape.isRing.nodup ((mem_pushed shape after _).mp pushes)
    · intro p number selected numbered returned
      cases Option.some.inj (after.current.symm.trans selected)
      refine later.apart n (later.held n number numbered returned) ?_
      exact List.mem_append_left _ after.isRing.head_mem
  case refine_2 =>
    rw [Set.disjoint_left]
    intro p inRing inReap
    rw [shape.mem_ringSet] at inRing
    rw [shape.mem_reapSet] at inReap
    exact (List.nodup_append.mp shape.nodup).2.2 p inRing p inReap rfl
  case refine_3 =>
    intro p listed number numbered returned
    rw [Set.mem_union, shape.mem_ringSet, shape.mem_reapSet, ← List.mem_append] at listed
    exact custody.apart p (custody.held p number numbered returned) listed

/- The shell starts a thread that exits at once, and the reaper takes it. -/
def exitAndReap : List Action :=
  [.call (.schedule true 10), .call (.create 4 104 0x40000 none), .call (.schedule true 10), .call .markExit,
    .call (.schedule true 10), .call (.schedule true 10), .call (.schedule true 10), .call (.schedule true 10),
    .take]

theorem reaping_safe_exit :
    ∃ r, replayActions 1 8 exitAndReap ⟨ringAtBoot, [], []⟩ = some r ∧ r.returned = [3] ∧
      Disjoint (ringSet r.sched) (reapSet r.sched) := by
  have given : (replayActions 1 8 exitAndReap ⟨ringAtBoot, [], []⟩).map Reaper.returned = some [3] := by
    decide +kernel
  obtain ⟨r, runs, returned⟩ := Option.map_eq_some_iff.mp given
  obtain ⟨s, boot, -⟩ := @kmainThreads_ringState bootSched rfl rfl (1, 101, 0x10000)
    (2, 102, 0x20000) (3, 103, 0x30000) rfl rfl (by decide)
  have started : ringAtBoot = s := by
    rw [ringAtBoot, boot]
    rfl
  have reaped : Reaped 1 s r := reaped_of_replay .start (started ▸ runs)
  exact ⟨r, runs, returned, (reaping_safe (fun _ => rfl) rfl rfl (by decide) boot reaped).2.1⟩

end EvalynOS.Scheduler
