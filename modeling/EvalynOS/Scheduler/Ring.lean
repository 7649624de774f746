import EvalynOS.Lib.Links
import EvalynOS.Scheduler.Scheduler

/-! One call of schedule() on a thread ring. The ring is read as a list that starts
at `threads`; the call cuts the sequence of its successors into the sleepers it
skips, the exiting threads it unlinks, and the thread it stops at. -/
namespace EvalynOS.Scheduler
open Lib Lib.Word

def Sched.next (s : Sched) (p : Ptr) : Option Ptr := (s.heap p).bind Thread.nextThread

/-- The fields eligibility depends on. -/
def Thread.core (t : Thread) : Nat × ThreadState := (t.sleepAwakeTime, t.threadState)

def asleep (s : Sched) (now : Nat) (p : Ptr) : Bool :=
  ((s.heap p).map Thread.core).any (fun core => now < core.1)

def exiting (s : Sched) (p : Ptr) : Bool :=
  ((s.heap p).map Thread.core).any (fun core => core.2 = .reaping)

def SameCore (s s' : Sched) : Prop :=
  ∀ p, (s'.heap p).map Thread.core = (s.heap p).map Thread.core

/-- A ring that starts at `threads` and holds the idle thread, beside a reap list. -/
structure WellFormed (idle : Ptr) (s : Sched) (head : Ptr) (ring reap : List Ptr) : Prop where
  current : s.threads = some head
  isRing : Ring s.next head ring
  isChain : Chain s.next s.threadsToReap reap
  nodup : (ring ++ reap).Nodup
  allocated : ∀ p ∈ ring ++ reap, ∃ t, s.heap p = some t
  dead : ∀ p ∈ reap, exiting s p = true
  idleMember : idle ∈ ring
  idleReady : ∃ t, s.heap idle = some t ∧ t.core = (0, .running)

theorem SameCore.trans {s s' s'' : Sched} (first : SameCore s s') (second : SameCore s' s'') :
    SameCore s s'' := fun p => (second p).trans (first p)

theorem SameCore.asleep {s s' : Sched} (same : SameCore s s') (now : Nat) (p : Ptr) :
    asleep s' now p = asleep s now p := by
  rw [Scheduler.asleep, same p, Scheduler.asleep]

theorem SameCore.exiting {s s' : Sched} (same : SameCore s s') (p : Ptr) :
    exiting s' p = exiting s p := by
  rw [Scheduler.exiting, same p, Scheduler.exiting]

theorem SameCore.allocated {s s' : Sched} (same : SameCore s s') {p : Ptr} {t : Thread}
    (before : s.heap p = some t) : ∃ t', s'.heap p = some t' ∧ t'.core = t.core := by
  have core := same p
  rw [before] at core
  exact Option.map_eq_some_iff.mp core

theorem SameCore.of_put {s : Sched} {p : Ptr} {t t' : Thread} (before : s.heap p = some t)
    (core : t'.core = t.core) : SameCore s (s.put p t') := by
  intro q
  by_cases same : q = p
  · subst same
    simp [Sched.put, before, core]
  · simp [Sched.put, same]

theorem next_eq {s : Sched} {p : Ptr} {t : Thread} (before : s.heap p = some t) :
    s.next p = t.nextThread := by
  simp [Sched.next, before]

theorem next_put (s : Sched) (p : Ptr) (t : Thread) (q : Ptr) :
    (s.put p t).next q = if q = p then t.nextThread else s.next q := by
  by_cases same : q = p
  · simp [Sched.next, Sched.put, same]
  · simp [Sched.next, Sched.put, same]

theorem next_put_same {s : Sched} {p : Ptr} {t t' : Thread} (before : s.heap p = some t)
    (link : t'.nextThread = t.nextThread) : (s.put p t').next = s.next := by
  funext q
  rw [next_put]
  split
  · rename_i same
    rw [same, next_eq before, link]
  · rfl

/-- Every list with an element outside `P` has a first one. -/
theorem first_outside {l : List Ptr} (P : Ptr → Bool) {x : Ptr} (member : x ∈ l)
    (outside : P x = false) :
    ∃ pre y post, l = pre ++ y :: post ∧ (∀ z ∈ pre, P z = true) ∧ P y = false := by
  induction l with
  | nil => cases member
  | cons a l ih =>
    cases inside : P a with
    | false => exact ⟨[], a, l, rfl, fun z none => absurd none List.not_mem_nil, inside⟩
    | true =>
      have later : x ∈ l := by
        rcases List.mem_cons.mp member with rfl | later
        · rw [inside] at outside
          cases outside
        · exact later
      obtain ⟨pre, y, post, rfl, all, stop⟩ := ih later
      refine ⟨a :: pre, y, post, rfl, ?_, stop⟩
      intro z listed
      rcases List.mem_cons.mp listed with rfl | old
      · exact inside
      · exact all z old

/-! The two loops. -/

theorem skipSleepers_eq {s : Sched} {now : Nat} {skipped : List Ptr} {first c : Ptr} {t : Thread}
    (path : Path s.next first skipped c) (allAsleep : ∀ p ∈ skipped, asleep s now p = true)
    (stop : s.heap c = some t) (awake : asleep s now c = false) {fuel : Nat}
    (enough : skipped.length < fuel) : skipSleepers s now fuel first = some c := by
  induction skipped generalizing first fuel with
  | nil =>
    obtain ⟨fuel, rfl⟩ := Nat.exists_eq_succ_of_ne_zero (Nat.ne_of_gt enough)
    have start : first = c := path
    subst start
    have ready : ¬ now < t.sleepAwakeTime := by
      simpa [asleep, stop, Thread.core] using awake
    simp [skipSleepers, stop, ready]
  | cons x skipped ih =>
    obtain ⟨fuel, rfl⟩ := Nat.exists_eq_succ_of_ne_zero (Nat.ne_of_gt (Nat.zero_lt_of_lt enough))
    obtain ⟨rfl, n, link, rest⟩ := path
    have sleeps := allAsleep first List.mem_cons_self
    obtain ⟨u, here, link⟩ := Option.bind_eq_some_iff.mp link
    have later : now < u.sleepAwakeTime := by
      simpa [asleep, here, Thread.core] using sleeps
    have tail := ih rest (fun p member => allAsleep p (List.mem_cons_of_mem _ member))
      (Nat.lt_of_succ_lt_succ enough)
    simp [skipSleepers, here, later, link, tail]

/-- What one unlinking does, in one equation. -/
theorem unlinkOne_eq {s : Sched} {previous toReap n : Ptr} {t u : Thread}
    (different : toReap ≠ previous) (here : s.heap toReap = some t) (link : t.nextThread = some n)
    (before : s.heap previous = some u) :
    unlinkOne s previous toReap = some
      ({ (s.put previous { u with nextThread := some n }).put toReap
          { t with nextThread := s.threadsToReap } with
        threads := some n, threadsToReap := some toReap }, n) := by
  cases list : s.threadsToReap with
  | none =>
    simp [unlinkOne, Sched.setNext, here, before, Sched.put, different, link, list]
  | some h =>
    simp [unlinkOne, Sched.setNext, here, before, Sched.put, different, link, list]
    funext q
    by_cases same : q = toReap
    · simp [same]
    · simp [same]

/-- The effect of the second loop on the links: the exiting threads are on the reap
list, latest first, and `previous` is linked to the thread the loop stopped at. -/
structure Unlinked (s s' : Sched) (previous : Ptr) (dead reap : List Ptr) (n : Ptr) : Prop where
  core : SameCore s s'
  current : s'.threads = some n
  chain : Chain s'.next s'.threadsToReap (dead.reverse ++ reap)
  others : ∀ q, q ∉ dead → q ≠ previous → s'.next q = s.next q
  previous : s'.next previous = if dead = [] then s.next previous else some n

theorem reapLoop_eq {dead : List Ptr} {s : Sched} {previous c n : Ptr} {reap : List Ptr} {t u : Thread}
    (path : Path s.next c dead n) (allExiting : ∀ p ∈ dead, exiting s p = true)
    (stop : s.heap n = some t) (stays : exiting s n = false) (nodup : (dead ++ reap).Nodup)
    (before : s.heap previous = some u) (outside : previous ∉ dead ++ reap)
    (start : s.threads = some c) (chain : Chain s.next s.threadsToReap reap) :
    ∃ s', (∀ fuel, dead.length < fuel → reapLoop previous fuel s c = some (s', n)) ∧
      Unlinked s s' previous dead reap n := by
  induction dead generalizing s c reap t u with
  | nil =>
    have same : c = n := path
    subst same
    refine ⟨s, ?_, fun p => rfl, start, chain, fun _ _ _ => rfl, (if_pos rfl).symm⟩
    intro fuel enough
    obtain ⟨fuel, rfl⟩ := Nat.exists_eq_succ_of_ne_zero (Nat.ne_of_gt enough)
    have alive : ¬ t.threadState = .reaping := by
      simpa [exiting, stop, Thread.core] using stays
    simp [reapLoop, stop, alive]
  | cons x dead ih =>
    obtain ⟨rfl, m, link, rest⟩ := path
    obtain ⟨v, here, link'⟩ := Option.bind_eq_some_iff.mp link
    have doomed : v.threadState = .reaping := by
      simpa [exiting, here, Thread.core] using allExiting c List.mem_cons_self
    have different : c ≠ previous := by
      rintro rfl
      exact outside List.mem_cons_self
    have unlink := unlinkOne_eq different here link' before
    generalize shape : { (s.put previous { u with nextThread := some m }).put c
        { v with nextThread := s.threadsToReap } with
      threads := some m, threadsToReap := some c : Sched } = s₁ at unlink
    have links : ∀ q, s₁.next q = if q = c then s.threadsToReap
        else if q = previous then some m else s.next q := by
      intro q
      rw [← shape]
      exact (next_put _ _ _ q).trans (by rw [next_put])
    have core : SameCore s s₁ := by
      have first : SameCore s (s.put previous { u with nextThread := some m }) :=
        SameCore.of_put before rfl
      have still : (s.put previous { u with nextThread := some m }).heap c = some v := by
        simp [Sched.put, different, here]
      have second : SameCore (s.put previous { u with nextThread := some m })
          ((s.put previous { u with nextThread := some m }).put c
            { v with nextThread := s.threadsToReap }) := SameCore.of_put still rfl
      rw [← shape]
      exact first.trans second
    obtain ⟨t₁, stop₁, _⟩ := core.allocated stop
    obtain ⟨u₁, before₁, _⟩ := core.allocated before
    have distinct := List.nodup_cons.mp nodup
    have agree : ∀ q ∈ dead ++ reap, s₁.next q = s.next q := by
      intro q member
      have notC : q ≠ c := by
        rintro rfl
        exact distinct.1 member
      have notPrevious : q ≠ previous := by
        rintro rfl
        exact outside (List.mem_cons_of_mem _ member)
      rw [links, if_neg notC, if_neg notPrevious]
    have chain₁ : Chain s₁.next s₁.threadsToReap (c :: reap) := by
      refine ⟨by rw [← shape], ?_⟩
      rw [links, if_pos rfl]
      exact chain.congr (fun q member => agree q (List.mem_append_right _ member))
    obtain ⟨s', runs, effect⟩ := ih
      (rest.congr (fun q member => agree q (List.mem_append_left _ member)))
      (fun p member => (core.exiting p).trans (allExiting p (List.mem_cons_of_mem _ member)))
      stop₁ ((core.exiting n).trans stays) (List.perm_middle.nodup_iff.mpr nodup) before₁
      (fun member => outside (List.perm_middle.mem_iff.mp member)) (by rw [← shape]) chain₁
    refine ⟨s', ?_, core.trans effect.core, effect.current, ?_, ?_, ?_⟩
    · intro fuel enough
      obtain ⟨fuel, rfl⟩ := Nat.exists_eq_succ_of_ne_zero (Nat.ne_of_gt (Nat.zero_lt_of_lt enough))
      have tail := runs fuel (Nat.lt_of_succ_lt_succ enough)
      simp [reapLoop, here, doomed, unlink, tail]
    · rw [List.reverse_cons, List.append_assoc]
      exact effect.chain
    · intro q notDead notPrevious
      obtain ⟨notC, notRest⟩ := not_or.mp (fun h => notDead (List.mem_cons.mpr h))
      rw [effect.others q notRest notPrevious, links, if_neg notC, if_neg notPrevious]
    · rw [effect.previous, links, if_neg different.symm, if_pos rfl, if_neg (List.cons_ne_nil _ _)]
      split
      · rename_i last
        subst last
        exact congrArg some rest
      · rfl

theorem switchTo_eq {s : Sched} {previous n : Ptr} {t u : Thread} (stop : s.heap n = some t)
    (before : s.heap previous = some u) :
    ∃ s', switchTo s previous n = some s' ∧ SameCore s s' ∧ s'.next = s.next ∧
      s'.threads = s.threads ∧ s'.threadsToReap = s.threadsToReap := by
  have result : switchTo s previous n = some { s.put previous (saveRegisters s.cpu u) with
      cpu := loadRegisters s.fredEnabled s.cpu n t } := by
    simp only [switchTo, stop, before, Option.bind_eq_bind, Option.bind_some]
  refine ⟨_, result, ?_, ?_, rfl, rfl⟩
  · apply SameCore.of_put before
    unfold saveRegisters
    split <;> rfl
  · apply next_put_same before
    unfold saveRegisters
    split <;> rfl

/-- How one call cuts the successors of `threads`, its own turn last. -/
structure Pass (s : Sched) (now : Nat) (successors skipped dead : List Ptr) (n : Ptr)
    (tail : List Ptr) : Prop where
  cut : successors = skipped ++ (dead ++ n :: tail)
  sleepers : ∀ p ∈ skipped, asleep s now p = true
  awake : ∀ c rest, dead ++ n :: tail = c :: rest → asleep s now c = false
  doomed : ∀ p ∈ dead, exiting s p = true
  stays : exiting s n = false

theorem pass_exists {s : Sched} {now : Nat} {successors : List Ptr} {idle : Ptr}
    (member : idle ∈ successors) (awake : asleep s now idle = false) (stays : exiting s idle = false) :
    ∃ skipped dead n tail, Pass s now successors skipped dead n tail := by
  obtain ⟨skipped, c, rest, rfl, sleepers, awakeC⟩ := first_outside (asleep s now) member awake
  have later : idle ∈ c :: rest := by
    rcases List.mem_append.mp member with early | later
    · rw [sleepers idle early] at awake
      cases awake
    · exact later
  obtain ⟨dead, n, tail, cut, doomed, staysN⟩ := first_outside (exiting s) later stays
  refine ⟨skipped, dead, n, tail, by rw [cut], sleepers, ?_, doomed, staysN⟩
  intro c' rest' same
  rw [← cut] at same
  rw [← (List.cons.inj same).1]
  exact awakeC

section Schedule

variable {idle head : Ptr} {s : Sched} {order reap : List Ptr} {now : Nat}

theorem WellFormed.idle_awake (wf : WellFormed idle s head (head :: order) reap) :
    asleep s now idle = false ∧ exiting s idle = false := by
  obtain ⟨t, here, core⟩ := wf.idleReady
  simp [asleep, exiting, here, core]

/-- A step that keeps the links, the lists' heads and the cores keeps the shape. -/
theorem WellFormed.of_same {ring : List Ptr} {s' : Sched} (wf : WellFormed idle s head ring reap)
    (core : SameCore s s') (links : s'.next = s.next) (threads : s'.threads = s.threads)
    (list : s'.threadsToReap = s.threadsToReap) : WellFormed idle s' head ring reap where
  current := threads.trans wf.current
  isRing := links ▸ wf.isRing
  isChain := links ▸ list ▸ wf.isChain
  nodup := wf.nodup
  allocated := fun p member => by
    obtain ⟨t, here⟩ := wf.allocated p member
    obtain ⟨t', there, _⟩ := core.allocated here
    exact ⟨t', there⟩
  dead := fun p member => (core.exiting p).trans (wf.dead p member)
  idleMember := wf.idleMember
  idleReady := by
    obtain ⟨t, here, ready⟩ := wf.idleReady
    obtain ⟨t', there, same⟩ := core.allocated here
    exact ⟨t', there, same.trans ready⟩

/-- The ring seen from the successor of its head. -/
theorem WellFormed.successors (wf : WellFormed idle s head (head :: order) reap) :
    ∃ first, s.next head = some first ∧ Ring s.next first (order ++ [head]) := by
  obtain ⟨_, first, link, rest⟩ := wf.isRing.path
  have perm : (order ++ [head]).Perm (head :: order) := List.perm_append_comm
  refine ⟨first, link, ?_, by simp, perm.nodup_iff.mpr wf.isRing.nodup⟩
  exact Path.append.mpr ⟨head, rest, rfl, first, link, rfl⟩

/-- The thread that calls schedule() has its own turn last, after the one chosen. -/
theorem cut_ends {skipped dead tail : List Ptr} {n : Ptr}
    (cut : order ++ [head] = skipped ++ (dead ++ n :: tail)) : ∃ init, n :: tail = init ++ [head] := by
  refine ⟨(n :: tail).dropLast, ?_⟩
  have ends : (n :: tail).getLast (List.cons_ne_nil _ _) = head := by
    have whole := congrArg List.getLast? cut
    rw [List.getLast?_concat, ← List.append_assoc, List.getLast?_append_of_ne_nil _ (by simp)] at whole
    exact Option.some.inj
      ((List.getLast?_eq_some_getLast (List.cons_ne_nil _ _)).symm.trans whole.symm)
  rw [← ends]
  exact (List.dropLast_append_getLast _).symm

/-- The links after a call that unlinked at least one thread close a smaller ring. -/
theorem ring_after {skipped dead tail : List Ptr} {first n : Ptr} {s' : Sched}
    (ring : Ring s.next first (order ++ [head]))
    (cut : order ++ [head] = skipped ++ (dead ++ n :: tail))
    (others : ∀ q, q ∉ dead → q ≠ head → s'.next q = s.next q)
    (link : s'.next head = some n) : Ring s'.next n (n :: tail) := by
  obtain ⟨init, shape⟩ := cut_ends cut
  have distinct := ring.nodup
  rw [cut] at distinct
  have path := ring.path
  rw [cut] at path
  obtain ⟨_, _, path⟩ := Path.append.mp path
  obtain ⟨m, _, path⟩ := Path.append.mp path
  have start : m = n := path.1
  subst start
  have kept : (m :: tail).Nodup := (distinct.of_append_right).of_append_right
  refine ⟨?_, List.cons_ne_nil _ _, kept⟩
  rw [shape] at path kept ⊢
  obtain ⟨h, before, atHead⟩ := Path.append.mp path
  have same : h = head := atHead.1
  subst same
  refine Path.append.mpr ⟨h, before.congr ?_, rfl, m, link, rfl⟩
  intro q member
  apply others
  · intro inDead
    have apart := (List.nodup_append.mp distinct.of_append_right).2.2
    exact apart q inDead q (by rw [shape]; exact List.mem_append_left _ member) rfl
  · rintro rfl
    exact (List.nodup_append.mp kept).2.2 q member q (List.mem_singleton.mpr rfl) rfl

/-- The two stops of a call: the first thread awake, and from there the first one
that is not exiting. -/
theorem Pass.stops {skipped dead tail : List Ptr} {first n : Ptr}
    (pass : Pass s now (order ++ [head]) skipped dead n tail)
    (ring : Ring s.next first (order ++ [head])) :
    ∃ c rest, dead ++ n :: tail = c :: rest ∧ Path s.next first skipped c ∧ Path s.next c dead n := by
  obtain ⟨c, rest, candidate⟩ : ∃ c rest, dead ++ n :: tail = c :: rest := by
    cases dead with
    | nil => exact ⟨n, tail, rfl⟩
    | cons x dead => exact ⟨x, dead ++ n :: tail, rfl⟩
  have path := ring.path
  rw [pass.cut] at path
  obtain ⟨m, toCandidate, fromCandidate⟩ := Path.append.mp path
  obtain ⟨k, toNext, fromNext⟩ := Path.append.mp fromCandidate
  have stop : k = n := fromNext.1
  have start : m = c := by
    rw [candidate] at fromCandidate
    exact fromCandidate.1
  exact ⟨c, rest, candidate, start ▸ toCandidate, start ▸ stop ▸ toNext⟩

/-- Both loops, for every amount of fuel above the length of the ring. -/
theorem schedule_loops (wf : WellFormed idle s head (head :: order) reap) {first : Ptr}
    (ring : Ring s.next first (order ++ [head])) {skipped dead tail : List Ptr} {n : Ptr}
    (pass : Pass s now (order ++ [head]) skipped dead n tail) :
    ∃ c s₁, (∀ fuel, order.length + 1 < fuel → skipSleepers s now fuel first = some c ∧
        reapLoop head fuel { s with threads := some c } c = some (s₁, n)) ∧
      Unlinked s s₁ head dead reap n := by
  have rotation : (order ++ [head]).Perm (head :: order) := List.perm_append_comm
  have allocated : ∀ p ∈ skipped ++ (dead ++ n :: tail), ∃ t, s.heap p = some t := by
    intro p member
    rw [← pass.cut] at member
    exact wf.allocated p (List.mem_append_left _ (rotation.mem_iff.mp member))
  have distinct : (skipped ++ (dead ++ n :: tail) ++ reap).Nodup := by
    rw [← pass.cut]
    exact (rotation.append_right reap).nodup_iff.mpr wf.nodup
  have lengths : skipped.length + (dead.length + (tail.length + 1)) = order.length + 1 := by
    simpa using (congrArg List.length pass.cut).symm
  obtain ⟨c, rest, candidate, toCandidate, toNext⟩ := pass.stops ring
  obtain ⟨tc, atCandidate⟩ := allocated c (by rw [candidate]; simp)
  obtain ⟨tn, atNext⟩ := allocated n (by simp)
  obtain ⟨th, atHead⟩ := wf.allocated head (by simp)
  obtain ⟨init, shape⟩ := cut_ends pass.cut
  have outside : head ∉ dead ++ reap := by
    have apart : (dead ++ (init ++ [head]) ++ reap).Nodup := by
      rw [← shape]
      exact (List.append_assoc skipped _ reap ▸ distinct).of_append_right
    intro member
    rcases List.mem_append.mp member with inDead | inReap
    · exact (List.nodup_append.mp apart.of_append_left).2.2 head inDead head (by simp) rfl
    · exact (List.nodup_append.mp apart).2.2 head (by simp) head inReap rfl
  have nodup : (dead ++ reap).Nodup := by
    have sub : (dead ++ reap).Sublist (skipped ++ (dead ++ n :: tail) ++ reap) :=
      List.Sublist.append (List.sublist_append_of_sublist_right (List.sublist_append_left dead _))
        (List.Sublist.refl reap)
    exact List.Nodup.sublist sub distinct
  obtain ⟨s₁, runs, effect⟩ := reapLoop_eq (s := { s with threads := some c }) toNext pass.doomed atNext
    pass.stays nodup atHead outside rfl wf.isChain
  refine ⟨c, s₁, fun fuel enough => ⟨?_, runs fuel (by omega)⟩, effect.core, effect.current,
    effect.chain, effect.others, effect.previous⟩
  exact skipSleepers_eq toCandidate pass.sleepers atCandidate (pass.awake c rest candidate) (by omega)

/-- The ring a call leaves, from the thread it switches to, and what it leaves out of
both the ring and the reap list: the skipped sleepers, if it unlinked anything. -/
def ringAfter (skipped dead : List Ptr) (n : Ptr) (tail : List Ptr) : List Ptr :=
  n :: (tail ++ if dead = [] then skipped else [])

def dropped (skipped dead : List Ptr) : List Ptr := if dead = [] then [] else skipped

theorem ringAfter_perm (skipped dead : List Ptr) (n : Ptr) (tail reap : List Ptr) :
    (skipped ++ (dead ++ n :: tail) ++ reap).Perm
      (dropped skipped dead ++ (ringAfter skipped dead n tail ++ (dead.reverse ++ reap))) := by
  unfold dropped ringAfter
  split
  · rename_i none
    subst none
    have swap : (skipped ++ n :: tail).Perm (n :: tail ++ skipped) := List.perm_append_comm
    exact swap.append_right reap
  · have swap : (dead ++ n :: tail).Perm (n :: tail ++ dead.reverse) :=
      List.perm_append_comm.trans ((List.reverse_perm dead).symm.append_left _)
    have whole := (swap.append_left skipped).append_right reap
    simpa only [List.append_nil, List.append_assoc] using whole

theorem unlinked_wellFormed (wf : WellFormed idle s head (head :: order) reap) {first : Ptr}
    (ring : Ring s.next first (order ++ [head])) {skipped dead tail : List Ptr} {n : Ptr}
    (pass : Pass s now (order ++ [head]) skipped dead n tail) {s' : Sched}
    (effect : Unlinked s s' head dead reap n) :
    WellFormed idle s' n (ringAfter skipped dead n tail) (dead.reverse ++ reap) := by
  have rotation : (order ++ [head]).Perm (head :: order) := List.perm_append_comm
  have ready := @WellFormed.idle_awake idle head s order reap now wf
  have parts : (head :: order ++ reap).Perm
      (dropped skipped dead ++ (ringAfter skipped dead n tail ++ (dead.reverse ++ reap))) := by
    refine (rotation.append_right reap).symm.trans ?_
    rw [pass.cut]
    exact ringAfter_perm skipped dead n tail reap
  have back : ∀ p ∈ ringAfter skipped dead n tail ++ (dead.reverse ++ reap), p ∈ head :: order ++ reap :=
    fun p member => parts.mem_iff.mpr (List.mem_append_right _ member)
  have nodup := (parts.nodup_iff.mp wf.nodup).of_append_right
  constructor
  · exact effect.current
  · cases dead with
    | nil =>
      have unchanged : s'.next = s.next := by
        funext q
        by_cases same : q = head
        · rw [same, effect.previous, if_pos rfl]
        · exact effect.others q List.not_mem_nil same
      rw [unchanged]
      have cut := pass.cut
      rw [List.nil_append] at cut
      rw [cut] at ring
      exact ring.rotate
    | cons x dead =>
      have link := effect.previous
      rw [if_neg (List.cons_ne_nil _ _)] at link
      simpa [ringAfter] using ring_after ring pass.cut effect.others link
  · exact effect.chain
  · exact nodup
  · intro p member
    obtain ⟨t, here⟩ := wf.allocated p (back p member)
    obtain ⟨t', there, _⟩ := effect.core.allocated here
    exact ⟨t', there⟩
  · intro p member
    rw [effect.core.exiting]
    rcases List.mem_append.mp member with fresh | old
    · exact pass.doomed p (List.mem_reverse.mp fresh)
    · exact wf.dead p old
  · have member := rotation.mem_iff.mpr wf.idleMember
    rw [pass.cut] at member
    have notDead : idle ∉ dead := by
      intro inDead
      rw [pass.doomed idle inDead] at ready
      exact Bool.noConfusion ready.2
    have notSkipped : idle ∉ skipped := by
      intro early
      rw [pass.sleepers idle early] at ready
      exact Bool.noConfusion ready.1
    have chosen : idle ∈ n :: tail := by
      rcases List.mem_append.mp member with early | later
      · exact absurd early notSkipped
      · exact (List.mem_append.mp later).resolve_left notDead
    exact List.mem_append_left _ chosen
  · obtain ⟨t, here, core⟩ := wf.idleReady
    obtain ⟨t', there, same⟩ := effect.core.allocated here
    exact ⟨t', there, same.trans core⟩

/-- Every call terminates on a ring with an idle thread; it cuts the ring as a pass
says and leaves a ring again. -/
theorem schedule_spec (wf : WellFormed idle s head (head :: order) reap) (now : Nat) :
    ∃ skipped dead n tail s', Pass s now (order ++ [head]) skipped dead n tail ∧
      (∀ fuel, order.length + 1 < fuel → schedule fuel true now s = some s') ∧ SameCore s s' ∧
      WellFormed idle s' n (ringAfter skipped dead n tail) (dead.reverse ++ reap) := by
  obtain ⟨first, link, ring⟩ := wf.successors
  have ready := @WellFormed.idle_awake idle head s order reap now wf
  have member : idle ∈ order ++ [head] := List.perm_append_comm.mem_iff.mp wf.idleMember
  obtain ⟨skipped, dead, n, tail, pass⟩ := pass_exists member ready.1 ready.2
  obtain ⟨c, s₁, loops, effect⟩ := schedule_loops wf ring pass
  have after := unlinked_wellFormed wf ring pass effect
  obtain ⟨th, atHead⟩ := wf.allocated head (by simp)
  have link' : th.nextThread = some first := (next_eq atHead).symm.trans link
  have loopsThen : ∀ fuel, order.length + 1 < fuel →
      schedule fuel true now s = if n = head then some s₁ else switchTo s₁ head n := by
    intro fuel enough
    obtain ⟨skips, reaps⟩ := loops fuel enough
    simp [schedule, wf.current, atHead, link', skips, reaps]
  refine ⟨skipped, dead, n, tail, ?_⟩
  by_cases same : n = head
  · refine ⟨s₁, pass, ?_, effect.core, after⟩
    intro fuel enough
    rw [loopsThen fuel enough, if_pos same]
  · obtain ⟨tn, atNext⟩ := after.allocated n (by simp [ringAfter])
    obtain ⟨th', atHead', _⟩ := effect.core.allocated atHead
    obtain ⟨s₂, switched, core, links, threads, list⟩ := switchTo_eq atNext atHead'
    refine ⟨s₂, pass, ?_, effect.core.trans core, ?_⟩
    · intro fuel enough
      rw [loopsThen fuel enough, if_neg same, switched]
    · exact after.of_same core links threads list

end Schedule

end EvalynOS.Scheduler
