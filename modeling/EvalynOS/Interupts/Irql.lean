import EvalynOS.Lib.Word

/-! The task-priority level of drivers/x86_64/irq.h and what dispatch_interupt and the
spinlocks do to it. The lock flags are left out: what is nested here is held by one
processor. -/
namespace EvalynOS.Interupts

def irqlPassive : Int := 0
def irqlDispatch : Int := 2

/- Why a run ends early: one of the two panics of irq.h, another panic of a handler, or
an interrupt that the processor would not deliver at this level. -/
inductive Stop where
  | raiseToLower
  | lowerToHigher
  | halted
  | masked
  deriving DecidableEq, Repr

/- The level before, and the level after. -/
def irqlRaise (irql level : Int) : Except Stop (Int × Int) :=
  if irql < level then .error .raiseToLower else .ok (level, irql)

def irqlLower (irql level : Int) : Except Stop Int :=
  if level < irql then .error .lowerToHigher else .ok irql

/- The stub behind an entry of the IDT pushes a vector of its own: the mouse has the stub of
the keyboard, and every vector without a stub has the one of 0x16. -/
def idtVector (vector : Nat) : Nat :=
  if vector = 0x2C then 0x21
  else if vector ∈ [0x01, 0x03, 0x08, 0x0D, 0x0E, 0x20, 0x21, 0x24, 0x27, 0x2F, 0xFF, 0xF0] then vector
  else 0x16

/- new_irql of dispatch_interupt. -/
def newIrql (vector : Nat) : Nat := (vector >>> 4) &&& 0xf

/- The handlers that come back. The two faults do when they are from a safe user function. -/
def handlerReturns (vector : Nat) (handled : Bool) : Bool :=
  if vector ∈ [0x01, 0x03, 0x20, 0x21, 0x2C, 0x24, 0xF0, 0x27, 0x2F, 0xFF] then true
  else if vector = 0x0D ∨ vector = 0x0E then handled
  else false

/- schedule(), which leaves at once when the debug stub holds the scheduler, and otherwise
drops the level it has saved. -/
def schedule (held : Bool) (level : Int) : Except Stop Int :=
  if held then .ok level
  else do
    let (_, level) ← irqlRaise irqlDispatch level
    irqlLower irqlPassive level

def Delivered (level : Int) (vector : Nat) : Prop := vector < 0x20 ∨ level < (vector / 16 : Nat)

instance (level : Int) (vector : Nat) : Decidable (Delivered level vector) :=
  inferInstanceAs (Decidable (_ ∨ _))

/-- A well-nested run: what comes between spinlock_lock and spinlock_unlock, or while an
interrupt is handled, and what comes after. Of an interrupt the run fixes the value of the
local that may be read unset, whether a fault is handled, whether irq_should_preempt is
set in the end, and whether the debug stub holds the scheduler. -/
inductive Run where
  | done
  | lock (body rest : Run)
  | interupt (vector : Nat) (unset : Int) (handled preempt held : Bool) (body rest : Run)
  deriving DecidableEq, Repr

/- A return of dispatch_interupt. -/
structure Return where
  entry : Int
  exit : Int
  scheduled : Bool
  deriving DecidableEq, Repr

/- The returns so far, and the level or the reason for the end. -/
structure Outcome where
  returns : List Return
  result : Except Stop Int
  deriving DecidableEq

def Outcome.andThen (outcome : Outcome) (next : Int → Outcome) : Outcome :=
  match outcome.result with
  | .error stop => ⟨outcome.returns, .error stop⟩
  | .ok level => ⟨outcome.returns ++ (next level).returns, (next level).result⟩

def step (result : Except Stop α) (next : α → Outcome) : Outcome :=
  match result with
  | .error stop => ⟨[], .error stop⟩
  | .ok a => next a

/- Up to the switch of dispatch_interupt: old_irql, and the level. -/
def enter (irql : Nat) (unset level : Int) : Except Stop (Int × Int) :=
  if irqlDispatch ≤ (irql : Int) then irqlRaise irql level else .ok (unset, level)

/- From the switch on: whether schedule() was called, and the level. -/
def leave (irql : Nat) (oldIrql : Int) (preempt held : Bool) (level : Int) : Except Stop (Bool × Int) :=
  if (irql : Int) ≤ irqlDispatch then do
    let level ← if preempt then schedule held level else .ok level
    let level ← irqlLower oldIrql level
    .ok (preempt, level)
  else .ok (false, level)

def exec : Run → Int → Outcome
  | .done, level => ⟨[], .ok level⟩
  | .lock body rest, level =>
    step (irqlRaise irqlDispatch level) fun (irqs, inner) =>
      (exec body inner).andThen fun inner => step (irqlLower irqs inner) (exec rest)
  | .interupt vector unset handled preempt held body rest, level =>
    if ¬ Delivered level vector then ⟨[], .error .masked⟩
    else
      let vector := idtVector vector
      let irql := newIrql vector
      step (enter irql unset level) fun (oldIrql, inner) =>
        (exec body inner).andThen fun inner =>
          if ¬ handlerReturns vector handled then ⟨[], .error .halted⟩
          else
            step (leave irql oldIrql preempt held inner) fun (scheduled, exit) =>
              Outcome.andThen ⟨[⟨level, exit, scheduled⟩], .ok exit⟩ (exec rest)

/-- Dispatches that do not call schedule() end at the level they began at, and neither
panic of irq.h is reached. -/
def Disciplined (outcome : Outcome) : Prop :=
  (∀ r ∈ outcome.returns, r.scheduled = false → r.exit = r.entry) ∧
    outcome.result ≠ .error .raiseToLower ∧ outcome.result ≠ .error .lowerToHigher

instance (outcome : Outcome) : Decidable (Disciplined outcome) :=
  inferInstanceAs (Decidable (_ ∧ _))

/- The two guards of dispatch_interupt agree on the vector, or its handler does not return. -/
def Guarded (vector : Nat) (handled : Bool) : Prop :=
  newIrql (idtVector vector) = 2 ∨ handlerReturns (idtVector vector) handled = false

instance (vector : Nat) (handled : Bool) : Decidable (Guarded vector handled) :=
  inferInstanceAs (Decidable (_ ∨ _))

def AllGuarded : Run → Prop
  | .done => True
  | .lock body rest => AllGuarded body ∧ AllGuarded rest
  | .interupt vector _ handled _ _ body rest => Guarded vector handled ∧ AllGuarded body ∧ AllGuarded rest

instance AllGuarded.decidable : (run : Run) → Decidable (AllGuarded run)
  | .done => isTrue trivial
  | .lock body rest =>
    have := decidable body
    have := decidable rest
    inferInstanceAs (Decidable (_ ∧ _))
  | .interupt _ _ _ _ _ body rest =>
    have := decidable body
    have := decidable rest
    inferInstanceAs (Decidable (_ ∧ _ ∧ _))

/- The levels that occur where the guards agree. -/
def Settled (level : Int) : Prop := level = irqlPassive ∨ level = irqlDispatch

/- What runs from a settled level comes back to it. -/
def Balanced (level : Int) (outcome : Outcome) : Prop :=
  Disciplined outcome ∧ ∀ last, outcome.result = .ok last → last = level

theorem balanced_done (level : Int) : Balanced level ⟨[], .ok level⟩ := by
  simp [Balanced, Disciplined]

theorem balanced_error {stop : Stop} (level : Int) (raise : stop ≠ .raiseToLower)
    (lower : stop ≠ .lowerToHigher) : Balanced level ⟨[], .error stop⟩ := by
  simp [Balanced, Disciplined, raise, lower]

theorem balanced_return (scheduled : Bool) :
    Balanced irqlPassive ⟨[⟨irqlPassive, irqlPassive, scheduled⟩], .ok irqlPassive⟩ := by
  simp [Balanced, Disciplined]

/- A part that keeps its own level is followed by what runs from that level. -/
theorem Balanced.andThen {inner level : Int} {outcome : Outcome} {next : Int → Outcome}
    (first : Balanced inner outcome) (second : Balanced level (next inner)) :
    Balanced level (outcome.andThen next) := by
  obtain ⟨⟨returns, raise, lower⟩, last⟩ := first
  obtain ⟨⟨returns', raise', lower'⟩, last'⟩ := second
  cases result : outcome.result with
  | error stop =>
    rw [result] at raise lower
    simp only [Outcome.andThen, result]
    exact ⟨⟨returns, raise, lower⟩, by simp⟩
  | ok reached =>
    cases last reached result
    simp only [Outcome.andThen, result]
    refine ⟨⟨?_, raise', lower'⟩, last'⟩
    intro r member
    rcases List.mem_append.mp member with before | after
    · exact returns r before
    · exact returns' r after

theorem irqlRaise_dispatch {level : Int} (settled : Settled level) :
    irqlRaise irqlDispatch level = .ok (level, irqlDispatch) := by
  rcases settled with rfl | rfl <;> rfl

theorem irqlLower_settled {level : Int} (settled : Settled level) :
    irqlLower level irqlDispatch = .ok level := by
  rcases settled with rfl | rfl <;> rfl

theorem enter_guarded {level unset : Int} (settled : Settled level) :
    enter 2 unset level = .ok (level, irqlDispatch) :=
  irqlRaise_dispatch settled

/- An interrupt of class 2 comes at level 0 only, so that schedule() leaves the level where
irql_lower expects it. -/
theorem leave_guarded (preempt held : Bool) :
    leave 2 irqlPassive preempt held irqlDispatch = .ok (preempt, irqlPassive) := by
  cases preempt <;> cases held <;> rfl

/- The vectors of the stubs. -/
def installed : List Nat :=
  [0x01, 0x03, 0x08, 0x0D, 0x0E, 0x20, 0x21, 0x24, 0x27, 0x2F, 0xFF, 0xF0, 0x16]

theorem idtVector_mem (vector : Nat) : idtVector vector ∈ installed := by
  unfold idtVector
  split
  · decide
  · split
    case isTrue stub => exact List.mem_append_left [0x16] stub
    case isFalse => decide

theorem newIrql_hardware {vector : Nat} (dispatch : newIrql (idtVector vector) = 2) :
    0x20 ≤ vector ∧ vector < 0x30 := by
  unfold idtVector at dispatch
  split at dispatch
  case isTrue mouse => omega
  case isFalse =>
    split at dispatch
    case isTrue installed =>
      simp only [List.mem_cons, List.not_mem_nil, or_false] at installed
      rcases installed with rfl | rfl | rfl | rfl | rfl | rfl | rfl | rfl | rfl | rfl | rfl | rfl <;>
        revert dispatch <;> decide
    case isFalse => exact absurd dispatch (by decide)

/- Where the handler does not return the level is not touched. -/
theorem enter_fault {vector : Nat} {handled : Bool} {unset level : Int}
    (halts : handlerReturns (idtVector vector) handled = false) :
    enter (newIrql (idtVector vector)) unset level = .ok (unset, level) := by
  have fault : ∀ v ∈ installed, ∀ handled, handlerReturns v handled = false → newIrql v < 2 := by decide
  have low := fault _ (idtVector_mem vector) handled halts
  unfold enter irqlDispatch
  rw [if_neg (by omega)]

theorem class_of_returning {vector : Nat} {handled : Bool}
    (returns : handlerReturns (idtVector vector) handled = true) (other : newIrql (idtVector vector) ≠ 2) :
    newIrql (idtVector vector) = 0 ∨ newIrql (idtVector vector) = 15 := by
  have classes : ∀ v ∈ installed, ∀ handled,
      handlerReturns v handled = true → newIrql v ≠ 2 → newIrql v = 0 ∨ newIrql v = 15 := by decide
  exact classes _ (idtVector_mem vector) handled returns other

theorem passive_of_delivered {level : Int} {vector : Nat} (settled : Settled level)
    (delivered : Delivered level vector) (dispatch : newIrql (idtVector vector) = 2) :
    level = irqlPassive := by
  obtain ⟨low, high⟩ := newIrql_hardware dispatch
  rcases settled with passive | raised
  · exact passive
  · unfold Delivered at delivered
    unfold irqlDispatch at raised
    omega

theorem exec_balanced {run : Run} (guarded : AllGuarded run) {level : Int} (settled : Settled level) :
    Balanced level (exec run level) := by
  induction run generalizing level with
  | done => exact balanced_done level
  | lock body rest bodyHolds restHolds =>
    simp only [exec, irqlRaise_dispatch settled, step]
    refine (bodyHolds guarded.1 (Or.inr rfl)).andThen ?_
    simp only [irqlLower_settled settled]
    exact restHolds guarded.2 settled
  | interupt vector unset handled preempt held body rest bodyHolds restHolds =>
    obtain ⟨agree, bodyGuarded, restGuarded⟩ := guarded
    by_cases delivered : Delivered level vector
    case neg =>
      simp only [exec, delivered, not_false_eq_true, if_true]
      exact balanced_error level (by decide) (by decide)
    case pos =>
      simp only [exec, delivered, not_true_eq_false, if_false]
      rcases agree with dispatch | halts
      case inl =>
        cases passive_of_delivered settled delivered dispatch
        simp only [dispatch, enter_guarded settled, step]
        refine (bodyHolds bodyGuarded (Or.inr rfl)).andThen ?_
        split
        · exact balanced_error _ (by decide) (by decide)
        · simp only [leave_guarded]
          exact (balanced_return preempt).andThen (restHolds restGuarded settled)
      case inr =>
        simp only [enter_fault halts, step]
        refine (bodyHolds bodyGuarded settled).andThen ?_
        simp only [halts, Bool.false_eq_true, not_false_eq_true, if_true]
        exact balanced_error level (by decide) (by decide)

/-- Raise and lower of dispatch_interupt have different guards, and old_irql is set by the
first only. They agree on the class of the device interrupts; a returning dispatch of any
other vector keeps the level by accident at most. -/
theorem dispatchInterupt_disciplined (run : Run) {level : Int} (settled : Settled level) (vector : Nat)
    (handled : Bool) :
    (AllGuarded run → Disciplined (exec run level)) ∧
      ((∀ unset, Disciplined (exec (.interupt vector unset handled false false .done .done) irqlPassive)) ↔
        Guarded vector handled) := by
  constructor
  case left =>
    intro guarded
    exact (exec_balanced guarded settled).1
  case right =>
    constructor
    case mpr =>
      intro agree unset
      have guarded : AllGuarded (.interupt vector unset handled false false .done .done) :=
        ⟨agree, trivial, trivial⟩
      exact (exec_balanced guarded (Or.inl rfl)).1
    case mp =>
      intro disciplined
      by_contra guards
      obtain ⟨otherClass, returns⟩ := not_or.mp guards
      rw [Bool.not_eq_false] at returns
      have delivered : Delivered 0 vector := by
        unfold Delivered
        omega
      rcases class_of_returning returns otherClass with low | high
      case inl =>
        have panics := (disciplined 1).2.2
        simp [exec, delivered, returns, low, enter, leave, step, irqlLower, irqlDispatch, irqlPassive,
          Outcome.andThen, Bind.bind, Except.bind] at panics
      case inr =>
        have kept := (disciplined 0).1 ⟨irqlPassive, 15, false⟩
        simp [exec, delivered, returns, high, enter, leave, step, irqlRaise, irqlDispatch, irqlPassive,
          Outcome.andThen] at kept

theorem dispatchInterupt_timer :
    exec (.interupt 0x20 7 false true false (.lock .done .done) (.lock .done .done)) irqlPassive =
        ⟨[⟨irqlPassive, irqlPassive, true⟩], .ok irqlPassive⟩ ∧
      Disciplined (exec (.interupt 0x20 7 false true false (.lock .done .done) (.lock .done .done))
        irqlPassive) :=
  ⟨by decide, (dispatchInterupt_disciplined _ (Or.inl rfl) 0x20 false).1 (by decide)⟩

/- The high-priority serial vector leaves level 15 behind; a breakpoint, whose old_irql is
unset, panics. -/
theorem dispatchInterupt_undisciplined :
    ¬ Disciplined (exec (.interupt 0xF0 0 false false false .done .done) irqlPassive) ∧
      ¬ Disciplined (exec (.interupt 0x03 5 false false false .done .done) irqlPassive) := by
  decide

end EvalynOS.Interupts
