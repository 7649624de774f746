import EvalynOS.Lib.Word

/-! The thread ring of scheduler/scheduler.c and the reap list of
scheduler/workers/reaper.c. Threads live in a heap of structures linked by
next_thread; a dereference of NULL or of a freed structure is `none`, and so is a
loop that has used up its fuel. Each function runs under its spinlock and is one
atomic step. The words create_thread writes on the new stack are left out, as is
the file table behind `fds`. -/
namespace EvalynOS.Scheduler
open Lib.Word

abbrev Ptr := Nat

inductive ThreadState where
  | running
  | reaping
  | zombie
  deriving DecidableEq, Repr

inductive PagemapRef where
  | kernel
  | user (pagemap : Ptr)
  deriving DecidableEq, Repr

/- struct thread. -/
structure Thread where
  threadId : Nat
  stack : Nat
  stackTop : Nat
  krsp : Nat
  pagemap : PagemapRef
  heapPos : Nat
  nextFd : Nat
  fds : Ptr
  isUserTask : Bool
  sleepAwakeTime : Nat
  threadState : ThreadState
  nextThread : Option Ptr
  fsbase : Nat
  fpuState : Nat
  deriving DecidableEq, Repr

/- The registers schedule() saves and loads. -/
structure Cpu where
  cr3 : PagemapRef
  tssRsp0 : Nat
  fredRsp0 : Nat
  fsbase : Nat
  fpu : Nat
  rsp : Nat
  currentThread : Option Ptr
  deriving DecidableEq, Repr

structure Sched where
  heap : Ptr → Option Thread
  threads : Option Ptr
  threadsToReap : Option Ptr
  nextThreadId : Nat
  fredEnabled : Bool
  cpu : Cpu

def stackSize : Nat := 65536

def Sched.put (s : Sched) (p : Ptr) (t : Thread) : Sched :=
  { s with heap := fun q => if q = p then some t else s.heap q }

def Sched.setNext (s : Sched) (p : Ptr) (n : Option Ptr) : Option Sched := do
  let t ← s.heap p
  some (s.put p { t with nextThread := n })

/- The fields create_thread fills in before it takes the lock. -/
def initThread (threadId : Nat) (fds stack : Ptr) (pagemap : Option Ptr) : Thread :=
  let stackTop := wadd stack stackSize &&& (2 ^ 64 - 1 - 0xF3)
  { threadId := threadId
    stack := stack
    stackTop := stackTop
    krsp := wsub stackTop 80
    pagemap := match pagemap with
      | some pm => .user pm
      | none => .kernel
    heapPos := 0xB0000000
    nextFd := 11
    fds := fds
    isUserTask := pagemap.isSome
    sleepAwakeTime := 0
    threadState := .running
    nextThread := none
    fsbase := 0
    fpuState := 0 }

/-- create_thread. The three pointers are what malloc returned for the structure,
the file table and the stack. -/
def createThread (s : Sched) (newThread fds stack : Ptr) (pagemap : Option Ptr) : Option Sched :=
  let thread := initThread s.nextThreadId fds stack pagemap
  let s := { s with nextThreadId := s.nextThreadId + 1 }
  match s.threads with
  | none => some { s.put newThread { thread with nextThread := some newThread } with
      threads := some newThread }
  | some head => do
    let t ← s.heap head
    (s.put newThread { thread with nextThread := t.nextThread }).setNext head (some newThread)

/- The first loop of schedule(): walk past the threads that still sleep. -/
def skipSleepers (s : Sched) (now : Nat) : Nat → Ptr → Option Ptr
  | 0, _ => none
  | fuel + 1, p => do
    let t ← s.heap p
    if now < t.sleepAwakeTime then
      let n ← t.nextThread
      skipSleepers s now fuel n
    else some p

/- One round of the second loop: unlink the thread behind `previous` and push it. -/
def unlinkOne (s : Sched) (previous toReap : Ptr) : Option (Sched × Ptr) := do
  let t ← s.heap toReap
  let s ← s.setNext previous t.nextThread
  let t ← s.heap toReap
  let s := { s with threads := t.nextThread }
  let s ← s.setNext toReap none
  let s ← match s.threadsToReap with
    | none => some { s with threadsToReap := some toReap }
    | some _ => do
      let s' ← s.setNext toReap s.threadsToReap
      some { s' with threadsToReap := some toReap }
  let next ← s.threads
  some (s, next)

def reapLoop (previous : Ptr) : Nat → Sched → Ptr → Option (Sched × Ptr)
  | 0, _, _ => none
  | fuel + 1, s, next => do
    let t ← s.heap next
    if t.threadState = .reaping then
      let (s, next) ← unlinkOne s previous next
      reapLoop previous fuel s next
    else some (s, next)

/- The end of schedule(): the registers of one thread are saved, and those of the
other loaded. Only user threads have FPU state and an FS base of their own. -/
def saveRegisters (cpu : Cpu) (previous : Thread) : Thread :=
  let previous := if previous.isUserTask then
    { previous with fpuState := cpu.fpu, fsbase := cpu.fsbase } else previous
  { previous with krsp := cpu.rsp }

def loadRegisters (fredEnabled : Bool) (cpu : Cpu) (p : Ptr) (next : Thread) : Cpu :=
  let cpu := { cpu with cr3 := next.pagemap }
  let cpu := if fredEnabled then { cpu with fredRsp0 := next.stackTop } else cpu
  let cpu := { cpu with tssRsp0 := next.stackTop }
  let cpu := if next.isUserTask then { cpu with fpu := next.fpuState, fsbase := next.fsbase } else cpu
  { cpu with currentThread := some p, rsp := next.krsp }

def switchTo (s : Sched) (previous next : Ptr) : Option Sched := do
  let n ← s.heap next
  let p ← s.heap previous
  some { s.put previous (saveRegisters s.cpu p) with cpu := loadRegisters s.fredEnabled s.cpu next n }

/-- schedule(), with `preempt` false when the debug stub holds the scheduler. -/
def schedule (fuel : Nat) (preempt : Bool) (now : Nat) (s : Sched) : Option Sched :=
  if ¬ preempt then some s else do
  let previous ← s.threads
  let p ← s.heap previous
  let first ← p.nextThread
  let candidate ← skipSleepers s now fuel first
  let (s, next) ← reapLoop previous fuel { s with threads := some candidate } candidate
  if next = previous then some s
  else switchTo s previous next

def getCurrentThread (s : Sched) : Option Ptr := s.threads

/- sys_sleep_ms: the awake time is a 64-bit sum. -/
def sysSleepMs (fuel : Nat) (preempt : Bool) (now ms : Nat) (s : Sched) : Option Sched := do
  let current ← getCurrentThread s
  let t ← s.heap current
  schedule fuel preempt now (s.put current { t with sleepAwakeTime := wadd now ms })

/- sys_exit and task_quit up to the call of schedule(), which does not come back. -/
def sysExit (fuel : Nat) (preempt : Bool) (now : Nat) (s : Sched) : Option Sched := do
  let current ← getCurrentThread s
  let t ← s.heap current
  schedule fuel preempt now (s.put current { t with threadState := .reaping })

/-- get_next_thread_to_reap: pop the reap list. -/
def getNextThreadToReap (s : Sched) : Option (Option Ptr × Sched) :=
  match s.threadsToReap with
  | none => some (none, s)
  | some thread => do
    let t ← s.heap thread
    let s := { s with threadsToReap := t.nextThread }
    let s ← s.setNext thread none
    some (some thread, s)

/- One round of reaper_thread as far as the thread structures go: pop and free. -/
def reapOne (s : Sched) : Option Sched := do
  let (popped, s) ← getNextThreadToReap s
  match popped with
  | none => some s
  | some thread => some { s with heap := fun q => if q = thread then none else s.heap q }

end EvalynOS.Scheduler
