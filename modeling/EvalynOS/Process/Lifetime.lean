import EvalynOS.Libc.Ledger
import EvalynOS.Process.Deletion
import EvalynOS.Process.Mmap
import EvalynOS.Scheduler.Reaping
import EvalynOS.Syscalls.Files

/-! From new_pagemap() and create_thread() over the system calls of a process to sys_exit and the
reaper: the blocks and the pages that the process takes, and those that are given back. -/
namespace EvalynOS.Process
open Lib Lib.Word Pmm Vmm
open Stdlib (Ledger HeapCall HeapRun Internal splitsRange)
open Vma (Ranges PageRange vmmCmpRange)
open Tarfs (CString Stuck tarfsGetFize fsRead)

/- The blocks of the nodes in the two trees of a pagemap, by the addresses of their ranges. -/
structure Nodes where
  free : Nat → Nat
  used : Nat → Nat

namespace Nodes

def setFree (nodes : Nodes) (vaddr block : Nat) : Nodes :=
  { nodes with free := fun v => if v = vaddr then block else nodes.free v }

def setUsed (nodes : Nodes) (vaddr block : Nat) : Nodes :=
  { nodes with used := fun v => if v = vaddr then block else nodes.used v }

/- valloc: the node it has found moves to the other tree, or it is made smaller and the block of
split_range goes there. -/
def valloc (nodes : Nodes) (pm : Ranges) (size splitRange : Nat) : Nodes :=
  if size = 0 then nodes
  else
    match pm.freeRanges.nodes.find? (fun range => alignUp size pageSize ≤ range.size) with
    | none => nodes
    | some range =>
      let block := nodes.free range.vaddr
      if range.size = alignUp size pageSize then nodes.setUsed range.vaddr block
      else (nodes.setFree (wadd range.vaddr (alignUp size pageSize)) block).setUsed range.vaddr splitRange

/- What the two loops at the end of delete_pagemap free. -/
def blocks (nodes : Nodes) (pm : Ranges) : List Nat :=
  pm.freeRanges.nodes.map (fun r => nodes.free r.vaddr) ++ pm.usedRanges.nodes.map (fun r => nodes.used r.vaddr)

end Nodes

/- A process and the memory of the kernel. Structures on the heap are known by their blocks. -/
structure Life where
  phys : Phys
  ledger : Ledger
  sched : Scheduler.Sched
  thread : Nat
  pagemap : Nat
  topLevel : Nat
  ranges : Ranges
  nodes : Nodes
  files : Files.Thread

/-- new_pagemap() and create_thread(). -/
inductive Spawned (s₀ : Phys) (l₀ : Ledger) (sched₀ : Scheduler.Sched) (kernelTop : Nat) : Life → Prop where
  | intro {space : AddressSpace} {pagemap freeRange thread fds stack : Nat} {s' : Phys} {l' : Ledger}
      {sched' : Scheduler.Sched} :
      newPagemap s₀ kernelTop = .ok space →
      HeapRun ([pagemap, freeRange, thread, fds, stack].map .malloc) space.phys l₀ s' l' →
      Scheduler.createThread sched₀ thread fds stack (some pagemap) = some sched' →
      Spawned s₀ l₀ sched₀ kernelTop
        ⟨s', l', sched', thread, pagemap, space.topLevel, space.ranges, ⟨fun _ => freeRange, fun _ => 0⟩,
          Files.newThread⟩

/- A system call, with what malloc returns in it. -/
inductive SysCall where
  | open (forName forData forCopy : Files.Allocator) (path : Option CString) (fileName fileData copy : Nat)
  | read (fd n : Nat)
  | seek (fd : Nat) (offset whence : Int)
  | mmap (rbx splitRange : Nat)

/-- The calls of malloc and free in sys_open. -/
def openCalls (v : Files.Volume) (forName forData forCopy : Files.Allocator) (path : Option CString)
    (t : Files.Thread) (fileName fileData copy : Nat) : Except Stuck (List HeapCall) :=
  match path with
  | none => .ok []
  | some name =>
    if (forName.malloc (name.bytes.length + 1)).isNone then .ok []
    else do
      let size ← tarfsGetFize v.memory v.archive v.fuel name
      if size < 0 then .ok [.malloc fileName, .free fileName]
      else if 256 ≤ t.nextFd then .ok [.malloc fileName, .free fileName]
      else
        match forData.malloc size.toNat with
        | none => .ok [.malloc fileName, .free fileName]
        | some _ => do
          let (count, _) ← fsRead v.memory v.archive v.fuel v.files name size
          if count < 0 then .ok [.malloc fileName, .malloc fileData, .free fileData, .free fileName]
          else if (forCopy.malloc (name.bytes.length + 1)).isNone then
            .ok [.malloc fileName, .malloc fileData, .free fileData, .free fileName]
          else .ok [.malloc fileName, .malloc fileData, .malloc copy, .free fileName]

/- Nothing is known of a call that leaves the table of descriptors or overruns a buffer. -/
def Undefined (v : Files.Volume) (life : Life) : SysCall → Prop
  | .open forName forData forCopy path fileName fileData copy =>
    ∃ stuck, openCalls v forName forData forCopy path life.files fileName fileData copy = .error stuck
  | .read fd n => 256 ≤ fd ∨ ∃ stuck, Files.sysRead v fd n life.files = .error stuck
  | .seek fd offset whence => 256 ≤ fd ∨ ∃ stuck, Files.sysSeek v fd offset whence life.files = .error stuck
  | .mmap _ _ => False

/- Where sys_read copies to is not looked at: what it copies may be anywhere. -/
inductive CallStep (v : Files.Volume) (life : Life) : SysCall → Life → Prop where
  | open {forName forData forCopy : Files.Allocator} {path : Option CString} {fileName fileData copy : Nat}
      {calls : List HeapCall} {rax : Int} {files' : Files.Thread} {s' : Phys} {l' : Ledger} :
      openCalls v forName forData forCopy path life.files fileName fileData copy = .ok calls →
      Files.sysOpen v forName forData forCopy path life.files = .ok (rax, files') →
      HeapRun calls life.phys life.ledger s' l' →
      CallStep v life (.open forName forData forCopy path fileName fileData copy)
        { life with phys := s', ledger := l', files := files' }
  | read {fd n : Nat} {rax : Int} {stored : List UInt8} {files' : Files.Thread} {m : Memory} : fd < 256 →
      Files.sysRead v fd n life.files = .ok (rax, stored, files') → (stored = [] → m = life.phys.mem) →
      CallStep v life (.read fd n) { life with phys := { life.phys with mem := m }, files := files' }
  | seek {fd : Nat} {offset whence rax : Int} {files' : Files.Thread} : fd < 256 →
      Files.sysSeek v fd offset whence life.files = .ok (rax, files') →
      CallStep v life (.seek fd offset whence) { life with files := files' }
  | mmap {rbx splitRange rax : Nat} {s₁ : Phys} {l₁ : Ledger} {space' : AddressSpace} :
      HeapRun (if splitsRange life.ranges rbx then [.malloc splitRange] else []) life.phys life.ledger s₁ l₁ →
      sysMmap ⟨s₁, life.topLevel, life.ranges⟩ rbx = .ok (rax, space') →
      CallStep v life (.mmap rbx splitRange) { life with
        phys := space'.phys, ledger := l₁, ranges := space'.ranges,
        nodes := life.nodes.valloc life.ranges rbx splitRange }
  | undefined {call : SysCall} {life' : Life} : Undefined v life call → CallStep v life call life'

/-- The life of a process: its calls, what it writes to its own pages, and schedule(). -/
inductive Lives (v : Files.Volume) (guard : Life → SysCall → Prop) (life₀ : Life) : Life → Prop where
  | start : Lives v guard life₀ life₀
  | call {life life' : Life} {call : SysCall} : Lives v guard life₀ life →
      Scheduler.getCurrentThread life.sched = some life.thread → guard life call →
      CallStep v life call life' → Lives v guard life₀ life'
  | store {life : Life} {m : Memory} : Lives v guard life₀ life →
      (∀ a, (∀ q, OwnsLeaf life.phys life.topLevel q → ¬ InFrame life.phys q a) → m a = life.phys.mem a) →
      Lives v guard life₀ { life with phys := { life.phys with mem := m } }
  | schedule {life : Life} {sched' : Scheduler.Sched} {fuel now : Nat} {preempt : Bool} :
      Lives v guard life₀ life → Scheduler.schedule fuel preempt now life.sched = some sched' →
      Lives v guard life₀ { life with sched := sched' }

inductive Schedules : Scheduler.Sched → Scheduler.Sched → Prop where
  | done {s : Scheduler.Sched} : Schedules s s
  | next {s s₁ s' : Scheduler.Sched} {fuel now : Nat} {preempt : Bool} :
      Scheduler.schedule fuel preempt now s = some s₁ → Schedules s₁ s' → Schedules s s'

/-- sys_exit, schedule() until the thread is queued, and the thread that the reaper takes. -/
inductive Exits (life : Life) (t : Scheduler.Thread) : Prop where
  | intro {exited queued popped : Scheduler.Sched} {fuel now : Nat} {preempt : Bool} :
      Scheduler.getCurrentThread life.sched = some life.thread →
      Scheduler.sysExit fuel preempt now life.sched = some exited → Schedules exited queued →
      Scheduler.getNextThreadToReap queued = some (some life.thread, popped) →
      popped.heap life.thread = some t → Exits life t

/- What one round of reaper_thread gives to free(): delete_pagemap() frees the nodes and the
structure, and the reaper the rest. -/
def reaperFrees (life : Life) (t : Scheduler.Thread) : List Nat :=
  life.nodes.blocks life.ranges ++ [life.pagemap, t.fds, t.stack, life.thread]

/-- The blocks are the same as before, and so are the pages in use that are not the heap's. -/
structure Conserved (s₀ : Phys) (l₀ : Ledger) (s' : Phys) (l' : Ledger) : Prop where
  blocks : l'.live = l₀.live
  frames : usedFrames s' \ l'.frames = usedFrames s₀ \ l₀.frames

/- sys_open returns -1: one of its tests fails. -/
def OpenFails (v : Files.Volume) (forName forData forCopy : Files.Allocator) (path : Option CString)
    (t : Files.Thread) : Prop :=
  ∀ name, path = some name → (forName.malloc (name.bytes.length + 1)).isNone ∨
    ∃ size, tarfsGetFize v.memory v.archive v.fuel name = .ok size ∧
      (size < 0 ∨ 256 ≤ t.nextFd ∨ forData.malloc size.toNat = none ∨
        ∃ count bytes, fsRead v.memory v.archive v.fuel v.files name size = .ok (count, bytes) ∧
          (count < 0 ∨ (forCopy.malloc (name.bytes.length + 1)).isNone))

/- The pages that sys_mmap is about to map are not there yet. -/
def NewPages (life : Life) (rbx : Nat) : Prop :=
  ∀ i < heapPages rbx, isPresent
    (leaf life.phys life.topLevel (wadd (Vma.valloc life.ranges rbx).1 (i * pageSize))) = false

/- No RB_INSERT of valloc is refused. -/
def Accepts (pm : Ranges) (size : Nat) : Prop := (Vma.valloc pm size).2.refused = pm.refused

/-- The calls after which the reaper finds all that the process was given. -/
def Tracked (v : Files.Volume) (life : Life) : SysCall → Prop
  | .open forName forData forCopy path _ _ _ => OpenFails v forName forData forCopy path life.files
  | .read fd _ => fd < 256
  | .seek fd _ _ => fd < 256
  | .mmap rbx _ => NewPages life rbx ∧ Accepts life.ranges rbx

/-! The nodes of the trees. -/

section Trees

variable {pm : Ranges} {r : PageRange} {size splitRange : Nat} {nodes : Nodes}

theorem vmmCmpRange_start {left right : PageRange} (same : left.vaddr = right.vaddr) :
    vmmCmpRange left right = .eq := by
  unfold vmmCmpRange
  split
  · rfl
  · rw [if_neg (by omega), if_neg (by omega)]

/- No two nodes of a tree begin at one address. -/
def Distinct (pm : Ranges) : Prop :=
  (pm.freeRanges.nodes.map PageRange.vaddr).Nodup ∧ (pm.usedRanges.nodes.map PageRange.vaddr).Nodup

theorem refused_le (pm : Ranges) (r : PageRange) :
    pm.refused.length ≤ (pm.insertFree r).refused.length ∧ pm.refused.length ≤ (pm.insertUsed r).refused.length := by
  unfold Ranges.insertFree Ranges.insertUsed
  constructor
  · split <;> simp
  · split <;> simp

theorem insertFree_accepted (accepted : (pm.insertFree r).refused.length ≤ pm.refused.length) :
    (∀ e ∈ pm.freeRanges.nodes, e.vaddr ≠ r.vaddr) ∧
      (pm.insertFree r).freeRanges.nodes.Perm (r :: pm.freeRanges.nodes) ∧
      (pm.insertFree r).usedRanges = pm.usedRanges ∧ (pm.insertFree r).refused = pm.refused := by
  unfold Ranges.insertFree at accepted ⊢
  cases inserted : pm.freeRanges.insert r with
  | none =>
    rw [inserted] at accepted
    simp at accepted
  | some t =>
    obtain ⟨apart, perm⟩ := SearchTree.insert_eq_some inserted
    exact ⟨fun e member same => apart e member (vmmCmpRange_start same.symm), perm, rfl, rfl⟩

theorem insertUsed_accepted (accepted : (pm.insertUsed r).refused.length ≤ pm.refused.length) :
    (∀ e ∈ pm.usedRanges.nodes, e.vaddr ≠ r.vaddr) ∧
      (pm.insertUsed r).usedRanges.nodes.Perm (r :: pm.usedRanges.nodes) ∧
      (pm.insertUsed r).freeRanges = pm.freeRanges ∧ (pm.insertUsed r).refused = pm.refused := by
  unfold Ranges.insertUsed at accepted ⊢
  cases inserted : pm.usedRanges.insert r with
  | none =>
    rw [inserted] at accepted
    simp at accepted
  | some t =>
    obtain ⟨apart, perm⟩ := SearchTree.insert_eq_some inserted
    exact ⟨fun e member same => apart e member (vmmCmpRange_start same.symm), perm, rfl, rfl⟩

/- The two ways in which valloc serves a request from a range. -/
def movedRange (pm : Ranges) (r : PageRange) : Ranges := (pm.removeFree r).insertUsed r

def carvedRange (pm : Ranges) (r : PageRange) (size : Nat) : Ranges :=
  ((pm.removeFree r).insertFree ⟨wadd r.vaddr size, wsub r.size size⟩).insertUsed ⟨r.vaddr, size⟩

/-- What valloc does to the trees and to the blocks of their nodes. -/
theorem valloc_ways (pm : Ranges) (size splitRange : Nat) (nodes : Nodes) :
    (Vma.valloc pm size = (0, pm) ∧ splitsRange pm size = false ∧ nodes.valloc pm size splitRange = nodes) ∨
    ∃ r ∈ pm.freeRanges.nodes, alignUp size pageSize ≤ r.size ∧
      ((Vma.valloc pm size = (r.vaddr, movedRange pm r) ∧ splitsRange pm size = false ∧
        nodes.valloc pm size splitRange = nodes.setUsed r.vaddr (nodes.free r.vaddr)) ∨
      (Vma.valloc pm size = (r.vaddr, carvedRange pm r (alignUp size pageSize)) ∧ splitsRange pm size = true ∧
        nodes.valloc pm size splitRange =
          (nodes.setFree (wadd r.vaddr (alignUp size pageSize)) (nodes.free r.vaddr)).setUsed
            r.vaddr splitRange)) := by
  unfold Vma.valloc splitsRange Nodes.valloc
  by_cases zero : size = 0
  · simp only [zero, ↓reduceIte, and_self, true_or]
  · simp only [zero, ↓reduceIte]
    have sizes : Vma.pageSize = pageSize := rfl
    cases found : pm.freeRanges.nodes.find? (fun range => alignUp size pageSize ≤ range.size) with
    | none =>
      left
      refine ⟨?_, rfl, rfl⟩
      rw [sizes, found]
      split <;> rfl
    | some r =>
      right
      have member := List.mem_of_find?_eq_some found
      have fits : alignUp size pageSize ≤ r.size := by simpa using List.find?_some found
      have nonempty : pm.freeRanges.nodes ≠ [] := List.ne_nil_of_mem member
      refine ⟨r, member, fits, ?_⟩
      rw [sizes, if_neg nonempty, found]
      by_cases exact_ : r.size = alignUp size pageSize
      · left
        simp only [exact_, ↓reduceIte, ne_eq, not_true_eq_false, decide_false, and_true]
        rfl
      · right
        simp only [exact_, ↓reduceIte, ne_eq, not_false_eq_true, decide_true, and_true]
        rfl

theorem inserted_blocks {before after : List PageRange} (f : Nat → Nat) (block : Nat)
    (perm : after.Perm (r :: before)) (apart : ∀ e ∈ before, e.vaddr ≠ r.vaddr) :
    (after.map (fun e => if e.vaddr = r.vaddr then block else f e.vaddr)).Perm
      (block :: before.map (fun e => f e.vaddr)) := by
  have rest : before.map (fun e => if e.vaddr = r.vaddr then block else f e.vaddr) =
      before.map (fun e => f e.vaddr) := by
    apply List.map_congr_left
    intro e member
    rw [if_neg (apart e member)]
  have mapped := perm.map (fun e => if e.vaddr = r.vaddr then block else f e.vaddr)
  rwa [List.map_cons, if_pos rfl, rest] at mapped

theorem inserted_distinct {before after : List PageRange} (perm : after.Perm (r :: before))
    (apart : ∀ e ∈ before, e.vaddr ≠ r.vaddr) (distinct : (before.map PageRange.vaddr).Nodup) :
    (after.map PageRange.vaddr).Nodup := by
  rw [(perm.map PageRange.vaddr).nodup_iff, List.map_cons, List.nodup_cons]
  refine ⟨?_, distinct⟩
  intro member
  obtain ⟨e, inBefore, same⟩ := List.mem_map.mp member
  exact apart e inBefore same

theorem removed_blocks (member : r ∈ pm.freeRanges.nodes) (f : Nat → Nat) :
    (pm.freeRanges.nodes.map (fun e => f e.vaddr)).Perm
      (f r.vaddr :: (pm.removeFree r).freeRanges.nodes.map (fun e => f e.vaddr)) :=
  (SearchTree.remove_perm member).map (fun e => f e.vaddr)

theorem removed_distinct (distinct : Distinct pm) : Distinct (pm.removeFree r) :=
  ⟨distinct.1.sublist (List.erase_sublist.map _), distinct.2⟩

/-- The node that was found is in the other tree now. -/
theorem moved_blocks (distinct : Distinct pm) (member : r ∈ pm.freeRanges.nodes)
    (accepted : (movedRange pm r).refused = pm.refused) :
    ((nodes.setUsed r.vaddr (nodes.free r.vaddr)).blocks (movedRange pm r)).Perm (nodes.blocks pm) ∧
      Distinct (movedRange pm r) := by
  obtain ⟨apart, perm, sameFree, _⟩ := @insertUsed_accepted (pm.removeFree r) r
    (Nat.le_of_eq (congrArg List.length accepted))
  have removed := @removed_distinct pm r distinct
  constructor
  · unfold Nodes.blocks movedRange
    rw [sameFree]
    refine ((inserted_blocks nodes.used _ perm apart).append_left _).trans ?_
    refine List.perm_middle.trans ?_
    exact ((removed_blocks member nodes.free).append_right _).symm
  · refine ⟨?_, inserted_distinct perm apart removed.2⟩
    unfold movedRange
    rw [sameFree]
    exact removed.1

/-- Neither insertion is refused where a range is split. -/
theorem carved_accepted (accepted : (carvedRange pm r size).refused = pm.refused) :
    ((∀ e ∈ (pm.removeFree r).freeRanges.nodes, e.vaddr ≠ wadd r.vaddr size) ∧
      ((pm.removeFree r).insertFree ⟨wadd r.vaddr size, wsub r.size size⟩).freeRanges.nodes.Perm
        (⟨wadd r.vaddr size, wsub r.size size⟩ :: (pm.removeFree r).freeRanges.nodes)) ∧
    (∀ e ∈ pm.usedRanges.nodes, e.vaddr ≠ r.vaddr) ∧
      (carvedRange pm r size).usedRanges.nodes.Perm (⟨r.vaddr, size⟩ :: pm.usedRanges.nodes) ∧
      (carvedRange pm r size).freeRanges =
        ((pm.removeFree r).insertFree ⟨wadd r.vaddr size, wsub r.size size⟩).freeRanges := by
  have refusals := congrArg List.length accepted
  have first := (refused_le (pm.removeFree r) ⟨wadd r.vaddr size, wsub r.size size⟩).1
  have second := (refused_le ((pm.removeFree r).insertFree ⟨wadd r.vaddr size, wsub r.size size⟩) ⟨r.vaddr, size⟩).2
  have kept : (pm.removeFree r).refused = pm.refused := rfl
  unfold carvedRange at refusals ⊢
  rw [kept] at first
  obtain ⟨apartFree, permFree, sameUsed, refusedFree⟩ := @insertFree_accepted (pm.removeFree r)
    ⟨wadd r.vaddr size, wsub r.size size⟩ (by rw [kept]; omega)
  obtain ⟨apartUsed, permUsed, sameFree, _⟩ := @insertUsed_accepted
    ((pm.removeFree r).insertFree ⟨wadd r.vaddr size, wsub r.size size⟩) ⟨r.vaddr, size⟩ (by
      rw [refusedFree, kept]
      omega)
  rw [sameUsed] at apartUsed permUsed
  exact ⟨⟨apartFree, permFree⟩, apartUsed, permUsed, sameFree⟩

/-- The node that was found is smaller, and that of split_range is in the other tree. -/
theorem carved_blocks (distinct : Distinct pm) (member : r ∈ pm.freeRanges.nodes)
    (accepted : (carvedRange pm r size).refused = pm.refused) :
    (((nodes.setFree (wadd r.vaddr size) (nodes.free r.vaddr)).setUsed r.vaddr splitRange).blocks
        (carvedRange pm r size)).Perm (splitRange :: nodes.blocks pm) ∧ Distinct (carvedRange pm r size) := by
  obtain ⟨⟨apartFree, permFree⟩, apartUsed, permUsed, sameFree⟩ := carved_accepted accepted
  have removed := @removed_distinct pm r distinct
  constructor
  · unfold Nodes.blocks
    rw [sameFree]
    have frees := (inserted_blocks nodes.free _ permFree apartFree).trans (removed_blocks member nodes.free).symm
    exact (frees.append (inserted_blocks nodes.used splitRange permUsed apartUsed)).trans List.perm_middle
  · refine ⟨?_, inserted_distinct permUsed apartUsed removed.2⟩
    rw [sameFree]
    exact inserted_distinct permFree apartFree removed.1

theorem mem_carved (accepted : (carvedRange pm r size).refused = pm.refused) {e : PageRange}
    (inTree : e ∈ (carvedRange pm r size).freeRanges.nodes) :
    e = ⟨wadd r.vaddr size, wsub r.size size⟩ ∨ e ∈ pm.freeRanges.nodes := by
  obtain ⟨⟨_, permFree⟩, _, _, sameFree⟩ := carved_accepted accepted
  rw [sameFree] at inTree
  rcases List.mem_cons.mp (permFree.mem_iff.mp inTree) with new | old
  · exact .inl new
  · exact .inr (List.mem_of_mem_erase old)

/-- valloc takes one block more where it splits a range, and the trees hold all of them. -/
theorem valloc_blocks (distinct : Distinct pm) (accepts : Accepts pm size) :
    ((nodes.valloc pm size splitRange).blocks (Vma.valloc pm size).2).Perm
        ((if splitsRange pm size then [splitRange] else []) ++ nodes.blocks pm) ∧
      Distinct (Vma.valloc pm size).2 := by
  unfold Accepts at accepts
  rcases valloc_ways pm size splitRange nodes with ⟨result, whole, same⟩ |
    ⟨r, member, _, ⟨result, whole, moved⟩ | ⟨result, splits, carved⟩⟩
  · rw [result, whole, same]
    exact ⟨.refl _, distinct⟩
  · rw [result] at accepts ⊢
    rw [whole, moved]
    exact moved_blocks distinct member accepts
  · rw [result] at accepts ⊢
    rw [splits, carved]
    exact carved_blocks distinct member accepts

/- The free ranges lie in the window of new_pagemap(). -/
def Within (pm : Ranges) : Prop := ∀ r ∈ pm.freeRanges.nodes, r.vaddr + r.size ≤ Vma.newPagemapWindow.hi

theorem valloc_within (within : Within pm) (accepts : Accepts pm size) : Within (Vma.valloc pm size).2 := by
  have window : Vma.newPagemapWindow.hi = 400000000000 := rfl
  unfold Accepts at accepts
  rcases valloc_ways pm size 0 ⟨id, id⟩ with ⟨result, _⟩ | ⟨r, member, fits, ⟨result, _⟩ | ⟨result, _⟩⟩
  · rw [result]
    exact within
  · rw [result] at accepts ⊢
    obtain ⟨_, _, sameFree, _⟩ := @insertUsed_accepted (pm.removeFree r) r
      (Nat.le_of_eq (congrArg List.length accepts))
    intro e inTree
    unfold movedRange at inTree
    rw [sameFree] at inTree
    exact within e (List.mem_of_mem_erase inTree)
  · rw [result] at accepts ⊢
    have limit := within r member
    have start : wadd r.vaddr (alignUp size pageSize) = r.vaddr + alignUp size pageSize := wadd_eq (by omega)
    have rest : wsub r.size (alignUp size pageSize) = r.size - alignUp size pageSize := wsub_eq (by omega) fits
    intro e inTree
    rcases mem_carved accepts inTree with rfl | old
    · simp only [start, rest]
      omega
    · exact within e old

/-- The pages of sys_mmap are in the lower half, each with a leaf entry of its own. -/
theorem mmap_addresses (within : Within pm) (rbx : Nat) :
    ∃ base, ∀ i < heapPages rbx, wadd (Vma.valloc pm rbx).1 (i * pageSize) = base + i * 4096 ∧
      base + i * 4096 < 2 ^ 47 := by
  have window : Vma.newPagemapWindow.hi = 400000000000 := rfl
  have pages : heapPages rbx ≤ alignUp rbx pageSize / 4096 := Nat.mod_le _ _
  have few : heapPages rbx < 2 ^ 32 := Nat.mod_lt _ (by decide)
  refine ⟨(Vma.valloc pm rbx).1, ?_⟩
  intro i below
  have bound : (Vma.valloc pm rbx).1 + i * 4096 < 2 ^ 47 := by
    rcases valloc_ways pm rbx 0 ⟨id, id⟩ with ⟨result, _⟩ | ⟨r, member, fits, ⟨result, _⟩ | ⟨result, _⟩⟩
    · rw [result]
      dsimp only
      omega
    · have limit := within r member
      rw [result]
      dsimp only
      omega
    · have limit := within r member
      rw [result]
      dsimp only
      omega
  refine ⟨wadd_eq ?_, bound⟩
  unfold pageSize
  omega

end Trees

/-! The calls of malloc and free. -/

section Blocks

variable {v : Files.Volume} {forName forData forCopy : Files.Allocator} {path : Option CString} {t : Files.Thread}
  {fileName fileData : Nat} {calls : List HeapCall}

/- The calls of a sys_open that gives everything back. -/
def GivesBack (fileName fileData : Nat) (calls : List HeapCall) : Prop :=
  calls = [] ∨ calls = [.malloc fileName, .free fileName] ∨
    calls = [.malloc fileName, .malloc fileData, .free fileData, .free fileName]

/-- A sys_open that fails gives back what it took, and no descriptor has a name after it that had
none. -/
theorem openCalls_fails (fails : OpenFails v forName forData forCopy path t)
    (unnamed : ∀ fd, (t.fds fd).fileName = none) (fileName fileData copy : Nat) :
    ∃ calls t', openCalls v forName forData forCopy path t fileName fileData copy = .ok calls ∧
      Files.sysOpen v forName forData forCopy path t = .ok (-1, t') ∧ GivesBack fileName fileData calls ∧
      ∀ fd, (t'.fds fd).fileName = none := by
  have kept : ∀ file : Files.Fd, file.fileName = none → ∀ fd, ((t.set t.nextFd file).fds fd).fileName = none := by
    intro file isNone fd
    unfold Files.Thread.set
    dsimp only
    split
    · exact isNone
    · exact unnamed fd
  unfold openCalls Files.sysOpen
  cases path with
  | none => exact ⟨_, _, rfl, rfl, .inl rfl, unnamed⟩
  | some name =>
    dsimp only
    by_cases null : (forName.malloc (name.bytes.length + 1)).isNone = true
    · rw [if_pos null, if_pos null]
      exact ⟨_, _, rfl, rfl, .inl rfl, unnamed⟩
    rw [if_neg null, if_neg null]
    obtain ⟨size, found, tests⟩ := (fails name rfl).resolve_left null
    simp only [found, bind, Except.bind]
    by_cases missing : size < 0
    · rw [if_pos missing, if_pos missing]
      exact ⟨_, _, rfl, rfl, .inr (.inl rfl), unnamed⟩
    rw [if_neg missing, if_neg missing]
    by_cases full : 256 ≤ t.nextFd
    · rw [if_pos full, if_pos full]
      exact ⟨_, _, rfl, rfl, .inr (.inl rfl), unnamed⟩
    rw [if_neg full, if_neg full]
    cases data : forData.malloc size.toNat with
    | none => exact ⟨_, _, rfl, rfl, .inr (.inl rfl), kept _ (unnamed _)⟩
    | some block =>
      simp only [data, missing, full, false_or, reduceCtorEq] at tests
      obtain ⟨count, bytes, read, tests⟩ := tests
      simp only [read]
      by_cases short : count < 0
      · rw [if_pos short, if_pos short]
        exact ⟨_, _, rfl, rfl, .inr (.inr rfl), kept _ (unnamed _)⟩
      · rw [if_neg short, if_neg short, if_pos (tests.resolve_left short), if_pos (tests.resolve_left short)]
        exact ⟨_, _, rfl, rfl, .inr (.inr rfl), kept _ rfl⟩

theorem openCalls_live {s s' : Phys} {l l' : Ledger}
    (givesBack : GivesBack fileName fileData calls) (run : HeapRun calls s l s' l') : l'.live = l.live := by
  have live := run.live
  rcases givesBack with rfl | rfl | rfl
  · exact live
  · cases run with
    | call first _ =>
      cases first with
      | malloc fresh _ =>
        rw [live]
        exact Finset.erase_insert fresh
  · cases run with
    | call first rest =>
      cases rest with
      | call second _ =>
        cases first with
        | malloc fresh _ =>
          cases second with
          | malloc freshData _ =>
            rw [live]
            simp only [Stdlib.liveAfter]
            rw [Finset.erase_insert freshData, Finset.erase_insert fresh]

end Blocks

/-! The pages. -/

section Pages

variable {before : Nat → Prop} {frames frames' : Finset Nat} {root : Nat} {b : Building} {s' : Phys}

/-- The work of the heap leaves a process as it is. -/
theorem Holds.internal (holds : Holds (fun q => before q ∨ q ∈ frames) root b)
    (outside : ∀ q, before q → q ∉ frames) (work : Internal b.phys frames s' frames') :
    (Holds (fun q => before q ∨ q ∈ frames') root { b with phys := s' } ∧
      ∀ v, lowerHalf (pml4i v) → leaf s' b.topLevel v = leaf b.phys b.topLevel v) ∧
    ∀ q, before q → q ∉ frames' := by
  obtain ⟨list', inv'⟩ := work.inv
  have stays : ∀ q, before q → q ∉ frames' := by
    intro q isBefore
    exact ((work.others q).mpr ⟨(holds.used q).mpr (.inl (.inl isBefore)), outside q isBefore⟩).2
  have mine : ∀ q, Owns b.phys b.topLevel q ∨ q ∈ b.pool → q ∉ frames ∧ q ∉ frames' := by
    intro q roles
    have notHeap : q ∉ frames := fun heap => by
      obtain ⟨notOwned, notPool⟩ := holds.apart q (.inr heap)
      exact roles.elim notOwned notPool
    exact ⟨notHeap, ((work.others q).mpr ⟨(holds.used q).mpr (.inr roles), notHeap⟩).2⟩
  refine ⟨holds.frame inv' work.hhdm work.pages ?_ ?_ ?_ holds.free holds.nodup, stays⟩
  · intro q table i bound
    exact work.mem q (holds.mine (.inl table)) (mine q (.inl (.inl table))).1 _ (slot_inFrame b.phys q bound)
  · intro q
    constructor
    · intro used'
      by_cases heap : q ∈ frames'
      · exact .inl (.inr heap)
      · obtain ⟨used, notHeap⟩ := (work.others q).mp ⟨used', heap⟩
        rcases (holds.used q).mp used with (isBefore | old) | roles
        · exact .inl (.inl isBefore)
        · exact absurd old notHeap
        · exact .inr roles
    · rintro ((isBefore | heap) | roles)
      · exact ((work.others q).mpr ⟨(holds.used q).mpr (.inl (.inl isBefore)), outside q isBefore⟩).1
      · exact work.own q heap
      · exact ((work.others q).mpr ⟨(holds.used q).mpr (.inr roles), (mine q roles).1⟩).1
  · intro q other
    rcases other with isBefore | heap
    · exact holds.apart q (.inl isBefore)
    · exact ⟨fun owns => (mine q (.inl owns)).2 heap, fun inPool => (mine q (.inr inPool)).2 heap⟩

end Pages

/-! What holds between two calls. -/

/- The blocks that are there for a process. -/
def Life.blocks (life : Life) (fds stack : Nat) : List Nat :=
  life.nodes.blocks life.ranges ++ [life.pagemap, fds, stack, life.thread]

/- The pages that were in use before and were not the heap's. -/
def Before (s₀ : Phys) (l₀ : Ledger) (q : Nat) : Prop := PageIs s₀ q .used ∧ q ∉ l₀.frames

/-- Whatever is new since new_pagemap() can be found from the thread. -/
structure Alive (s₀ : Phys) (l₀ : Ledger) (fds stack root : Nat) (life : Life) : Prop where
  own : ∀ q ∈ life.ledger.frames, PageIs life.phys q .used
  outside : ∀ q, Before s₀ l₀ q → q ∉ life.ledger.frames
  holds : ∃ tables leaves, Holds (fun q => Before s₀ l₀ q ∨ q ∈ life.ledger.frames) root
    ⟨life.phys, life.topLevel, [], tables, leaves⟩
  made : ∃ id, life.sched.made life.thread = some (id, .user life.pagemap, fds, stack)
  unnamed : ∀ fd, (life.files.fds fd).fileName = none
  distinct : Distinct life.ranges
  within : Within life.ranges
  nodup : (life.blocks fds stack).Nodup
  fresh : ∀ p ∈ life.blocks fds stack, p ∉ l₀.live
  live : life.ledger.live = l₀.live ∪ (life.blocks fds stack).toFinset

section Lives

variable {s₀ : Phys} {l₀ : Ledger} {fds stack root : Nat} {life life' : Life} {v : Files.Volume}

theorem Alive.inv (alive : Alive s₀ l₀ fds stack root life) : ∃ list, Inv life.phys list := by
  obtain ⟨tables, leaves, holds⟩ := alive.holds
  exact holds.inv

theorem spawned_alive {sched₀ : Scheduler.Sched} {kernelTop : Nat} {list : List Nat} (inv : Inv s₀ list)
    (own : ∀ q ∈ l₀.frames, PageIs s₀ q .used) (spawned : Spawned s₀ l₀ sched₀ kernelTop life) :
    ∃ fds stack root, Alive s₀ l₀ fds stack root life := by
  cases spawned with
  | @intro space pagemap freeRange thread fds stack s' l' sched' made run created =>
    obtain ⟨root, balanced⟩ := balanced_created inv made
    obtain ⟨holds, _⟩ := balanced_iff.mp balanced
    have split : (fun q => PageIs s₀ q .used) = fun q => Before s₀ l₀ q ∨ q ∈ l₀.frames := by
      funext q
      apply propext
      unfold Before
      have heap := own q
      tauto
    rw [split] at holds
    obtain ⟨list₁, inv₁⟩ := holds.inv
    have own₁ : ∀ q ∈ l₀.frames, PageIs space.phys q .used := fun q heap =>
      (holds.used q).mpr (.inl (.inr heap))
    have work := run.internal inv₁ own₁
    obtain ⟨⟨holds', _⟩, outside⟩ := holds.internal (fun q before => before.2) work
    obtain ⟨nodup, fresh, live⟩ := run.mallocs
    obtain ⟨thread', _, _⟩ := Scheduler.createThread_made created
    obtain ⟨_, _, _, ranges⟩ := newPagemap_spec inv made
    have blocks : (⟨s', l', sched', thread, pagemap, space.topLevel, space.ranges, ⟨fun _ => freeRange, fun _ => 0⟩,
        Files.newThread⟩ : Life).blocks fds stack = [freeRange, pagemap, fds, stack, thread] := by
      simp only [Life.blocks, Nodes.blocks, ranges]
      rfl
    have perm : [freeRange, pagemap, fds, stack, thread].Perm [pagemap, freeRange, thread, fds, stack] := by
      refine (List.Perm.swap pagemap freeRange _).trans (.cons _ (.cons _ ?_))
      exact @List.perm_append_comm _ [fds, stack] [thread]
    refine ⟨fds, stack, root, work.own, outside, ⟨∅, [], holds'⟩, ⟨_, thread'⟩, fun fd => rfl, ?_, ?_, ?_, ?_, ?_⟩
    · dsimp only
      rw [ranges]
      exact ⟨List.nodup_singleton _, List.nodup_nil⟩
    · dsimp only
      rw [ranges]
      intro r member
      cases List.mem_singleton.mp member
      decide
    · rw [blocks, perm.nodup_iff]
      exact nodup
    · rw [blocks]
      exact fun p member => fresh p (perm.mem_iff.mp member)
    · rw [blocks, List.toFinset_eq_of_perm _ _ perm]
      exact live

/-- The heap does some work, and the blocks of the process stay. -/
theorem Alive.internal (alive : Alive s₀ l₀ fds stack root life) {s' : Phys} {l' : Ledger}
    (work : Internal life.phys life.ledger.frames s' l'.frames) (live : l'.live = life.ledger.live)
    {files' : Files.Thread} (unnamed : ∀ fd, (files'.fds fd).fileName = none) :
    Alive s₀ l₀ fds stack root { life with phys := s', ledger := l', files := files' } := by
  obtain ⟨tables, leaves, holds⟩ := alive.holds
  obtain ⟨⟨holds', _⟩, outside⟩ := holds.internal alive.outside work
  exact ⟨work.own, outside, ⟨tables, leaves, holds'⟩, alive.made, unnamed, alive.distinct, alive.within,
    alive.nodup, alive.fresh, live.trans alive.live⟩

theorem sameMade_alive (alive : Alive s₀ l₀ fds stack root life) {sched' : Scheduler.Sched}
    (same : Scheduler.SameMade life.sched sched') : Alive s₀ l₀ fds stack root { life with sched := sched' } := by
  obtain ⟨id, made⟩ := alive.made
  exact ⟨alive.own, alive.outside, alive.holds, ⟨id, (same.made _).trans made⟩, alive.unnamed, alive.distinct,
    alive.within, alive.nodup, alive.fresh, alive.live⟩

/-- Stores of the process do not reach a table. -/
theorem Alive.store (alive : Alive s₀ l₀ fds stack root life) {m : Memory}
    (stores : ∀ a, (∀ q, OwnsLeaf life.phys life.topLevel q → ¬ InFrame life.phys q a) → m a = life.phys.mem a) :
    Alive s₀ l₀ fds stack root { life with phys := { life.phys with mem := m } } := by
  obtain ⟨tables, leaves, holds⟩ := alive.holds
  obtain ⟨list, inv⟩ := holds.inv
  have inv' : Inv { life.phys with mem := m } list := inv.write (fun a untouched =>
    stores a (fun q isLeaf => untouched q isLeaf.1))
  have words : ∀ q, OwnsTable life.phys life.topLevel q → ∀ i < 512,
      pte { life.phys with mem := m } (q + life.phys.hhdmOffset) i = pte life.phys (q + life.phys.hhdmOffset) i := by
    intro q table i bound
    apply stores
    intro r isLeaf inFrame
    obtain ⟨used, w, inside, present, rfl⟩ := isLeaf
    have same := frame_apart inv.layout (holds.mine (.inl table)) used (slot_inFrame life.phys q bound) inFrame
    exact (holds.space.leaves w .used inside present used).2 (same ▸ table)
  obtain ⟨holds', _⟩ := @Holds.frame _ (fun q => Before s₀ l₀ q ∨ q ∈ life.ledger.frames) _ _ holds
    { life.phys with mem := m } list [] inv' rfl (fun _ page => page) words holds.used holds.apart holds.free
    holds.nodup
  exact ⟨alive.own, alive.outside, ⟨tables, leaves, holds'⟩, alive.made, alive.unnamed, alive.distinct,
    alive.within, alive.nodup, alive.fresh, alive.live⟩

/- The addresses of the loop of sys_mmap. -/
def mmapAddresses (pm : Ranges) (rbx : Nat) : List Nat :=
  (List.range (heapPages rbx)).map (fun i => wadd (Vma.valloc pm rbx).1 (i * pageSize))

theorem sysMmap_maps {space space' : AddressSpace} {rbx rax : Nat} (ran : sysMmap space rbx = .ok (rax, space')) :
    rax = (Vma.valloc space.ranges rbx).1 ∧
      ∃ s', mapNewPages space.topLevel mmapFlags (mmapAddresses space.ranges rbx) space.phys = .ok s' ∧
        space' = { space with phys := s', ranges := (Vma.valloc space.ranges rbx).2 } := by
  unfold sysMmap at ran
  cases mapped : mapNewPages space.topLevel mmapFlags (mmapAddresses space.ranges rbx) space.phys with
  | error panic =>
    unfold mmapFlags mmapAddresses heapPages at mapped
    simp only [mapped, bind, Except.bind] at ran
    cases ran
  | ok s' =>
    unfold mmapFlags mmapAddresses heapPages at mapped
    simp only [mapped, bind, Except.bind, Except.ok.injEq, Prod.mk.injEq] at ran
    exact ⟨ran.1.symm, s', rfl, ran.2.symm⟩

theorem mmapFlags_isFlags : IsFlags mmapFlags := by
  unfold IsFlags
  decide

theorem mmapAddresses_distinct {pm : Ranges} {rbx base : Nat}
    (places : ∀ i < heapPages rbx, wadd (Vma.valloc pm rbx).1 (i * pageSize) = base + i * 4096 ∧
      base + i * 4096 < 2 ^ 47) :
    (mmapAddresses pm rbx).Pairwise (fun v w => pageBits v ≠ pageBits w) := by
  unfold mmapAddresses
  rw [List.pairwise_map]
  refine (List.pairwise_lt_range).imp_of_mem ?_
  intro i j inI inJ order
  obtain ⟨placeI, boundI⟩ := places i (List.mem_range.mp inI)
  obtain ⟨placeJ, boundJ⟩ := places j (List.mem_range.mp inJ)
  rw [placeI, placeJ, ne_eq, pageBits_lower boundI boundJ]
  omega

/-- sys_mmap maps pages of the process only, and the trees get the block that it asks for. -/
theorem Alive.mmap (alive : Alive s₀ l₀ fds stack root life) {rbx splitRange rax : Nat} {s₁ : Phys} {l₁ : Ledger}
    {space' : AddressSpace} (newPages : NewPages life rbx) (accepts : Accepts life.ranges rbx)
    (run : HeapRun ((if splitsRange life.ranges rbx then [splitRange] else []).map .malloc) life.phys life.ledger s₁ l₁)
    (ran : sysMmap ⟨s₁, life.topLevel, life.ranges⟩ rbx = .ok (rax, space')) :
    Alive s₀ l₀ fds stack root { life with
      phys := space'.phys, ledger := l₁, ranges := space'.ranges,
      nodes := life.nodes.valloc life.ranges rbx splitRange } := by
  obtain ⟨list, inv⟩ := alive.inv
  obtain ⟨tables, leaves, holds⟩ := alive.holds
  have work := run.internal inv alive.own
  obtain ⟨⟨holds₁, sameLeaf⟩, outside⟩ := holds.internal alive.outside work
  obtain ⟨nodupNew, freshNew, liveNew⟩ := run.mallocs
  obtain ⟨base, places⟩ := mmap_addresses alive.within rbx
  obtain ⟨_, s', mapped, rfl⟩ := sysMmap_maps ran
  have low : ∀ w ∈ mmapAddresses life.ranges rbx, w < 2 ^ 47 := by
    intro w member
    obtain ⟨i, inRange, rfl⟩ := List.mem_map.mp member
    obtain ⟨place, bound⟩ := places i (List.mem_range.mp inRange)
    rw [place]
    exact bound
  have absent : ∀ w ∈ mmapAddresses life.ranges rbx, isPresent (leaf s₁ life.topLevel w) = false := by
    intro w member
    rw [sameLeaf w (lowerHalf_pml4i (low w member))]
    obtain ⟨i, inRange, rfl⟩ := List.mem_map.mp member
    exact newPages i (List.mem_range.mp inRange)
  obtain ⟨tables', leaves', holds'⟩ := holds₁.mapNewPages mmapFlags_isFlags low
    (mmapAddresses_distinct places) absent mapped
  obtain ⟨perm, distinct⟩ := @valloc_blocks life.ranges rbx splitRange life.nodes alive.distinct accepts
  have blocks : (Life.blocks { life with
      phys := s', ledger := l₁, ranges := (Vma.valloc life.ranges rbx).2,
      nodes := life.nodes.valloc life.ranges rbx splitRange } fds stack).Perm
      ((if splitsRange life.ranges rbx then [splitRange] else []) ++ life.blocks fds stack) := by
    unfold Life.blocks
    rw [← List.append_assoc]
    exact perm.append_right _
  have members : ∀ p ∈ life.blocks fds stack, p ∈ life.ledger.live := by
    intro p member
    rw [alive.live]
    exact Finset.mem_union_right _ (List.mem_toFinset.mpr member)
  refine ⟨?_, outside, ⟨tables', leaves', holds'⟩, alive.made, alive.unnamed, distinct,
    valloc_within alive.within accepts, ?_, ?_, ?_⟩
  · intro q heap
    exact (holds'.used q).mpr (.inl (.inr heap))
  · rw [blocks.nodup_iff, List.nodup_append]
    refine ⟨nodupNew, alive.nodup, ?_⟩
    rintro p new q old rfl
    exact freshNew p new (members p old)
  · intro p member
    rcases List.mem_append.mp (blocks.mem_iff.mp member) with new | old
    · intro before
      apply freshNew p new
      rw [alive.live]
      exact Finset.mem_union_left _ before
    · exact alive.fresh p old
  · dsimp only
    rw [List.toFinset_eq_of_perm _ _ blocks, liveNew, alive.live, List.toFinset_append]
    ext p
    simp only [Finset.mem_union]
    tauto

theorem Alive.defined (alive : Alive s₀ l₀ fds stack root life) {call : SysCall} (tracked : Tracked v life call) :
    ¬ Undefined v life call := by
  cases call with
  | «open» forName forData forCopy path fileName fileData copy =>
    rintro ⟨stuck, failed⟩
    obtain ⟨calls, _, traced, _⟩ := openCalls_fails tracked alive.unnamed fileName fileData copy
    cases traced.symm.trans failed
  | read fd n =>
    rintro (outside | ⟨stuck, failed⟩)
    · exact Nat.not_lt.mpr outside tracked
    · simp [Files.sysRead, alive.unnamed] at failed
  | seek fd offset whence =>
    rintro (outside | ⟨stuck, failed⟩)
    · exact Nat.not_lt.mpr outside tracked
    · simp [Files.sysSeek, alive.unnamed] at failed
  | mmap rbx splitRange => exact id

/-- One call that is tracked. -/
theorem Alive.step (alive : Alive s₀ l₀ fds stack root life) {call : SysCall} (tracked : Tracked v life call)
    (step : CallStep v life call life') : Alive s₀ l₀ fds stack root life' := by
  obtain ⟨list, inv⟩ := alive.inv
  cases step with
  | «open» trace ran run =>
    obtain ⟨calls, files', traced, returned, givesBack, unnamed⟩ := openCalls_fails tracked alive.unnamed _ _ _
    cases Except.ok.inj (traced.symm.trans trace)
    cases Except.ok.inj (returned.symm.trans ran)
    exact alive.internal (run.internal inv alive.own) (openCalls_live givesBack run) unnamed
  | read _ ran kept =>
    simp only [Files.sysRead, alive.unnamed, Except.ok.injEq, Prod.mk.injEq] at ran
    obtain ⟨_, rfl, rfl⟩ := ran
    cases kept rfl
    exact alive
  | seek _ ran =>
    simp only [Files.sysSeek, alive.unnamed, Except.ok.injEq, Prod.mk.injEq] at ran
    obtain ⟨_, rfl⟩ := ran
    exact alive
  | mmap run ran =>
    refine alive.mmap tracked.1 tracked.2 ?_ ran
    split
    · rename_i splits
      rw [if_pos splits] at run
      exact run
    · rename_i whole
      rw [if_neg whole] at run
      exact run
  | undefined unknown => exact absurd unknown (alive.defined tracked)

/-- Every state of a life in which all calls are tracked. -/
theorem Lives.alive {life₀ : Life} (alive₀ : Alive s₀ l₀ fds stack root life₀)
    (lives : Lives v (Tracked v) life₀ life) : Alive s₀ l₀ fds stack root life := by
  induction lives with
  | start => exact alive₀
  | call _ _ tracked step ih => exact ih.step tracked step
  | store _ stores ih => exact ih.store stores
  | schedule _ ran ih => exact sameMade_alive ih (Scheduler.schedule_made ran)

theorem Schedules.made {s s' : Scheduler.Sched} (schedules : Schedules s s') : Scheduler.SameMade s s' := by
  induction schedules with
  | done => exact .refl _
  | next ran _ ih => exact (Scheduler.schedule_made ran).trans ih

/-- The reaper takes the thread as create_thread() has made it. -/
theorem Exits.made {t : Scheduler.Thread} (exits : Exits life t) :
    life.sched.made life.thread = some t.made := by
  cases exits with
  | intro _ exit schedules taken here =>
    have same := ((Scheduler.sysExit_made exit).trans schedules.made).trans (Scheduler.getNextThreadToReap_made taken)
    rw [← same.made]
    unfold Scheduler.Sched.made
    rw [here]
    rfl

theorem Alive.frees (alive : Alive s₀ l₀ fds stack root life) {t : Scheduler.Thread} (exits : Exits life t) :
    t.pagemap = .user life.pagemap ∧ reaperFrees life t = life.blocks fds stack := by
  obtain ⟨id, made⟩ := alive.made
  have same := Option.some.inj (exits.made.symm.trans made)
  simp only [Scheduler.Thread.made, Prod.mk.injEq] at same
  obtain ⟨_, pagemap, sameFds, sameStack⟩ := same
  refine ⟨pagemap, ?_⟩
  unfold reaperFrees Life.blocks
  rw [sameFds, sameStack]

/-- The pages of the process are freed and then its blocks, and nothing else is. -/
theorem Alive.reaped (alive : Alive s₀ l₀ fds stack root life) :
    (deleteCalls life.phys life.topLevel).Nodup ∧ ∃ s₁, deletePagemap life.phys life.topLevel = .ok s₁ ∧
      (∃ list, Inv s₁ list) ∧ (∀ q ∈ life.ledger.frames, PageIs s₁ q .used) ∧
      ∀ s' l', HeapRun ((life.blocks fds stack).map .free) s₁ life.ledger s' l' → Conserved s₀ l₀ s' l' := by
  obtain ⟨tables, leaves, holds⟩ := alive.holds
  obtain ⟨s₁, list₁, calls, freed, nodup, _, inv₁, _, used⟩ := holds.delete
  have own₁ : ∀ q ∈ life.ledger.frames, PageIs s₁ q .used := fun q heap => (used q).mpr (.inl (.inr heap))
  refine ⟨nodup, s₁, calls.trans freed, ⟨list₁, inv₁⟩, own₁, ?_⟩
  intro s' l' run
  have work := run.internal inv₁ own₁
  constructor
  · rw [run.live, Stdlib.liveAfter_frees, alive.live]
    ext p
    have fresh := alive.fresh p
    simp only [Finset.mem_sdiff, Finset.mem_union, List.mem_toFinset]
    tauto
  · ext q
    have others := work.others q
    have outside := alive.outside q
    have usedQ := used q
    simp only [List.not_mem_nil, or_false] at usedQ
    unfold Before at outside usedQ
    rw [Finset.mem_sdiff, Finset.mem_sdiff, mem_usedFrames, mem_usedFrames, others, usedQ]
    tauto

end Lives

/- The thread of the process runs as soon as it is made. -/
def firstRun : Option Scheduler.Sched :=
  (Scheduler.createThread Scheduler.ringAtBoot 4 104 0x40000 (some 5)).bind (Scheduler.schedule 8 true 10)

/- It exits, and when the ring has come round it is queued. -/
def lastRun (s : Scheduler.Sched) : Option (Option Nat × Scheduler.Sched) :=
  (Scheduler.sysExit 8 true 10 s).bind fun s => (Scheduler.schedule 8 true 10 s).bind fun s =>
    (Scheduler.schedule 8 true 10 s).bind fun s => (Scheduler.schedule 8 true 10 s).bind Scheduler.getNextThreadToReap

theorem thread_reaped : (firstRun.bind fun s => (lastRun s).map fun popped =>
    (Scheduler.getCurrentThread s, popped.1, (popped.2.heap 4).isSome)) = some (some 4, some 4, true) := by
  decide +kernel

theorem exits_of_lastRun {life : Life} {popped : Scheduler.Sched} {t : Scheduler.Thread}
    (current : Scheduler.getCurrentThread life.sched = some life.thread)
    (ran : lastRun life.sched = some (some life.thread, popped)) (here : popped.heap life.thread = some t) :
    Exits life t := by
  obtain ⟨s₁, exit, ran⟩ := Option.bind_eq_some_iff.mp ran
  obtain ⟨s₂, second, ran⟩ := Option.bind_eq_some_iff.mp ran
  obtain ⟨s₃, third, ran⟩ := Option.bind_eq_some_iff.mp ran
  obtain ⟨s₄, fourth, taken⟩ := Option.bind_eq_some_iff.mp ran
  exact .intro current exit (.next second (.next third (.next fourth .done))) taken here

/- The blocks of the process: pagemap_t, its range, the thread, the descriptors and the stack. -/
def firstBlocks : List Nat := [5, 6, 4, 104, 0x40000]

def smallLife (space : AddressSpace) (sched : Scheduler.Sched) : Life :=
  ⟨space.phys, ⟨Stdlib.liveAfter ∅ (firstBlocks.map .malloc), ∅⟩, sched, 4, 5, space.topLevel, space.ranges,
    ⟨fun _ => 6, fun _ => 0⟩, Files.newThread⟩

theorem smallLife_spawned : ∃ s list space sched₀ sched popped t, Inv s list ∧
    newPagemap s 0xFFFF800000101000 = .ok space ∧ Agrees space ∧ space.ranges = Vma.newPagemapWindow.fresh ∧
    space.phys.usedPages + 8 ≤ space.phys.totalPages ∧
    Spawned s ⟨∅, ∅⟩ Scheduler.ringAtBoot 0xFFFF800000101000 (smallLife space sched₀) ∧
    Scheduler.schedule 8 true 10 sched₀ = some sched ∧ Scheduler.getCurrentThread sched = some 4 ∧
    lastRun sched = some (some 4, popped) ∧ popped.heap 4 = some t := by
  obtain ⟨s, list, space, inv, _, made, agrees, fresh, room⟩ := smallProcess
  obtain ⟨list', inv'⟩ := agrees.inv
  obtain ⟨sched, first, rest⟩ := Option.bind_eq_some_iff.mp thread_reaped
  obtain ⟨sched₀, created, runs⟩ := Option.bind_eq_some_iff.mp first
  obtain ⟨⟨taken, popped⟩, last, outcome⟩ := Option.map_eq_some_iff.mp rest
  simp only [Prod.mk.injEq] at outcome
  obtain ⟨current, rfl, there⟩ := outcome
  obtain ⟨t, here⟩ := Option.isSome_iff_exists.mp there
  have run : HeapRun (firstBlocks.map .malloc) space.phys ⟨∅, ∅⟩ space.phys
      ⟨Stdlib.liveAfter ∅ (firstBlocks.map .malloc), ∅⟩ :=
    Stdlib.Enabled.run inv' (by simp) (by decide)
  exact ⟨s, list, space, sched₀, sched, popped, t, inv, made, agrees, fresh, room, .intro made run created, runs,
    current, last, here⟩

end EvalynOS.Process
