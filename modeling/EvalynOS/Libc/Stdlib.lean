import EvalynOS.Memory.Heap
import EvalynOS.Memory.Vma
import EvalynOS.Memory.VmmFresh

/-! malloc, free, zalloc and calloc of libc/stdlib.c. A block is an object of the slab heap or
a run of pages at an address of the kernel's range allocator, with a header of 16 bytes
that holds the size asked for. The range nodes are blocks too; their words are not
modelled, since the trees are values. -/
namespace EvalynOS.Stdlib
open Lib Lib.Word Pmm Vmm Heap

/- The heap, and the fields of kernel_pagemap. -/
structure Kernel where
  heap : KHeap
  topLevel : Nat
  ranges : Vma.Ranges

namespace Kernel

def phys (k : Kernel) : Phys := k.heap.phys

def withPhys (k : Kernel) (s : Phys) : Kernel := { k with heap := { k.heap with phys := s } }

def withMem (k : Kernel) (m : Memory) : Kernel := k.withPhys { k.phys with mem := m }

/- Where an address is in the direct map: addresses of the direct map are themselves, all
others go through the tables. -/
def translate (k : Kernel) (addr : Nat) : Option Nat :=
  if k.phys.hhdmOffset ≤ addr ∧ addr < Vma.vallocInitWindow.lo then some addr
  else
    let frame := vmmGetPhys k.phys k.topLevel addr
    if frame = 0 then none else some (wadd (wadd frame k.phys.hhdmOffset) (addr % pageSize))

def readWord (k : Kernel) (addr : Nat) : Option Nat := (k.translate addr).map k.phys.mem

def writeWord (k : Kernel) (addr value : Nat) : Except Panic Kernel :=
  match k.translate addr with
  | none => .error .pageFault
  | some a => .ok (k.withMem (k.phys.mem.store a value))

/- memset(addr, 0, n), one byte after the other. -/
def zeroBytes : Nat → Nat → Kernel → Except Panic Kernel
  | 0, _, k => .ok k
  | n + 1, addr, k =>
    match k.translate addr with
    | none => .error .pageFault
    | some a => zeroBytes n (wadd addr 1) (k.withMem (k.phys.mem.writeBytes a 1 (fun _ => 0)))

end Kernel

/- The two kinds of blocks. -/
inductive BlockPath where
  | slab
  | page
  deriving DecidableEq, Repr

/- The test that malloc makes of its argument and free of the header. -/
def blockPath (size : Nat) : BlockPath := if size ≤ 1024 then .slab else .page

/- malloc up to 1024 bytes. -/
def slabMalloc (fuel : Nat) (k : Kernel) (size : Nat) : Option (Except Panic (Nat × Kernel)) :=
  (kmalloc fuel k.heap (wadd size 16)).map (fun result => do
    let (block, heap) ← result
    let k ← Kernel.writeWord { k with heap := heap } block size
    .ok (wadd block 16, k))

/- Whether valloc splits the range it has found, and needs a node for that. -/
def splitsRange (pm : Vma.Ranges) (size : Nat) : Bool :=
  if size = 0 then false
  else
    match pm.freeRanges.nodes.find? (fun range => alignUp size pageSize ≤ range.size) with
    | none => false
    | some range => range.size ≠ alignUp size pageSize

def rangeNodeSize : Nat := 56

/- valloc(size) on kernel_pagemap with the malloc of a range node. -/
def kernelValloc (fuel : Nat) (k : Kernel) (size : Nat) : Option (Except Panic (Nat × Kernel)) :=
  let (vaddr, ranges) := Vma.valloc k.ranges size
  if splitsRange k.ranges size then
    (slabMalloc fuel k rangeNodeSize).map (fun result => do
      let (_, k) ← result
      .ok (vaddr, { k with ranges := ranges }))
  else some (.ok (vaddr, { k with ranges := ranges }))

/- The addresses of the loops over a run of pages. -/
def runPages (block size : Nat) : List Nat :=
  (List.range (alignUp (wadd size 16) pageSize / pageSize)).map (fun i => wadd block (i * pageSize))

/- malloc above 1024 bytes. The result of valloc is not tested. -/
def pageMalloc (fuel : Nat) (k : Kernel) (size : Nat) : Option (Except Panic (Nat × Kernel)) :=
  (kernelValloc fuel k (wadd size 16)).map (fun result => do
    let (block, k) ← result
    let s ← mapNewPages k.topLevel (pteWritable ||| pteNx) (runPages block size) k.phys
    let k ← (k.withPhys s).writeWord block size
    .ok (wadd block 16, k))

def malloc (fuel : Nat) (k : Kernel) (size : Nat) : Option (Except Panic (Nat × Kernel)) :=
  match blockPath size with
  | .slab => slabMalloc fuel k size
  | .page => pageMalloc fuel k size

/- The loop of free over a run of pages. -/
def unmapPages (topLevel : Nat) : List Nat → Phys → Except Panic Phys
  | [], s => .ok s
  | virt :: rest, s => do
    let phys := vmmGetPhys s topLevel virt
    let s := vmmUnmapPage s topLevel virt
    let s ← if phys ≠ 0 then freePage s phys else .ok s
    unmapPages topLevel rest s

/- The range nodes that vfree needs. -/
def vfreeNodes (pm : Vma.Ranges) (vaddr size : Nat) : Nat :=
  match (Vma.vfree pm vaddr size).1, pm.usedRanges.find ⟨vaddr, 0⟩ with
  | 2, _ => 1
  | 3, some range =>
    if wsub (wsub range.size (wsub vaddr range.vaddr)) (alignUp size pageSize) = 0 then 1 else 2
  | _, _ => 0

def mallocNodes (fuel : Nat) : Nat → Kernel → Option (Except Panic Kernel)
  | 0, k => some (.ok k)
  | n + 1, k =>
    match slabMalloc fuel k rangeNodeSize with
    | none => none
    | some (.error e) => some (.error e)
    | some (.ok (_, k)) => mallocNodes fuel n k

/- vfree(vaddr, size) on kernel_pagemap. -/
def kernelVfree (fuel : Nat) (k : Kernel) (vaddr size : Nat) : Option (Except Panic Kernel) :=
  (mallocNodes fuel (vfreeNodes k.ranges vaddr size) k).map (fun result =>
    result.map (fun k' => { k' with ranges := (Vma.vfree k.ranges vaddr size).2 }))

/- The two branches of free, with the size in the header. -/
def freeBy (fuel : Nat) (k : Kernel) (block size : Nat) : BlockPath → Option (Except Panic Kernel)
  | .slab => some (.ok { k with heap := kfree k.heap block })
  | .page =>
    match unmapPages k.topLevel (runPages block size) k.phys with
    | .error e => some (.error e)
    | .ok s => kernelVfree fuel (k.withPhys s) block (wadd size 16)

def free (fuel : Nat) (k : Kernel) (ptr : Nat) : Option (Except Panic Kernel) :=
  let block := wsub ptr 16
  match k.readWord block with
  | none => some (.error .pageFault)
  | some size => freeBy fuel k block size (blockPath size)

def zalloc (fuel : Nat) (k : Kernel) (size : Nat) : Option (Except Panic (Nat × Kernel)) :=
  (malloc fuel k size).map (fun result => do
    let (ptr, k) ← result
    let k ← k.zeroBytes size ptr
    .ok (ptr, k))

def sizeMax : Nat := 2 ^ 64 - 1

/- The size of the product is tested before it is taken; NULL is 0. -/
def calloc (fuel : Nat) (k : Kernel) (nmemb size : Nat) : Option (Except Panic (Nat × Kernel)) :=
  if nmemb = 0 ∨ size = 0 then malloc fuel k 0
  else if sizeMax / size < nmemb then some (.ok (0, k))
  else
    let total := nmemb * size % 2 ^ 64
    (malloc fuel k total).map (fun result => do
      let (ptr, k) ← result
      let k ← k.zeroBytes total ptr
      .ok (ptr, k))

end EvalynOS.Stdlib
