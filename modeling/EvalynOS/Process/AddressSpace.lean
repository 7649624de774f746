import EvalynOS.Memory.Vma
import EvalynOS.Memory.VmmFresh

/-! The address space of a user process: new_pagemap of memory/vmm.c, the system calls of
syscalls/memory, and the stack that spawn_app_kthread of apps/shell.c gives a program. -/
namespace EvalynOS.Process
open Lib Lib.Word Pmm Vmm

/- The memory and the pagemap_t of the process. The nodes of the range trees are values
here, so that the calls of malloc for them do not appear. -/
structure AddressSpace where
  phys : Phys
  topLevel : Nat
  ranges : Vma.Ranges

/-- new_pagemap(): the upper half of the top level is that of the kernel, the lower half
is empty, and all of the window is free. -/
def newPagemap (s : Phys) (kernelTop : Nat) : Except Panic AddressSpace := do
  let (pml4Phys, s) ← allocatePage s
  let pml4Virt := wadd pml4Phys s.hhdmOffset
  let copied : Memory := fun a =>
    if pml4Virt ≤ a ∧ a < pml4Virt + pageSize then s.mem (kernelTop + (a - pml4Virt)) else s.mem a
  .ok ⟨{ s with mem := copied.clear pml4Virt (pageSize / 2) }, pml4Virt, Vma.newPagemapWindow.fresh⟩

/-- sys_mmap with the size in rbx; rax is the address. The number of pages is a uint32_t. -/
def sysMmap (space : AddressSpace) (rbx : Nat) : Except Panic (Nat × AddressSpace) := do
  let (allocPos, ranges) := Vma.valloc space.ranges rbx
  let heapPages := alignUp rbx pageSize / pageSize % 2 ^ 32
  let virts := (List.range heapPages).map (fun i => wadd allocPos (i * pageSize))
  let s ← mapNewPages space.topLevel (ptePresent ||| pteUser ||| pteWritable ||| pteNx) virts space.phys
  .ok (allocPos, { space with phys := s, ranges := ranges })

/- The parts of limine_framebuffer that sys_fb_map reads. -/
structure Framebuffer where
  address : Nat
  pitch : Nat
  height : Nat

def Framebuffer.pages (fb : Framebuffer) : Nat :=
  let totalBytes := fb.pitch * fb.height % 2 ^ 32
  (totalBytes + pageSize - 1) % 2 ^ 32 / pageSize % 2 ^ 16

def fbVirt : Nat := 0xA0000000

/- The loop of sys_fb_map, which maps pages that exist already. -/
def mapFrames (topLevel flags : Nat) : List (Nat × Nat) → Phys → Except Panic Phys
  | [], s => .ok s
  | (virt, phys) :: rest, s => do
    let s ← vmmMapPage s topLevel virt phys flags
    mapFrames topLevel flags rest s

/-- sys_fb_map. Write combining is asked for on real hardware only. -/
def sysFbMap (space : AddressSpace) (fb : Framebuffer) (hypervisor : Bool) :
    Except Panic AddressSpace := do
  let physAddr := wsub fb.address space.phys.hhdmOffset
  let flags := if hypervisor then ptePresent ||| pteUser ||| pteWritable
    else ptePresent ||| pteUser ||| pteWritable ||| ptePcd ||| ptePat
  let frames := (List.range fb.pages).map (fun i =>
    (wadd fbVirt (i * 0x1000), wadd physAddr (i * 0x1000)))
  let s ← mapFrames space.topLevel flags frames space.phys
  .ok { space with phys := s }

def stackSize : Nat := 64 * 1024

/-- The stack of spawn_app_kthread, mapped from its top page down. -/
def spawnStack (space : AddressSpace) : Except Panic (Nat × AddressSpace) := do
  let (base, ranges) := Vma.valloc space.ranges stackSize
  let stackTop := wadd base stackSize
  let virts := (List.range (stackSize / pageSize)).map (fun i =>
    wsub (wsub stackTop pageSize) (i * pageSize))
  let s ← mapNewPages space.topLevel (ptePresent ||| pteUser ||| pteWritable) virts space.phys
  .ok (stackTop, { space with phys := s, ranges := ranges })

end EvalynOS.Process
