import EvalynOS.Memory.Pmm

/-! The slab allocator of memory/heap.c. A slab is a page with a header of four words,
other_slabs, obj_size, obj_am and objects, in front of its objects; the free objects
are linked through their first words. A loop that has used up its fuel is `none`. -/
namespace EvalynOS.Heap
open Lib Lib.Word Pmm

structure SlabCache where
  size : Nat
  slabs : Nat
  deriving DecidableEq, Repr

/- The memory and the array slab_caches. -/
structure KHeap where
  phys : Phys
  caches : List SlabCache

def headerSize : Nat := 32

def objSizeAt (slab : Nat) : Nat := slab + 8
def objAmAt (slab : Nat) : Nat := slab + 16
def objectsAt (slab : Nat) : Nat := slab + 24

/- The loop of new_slab from object `i` on, with the object before it. -/
def linkObjects (base objSize : Nat) : Nat → Nat → Memory → Nat → Memory × Nat
  | 0, _, m, prev => (m, prev)
  | count + 1, i, m, prev =>
    let newOb := base + i * objSize
    linkObjects base objSize count (i + 1) (m.store newOb prev) newOb

/- What new_slab writes to its page. -/
def initSlab (m : Memory) (slab objSize : Nat) : Memory :=
  let objAm := (pageSize - headerSize) / objSize
  let m := (m.store (objSizeAt slab) objSize).store (objAmAt slab) objAm
  let first := slab + headerSize
  let (m, last) := linkObjects first objSize (objAm - 1) 1 m first
  m.store (objectsAt slab) last

def newSlab (s : Phys) (objSize : Nat) : Except Panic (Nat × Phys) := do
  let (page, s) ← allocatePage s
  let slab := wadd page s.hhdmOffset
  .ok (slab, { s with mem := initSlab s.mem slab objSize })

def allocateWithSlab : Nat → Phys → Nat → Option (Except Panic (Nat × Phys))
  | 0, _, _ => none
  | fuel + 1, s, slab =>
    let objects := s.mem (objectsAt slab)
    if objects ≠ 0 then
      if s.mem objects ≠ 0 then
        let m := s.mem.store (objectsAt slab) (s.mem objects)
        some (.ok (objects, { s with mem := m.store (objAmAt slab) (wsub (m (objAmAt slab)) 1) }))
      else
        let m := s.mem.store (objAmAt slab) (wsub (s.mem (objAmAt slab)) 1)
        some (.ok (objects, { s with mem := m.store (objectsAt slab) 0 }))
    else if s.mem slab ≠ 0 then allocateWithSlab fuel s (s.mem slab)
    else
      match newSlab s (s.mem (objSizeAt slab)) with
      | .error e => some (.error e)
      | .ok (newSl, s) => allocateWithSlab fuel { s with mem := s.mem.store slab newSl } newSl

def slabSizes : List Nat := [32, 64, 128, 256, 512, 1024]

def initCaches : List Nat → Phys → Except Panic (List SlabCache × Phys)
  | [], s => .ok ([], s)
  | size :: sizes, s => do
    let (slab, s) ← newSlab s size
    let (rest, s) ← initCaches sizes s
    .ok (⟨size, slab⟩ :: rest, s)

def setupHeap (s : Phys) : Except Panic KHeap := do
  let (caches, s) ← initCaches slabSizes s
  .ok ⟨s, caches⟩

def kmalloc (fuel : Nat) (h : KHeap) (size : Nat) : Option (Except Panic (Nat × KHeap)) :=
  match h.caches.find? (fun cache => size ≤ cache.size) with
  | none => some (.error .noMem)
  | some cache =>
    (allocateWithSlab fuel h.phys cache.slabs).map (fun result =>
      result.map (fun (ptr, s) => (ptr, { h with phys := s })))

/- The slab of a pointer, found by masking. -/
def slabOf (ptr : Nat) : Nat := alignDown ptr pageSize

def kfree (h : KHeap) (ptr : Nat) : KHeap :=
  if ptr = 0 then h
  else
    let hea := slabOf ptr
    let m := h.phys.mem.clear ptr (h.phys.mem (objSizeAt hea))
    let m := if m (objectsAt hea) = 0 then m else m.store ptr (m (objectsAt hea))
    let m := m.store (objectsAt hea) ptr
    { h with phys := { h.phys with mem := m.store (objAmAt hea) (wadd (m (objAmAt hea)) 1) } }

end EvalynOS.Heap
