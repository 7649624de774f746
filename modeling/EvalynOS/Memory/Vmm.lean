import EvalynOS.Memory.Pmm

/-! The four-level page tables of memory/vmm.c. A pagemap is named by its `top_level`
pointer; tables are pages of the physical allocator, read and written through the
direct map. -/
namespace EvalynOS.Vmm
open Lib Lib.Word Pmm

def largePageSize : Nat := 0x200000
def jumboPageSize : Nat := 0x40000000

def pteMask : Nat := 0x000ffffffffff000

def ptePresent : Nat := 0x1
def pteWritable : Nat := 0x2
def pteUser : Nat := 0x4
def ptePwt : Nat := 0x8
def ptePcd : Nat := 0x10
def pteAccessed : Nat := 0x20
def pteDirty : Nat := 0x40
def ptePs : Nat := 0x80
def ptePat : Nat := 0x80
def pteGlobal : Nat := 0x100
def pteLocked : Nat := 0x200
def pteCow : Nat := 0x400
def pteAvl : Nat := 0x800
def pteNx : Nat := 0x8000000000000000

def pml1i (virt : Nat) : Nat := (virt >>> 12) &&& 0x1ff
def pml2i (virt : Nat) : Nat := (virt >>> 21) &&& 0x1ff
def pml3i (virt : Nat) : Nat := (virt >>> 30) &&& 0x1ff
def pml4i (virt : Nat) : Nat := (virt >>> 39) &&& 0x1ff

/- table[i] for a pointer to 64-bit entries. -/
def slot (table i : Nat) : Nat := table + 8 * i

def pte (s : Phys) (table i : Nat) : Nat := s.mem (slot table i)

def setPte (s : Phys) (table i value : Nat) : Phys := { s with mem := s.mem.store (slot table i) value }

def isPresent (entry : Nat) : Bool := entry &&& ptePresent != 0

/- The direct-map pointer to the table an entry refers to. -/
def tableOf (s : Phys) (entry : Nat) : Nat := wadd (entry &&& pteMask) s.hhdmOffset

/- The step vmm_map_page takes at each of its three upper levels: a missing table is
allocated and entered. -/
def ensureTable (s : Phys) (table i : Nat) : Except Panic Phys :=
  if isPresent (pte s table i) then .ok s
  else do
    let (newPage, s) ← allocatePage s
    let s := setPte s table i (newPage &&& pteMask)
    .ok (setPte s table i (pte s table i ||| (ptePresent ||| pteWritable ||| pteUser)))

def writeEntry (s : Phys) (table i phys flags : Nat) : Phys :=
  let s := setPte s table i (phys &&& pteMask)
  setPte s table i (pte s table i ||| flags)

/-- vmm_map_page with an explicit page size. -/
def vmmMapPageSized (s : Phys) (topLevel virt phys flags size : Nat) : Except Panic Phys := do
  let s ← ensureTable s topLevel (pml4i virt)
  let pml3v := tableOf s (pte s topLevel (pml4i virt))
  if size = jumboPageSize then
    .ok (writeEntry s pml3v (pml3i virt) phys (ptePresent ||| ptePs ||| flags))
  else do
    let s ← ensureTable s pml3v (pml3i virt)
    let pml2v := tableOf s (pte s pml3v (pml3i virt))
    if size = largePageSize then
      .ok (writeEntry s pml2v (pml2i virt) phys (ptePresent ||| ptePs ||| flags))
    else do
      let s ← ensureTable s pml2v (pml2i virt)
      let pml1v := tableOf s (pte s pml2v (pml2i virt))
      .ok (writeEntry s pml1v (pml1i virt) phys (ptePresent ||| flags))

def vmmMapPage (s : Phys) (topLevel virt phys flags : Nat) : Except Panic Phys :=
  vmmMapPageSized s topLevel virt phys flags pageSize

/-- vmm_get_phys, with 0 for NULL. -/
def vmmGetPhys (s : Phys) (topLevel virt : Nat) : Nat :=
  if ¬ isPresent (pte s topLevel (pml4i virt)) then 0
  else
    let pml3v := tableOf s (pte s topLevel (pml4i virt))
    if ¬ isPresent (pte s pml3v (pml3i virt)) then 0
    else
      let pml2v := tableOf s (pte s pml3v (pml3i virt))
      if ¬ isPresent (pte s pml2v (pml2i virt)) then 0
      else
        let pml1v := tableOf s (pte s pml2v (pml2i virt))
        if isPresent (pte s pml1v (pml1i virt)) then pte s pml1v (pml1i virt) &&& pteMask else 0

def vmmUnmapPage (s : Phys) (topLevel virt : Nat) : Phys :=
  if ¬ isPresent (pte s topLevel (pml4i virt)) then s
  else
    let pml3v := tableOf s (pte s topLevel (pml4i virt))
    if ¬ isPresent (pte s pml3v (pml3i virt)) then s
    else
      let pml2v := tableOf s (pte s pml3v (pml3i virt))
      if ¬ isPresent (pte s pml2v (pml2i virt)) then s
      else
        let pml1v := tableOf s (pte s pml2v (pml2i virt))
        setPte s pml1v (pml1i virt) 0

/- The loop of vmm_map_pages_continuous from page `i` on. -/
def mapContinuous (topLevel virt phys flags : Nat) : Nat → Nat → Phys → Except Panic Phys
  | 0, _, s => .ok s
  | count + 1, i, s => do
    let s ← vmmMapPage s topLevel (wadd virt (i * pageSize)) (wadd phys (i * pageSize)) flags
    mapContinuous topLevel virt phys flags count (i + 1) s

def vmmMapPagesContinuous (s : Phys) (topLevel virt phys pageCount flags : Nat) : Except Panic Phys :=
  mapContinuous topLevel virt phys flags pageCount 0 s

/- The rights an entry gives. -/
structure Rights where
  writable : Bool
  user : Bool
  noExecute : Bool
  deriving DecidableEq, Repr

def rightsOf (entry : Nat) : Rights := ⟨entry.testBit 1, entry.testBit 2, entry.testBit 63⟩

def Rights.meet (a b : Rights) : Rights :=
  ⟨a.writable && b.writable, a.user && b.user, a.noExecute || b.noExecute⟩

/-- What the processor makes of an address mapped by a 4 KiB page: the rights are the
conjunction of the four levels' writable and user bits, and each level can forbid
execution. -/
def hardwareWalk (s : Phys) (topLevel virt : Nat) : Option (Nat × Rights) :=
  let e4 := pte s topLevel (pml4i virt)
  let e3 := pte s (tableOf s e4) (pml3i virt)
  let e2 := pte s (tableOf s e3) (pml2i virt)
  let e1 := pte s (tableOf s e2) (pml1i virt)
  if isPresent e4 && isPresent e3 && !e3.testBit 7 && isPresent e2 && !e2.testBit 7 && isPresent e1 then
    some (e1 &&& pteMask, (((rightsOf e4).meet (rightsOf e3)).meet (rightsOf e2)).meet (rightsOf e1))
  else none

end EvalynOS.Vmm
