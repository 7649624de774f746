import EvalynOS.Lib.SearchTree
import EvalynOS.Lib.Word

/-! The virtual range allocator of memory/vma.c: two search trees of page ranges,
one for the free ranges of an address space and one for the used ones. Lengths
and addresses are 64-bit words. The nodes' `type` byte is read by no function and
is left out; malloc of a node always succeeds here. -/
namespace EvalynOS.Vma
open Lib Lib.Word

def pageSize : Nat := 0x1000

/-- vmm_page_range_t. -/
structure PageRange where
  vaddr : Nat
  size : Nat
  deriving DecidableEq, Repr

/-- vmm_cmp_range. An address inside the right range compares equal to it; the end
of the right range is computed with wraparound. -/
def vmmCmpRange (left right : PageRange) : Ordering :=
  if right.vaddr ≤ left.vaddr ∧ left.vaddr < wadd right.vaddr right.size then .eq
  else if left.vaddr < right.vaddr then .lt
  else if right.vaddr < left.vaddr then .gt
  else .eq

abbrev VallocTree := SearchTree (⟨vmmCmpRange, PageRange.vaddr⟩ : Comparator PageRange)

/-- The range trees of pagemap_t. The last field is ghost state: the nodes whose
RB_INSERT was refused, a result the C code never looks at. -/
structure Ranges where
  freeRanges : VallocTree
  usedRanges : VallocTree
  refused : List PageRange
  deriving DecidableEq

namespace Ranges

def insertFree (pm : Ranges) (r : PageRange) : Ranges :=
  match pm.freeRanges.insert r with
  | some t => { pm with freeRanges := t }
  | none => { pm with refused := r :: pm.refused }

def insertUsed (pm : Ranges) (r : PageRange) : Ranges :=
  match pm.usedRanges.insert r with
  | some t => { pm with usedRanges := t }
  | none => { pm with refused := r :: pm.refused }

def removeFree (pm : Ranges) (r : PageRange) : Ranges :=
  { pm with freeRanges := pm.freeRanges.remove r }

def removeUsed (pm : Ranges) (r : PageRange) : Ranges :=
  { pm with usedRanges := pm.usedRanges.remove r }

end Ranges

/-- valloc(pagemap, size): first fit over the free ranges. Zero means failure. -/
def valloc (pm : Ranges) (size : Nat) : Nat × Ranges :=
  if size = 0 then (0, pm) else
  let size := alignUp size pageSize
  if pm.freeRanges.nodes = [] then (0, pm) else
  match pm.freeRanges.nodes.find? (fun range => size ≤ range.size) with
  | none => (0, pm)
  | some range =>
    let pm := pm.removeFree range
    if range.size = size then (range.vaddr, pm.insertUsed range)
    else
      let splitRange : PageRange := ⟨range.vaddr, size⟩
      let range : PageRange := ⟨wadd range.vaddr size, wsub range.size size⟩
      (splitRange.vaddr, (pm.insertFree range).insertUsed splitRange)

/-- valloc(pagemap, size, fixed_addr, noreplace). -/
def vallocFixed (pm : Ranges) (size fixedAddr : Nat) (noreplace : Bool) : Nat × Ranges :=
  if ¬ isAligned fixedAddr pageSize then (0, pm) else
  let size := alignUp size pageSize
  let uresult := pm.usedRanges.find ⟨fixedAddr, 0⟩
  if noreplace ∧ uresult.isSome then (0, pm) else
  match uresult with
  | some u =>
    if size ≤ u.size then (fixedAddr, pm)
    else reserve pm (wsub size u.size) (wadd fixedAddr u.size)
  | none => reserve pm size fixedAddr
where
  /-- The part from the lookup in the free tree on, with the adjusted request. -/
  reserve (pm : Ranges) (size fixedAddr : Nat) : Nat × Ranges :=
    match pm.freeRanges.find ⟨fixedAddr, 0⟩ with
    | none => (0, pm)
    | some fresult =>
      let pm := pm.removeFree fresult
      if fixedAddr = fresult.vaddr then
        if size = fresult.size then (fresult.vaddr, pm.insertUsed fresult)
        else
          let splitRange : PageRange := ⟨fresult.vaddr, size⟩
          let fresult : PageRange := ⟨wadd fresult.vaddr size, wsub fresult.size size⟩
          (splitRange.vaddr, (pm.insertFree fresult).insertUsed splitRange)
      else
        let preSize := wsub fixedAddr fresult.vaddr
        let postSize := wsub (wsub fresult.size preSize) size
        let pm := pm.insertUsed ⟨fixedAddr, size⟩
        let pm := if 0 < preSize then pm.insertFree ⟨fresult.vaddr, preSize⟩ else pm
        let pm := if 0 < postSize then pm.insertFree ⟨wadd fixedAddr size, postSize⟩ else pm
        (fixedAddr, pm)

/-- vfree(pagemap, vaddr, size). Zero means that nothing was released. -/
def vfree (pm : Ranges) (vaddr size : Nat) : Nat × Ranges :=
  if ¬ isAligned vaddr pageSize then (0, pm) else
  let size := alignUp size pageSize
  match pm.usedRanges.find ⟨vaddr, 0⟩ with
  | none => (0, pm)
  | some uresult =>
    if wadd uresult.vaddr uresult.size < wadd vaddr size then (0, pm) else
    let pm := pm.removeUsed uresult
    if uresult.vaddr = vaddr then
      if uresult.size = size then (1, pm.insertFree uresult)
      else
        let splitRange : PageRange := ⟨uresult.vaddr, size⟩
        let uresult : PageRange := ⟨wadd uresult.vaddr size, wsub uresult.size size⟩
        (2, (pm.insertUsed uresult).insertFree splitRange)
    else
      let preSize := wsub vaddr uresult.vaddr
      let postSize := wsub (wsub uresult.size preSize) size
      let pm := pm.insertFree ⟨vaddr, size⟩
      let pm := if 0 < preSize then pm.insertUsed ⟨uresult.vaddr, preSize⟩ else pm
      let pm := if 0 < postSize then pm.insertUsed ⟨wadd vaddr size, postSize⟩ else pm
      (3, pm)

/-- A page-aligned window of addresses that does not contain address zero. -/
structure Window where
  lo : Nat
  hi : Nat
  positive : 0 < lo
  nonempty : lo < hi
  bounded : hi < 2 ^ 64
  alignedLo : pageSize ∣ lo
  alignedHi : pageSize ∣ hi

/-- The trees new_pagemap and valloc_init leave: one free range, no used one. -/
def Window.fresh (w : Window) : Ranges :=
  ⟨.singleton _ ⟨w.lo, w.hi - w.lo⟩, .empty _, []⟩

/-- The free range new_pagemap gives a process. The upper bound is decimal in the source. -/
def newPagemapWindow : Window where
  lo := 0x1000
  hi := 400000000000
  positive := by decide
  nonempty := by decide
  bounded := by decide
  alignedLo := by decide
  alignedHi := by decide

/-- VALLOC_RANGE_START and VALLOC_RANGE_END, the kernel's window. -/
def vallocInitWindow : Window where
  lo := 0xFFFFA00000000000
  hi := 0xFFFFE00000000000
  positive := by decide
  nonempty := by decide
  bounded := by decide
  alignedLo := by decide
  alignedHi := by decide

end EvalynOS.Vma
