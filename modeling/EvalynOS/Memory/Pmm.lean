import EvalynOS.Lib.Memory
import EvalynOS.Lib.Word

/-! The physical page allocator of memory/pmm.c. Memory is indexed by the addresses of
the direct map; the free list is threaded through it. The tables of the page frame
database are values: they lie in front of the pages they describe, where no client
writes. Each function runs under its spinlock. -/
namespace EvalynOS.Pmm
open Lib Lib.Word

def pageSize : Nat := 4096

/- The ways the memory code stops the kernel. -/
inductive Panic where
  | noParentTable
  | outOfBounds
  | outOfMemory
  | notInPfndb
  | usedPage
  | uninitPage
  | doubleFree
  | noMem
  | pageFault
  deriving DecidableEq, Repr

def Panic.message : Panic → String
  | .noParentTable => "PMM: could not find space for parent table"
  | .outOfBounds => "PMM: attempted to get info on out of bounds page that was meant to be in range"
  | .outOfMemory => "PMM: out of memory"
  | .notInPfndb => "PMM: attempted to allocate page not in PFNdb"
  | .usedPage => "PMM: attempted to allocate used page"
  | .uninitPage => "PMM: attempted to free an uninit page"
  | .doubleFree => "PMM: attempted to double free"
  | .noMem => "no mem"
  | .pageFault => "Page Fault"

inductive PageState where
  | uninit
  | free
  | used
  deriving DecidableEq, Repr

structure ChildTable where
  start : Nat
  endAddr : Nat
  numPages : Nat
  pages : List PageState
  deriving DecidableEq, Repr

/- The allocator's variables, `tables` for the parent table and the cursor of pmm_fill
among them, and the memory. -/
structure Phys where
  hhdmOffset : Nat
  tables : List ChildTable
  freelistHead : Nat
  fillT : Nat
  fillP : Nat
  totalPages : Nat
  usedPages : Nat
  mem : Memory

def Phys.pageAt (s : Phys) (info : Nat × Nat) : Option PageState :=
  (s.tables[info.1]?).bind (fun c => c.pages[info.2]?)

def Phys.setPage (s : Phys) (info : Nat × Nat) (state : PageState) : Phys :=
  { s with tables := s.tables.modify info.1 (fun c => { c with pages := c.pages.set info.2 state }) }

/- The loop of get_page_info from the table number `i` on. Both ends of a table's
range count as inside. -/
def findPage (phys : Nat) : Nat → List ChildTable → Except Panic (Option (Nat × Nat))
  | _, [] => .ok none
  | i, c :: rest =>
    if c.start ≤ phys ∧ phys ≤ c.endAddr then
      let index := wsub (alignDown phys pageSize) c.start / pageSize
      if index ≥ c.numPages then .error .outOfBounds else .ok (some (i, index))
    else findPage phys (i + 1) rest

/-- get_page_info: a pointer to the page's entry is its place in the tables. -/
def getPageInfo (s : Phys) (phys : Nat) : Except Panic (Option (Nat × Nat)) := findPage phys 0 s.tables

/- One round of the inner loop of pmm_fill. -/
def fillOne (s : Phys) (child : ChildTable) : Phys × Nat :=
  let pageAddr := child.start + pageSize * s.fillP
  if s.pageAt (s.fillT, s.fillP) = some .uninit then
    let node := pageAddr + s.hhdmOffset
    ({ s.setPage (s.fillT, s.fillP) .free with
      mem := s.mem.store node s.freelistHead, freelistHead := node, fillP := s.fillP + 1 }, 1)
  else ({ s with fillP := s.fillP + 1 }, 0)

/- The inner loop; the first argument bounds its rounds. -/
def fillChild (pages : Nat) (child : ChildTable) : Nat → Phys → Nat → Phys × Nat
  | 0, s, added => (s, added)
  | rounds + 1, s, added =>
    if s.fillP < child.numPages ∧ added < pages then
      let (s, one) := fillOne s child
      fillChild pages child rounds s (added + one)
    else (s, added)

/- The outer loop of pmm_fill. -/
def fillTables (pages : Nat) : Nat → Phys → Nat → Phys × Nat
  | 0, s, added => (s, added)
  | rounds + 1, s, added =>
    match s.tables[s.fillT]? with
    | none => (s, added)
    | some child =>
      if added < pages then
        let (s, added) := fillChild pages child (child.numPages - s.fillP) s added
        let s := if s.fillP ≥ child.numPages then { s with fillT := s.fillT + 1, fillP := 0 } else s
        fillTables pages rounds s added
      else (s, added)

def pmmFill (s : Phys) (pages : Nat) : Phys := (fillTables pages (s.tables.length - s.fillT + 1) s 0).1

def allocatePage (s : Phys) : Except Panic (Nat × Phys) :=
  let s := if s.freelistHead = 0 then pmmFill s 512 else s
  if s.freelistHead = 0 then .error .outOfMemory
  else
    let node := s.freelistHead
    let s := { s with freelistHead := s.mem node }
    let phys := wsub node s.hhdmOffset
    match getPageInfo s phys with
    | .error e => .error e
    | .ok none => .error .notInPfndb
    | .ok (some info) =>
      if s.pageAt info = some .used then .error .usedPage
      else .ok (phys, { s.setPage info .used with
        usedPages := s.usedPages + 1, mem := s.mem.clear node pageSize })

def freePage (s : Phys) (phys : Nat) : Except Panic Phys :=
  match getPageInfo s phys with
  | .error e => .error e
  | .ok none => .ok s
  | .ok (some info) =>
    if s.pageAt info = some .uninit then .error .uninitPage
    else if s.pageAt info = some .free then .error .doubleFree
    else
      let node := wadd phys s.hhdmOffset
      .ok { s.setPage info .free with
        usedPages := s.usedPages - 1, mem := s.mem.store node s.freelistHead, freelistHead := node }

/-! The boot loader's memory map and the tables built from it. -/

inductive MemmapType where
  | usable
  | reserved
  | acpiReclaimable
  | acpiNvs
  | badMemory
  | bootloaderReclaimable
  | executableAndModules
  | framebuffer
  deriving DecidableEq, Repr

structure MemmapEntry where
  base : Nat
  length : Nat
  type : MemmapType
  deriving DecidableEq, Repr

/- The regions that get a table of their own. -/
def isUsableRegion (e : MemmapEntry) : Bool := e.type = .usable && e.length > pageSize * 16

/- Sizes of pmm_parent_table_t with one pointer per region, and of pmm_child_table_t
with one page_t per page. -/
def parentTableSize (memmap : List MemmapEntry) : Nat := 8 + 8 * (memmap.filter isUsableRegion).length
def childTableSize (numPages : Nat) : Nat := 24 + 4 * numPages

def childTable (hhdmOffset parentTable parentSize : Nat) (e : MemmapEntry) : Option ChildTable :=
  if isUsableRegion e then
    let size := childTableSize (e.length / pageSize)
    let first := wadd (alignUp e.base pageSize) hhdmOffset
    let child := if first = parentTable then wadd parentTable parentSize else first
    let start := alignUp (wadd (wsub child hhdmOffset) size) pageSize
    let endAddr := alignDown (wadd e.base e.length) pageSize
    if endAddr ≤ start then none
    else
      let numPages := (endAddr - start) / pageSize
      some {
        start := start, endAddr := endAddr, numPages := numPages
        pages := List.replicate numPages .uninit }
  else none

/- The variables before the first pmm_fill. -/
def unfilled (hhdmOffset : Nat) (tables : List ChildTable) (mem : Memory) : Phys where
  hhdmOffset := hhdmOffset
  tables := tables
  freelistHead := 0
  fillT := 0
  fillP := 0
  totalPages := (tables.map ChildTable.numPages).sum
  usedPages := 0
  mem := mem

def setupPmm (hhdmOffset : Nat) (memmap : List MemmapEntry) (mem : Memory) : Except Panic Phys :=
  match memmap.find? isUsableRegion with
  | none => .error .noParentTable
  | some e =>
    let parentTable := wadd (alignUp e.base pageSize) hhdmOffset
    let tables := memmap.filterMap (childTable hhdmOffset parentTable (parentTableSize memmap))
    .ok (pmmFill (unfilled hhdmOffset tables mem) 512)

end EvalynOS.Pmm
