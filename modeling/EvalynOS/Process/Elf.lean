import EvalynOS.Process.AddressSpace

/-! elf/elf_checker.c and elf/elf_loader.c. A file is its bytes; offsets into it are 64-bit
words, as pointer arithmetic is. -/
namespace EvalynOS.Process
open Lib Lib.Word Pmm Vmm

abbrev File := Nat → Nat

/- A little-endian number of `n` bytes. -/
def File.number (file : File) (offset n : Nat) : Nat :=
  ((List.range n).map (fun j => file (wadd offset j) % 256 * 256 ^ j)).sum

def File.u16 (file : File) (offset : Nat) : Nat := file.number offset 2
def File.u32 (file : File) (offset : Nat) : Nat := file.number offset 4
def File.u64 (file : File) (offset : Nat) : Nat := file.number offset 8

/- The fields of elf_header_64 that are read. -/
structure ElfHeader where
  magic : List Nat
  bits : Nat
  endianness : Nat
  headerVersion : Nat
  abi : Nat
  type : Nat
  arch : Nat
  elfVersion : Nat
  entryPoint : Nat
  programHeaderTable : Nat
  programHeaderSize : Nat
  programHeaderEntries : Nat

def elfHeader (file : File) : ElfHeader where
  magic := (List.range 4).map (fun i => file i % 256)
  bits := file 4 % 256
  endianness := file 5 % 256
  headerVersion := file 6 % 256
  abi := file 7 % 256
  type := file.u16 16
  arch := file.u16 18
  elfVersion := file.u32 20
  entryPoint := file.u64 24
  programHeaderTable := file.u64 32
  programHeaderSize := file.u16 54
  programHeaderEntries := file.u16 56

def verifyElfMagic (header : ElfHeader) : Bool := header.magic = [0x7F, 0x45, 0x4C, 0x46]

def elf32Bit : Nat := 1
def elf64Bit : Nat := 2
def elfLittleEndian : Nat := 1
def elfHeaderVer : Nat := 1
def elfVer : Nat := 1
def elfX8664Arch : Nat := 0x3E
def elfSysvAbi : Nat := 0
def elfExecutableType : Nat := 2

/-- verify_elf_64. A 32-bit file is reported and accepted all the same. -/
def verifyElf64 (file : File) : Bool :=
  let header := elfHeader file
  if ¬ verifyElfMagic header then false
  else if header.headerVersion ≠ elfHeaderVer then false
  else if header.elfVersion ≠ elfVer then false
  else if header.bits ≠ elf64Bit ∧ header.bits ≠ elf32Bit then false
  else if header.endianness ≠ elfLittleEndian then false
  else if header.arch ≠ elfX8664Arch then false
  else if header.abi ≠ elfSysvAbi then false
  else header.type = elfExecutableType

/- The fields of elf_program_header_64 that are read. -/
structure ProgramHeader where
  type : Nat
  flags : Nat
  offset : Nat
  virtAddr : Nat
  fileSize : Nat
  memSize : Nat
  alignment : Nat
  deriving DecidableEq, Repr

def programHeaderAt (file : File) (offset : Nat) : ProgramHeader where
  type := file.u32 offset
  flags := file.u32 (wadd offset 4)
  offset := file.u64 (wadd offset 8)
  virtAddr := file.u64 (wadd offset 16)
  fileSize := file.u64 (wadd offset 32)
  memSize := file.u64 (wadd offset 40)
  alignment := file.u64 (wadd offset 48)

/- The array prog_headers; an element has 56 bytes, whatever the header says. -/
def programHeaders (file : File) : List ProgramHeader :=
  (List.range (elfHeader file).programHeaderEntries).map (fun i =>
    programHeaderAt file (wadd (elfHeader file).programHeaderTable (56 * i)))

def elfProgPtLoadType : Nat := 1
def elfProgExecFlag : Nat := 1
def elfProgWrite : Nat := 2

namespace ProgramHeader

def isLoad (ph : ProgramHeader) : Bool := ph.type = elfProgPtLoadType

def pagesToMap (ph : ProgramHeader) : Nat :=
  wsub (alignUp (wadd ph.virtAddr ph.memSize) pageSize) (alignDown ph.virtAddr pageSize) / pageSize

def pteFlags (ph : ProgramHeader) : Nat :=
  let flags := ptePresent ||| pteUser
  let flags := if ph.flags &&& elfProgWrite ≠ 0 then flags ||| pteWritable else flags
  if ph.flags &&& elfProgExecFlag = 0 then flags ||| pteNx else flags

/- currentVirtAddr before the loop. -/
def firstVirtAddr (ph : ProgramHeader) : Nat :=
  if 1 < ph.alignment then alignDown ph.virtAddr ph.alignment else ph.virtAddr

def vaddrOffset (ph : ProgramHeader) : Nat := wsub ph.virtAddr ph.firstVirtAddr

/- The size that is reserved. -/
def reservedSize (ph : ProgramHeader) : Nat := wadd ph.memSize ph.vaddrOffset

end ProgramHeader

/- The three writes to a new page, at the address `vpage` of the direct map. -/
def fillPage (m : Memory) (file : File) (vpage offset src toCopy : Nat) : Memory :=
  let space := wsub pageSize offset
  let m := if offset ≠ 0 then m.writeBytes vpage offset (fun _ => 0) else m
  let m := if toCopy ≠ 0 then m.writeBytes (wadd vpage offset) toCopy (fun k => file (wadd src k)) else m
  if toCopy < space then
    m.writeBytes (wadd (wadd vpage offset) toCopy) (space - toCopy) (fun _ => 0)
  else m

/- The loop over the pages of a segment, with `count` rounds left. -/
def loadPages (file : File) (topLevel flags vaddrOffset : Nat) :
    Nat → Bool → Nat → Nat → Nat → Phys → Except Panic Phys
  | 0, _, _, _, _, s => .ok s
  | count + 1, first, virt, src, fileRemaining, s => do
    let (ppage, s) ← allocatePage s
    let vpage := wadd ppage s.hhdmOffset
    let s ← vmmMapPage s topLevel virt ppage flags
    let offset := if first then vaddrOffset else 0
    let space := wsub pageSize offset
    let toCopy := min fileRemaining space
    let s := { s with mem := fillPage s.mem file vpage offset src toCopy }
    loadPages file topLevel flags vaddrOffset count false (wadd virt pageSize) (wadd src toCopy)
      (fileRemaining - toCopy) s

/- One round of the loop over the program headers. The result of valloc is not looked at. -/
def loadSegment (file : File) (space : AddressSpace) (ph : ProgramHeader) : Except Panic AddressSpace :=
  if ¬ ph.isLoad then .ok space
  else do
    let (_, ranges) := Vma.vallocFixed space.ranges ph.reservedSize ph.firstVirtAddr false
    let s ← loadPages file space.topLevel ph.pteFlags ph.vaddrOffset ph.pagesToMap true ph.firstVirtAddr
      ph.offset ph.fileSize space.phys
    .ok { space with phys := s, ranges := ranges }

def loadSegments (file : File) : List ProgramHeader → AddressSpace → Except Panic AddressSpace
  | [], space => .ok space
  | ph :: rest, space => do
    let space ← loadSegment file space ph
    loadSegments file rest space

structure ElfInfo where
  entryPoint : Nat
  phdr : Nat
  phentsize : Nat
  phnum : Nat
  deriving DecidableEq, Repr

def loadBase (headers : List ProgramHeader) : Nat :=
  match headers.find? ProgramHeader.isLoad with
  | some ph => wsub ph.virtAddr ph.offset
  | none => 0

def loadElf (file : File) (space : AddressSpace) : Except Panic (ElfInfo × AddressSpace) :=
  if ¬ verifyElf64 file then .ok (⟨0, 0, 0, 0⟩, space)
  else do
    let header := elfHeader file
    let headers := programHeaders file
    let space ← loadSegments file headers space
    .ok (⟨header.entryPoint, wadd (loadBase headers) header.programHeaderTable, header.programHeaderSize,
      header.programHeaderEntries⟩, space)

end EvalynOS.Process
