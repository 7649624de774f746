import Mathlib

/-! The ustar file system of filesystem/tarfs/tarfs.c and the list of files of
filesystem/filesystem.c. The archive is byte memory; a walk over its headers has no bound
of its own, so that it is given fuel. -/
namespace EvalynOS.Tarfs

abbrev Memory := Int → UInt8

structure CString where
  bytes : List UInt8
  terminated : 0 ∉ bytes
  deriving DecidableEq

/- Why a call does not come back with a result: undefined behaviour (an int that overflows,
a string that does not fit its buffer), or a walk that needs more fuel. -/
inductive Stuck where
  | overflow
  | running
  deriving DecidableEq, Repr

/- The result of an int operation. -/
def int (x : Int) : Except Stuck Int :=
  if -2 ^ 31 ≤ x ∧ x < 2 ^ 31 then .ok x else .error .overflow

/- memcmp is 0. -/
def memcmp (m : Memory) (ptr : Int) : List UInt8 → Bool
  | [] => true
  | byte :: rest => m ptr == byte && memcmp m (ptr + 1) rest

def strcpy (m : Memory) : (room : Nat) → (src : Int) → Except Stuck (List UInt8)
  | 0, _ => .error .overflow
  | room + 1, src =>
    if m src = 0 then .ok []
    else do
      let rest ← strcpy m room (src + 1)
      .ok (m src :: rest)

def oct2bin (m : Memory) (c n : Int) : (size : Nat) → Except Stuck Int
  | 0 => .ok n
  | size + 1 => do
    let n ← int (n * 8)
    let n ← int (n + ((m c).toNat - 48))
    oct2bin m (c + 1) n size

def isUstar (m : Memory) (ptr : Int) : Bool := memcmp m (ptr + 257) [117, 115, 116, 97, 114]

def fileSize (m : Memory) (ptr : Int) : Except Stuck Int := oct2bin m (ptr + 0x7c) 0 11

/- The step from one header to the next. -/
def advance (ptr filesize : Int) : Except Stuck Int := do
  let blocks ← int (filesize + 511)
  let blocks ← int (blocks.tdiv 512 + 1)
  let bytes ← int (blocks * 512)
  .ok (ptr + bytes)

/- The loop of tarfsRead and tarfsGetFize: the header that passes the test, and its size. -/
def walk (m : Memory) (test : Int → Bool) : (fuel : Nat) → (ptr : Int) → Except Stuck (Option (Int × Int))
  | 0, _ => .error .running
  | fuel + 1, ptr =>
    if ¬ isUstar m ptr then .ok none
    else do
      let filesize ← fileSize m ptr
      if test ptr then .ok (some (ptr, filesize))
      else do
        let ptr ← advance ptr filesize
        walk m test fuel ptr

def readTest (m : Memory) (path : CString) (ptr : Int) : Bool := memcmp m (ptr + 1) (path.bytes ++ [0])
def sizeTest (m : Memory) (path : CString) (ptr : Int) : Bool := memcmp m ptr (46 :: path.bytes ++ [0])

def fileData (m : Memory) (ptr count : Int) : List UInt8 :=
  (List.range count.toNat).map fun (i : Nat) => m (ptr + 512 + i)

/- The header that tarfsRead selects, if any. -/
def readHeader (m : Memory) (archive : Int) (fuel : Nat) (path : CString) : Except Stuck (Option (Int × Int)) :=
  walk m (readTest m path) fuel archive

/- The value returned, and what is stored in return_data. -/
def tarfsRead (m : Memory) (archive : Int) (fuel : Nat) (path : CString) (readLength : Int) :
    Except Stuck (Int × List UInt8) := do
  match ← readHeader m archive fuel path with
  | none => .ok (-1, [])
  | some (ptr, filesize) =>
    let bytesToCopy := if filesize < readLength then filesize else readLength
    .ok (bytesToCopy, fileData m ptr bytesToCopy)

/- The header that tarfsGetFize selects; its copy of the path has 256 bytes. -/
def sizeHeader (m : Memory) (archive : Int) (fuel : Nat) (path : CString) : Except Stuck (Option (Int × Int)) :=
  if 254 < path.bytes.length then .error .overflow
  else walk m (sizeTest m path) fuel archive

def tarfsGetFize (m : Memory) (archive : Int) (fuel : Nat) (path : CString) : Except Stuck Int := do
  match ← sizeHeader m archive fuel path with
  | none => .ok (-1)
  | some (_, filesize) => .ok filesize

/- The read function of a registered file. -/
inductive Reader where
  | tarfs
  | device (read : CString → Int → Int × List UInt8)

structure File where
  path : List UInt8
  read : Reader

def registerFile (files : List File) (file : File) : List File := file :: files

def fsRead (m : Memory) (archive : Int) (fuel : Nat) (files : List File) (path : CString) (readLength : Int) :
    Except Stuck (Int × List UInt8) :=
  match files.find? (fun file => file.path = path.bytes) with
  | none => .ok (-1, [])
  | some file =>
    match file.read with
    | .tarfs => tarfsRead m archive fuel path readLength
    | .device read => .ok (read path readLength)

/- The body of the loop of init_tarfs. -/
def mountFile (m : Memory) (ptr filesize : Int) (files : List File) : Except Stuck (List File) :=
  if 0 < filesize then do
    let path ← strcpy m 256 (ptr + 1)
    .ok (registerFile files ⟨path, .tarfs⟩)
  else .ok files

/- init_tarfs once the archive is found. -/
def initTarfs (m : Memory) : (fuel : Nat) → (ptr : Int) → List File → Except Stuck (List File)
  | 0, _, _ => .error .running
  | fuel + 1, ptr, files =>
    if ¬ isUstar m ptr then .ok files
    else do
      let filesize ← fileSize m ptr
      let files ← mountFile m ptr filesize files
      let ptr ← advance ptr filesize
      initTarfs m fuel ptr files

/- The k-th header of the archive, where the walk gets as far as its name. -/
def header (m : Memory) : (k : Nat) → (ptr : Int) → Option Int
  | 0, ptr => if isUstar m ptr ∧ (fileSize m ptr).toOption.isSome then some ptr else none
  | k + 1, ptr =>
    if isUstar m ptr then do
      let filesize ← (fileSize m ptr).toOption
      let ptr ← (advance ptr filesize).toOption
      header m k ptr
    else none

theorem ok_bind (a : α) (next : α → Except Stuck β) : ((Except.ok a : Except Stuck α) >>= next) = next a := rfl

theorem sizeTest_eq (m : Memory) (path : CString) (ptr : Int) :
    sizeTest m path ptr = (m ptr == 46 && readTest m path ptr) := rfl

theorem int_ok {x : Int} (low : -2 ^ 31 ≤ x) (high : x < 2 ^ 31) : int x = .ok x :=
  if_pos ⟨low, high⟩

/- One turn of the loop. -/
theorem walk_succ {m : Memory} {test : Int → Bool} {fuel : Nat} {ptr filesize : Int}
    (ustar : isUstar m ptr = true) (size : fileSize m ptr = .ok filesize) (other : test ptr = false) :
    walk m test (fuel + 1) ptr = (advance ptr filesize).bind (walk m test fuel) := by
  simp only [walk, ustar, size, other, not_true_eq_false, if_false, Bind.bind, Except.bind,
    Bool.false_eq_true]

theorem walk_found {m : Memory} {test : Int → Bool} {fuel : Nat} {ptr filesize : Int}
    (ustar : isUstar m ptr = true) (size : fileSize m ptr = .ok filesize) (found : test ptr = true) :
    walk m test (fuel + 1) ptr = .ok (some (ptr, filesize)) := by
  simp only [walk, ustar, size, found, not_true_eq_false, if_false, if_true, Bind.bind, Except.bind]

theorem walk_end {m : Memory} {test : Int → Bool} {fuel : Nat} {ptr : Int}
    (last : isUstar m ptr = false) : walk m test (fuel + 1) ptr = .ok none := by
  simp only [walk, last, Bool.false_eq_true, not_false_eq_true, if_true]

end EvalynOS.Tarfs
