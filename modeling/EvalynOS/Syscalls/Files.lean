import EvalynOS.Filesystem.Lookup
import EvalynOS.Lib.Word

/-! sys_open, sys_read and sys_seek of syscalls/files/ over the descriptors of one thread.
Blocks of the heap are values here: what malloc hands out is written by the call that asked
for it only. -/
namespace EvalynOS.Files
open EvalynOS.Tarfs Lib.Word

inductive Data where
  | null
  | freed
  | block (bytes : List UInt8)
  deriving DecidableEq

structure Fd where
  fileName : Option CString
  fileData : Data
  seekPos : Nat
  deriving DecidableEq

structure Thread where
  nextFd : Nat
  fds : Nat → Fd

/- create_thread. -/
def newThread : Thread := ⟨11, fun _ => ⟨none, .null, 0⟩⟩

def Thread.set (t : Thread) (fd : Nat) (file : Fd) : Thread :=
  { t with fds := fun i => if i = fd then file else t.fds i }

/- What malloc does in one call: no block, or one with whatever was left in it. -/
structure Allocator where
  malloc : Nat → Option (List UInt8)
  sized : ∀ n block, malloc n = some block → block.length = n

/- The archive in memory, and the list of registered files. -/
structure Volume where
  memory : Memory
  archive : Int
  fuel : Nat
  files : List File

/- sys_open. The path is missing where strlen_user or copy_from_user fails. -/
def sysOpen (v : Volume) (forName forData forCopy : Allocator) (path : Option CString) (t : Thread) :
    Except Stuck (Int × Thread) :=
  match path with
  | none => .ok (-1, t)
  | some fileName =>
    -- copy_from_user refuses the null pointer
    if (forName.malloc (fileName.bytes.length + 1)).isNone then .ok (-1, t)
    else do
      let size ← tarfsGetFize v.memory v.archive v.fuel fileName
      if size < 0 then .ok (-1, t)
      else if 256 ≤ t.nextFd then .ok (-1, t)
      else
        let fd := t.nextFd
        match forData.malloc size.toNat with
        | none => .ok (-1, t.set fd { t.fds fd with fileData := .null })
        | some block => do
          let (count, bytes) ← fsRead v.memory v.archive v.fuel v.files fileName size
          if count < 0 then .ok (-1, t.set fd { t.fds fd with fileData := .freed })
          else if (forCopy.malloc (fileName.bytes.length + 1)).isNone then
            .ok (-1, t.set fd ⟨none, .freed, 0⟩)
          else
            let file : Fd := ⟨some fileName, .block (bytes ++ block.drop bytes.length), 0⟩
            .ok (fd, { t.set fd file with nextFd := fd + 1 })

/- The result, what is copied to the user buffer, and the thread. -/
def sysRead (v : Volume) (fd n : Nat) (t : Thread) : Except Stuck (Int × List UInt8 × Thread) :=
  let file := t.fds fd
  match file.fileName with
  | none => .ok (-1, [], t)
  | some fileName => do
    let size ← tarfsGetFize v.memory v.archive v.fuel fileName
    let size := (size % 2 ^ 64).toNat
    match file.fileData with
    | .null => .ok (-1, [], t)
    | .freed => .error .overflow
    | .block data =>
      if size ≤ file.seekPos then .ok (0, [], t)
      else
        let maxBytes := size - file.seekPos
        let bytes := if maxBytes < n then maxBytes else n
        .ok (bytes, (data.drop file.seekPos).take bytes,
          t.set fd { file with seekPos := wadd file.seekPos bytes })

/- The end of sys_seek: the new position, brought back into the file. -/
def seekTo (fd : Nat) (size newPos : Int) (t : Thread) : Int × Thread :=
  let newPos := if newPos < 0 then 0 else newPos
  let newPos := if size < newPos then size else newPos
  (newPos, t.set fd { t.fds fd with seekPos := (newPos % 2 ^ 64).toNat })

def sysSeek (v : Volume) (fd : Nat) (offset whence : Int) (t : Thread) : Except Stuck (Int × Thread) :=
  let file := t.fds fd
  match file.fileName with
  | none => .ok (-1, t)
  | some fileName => do
    let size ← tarfsGetFize v.memory v.archive v.fuel fileName
    if whence = 0 then .ok (seekTo fd size offset t)
    -- uint64_t and long are added as uint64_t
    else if whence = 1 then .ok (seekTo fd size ((file.seekPos + offset).bmod (2 ^ 64)) t)
    else if whence = 2 then
      if -2 ^ 63 ≤ size + offset ∧ size + offset < 2 ^ 63 then .ok (seekTo fd size (size + offset) t)
      else .error .overflow
    else .ok (-1, t)

inductive Call where
  | open (forName forData forCopy : Allocator) (path : Option CString)
  | read (fd n : Nat)
  | seek (fd : Nat) (offset whence : Int)

structure Reply where
  rax : Int
  stored : List UInt8
  deriving DecidableEq

def Call.exec (v : Volume) (t : Thread) : Call → Except Stuck (Reply × Thread)
  | .open forName forData forCopy path => do
    let (rax, t) ← sysOpen v forName forData forCopy path t
    .ok (⟨rax, []⟩, t)
  | .read fd n => do
    let (rax, stored, t) ← sysRead v fd n t
    .ok (⟨rax, stored⟩, t)
  | .seek fd offset whence => do
    let (rax, t) ← sysSeek v fd offset whence t
    .ok (⟨rax, []⟩, t)

/-! What a descriptor stands for. -/

structure Handle where
  contents : List UInt8
  pos : Nat
  inside : pos ≤ contents.length

abbrev Table := Nat → Option Handle

def Table.set (table : Table) (fd : Nat) (h : Handle) : Table :=
  fun i => if i = fd then some h else table i

/- The archive has a file of this path with these contents. -/
def Named (v : Volume) (path : CString) (contents : List UInt8) : Prop :=
  ∃ k ptr size, header v.memory k v.archive = some ptr ∧ sizeTest v.memory path ptr = true ∧
    fileSize v.memory ptr = .ok size ∧ 0 ≤ size ∧ contents = fileData v.memory ptr size

/- Where a seek leads to before it is brought back into the file. -/
def Handle.target (h : Handle) (offset whence : Int) : Option Int :=
  if whence = 0 then some offset
  else if whence = 1 then some (h.pos + offset)
  else if whence = 2 then some (h.contents.length + offset)
  else none

/-- The file handles by themselves. -/
inductive Spec (v : Volume) : Table → Call → Reply → Table → Prop
  | opened {table : Table} {forName forData forCopy : Allocator} {path : CString} {fd : Nat} {h : Handle}
      (low : 11 ≤ fd) (high : fd ≤ 255) (unused : table fd = none) (named : Named v path h.contents)
      (start : h.pos = 0) :
      Spec v table (.open forName forData forCopy (some path)) ⟨fd, []⟩ (table.set fd h)
  | refused {table : Table} {forName forData forCopy : Allocator} {path : Option CString} :
      Spec v table (.open forName forData forCopy path) ⟨-1, []⟩ table
  | read {table : Table} {fd n : Nat} {h h' : Handle} (live : table fd = some h)
      (same : h'.contents = h.contents) (moved : h'.pos = h.pos + min n (h.contents.length - h.pos)) :
      Spec v table (.read fd n)
        ⟨(min n (h.contents.length - h.pos) : Nat), (h.contents.drop h.pos).take n⟩ (table.set fd h')
  | seek {table : Table} {fd : Nat} {offset whence target : Int} {h h' : Handle} (live : table fd = some h)
      (same : h'.contents = h.contents) (valid : h.target offset whence = some target)
      (moved : (h'.pos : Int) = min (max target 0) h.contents.length) :
      Spec v table (.seek fd offset whence) ⟨h'.pos, []⟩ (table.set fd h')
  | seekInvalid {table : Table} {fd : Nat} {offset whence : Int} {h : Handle} (live : table fd = some h)
      (invalid : h.target offset whence = none) : Spec v table (.seek fd offset whence) ⟨-1, []⟩ table

/- The calls that the contract is about. -/
def Allowed (opened : List Nat) : Call → Prop
  | .open _ _ _ path => ∀ name ∈ path, name.bytes.length ≤ 200
  | .read fd _ => fd ∈ opened
  | .seek fd offset _ => fd ∈ opened ∧ -2 ^ 62 < offset ∧ offset < 2 ^ 62

/- The descriptors after a call. -/
def descriptors (opened : List Nat) (reply : Reply) : Call → List Nat
  | .open .. => if reply.rax < 0 then opened else reply.rax.toNat :: opened
  | _ => opened

/- A thread's calls so far, with their replies, and the descriptors it has. -/
inductive Run (v : Volume) : List (Call × Reply) → List Nat → Thread → Prop
  | start : Run v [] [] newThread
  | call {log : List (Call × Reply)} {opened : List Nat} {t t' : Thread} {call : Call} {reply : Reply}
      (before : Run v log opened t) (allowed : Allowed opened call)
      (result : call.exec v t = .ok (reply, t')) :
      Run v (log ++ [(call, reply)]) (descriptors opened reply call) t'

inductive SpecRun (v : Volume) : List (Call × Reply) → Table → Prop
  | start : SpecRun v [] (fun _ => none)
  | call {log : List (Call × Reply)} {table table' : Table} {call : Call} {reply : Reply}
      (before : SpecRun v log table) (step : Spec v table call reply table') :
      SpecRun v (log ++ [(call, reply)]) table'

/- A mounted archive, before and after which devices were registered. -/
structure Mounted (v : Volume) where
  before : List File
  mounted : List File
  after : List File
  mounts : initTarfs v.memory v.fuel v.archive before = .ok mounted
  files : v.files = after ++ mounted
  dotted : ∀ k ptr, header v.memory k v.archive = some ptr → v.memory ptr = 46
  apart : ∀ file ∈ after ++ before, ∀ k ptr, header v.memory k v.archive = some ptr →
    memcmp v.memory (ptr + 1) (file.path ++ [0]) = false

/- How a thread's descriptors stand for handles. -/
structure Refines (v : Volume) (t : Thread) (table : Table) : Prop where
  low : 11 ≤ t.nextFd
  high : t.nextFd ≤ 256
  live : ∀ fd, (table fd).isSome ↔ 11 ≤ fd ∧ fd < t.nextFd
  fds : ∀ fd h, table fd = some h → ∃ path : CString, path.bytes.length ≤ 254 ∧
    t.fds fd = ⟨some path, .block h.contents, h.pos⟩ ∧
      ∃ ptr, sizeHeader v.memory v.archive v.fuel path = .ok (some (ptr, h.contents.length))

/-! The lookups in a mounted archive. -/

theorem bind_ok {result : Except Stuck α} {next : α → Except Stuck β} {b : β}
    (done : (result >>= next) = .ok b) : ∃ a, result = .ok a ∧ next a = .ok b := by
  cases result with
  | error stuck => cases done
  | ok a => exact ⟨a, rfl, done⟩

theorem walk_of_initTarfs {m : Memory} {test : Int → Bool} {fuel : Nat} {ptr : Int} {files result : List File}
    (mounts : initTarfs m fuel ptr files = .ok result) : ∃ found, walk m test fuel ptr = .ok found := by
  induction fuel generalizing ptr files with
  | zero => cases mounts
  | succ fuel ih =>
    cases ustar : isUstar m ptr with
    | false => exact ⟨none, walk_end ustar⟩
    | true =>
      rw [initTarfs, if_neg (by simp [ustar])] at mounts
      obtain ⟨filesize, size, mounts⟩ := bind_ok mounts
      obtain ⟨files', -, mounts⟩ := bind_ok mounts
      obtain ⟨next, step, mounts⟩ := bind_ok mounts
      cases tested : test ptr with
      | true => exact ⟨some (ptr, filesize), walk_found ustar size tested⟩
      | false =>
        obtain ⟨found, rest⟩ := ih mounts
        refine ⟨found, ?_⟩
        rw [walk_succ ustar size tested, step]
        exact rest

theorem initTarfs_adds {m : Memory} {fuel : Nat} {ptr : Int} {files result : List File}
    (mounts : initTarfs m fuel ptr files = .ok result) :
    ∃ new, result = new ++ files ∧ ∀ file ∈ new, file.read = .tarfs := by
  induction fuel generalizing ptr files with
  | zero => cases mounts
  | succ fuel ih =>
    cases ustar : isUstar m ptr with
    | false =>
      rw [initTarfs, if_pos (by simp [ustar])] at mounts
      cases mounts
      exact ⟨[], rfl, by simp⟩
    | true =>
      rw [initTarfs, if_neg (by simp [ustar])] at mounts
      obtain ⟨filesize, size, mounts⟩ := bind_ok mounts
      obtain ⟨files', added, mounts⟩ := bind_ok mounts
      obtain ⟨next, step, mounts⟩ := bind_ok mounts
      obtain ⟨new, rfl, tarfs⟩ := ih mounts
      unfold mountFile at added
      split at added
      case isFalse =>
        cases added
        exact ⟨new, rfl, tarfs⟩
      case isTrue =>
        obtain ⟨path, -, added⟩ := bind_ok added
        cases added
        refine ⟨new ++ [⟨path, .tarfs⟩], by simp [registerFile], ?_⟩
        intro file member
        rcases List.mem_append.mp member with early | late
        · exact tarfs file early
        · cases List.mem_singleton.mp late
          rfl

theorem walk_some {m : Memory} {test : Int → Bool} {fuel : Nat} {ptr q size : Int}
    (found : walk m test fuel ptr = .ok (some (q, size))) :
    ∃ k, header m k ptr = some q ∧ test q = true ∧ fileSize m q = .ok size := by
  induction fuel generalizing ptr with
  | zero => cases found
  | succ fuel ih =>
    cases ustar : isUstar m ptr with
    | false =>
      rw [walk_end ustar] at found
      cases found
    | true =>
      rw [walk, if_neg (by simp [ustar])] at found
      obtain ⟨filesize, known, found⟩ := bind_ok found
      split at found
      case isTrue tested =>
        cases found
        exact ⟨0, header_zero ustar known, tested, known⟩
      case isFalse =>
        obtain ⟨next, step, found⟩ := bind_ok found
        obtain ⟨k, there, rest⟩ := ih found
        exact ⟨k + 1, (header_succ k ustar known step).trans there, rest⟩

theorem oct2bin_bounds {m : Memory} {c n x : Int} {size : Nat} (low : -2 ^ 31 ≤ n) (high : n < 2 ^ 31)
    (read : oct2bin m c n size = .ok x) : -2 ^ 31 ≤ x ∧ x < 2 ^ 31 := by
  induction size generalizing c n with
  | zero =>
    cases read
    exact ⟨low, high⟩
  | succ size ih =>
    obtain ⟨scaled, -, read⟩ := bind_ok read
    obtain ⟨added, inRange, read⟩ := bind_ok read
    unfold int at inRange
    split at inRange
    case isTrue range =>
      cases inRange
      exact ih range.1 range.2 read
    case isFalse => cases inRange

section Lookups
variable {v : Volume} (mount : Mounted v) {path : CString}

include mount in
/- Names that start with "." are found by both lookups. -/
theorem Mounted.dotFirst : DotFirst v.memory v.archive path := by
  intro k ptr there matched
  refine ⟨k, Nat.le_refl k, ptr, there, ?_⟩
  rw [sizeTest_eq, mount.dotted k ptr there, matched]
  rfl

include mount in
theorem Mounted.sizeHeader_ok (short : path.bytes.length ≤ 254) :
    ∃ found, sizeHeader v.memory v.archive v.fuel path = .ok found := by
  rw [sizeHeader, if_neg (Nat.not_lt.mpr short)]
  exact walk_of_initTarfs mount.mounts

theorem sizeHeader_some {ptr size : Int} (short : path.bytes.length ≤ 254)
    (found : sizeHeader v.memory v.archive v.fuel path = .ok (some (ptr, size))) :
    (∃ k, header v.memory k v.archive = some ptr) ∧ sizeTest v.memory path ptr = true ∧
      fileSize v.memory ptr = .ok size ∧ size < 2 ^ 31 := by
  rw [sizeHeader, if_neg (Nat.not_lt.mpr short)] at found
  obtain ⟨k, there, matched, known⟩ := walk_some found
  exact ⟨⟨k, there⟩, matched, known, (oct2bin_bounds (by decide) (by decide) known).2⟩

theorem tarfsGetFize_found {ptr size : Int}
    (found : sizeHeader v.memory v.archive v.fuel path = .ok (some (ptr, size))) :
    tarfsGetFize v.memory v.archive v.fuel path = .ok size := by
  rw [tarfsGetFize, found, ok_bind]

include mount in
theorem Mounted.tarfsRead_found {ptr size : Int} (short : path.bytes.length ≤ 254)
    (found : sizeHeader v.memory v.archive v.fuel path = .ok (some (ptr, size))) :
    tarfsRead v.memory v.archive v.fuel path size = .ok (size, fileData v.memory ptr size) := by
  have same : readHeader v.memory v.archive v.fuel path = .ok (some (ptr, size)) := by
    rw [← found, sizeHeader, if_neg (Nat.not_lt.mpr short)]
    exact walks_agree v.fuel mount.dotFirst
  rw [tarfsRead, same, ok_bind]
  simp

include mount in
/- A path of the archive is read from the archive, or not registered at all. -/
theorem Mounted.fsRead_found {ptr size : Int} (short : path.bytes.length ≤ 254)
    (found : sizeHeader v.memory v.archive v.fuel path = .ok (some (ptr, size))) :
    fsRead v.memory v.archive v.fuel v.files path size = .ok (-1, []) ∨
      fsRead v.memory v.archive v.fuel v.files path size = .ok (size, fileData v.memory ptr size) := by
  obtain ⟨⟨k, there⟩, matched, -⟩ := sizeHeader_some short found
  obtain ⟨new, added, tarfs⟩ := initTarfs_adds mount.mounts
  unfold fsRead
  split
  case h_1 => exact .inl rfl
  case h_2 file listed =>
    have same : file.path = path.bytes := by simpa using List.find?_some listed
    have member : file ∈ mount.after ++ (new ++ mount.before) := by
      rw [← added, ← mount.files]
      exact List.mem_of_find?_eq_some listed
    have notDevice : file ∉ mount.after ++ mount.before := by
      intro device
      have different := mount.apart file device k ptr there
      rw [same] at different
      rw [sizeTest_eq, readTest, different, Bool.and_false] at matched
      cases matched
    have archived : file ∈ new := by
      simp only [List.mem_append, not_or] at member notDevice
      tauto
    rw [tarfs file archived]
    exact .inr (mount.tarfsRead_found short found)

end Lookups

/-! One call. -/

@[simp] theorem Thread.set_same (t : Thread) (fd : Nat) (file : Fd) : (t.set fd file).fds fd = file := by
  simp [Thread.set]

theorem Thread.set_other (t : Thread) {fd i : Nat} (file : Fd) (other : i ≠ fd) :
    (t.set fd file).fds i = t.fds i := by
  simp [Thread.set, other]

@[simp] theorem Thread.set_nextFd (t : Thread) (fd : Nat) (file : Fd) : (t.set fd file).nextFd = t.nextFd := rfl

/- A call of sys_open that fails touches the next descriptor only, which is not open. -/
inductive Opened (v : Volume) (t : Thread) (path : Option CString) : Int → Thread → Prop
  | refused {t' : Thread} (count : t'.nextFd = t.nextFd) (kept : ∀ fd, fd ≠ t.nextFd → t'.fds fd = t.fds fd) :
      Opened v t path (-1) t'
  | granted {name : CString} {ptr size : Int} (asked : path = some name) (room : t.nextFd < 256)
      (found : sizeHeader v.memory v.archive v.fuel name = .ok (some (ptr, size))) (nonnegative : 0 ≤ size) :
      Opened v t path t.nextFd
        { t.set t.nextFd ⟨some name, .block (fileData v.memory ptr size), 0⟩ with nextFd := t.nextFd + 1 }

theorem sysOpen_outcome {v : Volume} (mount : Mounted v) (forName forData forCopy : Allocator)
    {path : Option CString} (short : ∀ name ∈ path, name.bytes.length ≤ 200) (t : Thread) :
    ∃ rax t', sysOpen v forName forData forCopy path t = .ok (rax, t') ∧ Opened v t path rax t' := by
  have unchanged : Opened v t path (-1) t := .refused rfl (fun _ _ => rfl)
  have touched : ∀ file, Opened v t path (-1) (t.set t.nextFd file) :=
    fun file => .refused rfl (fun _ other => t.set_other file other)
  cases path with
  | none => exact ⟨-1, t, rfl, unchanged⟩
  | some name =>
    have fits : name.bytes.length ≤ 254 := Nat.le_trans (short name rfl) (by decide)
    obtain ⟨found, lookup⟩ := mount.sizeHeader_ok fits
    unfold sysOpen
    dsimp only
    split
    case isTrue => exact ⟨-1, t, rfl, unchanged⟩
    case isFalse =>
      cases found with
      | none =>
        have missing : tarfsGetFize v.memory v.archive v.fuel name = .ok (-1) := by
          rw [tarfsGetFize, lookup, ok_bind]
        rw [missing, ok_bind]
        exact ⟨-1, t, rfl, unchanged⟩
      | some place =>
        obtain ⟨ptr, size⟩ := place
        rw [tarfsGetFize_found lookup, ok_bind]
        split
        case isTrue => exact ⟨-1, t, rfl, unchanged⟩
        case isFalse nonnegative =>
          split
          case isTrue => exact ⟨-1, t, rfl, unchanged⟩
          case isFalse room =>
            split
            case h_1 => exact ⟨-1, _, rfl, touched _⟩
            case h_2 block given =>
              rcases mount.fsRead_found fits lookup with failed | read
              · rw [failed, ok_bind]
                exact ⟨-1, _, rfl, touched _⟩
              · rw [read, ok_bind]
                dsimp only
                rw [if_neg nonnegative]
                split
                case isTrue => exact ⟨-1, _, rfl, touched _⟩
                case isFalse =>
                  have sized : block.length = (fileData v.memory ptr size).length := by
                    rw [forData.sized _ _ given]
                    simp [fileData]
                  rw [List.drop_of_length_le (Nat.le_of_eq sized), List.append_nil]
                  exact ⟨t.nextFd, _, rfl, .granted rfl (Nat.lt_of_not_le room) lookup (by omega)⟩

@[simp] theorem Table.set_same (table : Table) (fd : Nat) (h : Handle) : table.set fd h fd = some h := by
  simp [Table.set]

theorem Table.set_self {table : Table} {fd : Nat} {h : Handle} (live : table fd = some h) :
    table.set fd h = table := by
  funext i
  by_cases this : i = fd
  · rw [this, Table.set_same, live]
  · simp [Table.set, this]

theorem Table.isSome_set {table : Table} {fd : Nat} {h h' : Handle} (live : table fd = some h) (i : Nat) :
    (table.set fd h' i).isSome = (table i).isSome := by
  by_cases this : i = fd
  · simp [Table.set, this, live]
  · simp [Table.set, this]

theorem Table.set_other (table : Table) {fd i : Nat} (h : Handle) (other : i ≠ fd) :
    table.set fd h i = table i := by
  simp [Table.set, other]

/- The descriptor that a call works on. -/
def Call.uses (nextFd : Nat) : Call → Nat
  | .open .. => nextFd
  | .read fd _ => fd
  | .seek fd _ _ => fd

/- What a call leaves alone: every other descriptor, and next_fd if it fails. -/
structure Keeps (t : Thread) (call : Call) (reply : Reply) (t' : Thread) : Prop where
  fds : ∀ fd, fd ≠ call.uses t.nextFd → t'.fds fd = t.fds fd
  count : reply.rax < 0 → t'.nextFd = t.nextFd

/- The step relation between the two, for one call. -/
structure Simulates (v : Volume) (t : Thread) (table : Table) (call : Call) (reply : Reply) (t' : Thread)
    (table' : Table) : Prop where
  spec : Spec v table call reply table'
  refines : Refines v t' table'
  kept : Keeps t call reply t'

section Steps
variable {v : Volume} {t : Thread} {table : Table} (refines : Refines v t table)

include refines in
theorem Opened.simulates {path : Option CString} (short : ∀ name ∈ path, name.bytes.length ≤ 200)
    (forName forData forCopy : Allocator) {rax : Int} {t' : Thread} (outcome : Opened v t path rax t') :
    (rax < 0 ∧ Simulates v t table (.open forName forData forCopy path) ⟨rax, []⟩ t' table) ∨
      ∃ h, rax = t.nextFd ∧
        Simulates v t table (.open forName forData forCopy path) ⟨rax, []⟩ t' (table.set t.nextFd h) := by
  cases outcome with
  | refused count kept =>
    refine .inl ⟨by decide, .refused, ?_, kept, fun _ => count⟩
    refine ⟨by rw [count]; exact refines.low, by rw [count]; exact refines.high, ?_, ?_⟩
    · intro fd
      rw [count]
      exact refines.live fd
    · intro fd h live
      have below : fd < t.nextFd := ((refines.live fd).mp (by simp [live])).2
      rw [kept fd (Nat.ne_of_lt below)]
      exact refines.fds fd h live
  | @granted name ptr size asked room found nonnegative =>
    subst asked
    have fits : name.bytes.length ≤ 254 := Nat.le_trans (short name rfl) (by decide)
    obtain ⟨⟨k, there⟩, matched, known, -⟩ := sizeHeader_some fits found
    let h : Handle := ⟨fileData v.memory ptr size, 0, Nat.zero_le _⟩
    have unused : table t.nextFd = none := by
      have closed := (refines.live t.nextFd).not.mpr (by omega)
      simpa using closed
    have length : (h.contents.length : Int) = size := by
      simp [h, fileData, nonnegative]
    refine .inr ⟨h, rfl, ?_, ?_, fun fd other => t.set_other _ other, fun failed => ?_⟩
    · exact .opened refines.low (by omega) unused
        ⟨k, ptr, size, there, matched, known, nonnegative, rfl⟩ rfl
    · have low := refines.low
      refine ⟨Nat.le_succ_of_le low, room, ?_, ?_⟩
      · intro fd
        by_cases new : fd = t.nextFd
        · subst new
          simpa using low
        · rw [table.set_other h new, refines.live fd]
          dsimp only
          omega
      · intro fd g live
        by_cases new : fd = t.nextFd
        · subst new
          rw [Table.set_same] at live
          cases live
          refine ⟨name, fits, t.set_same _ _, ptr, ?_⟩
          rw [length]
          exact found
        · rw [table.set_other h new] at live
          obtain ⟨path, entry⟩ := refines.fds fd g live
          refine ⟨path, entry.1, ?_, entry.2.2⟩
          exact (t.set_other _ new).trans entry.2.1
    · dsimp only at failed
      omega

include refines in
/- A new position in an open file. -/
theorem Refines.moved {fd : Nat} {h h' : Handle} (live : table fd = some h)
    (same : h'.contents = h.contents) :
    Refines v (t.set fd { t.fds fd with seekPos := h'.pos }) (table.set fd h') := by
  refine ⟨refines.low, refines.high, ?_, ?_⟩
  · intro i
    by_cases this : i = fd
    · subst this
      rw [Table.set_same, Thread.set_nextFd, ← refines.live i, live]
      simp
    · rw [table.set_other h' this]
      exact refines.live i
  · intro i g live'
    by_cases this : i = fd
    · subst this
      rw [Table.set_same] at live'
      cases live'
      obtain ⟨path, fits, open_, ptr, found⟩ := refines.fds i h live
      refine ⟨path, fits, ?_, ptr, by rw [same]; exact found⟩
      rw [Thread.set_same, open_, same]
    · rw [table.set_other h' this] at live'
      obtain ⟨path, fits, open_, found⟩ := refines.fds i g live'
      exact ⟨path, fits, (t.set_other _ this).trans open_, found⟩

include refines in
theorem sysRead_simulates {fd : Nat} {h : Handle} (live : table fd = some h) (n : Nat) :
    ∃ rax stored t' table', sysRead v fd n t = .ok (rax, stored, t') ∧
      Simulates v t table (.read fd n) ⟨rax, stored⟩ t' table' ∧ ∀ i, (table' i).isSome = (table i).isSome := by
  obtain ⟨name, fits, entry, ptr, found⟩ := refines.fds fd h live
  obtain ⟨-, -, -, small⟩ := sizeHeader_some fits found
  have inside := h.inside
  have size : (h.contents.length % 2 ^ 64 : Int).toNat = h.contents.length := by omega
  obtain ⟨h', same, moved⟩ : ∃ h' : Handle, h'.contents = h.contents ∧
      h'.pos = h.pos + min n (h.contents.length - h.pos) :=
    ⟨⟨h.contents, h.pos + min n (h.contents.length - h.pos), by omega⟩, rfl, rfl⟩
  have spec : Spec v table (.read fd n)
      ⟨(min n (h.contents.length - h.pos) : Nat), (h.contents.drop h.pos).take n⟩ (table.set fd h') :=
    .read live same moved
  unfold sysRead
  simp only [entry, tarfsGetFize_found found, ok_bind, size]
  by_cases atEnd : h.contents.length ≤ h.pos
  case pos =>
    have none : min n (h.contents.length - h.pos) = 0 := by omega
    have nothing : h.contents.drop h.pos = [] := List.drop_of_length_le atEnd
    have still : h' = h := by
      rw [none, Nat.add_zero] at moved
      cases h
      cases h'
      cases same
      cases moved
      rfl
    rw [none, nothing, still, Table.set_self live] at spec
    refine ⟨0, [], t, table, if_pos atEnd, ⟨?_, refines, fun _ _ => rfl, fun _ => rfl⟩, fun _ => rfl⟩
    simpa using spec
  case neg =>
    have count : (if h.contents.length - h.pos < n then h.contents.length - h.pos else n) =
        min n (h.contents.length - h.pos) := by
      split <;> omega
    have stored : (h.contents.drop h.pos).take (min n (h.contents.length - h.pos)) =
        (h.contents.drop h.pos).take n := by
      rw [← List.length_drop, List.take_eq_take_iff]
      omega
    have sum : wadd h.pos (min n (h.contents.length - h.pos)) = h'.pos := by
      rw [moved, wadd_eq (by omega)]
    rw [if_neg atEnd, count, stored, sum]
    have position : ({ fileName := some name, fileData := .block h.contents, seekPos := h'.pos } : Fd) =
        { t.fds fd with seekPos := h'.pos } := by
      rw [entry]
    rw [position]
    have kept : Keeps t (.read fd n) ⟨(min n (h.contents.length - h.pos) : Nat), (h.contents.drop h.pos).take n⟩
        (t.set fd { t.fds fd with seekPos := h'.pos }) :=
      ⟨fun i other => t.set_other _ other, fun _ => rfl⟩
    exact ⟨_, _, _, _, rfl, ⟨spec, refines.moved live same, kept⟩, Table.isSome_set live⟩

include refines in
theorem seekTo_simulates {fd : Nat} {h : Handle} (live : table fd = some h)
    (small : (h.contents.length : Int) < 2 ^ 31) {offset whence target : Int}
    (valid : h.target offset whence = some target) :
    ∃ table', Simulates v t table (.seek fd offset whence) ⟨(seekTo fd h.contents.length target t).1, []⟩
      (seekTo fd h.contents.length target t).2 table' ∧ ∀ i, (table' i).isSome = (table i).isSome := by
  have clamped : (if (h.contents.length : Int) < (if target < 0 then 0 else target) then
      (h.contents.length : Int) else (if target < 0 then 0 else target)) =
        min (max target 0) h.contents.length := by
    split <;> split at * <;> omega
  obtain ⟨h', same, moved⟩ : ∃ h' : Handle, h'.contents = h.contents ∧
      (h'.pos : Int) = min (max target 0) h.contents.length := by
    refine ⟨⟨h.contents, (min (max target 0) h.contents.length).toNat, by omega⟩, rfl, ?_⟩
    dsimp only
    omega
  have stored : ((h'.pos : Int) % 2 ^ 64).toNat = h'.pos := by omega
  simp only [seekTo, clamped]
  rw [← moved, stored]
  have kept : Keeps t (.seek fd offset whence) ⟨h'.pos, []⟩ (t.set fd { t.fds fd with seekPos := h'.pos }) :=
    ⟨fun i other => t.set_other _ other, fun _ => rfl⟩
  exact ⟨_, ⟨.seek live same valid moved, refines.moved live same, kept⟩, Table.isSome_set live⟩

include refines in
theorem sysSeek_simulates {fd : Nat} {h : Handle} (live : table fd = some h) {offset : Int}
    (low : -2 ^ 62 < offset) (high : offset < 2 ^ 62) (whence : Int) :
    ∃ rax t' table', sysSeek v fd offset whence t = .ok (rax, t') ∧
      Simulates v t table (.seek fd offset whence) ⟨rax, []⟩ t' table' ∧
        ∀ i, (table' i).isSome = (table i).isSome := by
  obtain ⟨name, fits, entry, ptr, found⟩ := refines.fds fd h live
  obtain ⟨-, -, -, small⟩ := sizeHeader_some fits found
  have inside := h.inside
  unfold sysSeek
  simp only [entry, tarfsGetFize_found found, ok_bind]
  by_cases set : whence = 0
  case pos =>
    obtain ⟨table', simulates⟩ :=
      seekTo_simulates refines live small (show h.target offset whence = some offset by
        simp [Handle.target, set])
    exact ⟨_, _, table', if_pos set, simulates⟩
  case neg =>
    by_cases current : whence = 1
    case pos =>
      have sum : ((h.pos : Int) + offset).bmod (2 ^ 64) = h.pos + offset :=
        Int.bmod_eq_of_le (by omega) (by omega)
      obtain ⟨table', simulates⟩ :=
        seekTo_simulates refines live small (show h.target offset whence = some (h.pos + offset) by
          simp [Handle.target, current])
      rw [if_neg set, if_pos current, sum]
      exact ⟨_, _, table', rfl, simulates⟩
    case neg =>
      by_cases fromEnd : whence = 2
      case pos =>
        obtain ⟨table', simulates⟩ :=
          seekTo_simulates refines live small (show h.target offset whence = some (h.contents.length + offset) by
            simp [Handle.target, fromEnd])
        rw [if_neg set, if_neg current, if_pos fromEnd, if_pos (by omega)]
        exact ⟨_, _, table', rfl, simulates⟩
      case neg =>
        rw [if_neg set, if_neg current, if_neg fromEnd]
        refine ⟨-1, t, table, rfl, ⟨?_, refines, fun _ _ => rfl, fun _ => rfl⟩, fun _ => rfl⟩
        exact .seekInvalid live (by simp [Handle.target, set, current, fromEnd])

end Steps

/-! Whole runs. -/

/- The thread's descriptors are those of the table. -/
structure Owns (opened : List Nat) (table : Table) : Prop where
  distinct : opened.Nodup
  live : ∀ fd, fd ∈ opened ↔ (table fd).isSome

theorem Owns.same {opened : List Nat} {table table' : Table} (owns : Owns opened table)
    (same : ∀ i, (table' i).isSome = (table i).isSome) : Owns opened table' :=
  ⟨owns.distinct, fun fd => by rw [same fd]; exact owns.live fd⟩

theorem exec_simulates {v : Volume} (mount : Mounted v) {t : Thread} {table : Table}
    (refines : Refines v t table) {opened : List Nat} (owns : Owns opened table) {call : Call}
    (allowed : Allowed opened call) :
    ∃ reply t' table', call.exec v t = .ok (reply, t') ∧ Simulates v t table call reply t' table' ∧
      Owns (descriptors opened reply call) table' := by
  cases call with
  | «open» forName forData forCopy path =>
    obtain ⟨rax, t', result, outcome⟩ := sysOpen_outcome mount forName forData forCopy allowed t
    have exec : Call.exec v t (.open forName forData forCopy path) = .ok (⟨rax, []⟩, t') := by
      rw [Call.exec, result, ok_bind]
    rcases outcome.simulates refines allowed forName forData forCopy with
      ⟨negative, simulates⟩ | ⟨h, rfl, simulates⟩
    · refine ⟨_, _, table, exec, simulates, ?_⟩
      rw [descriptors, if_pos negative]
      exact owns
    · refine ⟨_, _, _, exec, simulates, ?_⟩
      have closed : ¬ (table t.nextFd).isSome = true := by
        rw [refines.live]
        omega
      rw [descriptors, if_neg (by simp), Int.toNat_natCast]
      constructor
      · exact List.nodup_cons.mpr ⟨fun member => closed ((owns.live _).mp member), owns.distinct⟩
      · intro fd
        by_cases new : fd = t.nextFd
        · simp [new]
        · rw [table.set_other h new, ← owns.live fd]
          simp [new]
  | read fd n =>
    obtain ⟨h, live⟩ := Option.isSome_iff_exists.mp ((owns.live fd).mp allowed)
    obtain ⟨rax, stored, t', table', result, simulates, same⟩ := sysRead_simulates refines live n
    refine ⟨⟨rax, stored⟩, t', table', ?_, simulates, owns.same same⟩
    rw [Call.exec, result, ok_bind]
  | seek fd offset whence =>
    obtain ⟨member, low, high⟩ := allowed
    obtain ⟨h, live⟩ := Option.isSome_iff_exists.mp ((owns.live fd).mp member)
    obtain ⟨rax, t', table', result, simulates, same⟩ := sysSeek_simulates refines live low high whence
    refine ⟨⟨rax, []⟩, t', table', ?_, simulates, owns.same same⟩
    rw [Call.exec, result, ok_bind]

theorem run_simulated {v : Volume} (mount : Mounted v) {log : List (Call × Reply)} {opened : List Nat}
    {t : Thread} (run : Run v log opened t) :
    ∃ table, SpecRun v log table ∧ Refines v t table ∧ Owns opened table := by
  induction run with
  | start =>
    refine ⟨fun _ => none, .start, ⟨Nat.le_refl 11, by decide, ?_, ?_⟩, List.nodup_nil, by simp⟩
    · intro fd
      simp only [Option.isSome_none, Bool.false_eq_true, newThread, false_iff]
      omega
    · intro fd h live
      cases live
  | call before allowed result ih =>
    obtain ⟨table, spec, refines, owns⟩ := ih
    obtain ⟨reply, t', table', exec, simulates, owns'⟩ := exec_simulates mount refines owns allowed
    cases result.symm.trans exec
    exact ⟨table', .call spec simulates.spec, simulates.refines, owns'⟩

theorem header_encode {m : Memory} {members : List Member}
    (small : ∀ f ∈ members, f.contents.length < 2 ^ 31 - 1023) {k : Nat} {ptr q : Int}
    (holds : Holds m ptr (encode members)) (there : header m k ptr = some q) :
    ∃ f ∈ members, Placed m q f := by
  induction members generalizing k ptr with
  | nil =>
    have ustar := (header_some there).1
    rw [isUstar_end holds] at ustar
    cases ustar
  | cons f members ih =>
    obtain ⟨placed, later⟩ := holds.member
    cases k with
    | zero =>
      cases header_zero_eq there
      exact ⟨f, List.mem_cons_self, placed⟩
    | succ k =>
      obtain ⟨next, step, rest⟩ := header_next placed.size there
      rw [advance_small (small f List.mem_cons_self)] at step
      cases step
      obtain ⟨g, member, found⟩ := ih (fun g member => small g (List.mem_cons_of_mem _ member)) later rest
      exact ⟨g, List.mem_cons_of_mem _ member, found⟩

/- Devices have paths that are no file's. -/
def Mounted.encoded {m : Memory} {archive : Int} {members : List Member}
    (small : ∀ f ∈ members, f.contents.length < 2 ^ 31 - 1023) (holds : Holds m archive (encode members))
    (before after : List File) (named : ∀ file ∈ after ++ before, 0 ∉ file.path)
    (apart : ∀ file ∈ after ++ before, ∀ f ∈ members, file.path ≠ f.path) :
    Mounted ⟨m, archive, members.length + 1, after ++ ((registered members).reverse ++ before)⟩ where
  before := before
  mounted := (registered members).reverse ++ before
  after := after
  mounts := initTarfs_encode small holds (Nat.lt_succ_self _) before
  files := rfl
  dotted k ptr there := by
    obtain ⟨f, -, placed⟩ := header_encode small holds there
    have name := placed.name
    simp only [Holds, List.cons_append, memcmp, Bool.and_eq_true, beq_iff_eq] at name
    exact name.1
  apart file device k ptr there := by
    obtain ⟨f, member, placed⟩ := header_encode small holds there
    rw [memcmp_terminated placed.path f.path_ends (named file device)]
    exact decide_eq_false (apart file device f member)

def zeroed : Allocator := ⟨fun n => some (List.replicate n 0), by simp⟩

def keyboard : File := ⟨[47, 107], .device fun _ _ => (0, [])⟩

def greetingVolume : Volume :=
  ⟨image (encode [greeting]), 0, 2, [keyboard] ++ ((registered [greeting]).reverse ++ [])⟩

def greetingMounted : Mounted greetingVolume :=
  .encoded (by decide) (holds_image _) [] [keyboard] (by decide) (by decide)

def greetingOpened : Thread :=
  { newThread.set 11 ⟨some greetingPath, .block [104, 105], 0⟩ with nextFd := 12 }

theorem greeting_opens :
    Run greetingVolume [(.open zeroed zeroed zeroed (some greetingPath), ⟨11, []⟩)] [11] greetingOpened := by
  have size : tarfsGetFize greetingVolume.memory greetingVolume.archive greetingVolume.fuel greetingPath =
      .ok 2 := by decide +kernel
  have read : fsRead greetingVolume.memory greetingVolume.archive greetingVolume.fuel greetingVolume.files
      greetingPath 2 = .ok (2, [104, 105]) := by decide +kernel
  have opens : sysOpen greetingVolume zeroed zeroed zeroed (some greetingPath) newThread =
      .ok (11, greetingOpened) := by
    simp [sysOpen, size, read, ok_bind, zeroed, newThread, greetingOpened]
  have exec : Call.exec greetingVolume newThread (.open zeroed zeroed zeroed (some greetingPath)) =
      .ok (⟨11, []⟩, greetingOpened) := by
    rw [Call.exec, opens, ok_bind]
  have short : Allowed [] (.open zeroed zeroed zeroed (some greetingPath)) := by
    simp [Allowed, greetingPath]
  exact .call .start short exec

end EvalynOS.Files
