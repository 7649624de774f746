import EvalynOS.Filesystem.Tarfs

/-! What init_tarfs and the two lookups make of the ustar encoding of a list of files. -/
namespace EvalynOS.Tarfs

/- A file to be archived as "./" and its name. The fields that the kernel does not read are
any bytes: mode, uid and gid; from the end of the size to the link name; from the end of
the magic to the end of the header. -/
structure Member where
  name : List UInt8
  contents : List UInt8
  mode : Vector UInt8 24
  stamps : Vector UInt8 122
  owner : Vector UInt8 250
  named : 0 ∉ name
  short : name.length + 2 ≤ 99
  bounded : contents.length < 2 ^ 31 - 511

/- The digits of a number, the highest first. -/
def octal : (digits n : Nat) → List UInt8
  | 0, _ => []
  | digits + 1, n => UInt8.ofNat (48 + n / 8 ^ digits % 8) :: octal digits n

def Member.header (f : Member) : List UInt8 :=
  (46 :: 47 :: f.name ++ List.replicate (98 - f.name.length) 0) ++ f.mode.toList ++
    octal 11 f.contents.length ++ f.stamps.toList ++ [117, 115, 116, 97, 114] ++ f.owner.toList

def Member.padding (f : Member) : List UInt8 :=
  List.replicate ((512 - f.contents.length % 512) % 512) 0

def Member.entry (f : Member) : List UInt8 := f.header ++ f.contents ++ f.padding

def zeroBlock : List UInt8 := List.replicate 512 0

def encode (members : List Member) : List UInt8 := members.flatMap Member.entry ++ zeroBlock

/- The bytes are in memory at `ptr`. -/
def Holds (m : Memory) (ptr : Int) (bytes : List UInt8) : Prop := memcmp m ptr bytes = true

/- The path under which the kernel knows the file. -/
def Member.path (f : Member) : List UInt8 := 47 :: f.name

def registered (members : List Member) : List File :=
  (members.filter fun f => f.contents ≠ []).map fun f => ⟨f.path, .tarfs⟩

theorem length_octal (digits n : Nat) : (octal digits n).length = digits := by
  induction digits with
  | zero => rfl
  | succ digits ih => simp [octal, ih]

theorem memcmp_append (m : Memory) (ptr : Int) (first second : List UInt8) :
    memcmp m ptr (first ++ second) = (memcmp m ptr first && memcmp m (ptr + first.length) second) := by
  induction first generalizing ptr with
  | nil => simp [memcmp]
  | cons byte first ih =>
    simp only [List.cons_append, memcmp, ih, Bool.and_assoc, List.length_cons, Nat.cast_add,
      Nat.cast_one]
    congr 3
    ring_nf

theorem Holds.append {m : Memory} {ptr : Int} {first second : List UInt8}
    (holds : Holds m ptr (first ++ second)) : Holds m ptr first ∧ Holds m (ptr + first.length) second := by
  unfold Holds at holds
  rw [memcmp_append, Bool.and_eq_true] at holds
  exact holds

theorem Holds.getElem {m : Memory} {ptr : Int} {bytes : List UInt8} (holds : Holds m ptr bytes)
    {i : Nat} (inside : i < bytes.length) : m (ptr + i) = bytes[i] := by
  induction bytes generalizing ptr i with
  | nil => simp at inside
  | cons byte rest ih =>
    simp only [Holds, memcmp, Bool.and_eq_true, beq_iff_eq] at holds
    cases i with
    | zero => simpa using holds.1
    | succ i =>
      have later := ih holds.2 (Nat.lt_of_succ_lt_succ inside)
      rw [List.getElem_cons_succ, ← later]
      congr 1
      push_cast
      ring

theorem Holds.of_getElem {m : Memory} {ptr : Int} {bytes : List UInt8}
    (same : ∀ i (inside : i < bytes.length), m (ptr + i) = bytes[i]) : Holds m ptr bytes := by
  induction bytes generalizing ptr with
  | nil => rfl
  | cons byte rest ih =>
    have head := same 0 (by simp)
    simp only [Nat.cast_zero, add_zero, List.getElem_cons_zero] at head
    simp only [Holds, memcmp, head, beq_self_eq_true, Bool.true_and]
    apply ih
    intro i inside
    have next := same (i + 1) (Nat.succ_lt_succ inside)
    rw [List.getElem_cons_succ] at next
    rw [← next]
    congr 1
    push_cast
    ring

/- Memory with these bytes at 0. -/
def image (bytes : List UInt8) : Memory := fun a => bytes.getD a.toNat 0

theorem holds_image (bytes : List UInt8) : Holds (image bytes) 0 bytes := by
  apply Holds.of_getElem
  intro i inside
  simp [image, inside]

/-! Strings. -/

theorem memcmp_terminated {m : Memory} {ptr : Int} {name path : List UInt8} (holds : Holds m ptr (name ++ [0]))
    (nameEnds : 0 ∉ name) (pathEnds : 0 ∉ path) : memcmp m ptr (path ++ [0]) = decide (path = name) := by
  induction name generalizing ptr path with
  | nil =>
    simp only [Holds, List.nil_append, memcmp, Bool.and_true, beq_iff_eq] at holds
    cases path with
    | nil => simp [memcmp, holds]
    | cons byte path =>
      have nonzero : (0 : UInt8) ≠ byte := fun zero => pathEnds (by simp [zero])
      simp [memcmp, holds, nonzero]
  | cons letter name ih =>
    simp only [Holds, List.cons_append, memcmp, Bool.and_eq_true, beq_iff_eq] at holds
    have nameRest : 0 ∉ name := fun zero => nameEnds (List.mem_cons_of_mem _ zero)
    cases path with
    | nil =>
      have nonzero : letter ≠ 0 := fun zero => nameEnds (by simp [zero])
      simp [memcmp, holds.1, nonzero]
    | cons byte path =>
      have pathRest : 0 ∉ path := fun zero => pathEnds (List.mem_cons_of_mem _ zero)
      rw [List.cons_append, memcmp, ih holds.2 nameRest pathRest, holds.1]
      by_cases same : letter = byte
      · simp [same]
      · simp [same, Ne.symm same]

theorem strcpy_terminated {m : Memory} {src : Int} {name : List UInt8} (holds : Holds m src (name ++ [0]))
    (nameEnds : 0 ∉ name) {room : Nat} (fits : name.length < room) : strcpy m room src = .ok name := by
  induction name generalizing src room with
  | nil =>
    simp only [Holds, List.nil_append, memcmp, Bool.and_true, beq_iff_eq] at holds
    cases room with
    | zero => omega
    | succ room => simp [strcpy, holds]
  | cons letter name ih =>
    simp only [Holds, List.cons_append, memcmp, Bool.and_eq_true, beq_iff_eq] at holds
    have nonzero : letter ≠ 0 := fun zero => nameEnds (by simp [zero])
    have nameRest : 0 ∉ name := fun zero => nameEnds (List.mem_cons_of_mem _ zero)
    cases room with
    | zero => omega
    | succ room =>
      have rest := ih holds.2 nameRest (Nat.lt_of_succ_lt_succ fits)
      simp [strcpy, holds.1, nonzero, rest, Bind.bind, Except.bind]

/-! The size field. -/

/- After the digits of weight 8^digits and above, n is the number read so far. -/
theorem oct2bin_octal {m : Memory} {n : Nat} (small : n < 2 ^ 31) (digits : Nat) {c : Int}
    (holds : Holds m c (octal digits n)) : oct2bin m c (n / 8 ^ digits : Nat) digits = .ok n := by
  induction digits generalizing c with
  | zero => simp [oct2bin]
  | succ digits ih =>
    simp only [Holds, octal, memcmp, Bool.and_eq_true, beq_iff_eq] at holds
    have tail := ih holds.2
    have digit : (m c).toNat = 48 + n / 8 ^ digits % 8 := by
      rw [holds.1]
      have := Nat.mod_lt (n / 8 ^ digits) (show 0 < 8 by decide)
      simp only [UInt8.toNat_ofNat']
      omega
    have split : n / 8 ^ (digits + 1) = n / 8 ^ digits / 8 := by
      rw [pow_succ, Nat.div_div_eq_div_mul]
    have below : n / 8 ^ digits ≤ n := Nat.div_le_self _ _
    rw [split]
    generalize n / 8 ^ digits = high at tail digit below
    have scaled : int ((high / 8 : Nat) * 8) = .ok ((high / 8 : Nat) * 8) := by
      apply int_ok <;> omega
    have sum : ((high / 8 : Nat) * 8 + ((m c).toNat - 48) : Int) = high := by omega
    have added : int ((high / 8 : Nat) * 8 + ((m c).toNat - 48)) = .ok high := by
      rw [sum]
      apply int_ok <;> omega
    rw [oct2bin, scaled, ok_bind, added, ok_bind]
    exact tail

theorem fileSize_octal {m : Memory} {ptr : Int} {n : Nat} (small : n < 2 ^ 31)
    (holds : Holds m (ptr + 0x7c) (octal 11 n)) : fileSize m ptr = .ok n := by
  have zero : n / 8 ^ 11 = 0 := Nat.div_eq_of_lt (by omega)
  have read := oct2bin_octal small 11 holds
  rw [zero] at read
  exact read

/-! One entry of the archive. -/

/- The bytes from one header to the next. -/
def Member.span (f : Member) : Nat := 512 + (f.contents.length + 511) / 512 * 512

theorem Member.length_header (f : Member) : f.header.length = 512 := by
  have := f.short
  simp only [Member.header, List.length_append, List.length_cons, List.length_replicate,
    Vector.length_toList, length_octal, List.length_nil]
  omega

theorem Member.length_entry (f : Member) : f.entry.length = f.span := by
  simp only [Member.entry, List.length_append, f.length_header, Member.padding, List.length_replicate,
    Member.span]
  omega

/- What the kernel reads of an entry at `ptr`. -/
structure Placed (m : Memory) (ptr : Int) (f : Member) : Prop where
  name : Holds m ptr (46 :: f.path ++ [0])
  ustar : isUstar m ptr = true
  size : fileSize m ptr = .ok f.contents.length
  data : Holds m (ptr + 512) f.contents

theorem Holds.placed {m : Memory} {ptr : Int} {f : Member} {rest : List UInt8}
    (holds : Holds m ptr (f.entry ++ rest)) : Placed m ptr f ∧ Holds m (ptr + f.span) rest := by
  obtain ⟨entry, later⟩ := holds.append
  rw [f.length_entry] at later
  obtain ⟨upToData, -⟩ := entry.append
  obtain ⟨header, data⟩ := upToData.append
  rw [f.length_header] at data
  obtain ⟨upToMagic, -⟩ := header.append
  obtain ⟨upToStamps, magic⟩ := upToMagic.append
  obtain ⟨upToSize, -⟩ := upToStamps.append
  obtain ⟨upToMode, size⟩ := upToSize.append
  obtain ⟨name, -⟩ := upToMode.append
  have short := f.short
  refine ⟨⟨?_, ?_, ?_, data⟩, later⟩
  case refine_1 =>
    have room : 98 - f.name.length = (97 - f.name.length) + 1 := by omega
    rw [room, List.replicate_succ, List.append_cons] at name
    exact name.append.1
  case refine_2 =>
    have offset : (46 :: 47 :: f.name ++ List.replicate (98 - f.name.length) 0 ++ f.mode.toList ++
        octal 11 f.contents.length ++ f.stamps.toList).length = 257 := by
      simp only [List.length_append, List.length_cons, List.length_replicate, Vector.length_toList,
        length_octal]
      omega
    rw [offset] at magic
    exact magic
  case refine_3 =>
    have offset : (46 :: 47 :: f.name ++ List.replicate (98 - f.name.length) 0 ++ f.mode.toList).length =
        124 := by
      simp only [List.length_append, List.length_cons, List.length_replicate, Vector.length_toList]
      omega
    rw [offset] at size
    have bounded := f.bounded
    exact fileSize_octal (by omega) size

theorem Member.path_ends (f : Member) : 0 ∉ f.path := by
  simp [Member.path, f.named]

theorem Placed.path {m : Memory} {ptr : Int} {f : Member} (placed : Placed m ptr f) :
    Holds m (ptr + 1) (f.path ++ [0]) := by
  have name := placed.name
  simp only [Holds, List.cons_append, memcmp, Bool.and_eq_true] at name
  exact name.2

theorem Placed.sizeTest {m : Memory} {ptr : Int} {f : Member} (placed : Placed m ptr f) (path : CString) :
    sizeTest m path ptr = decide (path.bytes = f.path) := by
  have ends : 0 ∉ (46 : UInt8) :: f.path := by
    simp [f.path_ends]
  have pathEnds : 0 ∉ (46 : UInt8) :: path.bytes := by
    simp [path.terminated]
  unfold Tarfs.sizeTest
  rw [memcmp_terminated placed.name ends pathEnds]
  simp

theorem Placed.readTest {m : Memory} {ptr : Int} {f : Member} (placed : Placed m ptr f) (path : CString) :
    readTest m path ptr = decide (path.bytes = f.path) := by
  exact memcmp_terminated placed.path f.path_ends path.terminated

theorem Placed.strcpy {m : Memory} {ptr : Int} {f : Member} (placed : Placed m ptr f) :
    strcpy m 256 (ptr + 1) = .ok f.path := by
  have short := f.short
  apply strcpy_terminated placed.path f.path_ends
  simp only [Member.path, List.length_cons]
  omega

theorem Placed.fileData {m : Memory} {ptr : Int} {f : Member} (placed : Placed m ptr f) {n : Nat}
    (inside : n ≤ f.contents.length) : fileData m ptr n = f.contents.take n := by
  apply List.ext_getElem
  · simp [Tarfs.fileData, inside]
  · intro i left right
    have bound : i < f.contents.length := by
      simp only [List.length_take] at right
      omega
    simp only [Tarfs.fileData, List.getElem_map, List.getElem_range, List.getElem_take]
    exact placed.data.getElem bound

/-! The step over the contents. -/

theorem advance_blocks {ptr : Int} {n : Nat} (bounded : n < 2 ^ 31 - 511) :
    advance ptr n = int ((((n + 511) / 512 : Nat) + 1) * 512) >>= fun bytes => .ok (ptr + bytes) := by
  have rounded : int (n + 511) = .ok (n + 511) := by
    apply int_ok <;> omega
  have quotient : (n + 511 : Int).tdiv 512 = ((n + 511) / 512 : Nat) := by
    rw [Int.tdiv_eq_ediv_of_nonneg (by omega)]
    omega
  have one : int (((n + 511) / 512 : Nat) + 1) = .ok (((n + 511) / 512 : Nat) + 1) := by
    apply int_ok <;> omega
  unfold advance
  rw [rounded, ok_bind, quotient, one, ok_bind]

theorem advance_small {ptr : Int} {f : Member} (small : f.contents.length < 2 ^ 31 - 1023) :
    advance ptr f.contents.length = .ok (ptr + f.span) := by
  rw [advance_blocks (by omega), int_ok (by omega) (by omega)]
  have bytes : ((((f.contents.length + 511) / 512 : Nat) + 1) * 512 : Int) = f.span := by
    unfold Member.span
    omega
  rw [ok_bind, bytes]

/- The product of the last multiplication is 2^31. -/
theorem advance_large {ptr : Int} {f : Member} (large : 2 ^ 31 - 1023 ≤ f.contents.length) :
    advance ptr f.contents.length = .error .overflow := by
  have bounded := f.bounded
  rw [advance_blocks bounded]
  unfold int
  rw [if_neg (by omega)]
  rfl

/-! The walks over a whole archive. -/

/- The zero block is no header. -/
theorem isUstar_end {m : Memory} {ptr : Int} (holds : Holds m ptr (encode [])) : isUstar m ptr = false := by
  have block : Holds m ptr zeroBlock := holds
  have inside : 257 < zeroBlock.length := by
    rw [zeroBlock, List.length_replicate]
    decide
  have zero : m (ptr + 257) = 0 := by
    rw [show (257 : Int) = (257 : Nat) from rfl, block.getElem inside]
    simp only [zeroBlock, List.getElem_replicate]
  simp [isUstar, memcmp, zero]

theorem Holds.member {m : Memory} {ptr : Int} {f : Member} {members : List Member}
    (holds : Holds m ptr (encode (f :: members))) :
    Placed m ptr f ∧ Holds m (ptr + f.span) (encode members) := by
  have split : encode (f :: members) = f.entry ++ encode members := by
    simp [encode, List.append_assoc]
  rw [split] at holds
  exact holds.placed

/- A test for one path stops at the member of that path. -/
theorem walk_encode {m : Memory} {path : CString} {test : Int → Bool}
    (exact : ∀ ptr f, Placed m ptr f → test ptr = decide (path.bytes = f.path)) {members : List Member}
    (small : ∀ f ∈ members, f.contents.length < 2 ^ 31 - 1023) {ptr : Int}
    (holds : Holds m ptr (encode members)) {fuel : Nat} (enough : members.length < fuel) :
    (∃ f ∈ members, path.bytes = f.path ∧
        ∃ q, Placed m q f ∧ walk m test fuel ptr = .ok (some (q, f.contents.length))) ∨
      ((∀ f ∈ members, path.bytes ≠ f.path) ∧ walk m test fuel ptr = .ok none) := by
  induction members generalizing ptr fuel with
  | nil =>
    cases fuel with
    | zero => simp at enough
    | succ fuel => exact .inr ⟨by simp, walk_end (isUstar_end holds)⟩
  | cons f members ih =>
    cases fuel with
    | zero => simp at enough
    | succ fuel =>
      obtain ⟨placed, later⟩ := holds.member
      have tested := exact ptr f placed
      by_cases named : path.bytes = f.path
      case pos =>
        refine .inl ⟨f, List.mem_cons_self, named, ptr, placed, ?_⟩
        exact walk_found placed.ustar placed.size (by simp [tested, named])
      case neg =>
        have step : walk m test (fuel + 1) ptr = walk m test fuel (ptr + f.span) := by
          rw [walk_succ placed.ustar placed.size (by simp [tested, named]),
            advance_small (small f List.mem_cons_self)]
          rfl
        rw [step]
        rcases ih (fun g member => small g (List.mem_cons_of_mem _ member)) later (Nat.lt_of_succ_lt_succ enough)
          with ⟨g, member, same, q, there, found⟩ | ⟨none, found⟩
        · exact .inl ⟨g, List.mem_cons_of_mem _ member, same, q, there, found⟩
        · refine .inr ⟨?_, found⟩
          intro g member
          rcases List.mem_cons.mp member with rfl | rest
          · exact named
          · exact none g rest

/- One turn of the loop of init_tarfs. -/
theorem initTarfs_member {m : Memory} {ptr : Int} {f : Member} (placed : Placed m ptr f) (fuel : Nat)
    (files : List File) :
    initTarfs m (fuel + 1) ptr files =
      advance ptr f.contents.length >>= fun ptr => initTarfs m fuel ptr (registered [f] ++ files) := by
  rw [initTarfs, if_neg (by simp [placed.ustar]), placed.size, ok_bind, mountFile]
  by_cases empty : f.contents = []
  · rw [if_neg (by simp [empty]), ok_bind]
    simp [registered, empty]
  · have positive : 0 < f.contents.length := List.length_pos_iff.mpr empty
    rw [if_pos (by omega), placed.strcpy, ok_bind, ok_bind]
    simp [registered, empty, registerFile]

theorem initTarfs_encode {m : Memory} {members : List Member}
    (small : ∀ f ∈ members, f.contents.length < 2 ^ 31 - 1023) {ptr : Int}
    (holds : Holds m ptr (encode members)) {fuel : Nat} (enough : members.length < fuel) (files : List File) :
    initTarfs m fuel ptr files = .ok ((registered members).reverse ++ files) := by
  induction members generalizing ptr fuel files with
  | nil =>
    cases fuel with
    | zero => simp at enough
    | succ fuel => simp [initTarfs, isUstar_end holds, registered]
  | cons f members ih =>
    cases fuel with
    | zero => simp at enough
    | succ fuel =>
      obtain ⟨placed, later⟩ := holds.member
      have others : ∀ g ∈ members, g.contents.length < 2 ^ 31 - 1023 :=
        fun g member => small g (List.mem_cons_of_mem _ member)
      have order : registered (f :: members) = registered [f] ++ registered members := by
        rw [registered, registered, registered, ← List.map_append, ← List.filter_append]
        rfl
      have single : (registered [f]).reverse = registered [f] := by
        by_cases empty : f.contents = [] <;> simp [registered, empty]
      rw [initTarfs_member placed, advance_small (small f List.mem_cons_self), ok_bind,
        ih others later (Nat.lt_of_succ_lt_succ enough), order, List.reverse_append, single,
        List.append_assoc]

/- A file too large for the step keeps init_tarfs from coming back. -/
theorem initTarfs_large {m : Memory} {members : List Member} {f : Member} (member : f ∈ members)
    (large : 2 ^ 31 - 1023 ≤ f.contents.length) {ptr : Int} (holds : Holds m ptr (encode members))
    (fuel : Nat) (files result : List File) : initTarfs m fuel ptr files ≠ .ok result := by
  induction members generalizing ptr fuel files with
  | nil => simp at member
  | cons g members ih =>
    cases fuel with
    | zero => simp [initTarfs]
    | succ fuel =>
      obtain ⟨placed, later⟩ := holds.member
      rw [initTarfs_member placed]
      rcases Nat.lt_or_ge g.contents.length (2 ^ 31 - 1023) with small | overflows
      · rcases List.mem_cons.mp member with rfl | rest
        · omega
        · rw [advance_small small, ok_bind]
          exact ih rest later fuel _
      · rw [advance_large overflows]
        simp [Bind.bind, Except.bind]

/-! The contract of the file system. -/

/- The archive is mounted after the files `before` are registered; `after` come later. -/
structure Recovers (m : Memory) (archive : Int) (members : List Member) (before after : List File)
    (fuel : Nat) : Prop where
  registers : initTarfs m fuel archive before = .ok ((registered members).reverse ++ before)
  size : ∀ f ∈ members, ∀ path : CString, path.bytes = f.path →
    tarfsGetFize m archive fuel path = .ok f.contents.length
  sizeOther : ∀ path : CString, path.bytes.length ≤ 254 → (∀ f ∈ members, path.bytes ≠ f.path) →
    tarfsGetFize m archive fuel path = .ok (-1)
  read : ∀ f ∈ members, ∀ path : CString, path.bytes = f.path → ∀ n : Nat,
    tarfsRead m archive fuel path n = .ok (min n f.contents.length, f.contents.take n)
  fsRead : ∀ path : CString, (∀ file ∈ after ++ before, file.path ≠ path.bytes) → ∀ n : Nat,
    fsRead m archive fuel (after ++ ((registered members).reverse ++ before)) path n =
      if path.bytes ∈ (registered members).map File.path then tarfsRead m archive fuel path n
      else .ok (-1, [])

section Mounted
variable {m : Memory} {archive : Int} {members : List Member} (distinct : (members.map Member.name).Nodup)
  (small : ∀ f ∈ members, f.contents.length < 2 ^ 31 - 1023) (holds : Holds m archive (encode members))
  {fuel : Nat} (enough : members.length < fuel)

include distinct small holds enough in
/- With distinct names, the member that has the path is the one found. -/
theorem walk_member {path : CString} {test : Int → Bool}
    (exact : ∀ ptr f, Placed m ptr f → test ptr = decide (path.bytes = f.path)) {f : Member}
    (member : f ∈ members) (named : path.bytes = f.path) :
    ∃ q, Placed m q f ∧ walk m test fuel archive = .ok (some (q, f.contents.length)) := by
  rcases walk_encode exact small holds enough with ⟨g, other, same, q, placed, found⟩ | ⟨none, -⟩
  case inl =>
    have names : g.name = f.name := by
      have paths : g.path = f.path := same.symm.trans named
      simpa [Member.path] using paths
    cases List.inj_on_of_nodup_map distinct other member names
    exact ⟨q, placed, found⟩
  case inr => exact absurd named (none f member)

include distinct small holds enough in
theorem tarfsGetFize_member {f : Member} (member : f ∈ members) {path : CString}
    (named : path.bytes = f.path) : tarfsGetFize m archive fuel path = .ok f.contents.length := by
  have short := f.short
  have fits : ¬ 254 < path.bytes.length := by
    rw [named, Member.path, List.length_cons]
    omega
  obtain ⟨q, -, found⟩ :=
    walk_member distinct small holds enough (fun ptr g placed => placed.sizeTest path) member named
  rw [tarfsGetFize, sizeHeader, if_neg fits, found, ok_bind]

include small holds enough in
theorem tarfsGetFize_other {path : CString} (fits : path.bytes.length ≤ 254)
    (other : ∀ f ∈ members, path.bytes ≠ f.path) : tarfsGetFize m archive fuel path = .ok (-1) := by
  rcases walk_encode (fun ptr g placed => placed.sizeTest path) small holds enough
    with ⟨g, member, same, -⟩ | ⟨-, missing⟩
  case inl => exact absurd same (other g member)
  case inr => rw [tarfsGetFize, sizeHeader, if_neg (by omega), missing, ok_bind]

include distinct small holds enough in
theorem tarfsRead_member {f : Member} (member : f ∈ members) {path : CString}
    (named : path.bytes = f.path) (n : Nat) :
    tarfsRead m archive fuel path n = .ok (min n f.contents.length, f.contents.take n) := by
  obtain ⟨q, placed, found⟩ :=
    walk_member distinct small holds enough (fun ptr g placed => placed.readTest path) member named
  rw [tarfsRead, readHeader, found, ok_bind]
  rcases Nat.lt_or_ge f.contents.length n with shorter | longer
  · have whole := placed.fileData (Nat.le_refl f.contents.length)
    simp only [Nat.cast_lt, shorter, if_true, whole, List.take_length]
    rw [List.take_of_length_le (by omega), min_eq_right (by omega)]
  · simp only [Nat.cast_lt, Nat.not_lt.mpr longer, if_false, placed.fileData longer]
    rw [min_eq_left (by omega)]

theorem fsRead_mounted {before after : List File} {path : CString}
    (devices : ∀ file ∈ after ++ before, file.path ≠ path.bytes) (n : Int) :
    fsRead m archive fuel (after ++ ((registered members).reverse ++ before)) path n =
      if path.bytes ∈ (registered members).map File.path then tarfsRead m archive fuel path n
      else .ok (-1, []) := by
  have skipped : ∀ files : List File, (∀ file ∈ files, file ∈ after ++ before) →
      files.find? (fun file => file.path = path.bytes) = none := by
    intro files inside
    rw [List.find?_eq_none]
    intro file member
    simp [devices file (inside file member)]
  have found : (after ++ ((registered members).reverse ++ before)).find? (fun file => file.path = path.bytes) =
      (registered members).reverse.find? (fun file => file.path = path.bytes) := by
    rw [List.find?_append, skipped after (by simp +contextual), Option.none_or, List.find?_append,
      skipped before (by simp +contextual), Option.or_none]
  unfold fsRead
  rw [found]
  split
  case h_1 none =>
    rw [List.find?_eq_none] at none
    have unregistered : path.bytes ∉ (registered members).map File.path := by
      intro listed
      obtain ⟨file, member, same⟩ := List.mem_map.mp listed
      simpa [same] using none file (List.mem_reverse.mpr member)
    rw [if_neg unregistered]
  case h_2 file some =>
    have same : file.path = path.bytes := by simpa using List.find?_some some
    have member : file ∈ registered members := List.mem_reverse.mp (List.mem_of_find?_eq_some some)
    obtain ⟨f, -, rfl⟩ := List.mem_map.mp member
    rw [if_pos (same ▸ List.mem_map_of_mem member)]

end Mounted

theorem recovers_small {m : Memory} {archive : Int} {members : List Member}
    (distinct : (members.map Member.name).Nodup)
    (small : ∀ f ∈ members, f.contents.length < 2 ^ 31 - 1023) (holds : Holds m archive (encode members))
    (before after : List File) {fuel : Nat} (enough : members.length < fuel) :
    Recovers m archive members before after fuel where
  registers := initTarfs_encode small holds enough before
  size _ member _ named := tarfsGetFize_member distinct small holds enough member named
  sizeOther _ fits other := tarfsGetFize_other small holds enough fits other
  read _ member _ named n := tarfsRead_member distinct small holds enough member named n
  fsRead _ devices n := fsRead_mounted devices n

/-- Mounting recovers the files, except that the step over contents of the last 512
lengths overflows an int. -/
theorem mount_recovers (members : List Member) (distinct : (members.map Member.name).Nodup) :
    (∀ m archive before after, Holds m archive (encode members) →
        ∃ enough, ∀ fuel ≥ enough, Recovers m archive members before after fuel) ↔
      ∀ f ∈ members, f.contents.length < 2 ^ 31 - 1023 := by
  constructor
  case mp =>
    intro recovers f member
    by_contra large
    have holds := holds_image (encode members)
    obtain ⟨enough, recovered⟩ := recovers _ 0 [] [] holds
    exact initTarfs_large member (Nat.le_of_not_lt large) holds enough [] _
      (recovered enough (Nat.le_refl enough)).registers
  case mpr =>
    intro small m archive before after holds
    exact ⟨members.length + 1, fun fuel enough => recovers_small distinct small holds before after enough⟩

/- A file with unused header fields of zeros. -/
def plainFile (name contents : List UInt8) (named : 0 ∉ name) (short : name.length + 2 ≤ 99)
    (bounded : contents.length < 2 ^ 31 - 511) : Member :=
  ⟨name, contents, .replicate 24 0, .replicate 122 0, .replicate 250 0, named, short, bounded⟩

def greeting : Member := plainFile [97] [104, 105] (by decide) (by decide) (by decide)

theorem mount_recovers_greeting :
    ∃ enough, ∀ fuel ≥ enough, Recovers (image (encode [greeting])) 0 [greeting] [] [] fuel :=
  (mount_recovers [greeting] (by decide)).mpr (by decide) _ 0 [] [] (holds_image (encode [greeting]))

def twoGigabytes : Member :=
  plainFile [98] (List.replicate (2 ^ 31 - 600) 0) (by decide) (by decide) (by rw [List.length_replicate]; decide)

theorem mount_loses_large : ¬ ∀ m archive before after, Holds m archive (encode [twoGigabytes]) →
    ∃ enough, ∀ fuel ≥ enough, Recovers m archive [twoGigabytes] before after fuel := by
  intro recovers
  have holds := holds_image (encode [twoGigabytes])
  obtain ⟨enough, recovered⟩ := recovers _ 0 [] [] holds
  have large : 2 ^ 31 - 1023 ≤ twoGigabytes.contents.length := by
    rw [show twoGigabytes.contents.length = 2 ^ 31 - 600 from List.length_replicate]
    decide
  exact initTarfs_large List.mem_cons_self large holds enough [] _
    (recovered enough (Nat.le_refl enough)).registers

end EvalynOS.Tarfs
