import EvalynOS.Filesystem.Lookup

/-! The steps of the three walks over an archive of any content. -/
namespace EvalynOS.Tarfs

/- Where a walk arrives that stops at the headers that pass its test. -/
inductive Visits (m : Memory) (test : Int → Bool) (archive : Int) : Int → Prop
  | start : Visits m test archive archive
  | next {p q filesize : Int} (before : Visits m test archive p) (ustar : isUstar m p = true)
      (other : test p = false) (size : fileSize m p = .ok filesize) (step : advance p filesize = .ok q) :
      Visits m test archive q

/- The test of init_tarfs, which looks at every header. -/
def never (_ : Int) : Bool := false

/-- At every header that the walk visits the size is not negative, and from each one that
it leaves it moves on by a block or more. -/
structure Progresses (m : Memory) (test : Int → Bool) (archive : Int) : Prop where
  sizes : ∀ p, Visits m test archive p → isUstar m p = true →
    ∃ filesize, fileSize m p = .ok filesize ∧ 0 ≤ filesize
  steps : ∀ p filesize, Visits m test archive p → isUstar m p = true → test p = false →
    fileSize m p = .ok filesize → ∃ q, advance p filesize = .ok q ∧ p + 512 ≤ q

/- The number that a size field stands for, whatever its characters are. -/
def octalValue (m : Memory) (c n : Int) : (size : Nat) → Int
  | 0 => n
  | size + 1 => octalValue m (c + 1) (n * 8 + ((m c).toNat - 48)) size

def sizeField (m : Memory) (ptr : Int) : Int := octalValue m (ptr + 0x7c) 0 11

/- The number is an int, and so is what its last digit is added to. -/
def IsSize (m : Memory) (ptr : Int) : Prop :=
  0 ≤ sizeField m ptr ∧ sizeField m ptr < 2 ^ 31 ∧ sizeField m ptr - ((m (ptr + 0x86)).toNat - 48) < 2 ^ 31

/-- The size fields that a walk comes across: where it goes on, it has to round them up. -/
def Sized (m : Memory) (test : Int → Bool) (archive : Int) : Prop :=
  ∀ p, Visits m test archive p → isUstar m p = true →
    IsSize m p ∧ (test p = false → sizeField m p ≤ 2 ^ 31 - 1024)

/-! The arithmetic of one step. -/

theorem int_eq {x y : Int} (result : int x = .ok y) : y = x ∧ -2 ^ 31 ≤ x ∧ x < 2 ^ 31 := by
  unfold int at result
  split at result
  case isTrue range =>
    cases result
    exact ⟨rfl, range⟩
  case isFalse => cases result

theorem oct2bin_step {m : Memory} {c n x : Int} {size : Nat} (result : oct2bin m c n (size + 1) = .ok x) :
    n * 8 < 2 ^ 31 ∧ n * 8 + ((m c).toNat - 48) < 2 ^ 31 ∧
      oct2bin m (c + 1) (n * 8 + ((m c).toNat - 48)) size = .ok x := by
  unfold oct2bin at result
  cases scaled : int (n * 8) with
  | error stuck =>
    rw [scaled] at result
    cases result
  | ok a =>
    obtain ⟨rfl, -, small⟩ := int_eq scaled
    rw [scaled, ok_bind] at result
    cases added : int (n * 8 + ((m c).toNat - 48)) with
    | error stuck =>
      rw [added] at result
      cases result
    | ok b =>
      obtain ⟨rfl, -, inRange⟩ := int_eq added
      rw [added, ok_bind] at result
      exact ⟨small, inRange, result⟩

theorem oct2bin_value {m : Memory} {x : Int} (size : Nat) {c n : Int} (result : oct2bin m c n size = .ok x) :
    x = octalValue m c n size := by
  induction size generalizing c n with
  | zero =>
    cases result
    rfl
  | succ size ih => exact ih (oct2bin_step result).2.2

/- What the last digit is added to. -/
theorem oct2bin_scaled {m : Memory} {x : Int} (size : Nat) {c n : Int}
    (result : oct2bin m c n (size + 1) = .ok x) :
    x < 2 ^ 31 ∧ x - ((m (c + size)).toNat - 48) < 2 ^ 31 := by
  induction size generalizing c n with
  | zero =>
    obtain ⟨small, inRange, last⟩ := oct2bin_step result
    cases last
    simp only [Int.natCast_zero, Int.add_zero]
    omega
  | succ size ih =>
    have later := ih (oct2bin_step result).2.2
    rwa [show c + 1 + (size : Int) = c + ((size + 1 : Nat) : Int) by push_cast; omega] at later

/- A number in range has all its leading parts in range. -/
theorem octalValue_leading {m : Memory} (size : Nat) {c n : Int} (low : 0 ≤ octalValue m c n (size + 1))
    (high : octalValue m c n (size + 1) < 2 ^ 31) : -36 ≤ n ∧ n ≤ 2 ^ 28 + 6 := by
  have digit := (m c).toNat_lt
  induction size generalizing c n with
  | zero =>
    simp only [octalValue] at low high
    omega
  | succ size ih =>
    have inner := ih low high (m (c + 1)).toNat_lt
    omega

theorem oct2bin_ok {m : Memory} (size : Nat) {c n : Int} (low : 0 ≤ octalValue m c n (size + 1))
    (high : octalValue m c n (size + 1) < 2 ^ 31)
    (scaled : octalValue m c n (size + 1) - ((m (c + size)).toNat - 48) < 2 ^ 31) :
    oct2bin m c n (size + 1) = .ok (octalValue m c n (size + 1)) := by
  have digit := (m c).toNat_lt
  have leading := octalValue_leading size low high
  induction size generalizing c n with
  | zero =>
    simp only [octalValue, Int.natCast_zero, Int.add_zero] at low high scaled
    unfold oct2bin
    rw [int_ok (by omega) (by omega), ok_bind, int_ok (by omega) (by omega), ok_bind]
    rfl
  | succ size ih =>
    have inner := octalValue_leading size low high
    unfold oct2bin
    rw [int_ok (by omega) (by omega), ok_bind, int_ok (by omega) (by omega), ok_bind]
    apply ih low high ?_ (m (c + 1)).toNat_lt inner
    rwa [show c + 1 + (size : Int) = c + ((size + 1 : Nat) : Int) by push_cast; omega]

theorem fileSize_iff (m : Memory) (ptr : Int) :
    (∃ filesize, fileSize m ptr = .ok filesize ∧ 0 ≤ filesize) ↔ IsSize m ptr := by
  have last : ptr + 0x7c + ((10 : Nat) : Int) = ptr + 0x86 := by omega
  constructor
  · rintro ⟨filesize, size, nonnegative⟩
    obtain ⟨small, scaled⟩ := oct2bin_scaled 10 size
    cases oct2bin_value 11 size
    rw [last] at scaled
    exact ⟨nonnegative, small, scaled⟩
  · rintro ⟨low, high, scaled⟩
    rw [← last] at scaled
    exact ⟨sizeField m ptr, oct2bin_ok 10 low high scaled, low⟩

theorem advance_forward {ptr filesize : Int} (nonnegative : 0 ≤ filesize) (small : filesize ≤ 2 ^ 31 - 1024) :
    advance ptr filesize = .ok (ptr + ((filesize + 511) / 512 + 1) * 512) := by
  have blocks : (filesize + 511).tdiv 512 = (filesize + 511) / 512 := Int.tdiv_eq_ediv_of_nonneg (by omega)
  unfold advance
  rw [int_ok (by omega) (by omega), ok_bind, blocks, int_ok (by omega) (by omega), ok_bind,
    int_ok (by omega) (by omega), ok_bind]

theorem advance_iff {ptr filesize : Int} (nonnegative : 0 ≤ filesize) :
    (∃ q, advance ptr filesize = .ok q ∧ ptr + 512 ≤ q) ↔ filesize ≤ 2 ^ 31 - 1024 := by
  constructor
  · rintro ⟨q, step, -⟩
    by_contra large
    unfold advance at step
    cases rounded : int (filesize + 511) with
    | error stuck =>
      rw [rounded] at step
      cases step
    | ok a =>
      obtain ⟨rfl, -, inRange⟩ := int_eq rounded
      have blocks : (filesize + 511).tdiv 512 = (filesize + 511) / 512 :=
        Int.tdiv_eq_ediv_of_nonneg (by omega)
      rw [rounded, ok_bind, blocks, int_ok (by omega) (by omega), ok_bind] at step
      cases bytes : int (((filesize + 511) / 512 + 1) * 512) with
      | error stuck =>
        rw [bytes] at step
        cases step
      | ok b =>
        obtain ⟨-, -, fits⟩ := int_eq bytes
        omega
  · intro small
    exact ⟨_, advance_forward nonnegative small, by omega⟩

/-! The walks. -/

section Walks

variable {m : Memory} {test : Int → Bool} {archive : Int}

theorem progresses_iff : Progresses m test archive ↔ Sized m test archive := by
  constructor
  · intro progresses p visited ustar
    obtain ⟨filesize, size, nonnegative⟩ := progresses.sizes p visited ustar
    refine ⟨(fileSize_iff m p).mp ⟨filesize, size, nonnegative⟩, ?_⟩
    intro other
    cases oct2bin_value 11 size
    exact (advance_iff nonnegative).mp (progresses.steps p _ visited ustar other size)
  · intro sized
    constructor
    case sizes =>
      exact fun p visited ustar => (fileSize_iff m p).mpr (sized p visited ustar).1
    case steps =>
      intro p filesize visited ustar other size
      obtain ⟨isSize, small⟩ := sized p visited ustar
      cases oct2bin_value 11 size
      exact (advance_iff isSize.1).mpr (small other)

/- One turn of a walk that progresses. -/
theorem Sized.turn (sized : Sized m test archive) {p : Int} (visited : Visits m test archive p)
    (ustar : isUstar m p = true) : ∃ filesize, fileSize m p = .ok filesize ∧ filesize = sizeField m p ∧
      (test p = false → ∃ q, advance p filesize = .ok q ∧ p + 512 ≤ q ∧ Visits m test archive q) := by
  obtain ⟨filesize, size, -⟩ := (progresses_iff.mpr sized).sizes p visited ustar
  refine ⟨filesize, size, oct2bin_value 11 size, ?_⟩
  intro other
  obtain ⟨q, step, forward⟩ := (progresses_iff.mpr sized).steps p filesize visited ustar other size
  exact ⟨q, step, forward, .next visited ustar other size step⟩

theorem walk_terminates (sized : Sized m test archive) {stop : Int} (bounded : ∀ p ≥ stop, isUstar m p = false)
    (fuel : Nat) {p : Int} (visited : Visits m test archive p) (near : stop ≤ p + 512 * fuel) :
    ∃ found, walk m test (fuel + 1) p = .ok found := by
  induction fuel generalizing p with
  | zero => exact ⟨none, walk_end (bounded p (by omega))⟩
  | succ fuel ih =>
    cases ustar : isUstar m p with
    | false => exact ⟨none, walk_end ustar⟩
    | true =>
      obtain ⟨filesize, size, -, turn⟩ := sized.turn visited ustar
      cases tested : test p with
      | true => exact ⟨_, walk_found ustar size tested⟩
      | false =>
        obtain ⟨q, step, forward, visitedNext⟩ := turn tested
        obtain ⟨found, rest⟩ := ih visitedNext (by push_cast at near; omega)
        refine ⟨found, ?_⟩
        rw [walk_succ ustar size tested, step]
        exact rest

/- The archive's length in blocks is enough fuel. -/
theorem walk_finishes (sized : Sized m test archive) {stop : Int} (bounded : ∀ p ≥ stop, isUstar m p = false) :
    ∃ fuel found, walk m test fuel archive = .ok found :=
  ⟨(stop - archive).toNat + 1, walk_terminates sized bounded _ .start (by omega)⟩

end Walks

/-! The names that init_tarfs copies on its way. -/

/- A name ends within the 256 bytes of struct file's path. -/
def NameEnds (m : Memory) (src : Int) : Prop := ∃ i : Nat, i < 256 ∧ m (src + i) = 0

theorem strcpy_iff {m : Memory} (room : Nat) (src : Int) :
    (∃ bytes, strcpy m room src = .ok bytes) ↔ ∃ i : Nat, i < room ∧ m (src + i) = 0 := by
  induction room generalizing src with
  | zero => simp [strcpy]
  | succ room ih =>
    unfold strcpy
    by_cases last : m src = 0
    · rw [if_pos last]
      exact ⟨fun _ => ⟨0, Nat.succ_pos room, by simpa using last⟩, fun _ => ⟨[], rfl⟩⟩
    · rw [if_neg last]
      have place : ∀ i : Nat, src + ((i + 1 : Nat) : Int) = src + 1 + (i : Int) := by
        intro i
        push_cast
        omega
      have shifted : (∃ i : Nat, i < room + 1 ∧ m (src + i) = 0) ↔
          ∃ i : Nat, i < room ∧ m (src + 1 + i) = 0 := by
        constructor
        · rintro ⟨i, inside, ends⟩
          cases i with
          | zero => exact absurd (by simpa using ends) last
          | succ i => exact ⟨i, by omega, by rwa [← place i]⟩
        · rintro ⟨i, inside, ends⟩
          exact ⟨i + 1, by omega, by rwa [place i]⟩
      rw [shifted, ← ih]
      cases strcpy m room (src + 1) with
      | error stuck => simp [Bind.bind, Except.bind]
      | ok bytes => simp [Bind.bind, Except.bind]

theorem mountFile_iff {m : Memory} {ptr filesize : Int} {files : List File} :
    (∃ added, mountFile m ptr filesize files = .ok added) ↔ (0 < filesize → NameEnds m (ptr + 1)) := by
  unfold mountFile
  by_cases positive : 0 < filesize
  · rw [if_pos positive, NameEnds, ← strcpy_iff]
    cases strcpy m 256 (ptr + 1) with
    | error stuck => simp [Bind.bind, Except.bind, positive]
    | ok bytes => simp [Bind.bind, Except.bind]
  · simp [positive]

/- The names of the headers that init_tarfs visits. -/
def NamesEnd (m : Memory) (archive : Int) : Prop :=
  ∀ p, Visits m never archive p → isUstar m p = true → 0 < sizeField m p → NameEnds m (p + 1)

section Mount

variable {m : Memory} {archive : Int}

theorem initTarfs_terminates (sized : Sized m never archive) (named : NamesEnd m archive) {stop : Int}
    (bounded : ∀ p ≥ stop, isUstar m p = false) (fuel : Nat) {p : Int} (visited : Visits m never archive p)
    (near : stop ≤ p + 512 * fuel) (files : List File) :
    ∃ result, initTarfs m (fuel + 1) p files = .ok result := by
  induction fuel generalizing p files with
  | zero =>
    refine ⟨files, ?_⟩
    rw [initTarfs, if_pos (by simp [bounded p (by omega)])]
  | succ fuel ih =>
    cases ustar : isUstar m p with
    | false =>
      refine ⟨files, ?_⟩
      rw [initTarfs, if_pos (by simp [ustar])]
    | true =>
      obtain ⟨filesize, size, value, turn⟩ := sized.turn visited ustar
      obtain ⟨q, step, forward, visitedNext⟩ := turn rfl
      obtain ⟨added, mounts⟩ : ∃ added, mountFile m p filesize files = .ok added :=
        mountFile_iff.mpr fun positive => named p visited ustar (value ▸ positive)
      obtain ⟨result, rest⟩ := ih visitedNext (by push_cast at near; omega) added
      refine ⟨result, ?_⟩
      rw [initTarfs, if_neg (by simp [ustar]), size, ok_bind, mounts, ok_bind, step, ok_bind]
      exact rest

/- A turn of a loop that comes to its end. -/
theorem initTarfs_turn {fuel : Nat} {p : Int} {files result : List File} (ustar : isUstar m p = true)
    (done : initTarfs m fuel p files = .ok result) :
    ∃ filesize added q fuel', fileSize m p = .ok filesize ∧ mountFile m p filesize files = .ok added ∧
      advance p filesize = .ok q ∧ initTarfs m fuel' q added = .ok result := by
  cases fuel with
  | zero => cases done
  | succ fuel =>
    rw [initTarfs, if_neg (by simp [ustar])] at done
    cases size : fileSize m p with
    | error stuck =>
      rw [size] at done
      cases done
    | ok filesize =>
      rw [size, ok_bind] at done
      cases mounts : mountFile m p filesize files with
      | error stuck =>
        rw [mounts] at done
        cases done
      | ok added =>
        rw [mounts, ok_bind] at done
        cases step : advance p filesize with
        | error stuck =>
          rw [step] at done
          cases done
        | ok q =>
          rw [step, ok_bind] at done
          exact ⟨filesize, added, q, fuel, rfl, mounts, step, done⟩

theorem initTarfs_visits {fuel : Nat} {files result : List File}
    (done : initTarfs m fuel archive files = .ok result) {p : Int} (visited : Visits m never archive p) :
    ∃ fuel' files', initTarfs m fuel' p files' = .ok result := by
  induction visited with
  | start => exact ⟨fuel, files, done⟩
  | next _ ustar _ size step ih =>
    obtain ⟨fuel', files', later⟩ := ih
    obtain ⟨filesize, added, q, fuel'', size', -, step', rest⟩ := initTarfs_turn ustar later
    cases size.symm.trans size'
    cases step.symm.trans step'
    exact ⟨fuel'', added, rest⟩

theorem initTarfs_named {fuel : Nat} {files result : List File}
    (done : initTarfs m fuel archive files = .ok result) : NamesEnd m archive := by
  intro p visited ustar
  obtain ⟨fuel', files', later⟩ := initTarfs_visits done visited
  obtain ⟨filesize, added, q, fuel'', size, mounts, -⟩ := initTarfs_turn ustar later
  cases oct2bin_value 11 size
  exact mountFile_iff.mp ⟨added, mounts⟩

end Mount

/-- Each of the three walks moves forward at every header, and comes to its end, exactly
when the size fields on its way are sizes that it can round up; and when the path and the
names fit the buffers they are copied to. -/
theorem archive_walks_progress_iff {m : Memory} {archive stop : Int} (bounded : ∀ p ≥ stop, isUstar m p = false)
    (path : CString) (readLength : Int) (files : List File) :
    ((Progresses m (readTest m path) archive ∧
        ∃ fuel result, tarfsRead m archive fuel path readLength = .ok result) ↔
      Sized m (readTest m path) archive) ∧
    ((Progresses m (sizeTest m path) archive ∧ ∃ fuel result, tarfsGetFize m archive fuel path = .ok result) ↔
      Sized m (sizeTest m path) archive ∧ path.bytes.length ≤ 254) ∧
    ((Progresses m never archive ∧ ∃ fuel result, initTarfs m fuel archive files = .ok result) ↔
      Sized m never archive ∧ NamesEnd m archive) := by
  refine ⟨?_, ?_, ?_⟩
  case refine_1 =>
    constructor
    · exact fun done => progresses_iff.mp done.1
    · intro sized
      obtain ⟨fuel, found, walked⟩ := walk_finishes sized bounded
      refine ⟨progresses_iff.mpr sized, fuel, ?_⟩
      rw [tarfsRead, readHeader, walked]
      cases found with
      | none => exact ⟨_, rfl⟩
      | some place => exact ⟨_, rfl⟩
  case refine_2 =>
    constructor
    · rintro ⟨progresses, fuel, result, done⟩
      refine ⟨progresses_iff.mp progresses, ?_⟩
      by_contra long
      rw [tarfsGetFize, sizeHeader, if_pos (Nat.not_le.mp long)] at done
      cases done
    · rintro ⟨sized, fits⟩
      obtain ⟨fuel, found, walked⟩ := walk_finishes sized bounded
      refine ⟨progresses_iff.mpr sized, fuel, ?_⟩
      rw [tarfsGetFize, sizeHeader, if_neg (Nat.not_lt.mpr fits), walked]
      cases found with
      | none => exact ⟨_, rfl⟩
      | some place => exact ⟨_, rfl⟩
  case refine_3 =>
    constructor
    · rintro ⟨progresses, fuel, result, done⟩
      exact ⟨progresses_iff.mp progresses, initTarfs_named done⟩
    · rintro ⟨sized, named⟩
      obtain ⟨result, done⟩ :=
        initTarfs_terminates sized named bounded (stop - archive).toNat .start (by omega) files
      exact ⟨progresses_iff.mpr sized, _, result, done⟩

theorem image_bounded (bytes : List UInt8) : ∀ p ≥ (bytes.length : Int), isUstar (image bytes) p = false := by
  intro p behind
  have blank : image bytes (p + 257) = 0 := by
    unfold image
    rw [List.getD_eq_getElem?_getD, List.getElem?_eq_none (by omega)]
    rfl
  simp [isUstar, memcmp, blank]

theorem greeting_sized (test : Int → Bool) : Sized (image (encode [greeting])) test 0 := by
  have size : fileSize (image (encode [greeting])) 0 = .ok 2 := by decide +kernel
  have step : advance 0 2 = .ok 1024 := by decide +kernel
  have places : ∀ p, Visits (image (encode [greeting])) test 0 p → p = 0 ∨ p = 1024 := by
    intro p visited
    induction visited with
    | start => exact .inl rfl
    | next _ ustar _ size' step' ih =>
      rcases ih with rfl | rfl
      · cases size.symm.trans size'
        cases step.symm.trans step'
        exact .inr rfl
      · exact absurd ustar (by decide +kernel)
  intro p visited ustar
  rcases places p visited with rfl | rfl
  · exact ⟨(fileSize_iff _ _).mp ⟨2, size, by decide⟩, fun _ => by decide +kernel⟩
  · exact absurd ustar (by decide +kernel)

theorem archive_walks_progress_greeting :
    ∃ fuel result, tarfsRead (image (encode [greeting])) 0 fuel greetingPath 16 = .ok result :=
  ((archive_walks_progress_iff (image_bounded (encode [greeting])) greetingPath 16 []).1.mpr
    (greeting_sized _)).2

/- A header of nothing but a size field and the mark. -/
def bareHeader (size : List UInt8) : List UInt8 :=
  List.replicate 0x7c 0 ++ size ++ List.replicate (257 - 0x87) 0 ++ [117, 115, 116, 97, 114] ++
    List.replicate 250 0

/- A blank among the digits: the size is -1024. -/
def blankDigit : Memory := image (bareHeader [48, 48, 48, 48, 48, 48, 48, 48, 32, 48, 48])

/-- The walk of init_tarfs stays at this header for ever. -/
theorem walk_stays : (∀ p ≥ (512 : Int), isUstar blankDigit p = false) ∧ fileSize blankDigit 0 = .ok (-1024) ∧
    ¬ Progresses blankDigit never 0 ∧ ∀ fuel files, initTarfs blankDigit fuel 0 files = .error .running := by
  have ustar : isUstar blankDigit 0 = true := by decide +kernel
  have size : fileSize blankDigit 0 = .ok (-1024) := by decide +kernel
  have step : advance 0 (-1024) = .ok 0 := by decide +kernel
  have behind : ((bareHeader [48, 48, 48, 48, 48, 48, 48, 48, 32, 48, 48]).length : Int) = 512 := by
    decide +kernel
  refine ⟨behind ▸ image_bounded _, size, ?_, ?_⟩
  · intro progresses
    obtain ⟨filesize, known, nonnegative⟩ := progresses.sizes 0 .start ustar
    cases size.symm.trans known
    omega
  · intro fuel files
    induction fuel generalizing files with
    | zero => rfl
    | succ fuel ih =>
      rw [initTarfs, if_neg (by simp [ustar]), size, ok_bind, mountFile, if_neg (by decide), ok_bind, step,
        ok_bind]
      exact ih files

end EvalynOS.Tarfs
