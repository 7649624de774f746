import EvalynOS.Filesystem.Ustar

/-! Whether tarfsGetFize and tarfsRead find the same file, in any archive. -/
namespace EvalynOS.Tarfs

/-- At every amount of fuel both lookups have stopped at one header, at the end of the
archive or at the same overflow, or both still run; and the buffer that sys_open has
allocated is filled with the bytes of that file. -/
structure Agree (m : Memory) (archive : Int) (path : CString) : Prop where
  sameHeader : ∀ fuel, readHeader m archive fuel path = sizeHeader m archive fuel path
  filled : ∀ fuel size, tarfsGetFize m archive fuel path = .ok size → 0 ≤ size →
    ∃ ptr, sizeHeader m archive fuel path = .ok (some (ptr, size)) ∧
      tarfsRead m archive fuel path size = .ok (size, fileData m ptr size)

/- No header that has the path from its second byte on comes before the first header of
"." and the path. -/
def DotFirst (m : Memory) (archive : Int) (path : CString) : Prop :=
  ∀ k ptr, header m k archive = some ptr → readTest m path ptr = true →
    ∃ j ≤ k, ∃ dotted, header m j archive = some dotted ∧ sizeTest m path dotted = true

theorem readTest_of_sizeTest {m : Memory} {path : CString} {ptr : Int} (dotted : sizeTest m path ptr = true) :
    readTest m path ptr = true := by
  rw [sizeTest_eq, Bool.and_eq_true] at dotted
  exact dotted.2

theorem header_zero {m : Memory} {ptr filesize : Int} (ustar : isUstar m ptr = true)
    (size : fileSize m ptr = .ok filesize) : header m 0 ptr = some ptr := by
  simp [header, ustar, size, Except.toOption]

theorem header_succ {m : Memory} {ptr filesize next : Int} (k : Nat) (ustar : isUstar m ptr = true)
    (size : fileSize m ptr = .ok filesize) (step : advance ptr filesize = .ok next) :
    header m (k + 1) ptr = header m k next := by
  simp [header, ustar, size, step, Except.toOption]

/- What it takes to have a header at all. -/
theorem header_some {m : Memory} {k : Nat} {ptr q : Int} (there : header m k ptr = some q) :
    isUstar m ptr = true ∧ ∃ filesize, fileSize m ptr = .ok filesize := by
  cases ustar : isUstar m ptr with
  | false => cases k <;> simp [header, ustar] at there
  | true =>
    cases size : fileSize m ptr with
    | error stuck => cases k <;> simp [header, ustar, size, Except.toOption] at there
    | ok filesize => exact ⟨rfl, filesize, rfl⟩

theorem header_zero_eq {m : Memory} {ptr q : Int} (there : header m 0 ptr = some q) : q = ptr := by
  obtain ⟨ustar, filesize, size⟩ := header_some there
  rw [header_zero ustar size] at there
  exact (Option.some.inj there).symm

theorem header_next {m : Memory} {k : Nat} {ptr q filesize : Int} (size : fileSize m ptr = .ok filesize)
    (there : header m (k + 1) ptr = some q) :
    ∃ next, advance ptr filesize = .ok next ∧ header m k next = some q := by
  obtain ⟨ustar, -⟩ := header_some there
  cases step : advance ptr filesize with
  | error stuck => simp [header, ustar, size, step, Except.toOption] at there
  | ok next => exact ⟨next, rfl, (header_succ k ustar size step).symm.trans there⟩

/- A header that is not the path's may be taken off the archive. -/
theorem DotFirst.next {m : Memory} {path : CString} {ptr filesize next : Int} (ustar : isUstar m ptr = true)
    (size : fileSize m ptr = .ok filesize) (step : advance ptr filesize = .ok next)
    (other : readTest m path ptr = false) (dotFirst : DotFirst m ptr path) : DotFirst m next path := by
  intro k q there matched
  obtain ⟨j, order, dotted, place, found⟩ :=
    dotFirst (k + 1) q ((header_succ k ustar size step).trans there) matched
  cases j with
  | zero =>
    rw [header_zero_eq place] at found
    rw [readTest_of_sizeTest found] at other
    cases other
  | succ j => exact ⟨j, by omega, dotted, (header_succ j ustar size step).symm.trans place, found⟩

theorem walks_agree {m : Memory} {path : CString} (fuel : Nat) {archive : Int}
    (dotFirst : DotFirst m archive path) :
    walk m (readTest m path) fuel archive = walk m (sizeTest m path) fuel archive := by
  induction fuel generalizing archive with
  | zero => rfl
  | succ fuel ih =>
    cases ustar : isUstar m archive with
    | false => rw [walk_end ustar, walk_end ustar]
    | true =>
      cases size : fileSize m archive with
      | error stuck => simp only [walk, ustar, size, not_true_eq_false, if_false, Bind.bind, Except.bind]
      | ok filesize =>
        cases matched : readTest m path archive with
        | true =>
          obtain ⟨j, order, dotted, place, found⟩ := dotFirst 0 archive (header_zero ustar size) matched
          cases Nat.le_zero.mp order
          rw [header_zero_eq place] at found
          rw [walk_found ustar size matched, walk_found ustar size found]
        | false =>
          have undotted : sizeTest m path archive = false := by
            rw [sizeTest_eq, matched, Bool.and_false]
          rw [walk_succ ustar size matched, walk_succ ustar size undotted]
          cases step : advance archive filesize with
          | error stuck => rfl
          | ok next => exact ih (dotFirst.next ustar size step matched)

theorem dotFirst_of_agree {m : Memory} {path : CString} {archive : Int}
    (agree : ∀ fuel, walk m (readTest m path) fuel archive = walk m (sizeTest m path) fuel archive) :
    DotFirst m archive path := by
  intro k
  induction k generalizing archive with
  | zero =>
    intro q there matched
    obtain ⟨ustar, filesize, size⟩ := header_some there
    cases header_zero_eq there
    refine ⟨0, Nat.le_refl 0, archive, there, ?_⟩
    by_contra undotted
    rw [Bool.not_eq_true] at undotted
    have one := agree 1
    rw [walk_found ustar size matched, walk_succ ustar size undotted] at one
    cases step : advance archive filesize with
    | error stuck => simp [step, Except.bind] at one
    | ok next => simp [step, Except.bind, walk] at one
  | succ k ih =>
    intro q there matched
    obtain ⟨ustar, filesize, size⟩ := header_some there
    obtain ⟨next, step, later⟩ := header_next size there
    cases dotted : sizeTest m path archive with
    | true => exact ⟨0, Nat.zero_le _, archive, header_zero ustar size, dotted⟩
    | false =>
      cases first : readTest m path archive with
      | true =>
        have one := agree 1
        rw [walk_found ustar size first, walk_succ ustar size dotted, step] at one
        simp [Except.bind, walk] at one
      | false =>
        have rest : ∀ fuel, walk m (readTest m path) fuel next = walk m (sizeTest m path) fuel next := by
          intro fuel
          have more := agree (fuel + 1)
          rw [walk_succ ustar size first, walk_succ ustar size dotted, step] at more
          exact more
        obtain ⟨j, order, place, found⟩ := ih rest q later matched
        refine ⟨j + 1, by omega, place, ?_⟩
        rw [header_succ j ustar size step]
        exact found

/-! An archive that has an end is walked to the end: the arithmetic on the way may
overflow, and that is all. -/

def Settles (result : Except Stuck α) : Prop := result ≠ .error .running

theorem Settles.bind {result : Except Stuck α} {next : α → Except Stuck β} (first : Settles result)
    (second : ∀ a, result = .ok a → Settles (next a)) : Settles (result >>= next) := by
  cases result with
  | error stuck =>
    intro runs
    exact first (congrArg Except.error (Except.error.inj runs))
  | ok a => exact second a rfl

theorem settles_int (x : Int) : Settles (int x) := by
  unfold int
  split <;> simp [Settles]

theorem settles_oct2bin (m : Memory) (size : Nat) (c n : Int) : Settles (oct2bin m c n size) := by
  induction size generalizing c n with
  | zero => simp [oct2bin, Settles]
  | succ size ih =>
    unfold oct2bin
    exact (settles_int _).bind fun _ _ => (settles_int _).bind fun _ _ => ih _ _

theorem settles_advance (ptr filesize : Int) : Settles (advance ptr filesize) := by
  unfold advance
  refine (settles_int _).bind fun _ _ => (settles_int _).bind fun _ _ => (settles_int _).bind ?_
  simp [Settles]

theorem settles_walk {m : Memory} {test : Int → Bool} {n : Nat} {archive : Int}
    (last : header m n archive = none) {fuel : Nat} (enough : n < fuel) :
    Settles (walk m test fuel archive) := by
  induction n generalizing archive fuel with
  | zero =>
    cases fuel with
    | zero => omega
    | succ fuel =>
      cases ustar : isUstar m archive with
      | false => simp [walk_end ustar, Settles]
      | true =>
        cases size : fileSize m archive with
        | error stuck =>
          have settled := settles_oct2bin m 11 (archive + 0x7c) 0
          unfold fileSize at size
          rw [size] at settled
          simp only [walk, ustar, fileSize, size, not_true_eq_false, if_false, Bind.bind, Except.bind]
          intro runs
          exact settled (congrArg Except.error (Except.error.inj runs))
        | ok filesize =>
          rw [header_zero ustar size] at last
          cases last
  | succ n ih =>
    cases fuel with
    | zero => omega
    | succ fuel =>
      unfold walk
      split
      · simp [Settles]
      · rename_i ustar
        refine (settles_oct2bin _ _ _ _).bind ?_
        intro filesize size
        split
        · simp [Settles]
        · refine (settles_advance _ _).bind ?_
          intro next step
          refine ih ?_ (Nat.lt_of_succ_lt_succ enough)
          rw [← header_succ n (by simpa using ustar) size step]
          exact last

/-- The size and the data are those of one file exactly when no name that differs from
"." and the path in its first byte only stands before the file of that name. -/
theorem lookups_agree_iff (m : Memory) (archive : Int) (path : CString) (short : path.bytes.length ≤ 254) :
    (Agree m archive path ↔ DotFirst m archive path) ∧
      ∀ n, header m n archive = none → ∀ fuel > n,
        Settles (readHeader m archive fuel path) ∧ Settles (sizeHeader m archive fuel path) := by
  have fits : ∀ fuel, sizeHeader m archive fuel path = walk m (sizeTest m path) fuel archive :=
    fun fuel => if_neg (Nat.not_lt.mpr short)
  constructor
  case right =>
    intro n last fuel enough
    rw [fits]
    exact ⟨settles_walk last enough, settles_walk last enough⟩
  case left =>
    constructor
    case mp =>
      intro agree
      apply dotFirst_of_agree
      intro fuel
      exact (agree.sameHeader fuel).trans (fits fuel)
    case mpr =>
      intro dotFirst
      have same : ∀ fuel, readHeader m archive fuel path = sizeHeader m archive fuel path :=
        fun fuel => (walks_agree fuel dotFirst).trans (fits fuel).symm
      refine ⟨same, ?_⟩
      intro fuel size known nonnegative
      unfold tarfsGetFize at known
      unfold tarfsRead
      rw [same fuel]
      cases found : sizeHeader m archive fuel path with
      | error stuck => simp [found, Bind.bind, Except.bind] at known
      | ok selected =>
        rw [found, ok_bind] at known
        cases selected with
        | none =>
          cases known
          omega
        | some place =>
          cases known
          exact ⟨place.1, rfl, by simp [Bind.bind, Except.bind]⟩

/- "x/a" before "./a". -/
def misleading : Memory :=
  image (120 :: (plainFile [97] [] greeting.named greeting.short (by decide)).entry.tail ++ encode [greeting])

def greetingPath : CString := ⟨[47, 97], by decide⟩

theorem lookups_agree_greeting : Agree (image (encode [greeting])) 0 greetingPath := by
  apply (lookups_agree_iff _ _ _ (by decide)).1.mpr
  intro k ptr _ _
  exact ⟨0, Nat.zero_le k, 0, by decide +kernel, by decide +kernel⟩

/- The size is that of the greeting, and nothing is read. -/
theorem lookups_disagree : ¬ Agree misleading 0 greetingPath := by
  intro agree
  have different : readHeader misleading 0 2 greetingPath ≠ sizeHeader misleading 0 2 greetingPath := by
    decide +kernel
  exact different (agree.sameHeader 2)

end EvalynOS.Tarfs
