import Mathlib

/-! The string functions of libc/string.c and libc/stdlib.c that parse text. An argument is the
memory from the pointer on; the result is `none` where the scan runs past its end. -/
namespace EvalynOS.Strings

def text (s : String) : List UInt8 := s.toList.map Char.toUInt8

def strlen : List UInt8 → Option Nat
  | [] => none
  | b :: rest => if b = 0 then some 0 else (strlen rest).map (· + 1)

/- The offset of the first `c`. -/
def strchr (c : UInt8) : List UInt8 → Option (Option Nat)
  | [] => none
  | b :: rest =>
    if b = 0 then some (if c = 0 then some 0 else none)
    else if b = c then some (some 0)
    else (strchr c rest).map (Option.map (· + 1))

def strncmp : List UInt8 → List UInt8 → Nat → Option Int
  | _, _, 0 => some 0
  | a :: s1, b :: s2, n + 1 => if a ≠ 0 ∧ a = b then strncmp s1 s2 n else some (a.toNat - b.toNat)
  | _, _, _ => none

def digitOf (c : UInt8) : Option Nat :=
  if '0'.toUInt8 ≤ c ∧ c ≤ '9'.toUInt8 then some (c.toNat - '0'.toNat)
  else if 'a'.toUInt8 ≤ c ∧ c ≤ 'z'.toUInt8 then some (c.toNat - 'a'.toNat + 10)
  else if 'A'.toUInt8 ≤ c ∧ c ≤ 'Z'.toUInt8 then some (c.toNat - 'A'.toNat + 10)
  else none

def detectBase (str : List UInt8) (base : Nat) : Nat × List UInt8 :=
  if base ≠ 0 then (base, str)
  else match str with
    | z :: c :: rest =>
      if z ≠ '0'.toUInt8 then (10, str)
      else if c = 'x'.toUInt8 ∨ c = 'X'.toUInt8 then (16, rest)
      else if c = 'o'.toUInt8 then (8, rest)
      else if c = 'b'.toUInt8 then (2, rest)
      else (10, str)
    | _ => (10, str)

/- The loop of strtoll and strtoull; `wrap` is the arithmetic of the result type. -/
def parseDigits (wrap : Nat → Nat) (base : Nat) : List UInt8 → Nat → Option Nat
  | [], _ => none
  | c :: rest, value =>
    if c = 0 then some value
    else match digitOf c with
      | none => some value
      | some digit =>
        if base ≤ digit then some value
        else parseDigits wrap base rest (wrap (value * base + digit))

/- Without the range of the result type; the debug stub passes two characters. -/
def strtoll (str : List UInt8) (base : Nat) : Option Int :=
  let (neg, str) := match str with
    | c :: rest =>
      if c = '-'.toUInt8 then (true, rest) else if c = '+'.toUInt8 then (false, rest) else (false, str)
    | [] => (false, str)
  let (base, str) := detectBase str base
  (parseDigits id base str 0).map (fun value : Nat => if neg then -(value : Int) else (value : Int))

def strtoull (str : List UInt8) (base : Nat) : Option Nat :=
  let (base, str) := detectBase str base
  parseDigits (· % 2 ^ 64) base str 0

/-! What a scan reads: nothing behind the byte that stops it. -/

def isDigit (base : Nat) (c : UInt8) : Bool := (digitOf c).any (· < base)

section Scans

variable {p q r : List UInt8} {c : UInt8} {base value : Nat} {wrap : Nat → Nat}

theorem strlen_append (stop : (0 : UInt8) ∈ q) (r : List UInt8) : strlen (q ++ r) = strlen q := by
  induction q with
  | nil => cases stop
  | cons b q ih =>
    simp only [List.cons_append, strlen]
    split
    · rfl
    · rename_i other
      rw [ih ((List.mem_cons.mp stop).resolve_left (Ne.symm other))]

theorem strlen_skip (clean : (0 : UInt8) ∉ p) (r : List UInt8) : strlen (p ++ r) = (strlen r).map (· + p.length) := by
  induction p with
  | nil =>
    rw [List.nil_append, List.length_nil]
    cases strlen r <;> rfl
  | cons b p ih =>
    obtain ⟨other, rest⟩ := not_or.mp (mt List.mem_cons.mpr clean)
    simp only [List.cons_append, strlen, if_neg (Ne.symm other), ih rest, Option.map_map, List.length_cons]
    congr 1

theorem strlen_eq (clean : (0 : UInt8) ∉ p) (r : List UInt8) : strlen (p ++ 0 :: r) = some p.length := by
  rw [strlen_skip clean]
  simp [strlen]

theorem strlen_lt {n : Nat} (length : strlen q = some n) : n < q.length := by
  induction q generalizing n with
  | nil => cases length
  | cons b q ih =>
    unfold strlen at length
    split at length
    · cases length
      exact Nat.succ_pos _
    · obtain ⟨m, later, rfl⟩ := Option.map_eq_some_iff.mp length
      rw [List.length_cons]
      exact Nat.succ_lt_succ (ih later)

theorem strlen_total (stop : (0 : UInt8) ∈ q) : ∃ n, strlen q = some n := by
  obtain ⟨p, r, rfl, clean⟩ := List.eq_append_cons_of_mem stop
  exact ⟨p.length, strlen_eq clean r⟩

theorem strchr_append (stop : c ∈ q ∨ 0 ∈ q) (r : List UInt8) : strchr c (q ++ r) = strchr c q := by
  induction q with
  | nil => simp at stop
  | cons b q ih =>
    simp only [List.cons_append, strchr]
    split
    · rfl
    · rename_i notNul
      split
      · rfl
      · rename_i notHere
        rw [ih (stop.imp (fun member => (List.mem_cons.mp member).resolve_left (Ne.symm notHere))
          (fun member => (List.mem_cons.mp member).resolve_left (Ne.symm notNul)))]

theorem strchr_skip (absent : c ∉ p) (clean : 0 ∉ p) (r : List UInt8) :
    strchr c (p ++ r) = (strchr c r).map (Option.map (· + p.length)) := by
  induction p with
  | nil =>
    rw [List.nil_append, List.length_nil]
    rcases strchr c r with _ | _ | _ <;> rfl
  | cons b p ih =>
    obtain ⟨notHere, absent⟩ := not_or.mp (mt List.mem_cons.mpr absent)
    obtain ⟨notNul, clean⟩ := not_or.mp (mt List.mem_cons.mpr clean)
    simp only [List.cons_append, strchr, if_neg (Ne.symm notNul), if_neg (Ne.symm notHere), ih absent clean,
      Option.map_map]
    congr 1
    funext found
    cases found with
    | none => rfl
    | some i => simp only [Function.comp_apply, Option.map_some, List.length_cons, Nat.add_assoc]

theorem strchr_found (absent : c ∉ p) (clean : 0 ∉ p) (nonzero : c ≠ 0) (r : List UInt8) :
    strchr c (p ++ c :: r) = some (some p.length) := by
  rw [strchr_skip absent clean]
  simp [strchr, nonzero]

theorem strchr_none (absent : c ∉ p) (clean : 0 ∉ p) (nonzero : c ≠ 0) (r : List UInt8) :
    strchr c (p ++ 0 :: r) = some none := by
  rw [strchr_skip absent clean]
  simp [strchr, nonzero]

theorem strchr_total (stop : (0 : UInt8) ∈ q) (c : UInt8) : ∃ found, strchr c q = some found := by
  induction q with
  | nil => cases stop
  | cons b q ih =>
    unfold strchr
    split
    · exact ⟨_, rfl⟩
    · rename_i other
      split
      · exact ⟨_, rfl⟩
      · obtain ⟨found, later⟩ := ih ((List.mem_cons.mp stop).resolve_left (Ne.symm other))
        exact ⟨_, by rw [later]; rfl⟩

theorem strchr_bound {i : Nat} (found : strchr c q = some (some i)) : i < q.length := by
  induction q generalizing i with
  | nil => cases found
  | cons b q ih =>
    unfold strchr at found
    split at found
    · rw [Option.some.injEq, ite_eq_iff] at found
      rcases found with ⟨_, isZero⟩ | ⟨_, none⟩
      · cases isZero
        exact Nat.succ_pos _
      · cases none
    · split at found
      · cases found
        exact Nat.succ_pos _
      · obtain ⟨later, foundLater, here⟩ := Option.map_eq_some_iff.mp found
        obtain ⟨j, rfl, rfl⟩ := Option.map_eq_some_iff.mp here
        rw [List.length_cons]
        have bound := ih foundLater
        omega

/-- The first `n` bytes of `s1` are those of `s2`. -/
theorem strncmp_eq_zero {s1 s2 : List UInt8} (clean : (0 : UInt8) ∉ s1) (r : List UInt8) :
    strncmp (s1 ++ r) s2 s1.length = some 0 ↔ s1 <+: s2 := by
  induction s1 generalizing s2 with
  | nil => simp [strncmp]
  | cons a s1 ih =>
    obtain ⟨notNul, clean⟩ := not_or.mp (mt List.mem_cons.mpr clean)
    cases s2 with
    | nil => simp [strncmp]
    | cons b s2 =>
      simp only [List.cons_append, List.length_cons, strncmp, List.cons_prefix_cons]
      by_cases same : a = b
      · rw [if_pos ⟨Ne.symm notNul, same⟩, ih clean]
        simp [same]
      · rw [if_neg (fun both => same both.2)]
        have differ : (a.toNat : Int) - b.toNat ≠ 0 := by
          intro zero
          exact same (UInt8.toNat_inj.mp (by omega))
        simp [same, differ]

theorem isDigit_zero : isDigit base 0 = false := rfl

theorem parseDigits_stop (stop : isDigit base c = false) : parseDigits wrap base (c :: r) value = some value := by
  unfold parseDigits
  split
  · rfl
  · split
    · rfl
    · rename_i digit here
      rw [if_pos]
      simpa [isDigit, here] using stop

theorem parseDigits_digit {digit : Nat} (here : digitOf c = some digit) (small : digit < base) :
    parseDigits wrap base (c :: r) value = parseDigits wrap base r (wrap (value * base + digit)) := by
  have nonzero : c ≠ 0 := by
    rintro rfl
    cases here
  rw [parseDigits, if_neg nonzero]
  simp only [here]
  rw [if_neg (Nat.not_le_of_lt small)]

theorem parseDigits_append (stop : ∃ c ∈ q, isDigit base c = false) (r : List UInt8) :
    parseDigits wrap base (q ++ r) value = parseDigits wrap base q value := by
  induction q generalizing value with
  | nil => simp at stop
  | cons b q ih =>
    rw [List.cons_append]
    cases here : isDigit base b with
    | false => rw [parseDigits_stop here, parseDigits_stop here]
    | true =>
      obtain ⟨digit, isDigit, small⟩ := (Option.any_eq_true _ _).mp here
      rw [parseDigits_digit isDigit (by simpa using small), parseDigits_digit isDigit (by simpa using small)]
      apply ih
      obtain ⟨c, member, stops⟩ := stop
      rcases List.mem_cons.mp member with rfl | later
      · rw [here] at stops
        cases stops
      · exact ⟨c, later, stops⟩

theorem strtoull_append (stop : ∃ c ∈ q, isDigit 16 c = false) (r : List UInt8) :
    strtoull (q ++ r) 16 = strtoull q 16 := parseDigits_append stop r

/-- All bytes that end a number end it alike. -/
theorem parseDigits_terminated (p : List UInt8) (stop : isDigit base c = false) :
    parseDigits wrap base (p ++ c :: r) value = parseDigits wrap base (p ++ [0]) value := by
  induction p generalizing value with
  | nil =>
    rw [List.nil_append, List.nil_append, parseDigits_stop stop, parseDigits_stop isDigit_zero]
  | cons b p ih =>
    rw [List.cons_append, List.cons_append]
    cases here : isDigit base b with
    | false => rw [parseDigits_stop here, parseDigits_stop here]
    | true =>
      obtain ⟨digit, isDigit, small⟩ := (Option.any_eq_true _ _).mp here
      rw [parseDigits_digit isDigit (by simpa using small), parseDigits_digit isDigit (by simpa using small)]
      exact ih

theorem strtoull_terminated (p : List UInt8) (stop : isDigit 16 c = false) :
    strtoull (p ++ c :: r) 16 = strtoull (p ++ [0]) 16 := parseDigits_terminated p stop

theorem parseDigits_total (p : List UInt8) (value : Nat) :
    ∃ n, parseDigits wrap base (p ++ [0]) value = some n := by
  induction p generalizing value with
  | nil => exact ⟨value, parseDigits_stop isDigit_zero⟩
  | cons b p ih =>
    rw [List.cons_append]
    cases here : isDigit base b with
    | false => exact ⟨value, parseDigits_stop here⟩
    | true =>
      obtain ⟨digit, isDigit, small⟩ := (Option.any_eq_true _ _).mp here
      rw [parseDigits_digit isDigit (by simpa using small)]
      exact ih _

theorem strtoull_total (p : List UInt8) : ∃ n, strtoull (p ++ [0]) 16 = some n := parseDigits_total p 0

/-- The first byte of a kind. -/
theorem split_first {kind : UInt8 → Prop} [DecidablePred kind] (some : ∃ c ∈ q, kind c) :
    ∃ p c r, q = p ++ c :: r ∧ kind c ∧ ∀ d ∈ p, ¬ kind d := by
  induction q with
  | nil => simp at some
  | cons b q ih =>
    by_cases here : kind b
    · exact ⟨[], b, q, rfl, here, fun _ none => absurd none List.not_mem_nil⟩
    · obtain ⟨c, member, isKind⟩ := some
      have later : c ∈ q := (List.mem_cons.mp member).resolve_left (fun same => here (same ▸ isKind))
      obtain ⟨p, d, r, rfl, found, before⟩ := ih ⟨c, later, isKind⟩
      exact ⟨b :: p, d, r, rfl, found, List.forall_mem_cons.mpr ⟨here, before⟩⟩

end Scans

end EvalynOS.Strings
