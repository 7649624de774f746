import EvalynOS.Libc.Numbers

/-! setup_cmdline of utils/cmdline.c, on the bytes of the command line. The arguments are cut and
lower-cased where they lie. -/
namespace EvalynOS.Cmdline
open Strings

structure Globals where
  serialEnabled : Bool
  serialPort : UInt16
  dbgEnabled : Bool
  dbgstubEnabled : Bool
  deriving DecidableEq, Repr

abbrev space : UInt8 := ' '.toUInt8

/- libc/ctype.c -/
def tolower (c : UInt8) : UInt8 := if 'A'.toUInt8 ≤ c ∧ c ≤ 'Z'.toUInt8 then c + 32 else c

/- How far the loops over spaces and over an argument move the cursor. -/
def skipSpaces : List UInt8 → Option Nat
  | [] => none
  | c :: rest => if c = space then (skipSpaces rest).map (· + 1) else some 0

def scanArg : List UInt8 → Option Nat
  | [] => none
  | c :: rest => if c ≠ 0 ∧ c ≠ space then (scanArg rest).map (· + 1) else some 0

def intMax : Nat := 2 ^ 31 - 1

/- The loop that lower-cases the argument, from arg[i] on; i is an int. -/
def lowerFrom (i : Nat) : List UInt8 → Option (Except Overflow (List UInt8))
  | [] => none
  | c :: rest =>
    if c = 0 then some (.ok (c :: rest))
    else if i = intMax then some (.error .add)
    else (lowerFrom (i + 1) rest).map (fun result => result.map (tolower c :: ·))

def equals (s : String) (arg : List UInt8) : Option Bool := (strcmp (text s ++ [0]) arg).map (· = 0)

/- What an argument sets; `hypervisor` is the bit of the processor. -/
def setArg (hypervisor : Bool) (arg : List UInt8) (g : Globals) : Option (Except Overflow Globals) := do
  if ← equals "serial=hv" arg then
    return .ok (if hypervisor then { g with serialEnabled := true } else g)
  if ← equals "serial=on" arg then
    return .ok { g with serialEnabled := true }
  if (← strncmp (text "serial=" ++ [0]) arg 7) = 0 then
    let port ← signedStrtoll (arg.drop 7) 0
    return port.map (fun port => { g with serialEnabled := true, serialPort := UInt16.ofInt port })
  if ← equals "dbg=on" arg then
    return .ok { g with dbgEnabled := true }
  if ← equals "debug=on" arg then
    return .ok { g with dbgEnabled := true }
  if ← equals "dbg=stub" arg then
    return .ok { g with dbgEnabled := true, dbgstubEnabled := true }
  if ← equals "debug=stub" arg then
    return .ok { g with dbgstubEnabled := true }
  return .ok g

/- The loop of setup_cmdline, with the cursor as an index. -/
def setupLoop (hypervisor : Bool) : Nat → List UInt8 → Nat → Globals → Option (Except Overflow Globals)
  | 0, _, _, _ => none
  | fuel + 1, m, cmdline, g => do
    if (← m[cmdline]?) = 0 then return .ok g
    let arg := cmdline
    let cmdline := cmdline + (← scanArg (m.drop cmdline))
    -- the separator becomes the NUL of the argument
    let stop ← m[cmdline]?
    let (m, cmdline) := if stop ≠ 0 then (m.set cmdline 0, cmdline + 1) else (m, cmdline)
    let cmdline := cmdline + (← skipSpaces (m.drop cmdline))
    match ← lowerFrom 0 (m.drop arg) with
    | .error e => return .error e
    | .ok lowered =>
      match ← setArg hypervisor lowered g with
      | .error e => return .error e
      | .ok g => setupLoop hypervisor fuel (m.take arg ++ lowered) cmdline g

def setupCmdline (hypervisor : Bool) (fuel : Nat) (cmdline : Option (List UInt8)) (g : Globals) :
    Option (Except Overflow Globals) :=
  match cmdline with
  | none => some (.ok g)
  | some m => (skipSpaces m).bind (fun cmdline => setupLoop hypervisor fuel m cmdline g)

/-! The same by tokens. -/

/- The maximal substrings without a space. -/
def tokens (line : List UInt8) : List (List UInt8) := (line.splitOn space).filter (· ≠ [])

def lower (token : List UInt8) : List UInt8 := token.map tolower

def rule (hypervisor : Bool) (g : Globals) (token : List UInt8) : Globals :=
  if token = text "serial=hv" then if hypervisor then { g with serialEnabled := true } else g
  else if token = text "serial=on" then { g with serialEnabled := true }
  else if text "serial=" <+: token then
    { g with serialEnabled := true, serialPort := UInt16.ofInt (numberValue (token.drop 7)) }
  else if token = text "dbg=on" ∨ token = text "debug=on" then { g with dbgEnabled := true }
  else if token = text "dbg=stub" then { g with dbgEnabled := true, dbgstubEnabled := true }
  else if token = text "debug=stub" then { g with dbgstubEnabled := true }
  else g

def tokenFold (hypervisor : Bool) (g : Globals) (line : List UInt8) : Globals :=
  ((tokens line).map lower).foldl (rule hypervisor) g

/-- The index of the loop over the token stays an int, and a port number a long long. -/
def InRange (token : List UInt8) : Prop :=
  token.length ≤ intMax ∧ (text "serial=" <+: token → magnitude (token.drop 7) ≤ llongMax)

/- Spaces that are added at a space or at an end, and letters in another case. -/
inductive Respelled : List UInt8 → List UInt8 → Prop
  | before (l : List UInt8) : Respelled l (space :: l)
  | after (l : List UInt8) : Respelled l (l ++ [space])
  | between (l r : List UInt8) : Respelled (l ++ space :: r) (l ++ space :: space :: r)
  | letter (l r : List UInt8) (c d : UInt8) (same : tolower c = tolower d) : Respelled (l ++ c :: r) (l ++ d :: r)

section Arguments

variable {hypervisor : Bool} {g : Globals} {token t r l m : List UInt8} {c d : UInt8} {i k : Nat}

theorem strcmp_nul (cleanS : (0 : UInt8) ∉ l) (clean : (0 : UInt8) ∉ t) (r : List UInt8) :
    ∃ difference, strcmp (l ++ [0]) (t ++ 0 :: r) = some difference ∧ (difference = 0 ↔ t = l) := by
  induction l generalizing t with
  | nil =>
    cases t with
    | nil => exact ⟨0, rfl, by simp only⟩
    | cons b t =>
      have nonzero : b ≠ 0 := fun zero => clean (zero ▸ List.mem_cons_self)
      refine ⟨0 - b.toNat, rfl, ?_⟩
      have value : b.toNat ≠ 0 := fun zero => nonzero (UInt8.toNat_inj.mp zero)
      simp only [reduceCtorEq, iff_false]
      omega
  | cons a l ih =>
    obtain ⟨nonzero, cleanL⟩ := not_or.mp (mt List.mem_cons.mpr cleanS)
    cases t with
    | nil =>
      refine ⟨a.toNat - 0, if_neg (fun both => both.1 both.2), ?_⟩
      have value : a.toNat ≠ 0 := fun zero => nonzero (UInt8.toNat_inj.mp zero).symm
      simp only [reduceCtorEq, iff_false]
      omega
    | cons b t =>
      obtain ⟨-, cleanT⟩ := not_or.mp (mt List.mem_cons.mpr clean)
      by_cases same : a = b
      · obtain ⟨difference, result, equal⟩ := ih cleanL cleanT
        refine ⟨difference, (if_pos ⟨Ne.symm nonzero, same⟩).trans result, ?_⟩
        rw [equal, List.cons.injEq]
        exact ⟨fun rest => ⟨same.symm, rest⟩, And.right⟩
      · refine ⟨a.toNat - b.toNat, if_neg (fun both => same both.2), ?_⟩
        have values : a.toNat ≠ b.toNat := fun equal => same (UInt8.toNat_inj.mp equal)
        rw [List.cons.injEq]
        constructor
        · omega
        · rintro ⟨equal, -⟩
          exact absurd equal.symm same

theorem equals_nul (s : String) (cleanS : (0 : UInt8) ∉ text s) (clean : (0 : UInt8) ∉ t) (r : List UInt8) :
    equals s (t ++ 0 :: r) = some (decide (t = text s)) := by
  obtain ⟨difference, result, equal⟩ := strcmp_nul cleanS clean r
  rw [equals, result, Option.map_some]
  simp only [equal]

theorem strncmp_nul (cleanL : (0 : UInt8) ∉ l) (t r : List UInt8) :
    ∃ difference, strncmp (l ++ [0]) (t ++ 0 :: r) l.length = some difference ∧ (difference = 0 ↔ l <+: t) := by
  have total : ∃ difference, strncmp (l ++ [0]) (t ++ 0 :: r) l.length = some difference := by
    induction l generalizing t with
    | nil => exact ⟨0, by rw [List.length_nil, strncmp]⟩
    | cons a l ih =>
      obtain ⟨-, cleanL⟩ := not_or.mp (mt List.mem_cons.mpr cleanL)
      cases t with
      | nil => exact ⟨a.toNat - 0, if_neg (fun both => both.1 both.2)⟩
      | cons b t =>
        by_cases same : a ≠ 0 ∧ a = b
        · obtain ⟨difference, result⟩ := ih cleanL t
          exact ⟨difference, (if_pos same).trans result⟩
        · exact ⟨a.toNat - b.toNat, if_neg same⟩
  obtain ⟨difference, result⟩ := total
  refine ⟨difference, result, ?_⟩
  have zero := @strncmp_eq_zero l (t ++ 0 :: r) cleanL [0]
  rw [result, Option.some.injEq] at zero
  rw [zero]
  refine ⟨?_, fun part => List.prefix_append_of_prefix part⟩
  intro part
  rcases Nat.lt_or_ge t.length l.length with longer | fits
  · -- else the NUL would be in the literal
    have behind : t ++ [0] <+: l := by
      apply List.prefix_of_prefix_length_le _ part
      · rw [List.length_append, List.length_singleton]
        exact longer
      · exact ⟨r, by rw [List.append_assoc, List.singleton_append]⟩
    exact absurd (behind.subset (List.mem_append_right t (List.mem_singleton.mpr rfl))) cleanL
  · exact List.prefix_of_prefix_length_le part (List.prefix_append t _) fits

theorem drop_number (number : List UInt8) (r : List UInt8) :
    (text "serial=" ++ number ++ r).drop 7 = number ++ r := by
  rw [List.append_assoc]
  rfl

/-- An argument obeys its rule, or holds a number out of range. -/
theorem setArg_outcome (clean : (0 : UInt8) ∉ t) :
    ((text "serial=" <+: t → magnitude (t.drop 7) ≤ llongMax) →
      ∀ r, setArg hypervisor (t ++ 0 :: r) g = some (.ok (rule hypervisor g t))) ∧
    (¬ (text "serial=" <+: t → magnitude (t.drop 7) ≤ llongMax) →
      ∃ e, ∀ r, setArg hypervisor (t ++ 0 :: r) g = some (.error e)) := by
  have unfolded : ∀ r, setArg hypervisor (t ++ 0 :: r) g =
      if text "serial=" <+: t ∧ t ≠ text "serial=hv" ∧ t ≠ text "serial=on" then
        (signedStrtoll ((t ++ 0 :: r).drop 7) 0).map (fun result => result.map (fun port =>
          { g with serialEnabled := true, serialPort := UInt16.ofInt port }))
      else some (.ok (rule hypervisor g t)) := by
    intro r
    obtain ⟨difference, result, equal⟩ := strncmp_nul (l := text "serial=") (by decide +kernel) t r
    have seven : (text "serial=").length = 7 := by decide +kernel
    rw [seven] at result
    unfold setArg rule
    rw [equals_nul "serial=hv" (by decide +kernel) clean, equals_nul "serial=on" (by decide +kernel) clean,
      equals_nul "dbg=on" (by decide +kernel) clean, equals_nul "debug=on" (by decide +kernel) clean,
      equals_nul "dbg=stub" (by decide +kernel) clean, equals_nul "debug=stub" (by decide +kernel) clean, result]
    simp only [Option.bind_eq_bind, Option.bind_some, decide_eq_true_eq, equal]
    by_cases hv : t = text "serial=hv"
    · have other : ¬ (text "serial=" <+: t ∧ t ≠ text "serial=hv" ∧ t ≠ text "serial=on") := fun all => all.2.1 hv
      rw [if_pos hv, if_neg other, if_pos hv]
      rfl
    · by_cases on : t = text "serial=on"
      · have other : ¬ (text "serial=" <+: t ∧ t ≠ text "serial=hv" ∧ t ≠ text "serial=on") := fun all => all.2.2 on
        rw [if_neg hv, if_pos on, if_neg other, if_neg hv, if_pos on]
        rfl
      · by_cases number : text "serial=" <+: t
        · rw [if_neg hv, if_neg on, if_pos number, if_pos ⟨number, hv, on⟩, Option.map_eq_bind]
          rfl
        · have other : ¬ (text "serial=" <+: t ∧ t ≠ text "serial=hv" ∧ t ≠ text "serial=on") :=
            fun all => number all.1
          rw [if_neg hv, if_neg on, if_neg number, if_neg other, if_neg hv, if_neg on, if_neg number]
          by_cases dbg : t = text "dbg=on"
          · rw [if_pos dbg, if_pos (Or.inl dbg)]
            rfl
          · by_cases debug : t = text "debug=on"
            · rw [if_neg dbg, if_pos debug, if_pos (Or.inr debug)]
              rfl
            · rw [if_neg dbg, if_neg debug, if_neg (not_or.mpr ⟨dbg, debug⟩)]
              split
              · rfl
              · split
                · rfl
                · rfl
  by_cases special : text "serial=" <+: t ∧ t ≠ text "serial=hv" ∧ t ≠ text "serial=on"
  · obtain ⟨⟨number, rfl⟩, hv, on⟩ := special
    have behind := drop_number number []
    rw [List.append_nil, List.append_nil] at behind
    obtain ⟨fits, overflows⟩ := signedStrtoll_outcome number
    have here : text "serial=" <+: text "serial=" ++ number := List.prefix_append _ _
    rw [behind]
    constructor
    · intro small r
      rw [unfolded, if_pos ⟨here, hv, on⟩, drop_number, fits (small here)]
      unfold rule
      rw [if_neg hv, if_neg on, if_pos here, behind]
      rfl
    · intro large
      have beyond : llongMax < magnitude number := Nat.not_le.mp (fun small => large (fun _ => small))
      obtain ⟨e, stops⟩ := overflows beyond
      refine ⟨e, fun r => ?_⟩
      rw [unfolded, if_pos ⟨here, hv, on⟩, drop_number, stops]
      rfl
  · refine ⟨fun _ r => (unfolded r).trans (if_neg special), fun large => absurd ?_ large⟩
    intro number
    rw [not_and, not_and, not_not] at special
    by_cases hv : t = text "serial=hv"
    · rw [hv]
      decide +kernel
    · rw [special number hv]
      decide +kernel

/-- A byte below the letters is the lower case of itself only. -/
theorem tolower_eq (below : d < 'A'.toUInt8) : tolower c = d ↔ c = d := by
  unfold tolower
  split
  · rename_i upper
    have low := UInt8.le_iff_toNat_le.mp upper.1
    have high := UInt8.le_iff_toNat_le.mp upper.2
    have small := UInt8.lt_iff_toNat_lt.mp below
    have letterA : 'A'.toUInt8.toNat = 65 := rfl
    have letterZ : 'Z'.toUInt8.toNat = 90 := rfl
    have step : (32 : UInt8).toNat = 32 := rfl
    rw [← UInt8.toNat_inj, ← UInt8.toNat_inj, UInt8.toNat_add]
    omega
  · exact Iff.rfl

theorem clean_lower (clean : (0 : UInt8) ∉ t) : (0 : UInt8) ∉ lower t := by
  intro member
  obtain ⟨c, inside, zero⟩ := List.mem_map.mp member
  rw [tolower_eq (by decide)] at zero
  exact clean (zero ▸ inside)

theorem scanArg_eq (plain : ∀ c ∈ t, c ≠ 0 ∧ c ≠ space) (stop : d = 0 ∨ d = space) :
    scanArg (t ++ d :: r) = some t.length := by
  induction t with
  | nil =>
    refine if_neg ?_
    rintro ⟨nonzero, other⟩
    exact stop.elim nonzero other
  | cons c t ih =>
    have rest := ih (fun c' member => plain c' (List.mem_cons_of_mem c member))
    rw [List.cons_append, scanArg, if_pos (plain c List.mem_cons_self), rest]
    rfl

theorem skipSpaces_eq (other : d ≠ space) : skipSpaces (List.replicate k space ++ d :: r) = some k := by
  induction k with
  | zero => exact if_neg other
  | succ k ih =>
    rw [List.replicate_succ, List.cons_append, skipSpaces, if_pos rfl, ih]
    rfl

theorem lowerFrom_eq (clean : (0 : UInt8) ∉ t) (start : i ≤ intMax) (r : List UInt8) :
    lowerFrom i (t ++ 0 :: r) =
      some (if i + t.length ≤ intMax then .ok (lower t ++ 0 :: r) else .error .add) := by
  induction t generalizing i with
  | nil =>
    rw [List.length_nil, if_pos (by omega)]
    rfl
  | cons c t ih =>
    obtain ⟨nonzero, cleanT⟩ := not_or.mp (mt List.mem_cons.mpr clean)
    rw [List.cons_append, lowerFrom, if_neg (Ne.symm nonzero), List.length_cons]
    by_cases last : i = intMax
    · rw [if_pos last, if_neg (by omega)]
    · rw [if_neg last, ih cleanT (by omega)]
      have same : i + 1 + t.length = i + (t.length + 1) := by omega
      rw [same]
      split
      · rfl
      · rfl

/- What the loop does with an argument in lower case. -/
def argStep (hypervisor : Bool) (g : Globals) (t : List UInt8) : Except Overflow Globals :=
  if t.length ≤ intMax then (setArg hypervisor (t ++ [0]) g).getD (.ok g) else .error .add

theorem setArg_nul (clean : (0 : UInt8) ∉ t) (r : List UInt8) :
    setArg hypervisor (t ++ 0 :: r) g = some ((setArg hypervisor (t ++ [0]) g).getD (.ok g)) := by
  obtain ⟨fits, overflows⟩ := @setArg_outcome hypervisor g t clean
  by_cases small : text "serial=" <+: t → magnitude (t.drop 7) ≤ llongMax
  · rw [fits small r, fits small []]
    rfl
  · obtain ⟨e, stops⟩ := overflows small
    rw [stops r, stops []]
    rfl

theorem argStep_outcome (clean : (0 : UInt8) ∉ t) :
    (InRange t → argStep hypervisor g t = .ok (rule hypervisor g t)) ∧
    (¬ InRange t → ∃ e, argStep hypervisor g t = .error e) := by
  obtain ⟨fits, overflows⟩ := @setArg_outcome hypervisor g t clean
  unfold argStep
  constructor
  · rintro ⟨short, small⟩
    rw [if_pos short, fits small []]
    rfl
  · intro beyond
    by_cases short : t.length ≤ intMax
    · obtain ⟨e, stops⟩ := overflows (fun small => beyond ⟨short, small⟩)
      exact ⟨e, by rw [if_pos short, stops []]; rfl⟩
    · exact ⟨.add, if_neg short⟩

theorem drop_behind {p : Nat} (here : m.drop p = t ++ r) (j : Nat) : m.drop (p + t.length + j) = r.drop j := by
  rw [Nat.add_assoc, ← List.drop_drop, here, List.drop_length_add_append]

/-- The byte behind the argument becomes a NUL. -/
theorem cut_argument {p : Nat} (here : m.drop p = t ++ d :: r) :
    ∃ m₁ : List UInt8, (if d ≠ 0 then (m.set (p + t.length) 0, p + t.length + 1) else (m, p + t.length)) =
        (m₁, p + t.length + (if d = 0 then 0 else 1)) ∧
      m₁.length = m.length ∧ m₁.drop p = t ++ 0 :: r := by
  by_cases zero : d = 0
  · rw [if_neg (not_not_intro zero), if_pos zero]
    exact ⟨m, rfl, rfl, zero ▸ here⟩
  · rw [if_pos zero, if_neg zero]
    refine ⟨m.set (p + t.length) 0, rfl, List.length_set, ?_⟩
    rw [← List.set_drop, here, List.set_append_right _ _ (Nat.le_refl _), Nat.sub_self]
    rfl

/-- One round of the loop: an argument, the byte that ends it, and the spaces behind. What is
behind the argument's NUL stays. -/
theorem setupLoop_round {p fuel : Nat} (here : m.drop p = t ++ d :: r) (some : t ≠ [])
    (plain : ∀ c ∈ t, c ≠ 0 ∧ c ≠ space) (stop : d = 0 ∨ d = space)
    (skip : skipSpaces (if d = 0 then 0 :: r else r) = Option.some k) :
    ∃ m' : List UInt8, (∀ j, m'.drop (p + t.length + j) = (0 :: r).drop j) ∧
      (∀ e, argStep hypervisor g (lower t) = .error e →
        setupLoop hypervisor (fuel + 1) m p g = Option.some (.error e)) ∧
      ∀ g', argStep hypervisor g (lower t) = .ok g' → setupLoop hypervisor (fuel + 1) m p g =
        setupLoop hypervisor fuel m' (p + t.length + (if d = 0 then 0 else 1) + k) g' := by
  obtain ⟨c, t', rfl⟩ := List.exists_cons_of_ne_nil some
  have inside : p < m.length := by
    by_contra beyond
    rw [List.drop_of_length_le (Nat.not_lt.mp beyond)] at here
    cases here
  have first : m[p]? = Option.some c := by
    rw [← Nat.add_zero p, ← List.getElem?_drop, here]
    rfl
  have last : m[p + (c :: t').length]? = Option.some d := by
    rw [← List.getElem?_drop, here, List.getElem?_append_right (Nat.le_refl _), Nat.sub_self]
    rfl
  have nonzero := (plain c List.mem_cons_self).1
  have clean : (0 : UInt8) ∉ c :: t' := fun member => (plain 0 member).1 rfl
  obtain ⟨m₁, cutting, sameLength, cutDrop⟩ := cut_argument here
  have behind : m₁.drop (p + (c :: t').length + (if d = 0 then 0 else 1)) = if d = 0 then 0 :: r else r := by
    rw [drop_behind cutDrop]
    split
    · rfl
    · rfl
  have unfolded : setupLoop hypervisor (fuel + 1) m p g =
      (if 0 + (c :: t').length ≤ intMax then
        (setArg hypervisor (lower (c :: t') ++ 0 :: r) g).bind (fun result => match result with
          | .error e => Option.some (.error e)
          | .ok g => setupLoop hypervisor fuel (m₁.take p ++ (lower (c :: t') ++ 0 :: r))
              (p + (c :: t').length + (if d = 0 then 0 else 1) + k) g)
      else Option.some (.error .add)) := by
    rw [setupLoop]
    simp only [first, Option.bind_eq_bind, Option.bind_some, if_neg nonzero, here, scanArg_eq plain stop, last,
      cutting, behind, skip, cutDrop, lowerFrom_eq clean (Nat.zero_le _)]
    by_cases short : 0 + (c :: t').length ≤ intMax
    · rw [if_pos short, if_pos short]
      rfl
    · rw [if_neg short, if_neg short]
      rfl
  have length : (lower (c :: t')).length = 0 + (c :: t').length := by
    rw [lower, List.length_map, Nat.zero_add]
  refine ⟨m₁.take p ++ (lower (c :: t') ++ 0 :: r), ?_, ?_, ?_⟩
  · intro j
    have start : (m₁.take p ++ (lower (c :: t') ++ 0 :: r)).drop p = lower (c :: t') ++ 0 :: r := by
      apply List.drop_left'
      rw [List.length_take]
      omega
    have shifted := drop_behind start j
    rw [length, Nat.zero_add] at shifted
    exact shifted
  · intro e stops
    rw [unfolded, setArg_nul (clean_lower clean), Option.bind_some]
    unfold argStep at stops
    rw [length] at stops
    split
    · rename_i short
      rw [if_pos short] at stops
      rw [stops]
    · rename_i long
      rw [if_neg long] at stops
      cases stops
      rfl
  · intro g' continues
    rw [unfolded, setArg_nul (clean_lower clean), Option.bind_some]
    unfold argStep at continues
    rw [length] at continues
    split
    · rename_i short
      rw [if_pos short] at continues
      rw [continues]
    · rename_i long
      rw [if_neg long] at continues
      cases continues

end Arguments

section Tokens

variable {hypervisor : Bool} {g : Globals} {t r l m line tail : List UInt8}

theorem tokens_append (l r : List UInt8) : tokens (l ++ space :: r) = tokens l ++ tokens r := by
  rw [tokens, List.splitOn_append_cons_self, List.filter_append]
  rfl

theorem tokens_plain (plain : space ∉ t) : tokens t = if t = [] then [] else [t] := by
  rw [tokens, List.splitOn_eq_singleton plain, List.filter_singleton]
  by_cases empty : t = []
  · rw [if_pos empty, empty]
    rfl
  · rw [if_neg empty, decide_eq_true empty]
    rfl

theorem tokens_spaces (k : Nat) (l : List UInt8) : tokens (List.replicate k space ++ l) = tokens l := by
  induction k with
  | zero => rfl
  | succ k ih =>
    have first := tokens_append [] (List.replicate k space ++ l)
    rw [ih, tokens_plain List.not_mem_nil, if_pos rfl] at first
    exact first

/-- A line is a text without spaces, or such a text, a space and a line. -/
theorem line_induction {P : List UInt8 → Prop} (last : ∀ t, space ∉ t → P t)
    (more : ∀ t r, space ∉ t → P r → P (t ++ space :: r)) (l : List UInt8) : P l := by
  induction length : l.length using Nat.strongRecOn generalizing l with
  | ind n ih =>
    by_cases member : space ∈ l
    · obtain ⟨t, r, rfl, plain⟩ := List.eq_append_cons_of_mem member
      rw [List.length_append, List.length_cons] at length
      exact more t r plain (ih r.length (by omega) r rfl)
    · exact last l member

theorem mem_of_token (l : List UInt8) : ∀ t ∈ tokens l, ∀ c ∈ t, c ∈ l := by
  induction l using line_induction with
  | last t plain =>
    rw [tokens_plain plain]
    intro t' member c inside
    split at member
    · cases member
    · rwa [List.mem_singleton.mp member] at inside
  | more t r plain ih =>
    rw [tokens_append, tokens_plain plain]
    intro t' member c inside
    rcases List.mem_append.mp member with first | later
    · split at first
      · cases first
      · rw [List.mem_singleton.mp first] at inside
        exact List.mem_append_left _ inside
    · exact List.mem_append_right _ (List.mem_cons_of_mem _ (ih t' later c inside))

theorem space_mem_lower : space ∈ lower t ↔ space ∈ t := by
  rw [lower, List.mem_map]
  constructor
  · rintro ⟨c, member, same⟩
    rw [tolower_eq (by decide)] at same
    exact same ▸ member
  · intro member
    exact ⟨space, member, (tolower_eq (by decide)).mpr rfl⟩

theorem tokens_lower (l : List UInt8) : (tokens l).map lower = tokens (lower l) := by
  have piece : ∀ t, space ∉ t → (tokens t).map lower = tokens (lower t) := by
    intro t plain
    rw [tokens_plain plain, tokens_plain (mt space_mem_lower.mp plain)]
    cases t with
    | nil => rfl
    | cons c t => rfl
  induction l using line_induction with
  | last t plain => exact piece t plain
  | more t r plain ih =>
    have cut : lower (t ++ space :: r) = lower t ++ space :: lower r := List.map_append
    rw [tokens_append, List.map_append, cut, tokens_append, ih, piece t plain]

/-- The tokens in lower case are the same. -/
theorem Respelled.tokens {l l' : List UInt8} (respelled : Respelled l l') :
    (tokens l).map lower = (tokens l').map lower := by
  have one : Cmdline.tokens [] = [] := rfl
  cases respelled with
  | before l =>
    have cut := tokens_append [] l
    rw [one, List.nil_append, List.nil_append] at cut
    rw [cut]
  | after l => rw [tokens_append, one, List.append_nil]
  | between l r =>
    have cut := tokens_append [] r
    rw [one, List.nil_append, List.nil_append] at cut
    rw [tokens_append, tokens_append, cut]
  | letter l r c d same =>
    have lowered : lower (l ++ c :: r) = lower (l ++ d :: r) := by
      simp only [lower, List.map_append, List.map_cons, same]
    rw [tokens_lower, tokens_lower, lowered]

theorem respelled_tokens {l l' : List UInt8} (respelled : Relation.EqvGen Respelled l l') :
    (tokens l).map lower = (tokens l').map lower := by
  induction respelled with
  | rel l l' one => exact one.tokens
  | refl l => rfl
  | symm l l' _ ih => exact ih.symm
  | trans l l' l'' _ _ first second => exact first.trans second

theorem leading_spaces (l : List UInt8) : ∃ k r, l = List.replicate k space ++ r ∧ r.head? ≠ some space := by
  induction l with
  | nil => exact ⟨0, [], rfl, fun same => by cases same⟩
  | cons c l ih =>
    by_cases here : c = space
    · obtain ⟨k, r, rfl, other⟩ := ih
      exact ⟨k + 1, r, by rw [here]; rfl, other⟩
    · exact ⟨0, c :: l, rfl, fun same => here (Option.some.inj same)⟩

theorem skipSpaces_line (k : Nat) (other : r.head? ≠ some space) (tail : List UInt8) :
    skipSpaces (List.replicate k space ++ r ++ 0 :: tail) = some k := by
  rw [List.append_assoc]
  cases r with
  | nil => exact skipSpaces_eq (by decide)
  | cons c r => exact skipSpaces_eq (fun same => other (congrArg some same))

/-- A line is cut into a text without spaces, the byte that ends it, and the line behind the
spaces that follow. -/
structure Cut (l tail t : List UInt8) (d : UInt8) (r : List UInt8) (k : Nat) (l' : List UInt8) : Prop where
  line : l ++ 0 :: tail = t ++ d :: r
  plain : space ∉ t
  stop : d = 0 ∨ d = space
  skip : skipSpaces (if d = 0 then 0 :: r else r) = some k
  rest : (0 :: r).drop ((if d = 0 then 0 else 1) + k) = l' ++ 0 :: tail
  lead : l'.head? ≠ some space
  inside : ∀ b ∈ t ++ l', b ∈ l
  shorter : t.length + l'.length ≤ l.length
  tokens : tokens l = tokens t ++ tokens l'

theorem cut_line (l tail : List UInt8) : ∃ t d r k l', Cut l tail t d r k l' := by
  by_cases member : space ∈ l
  · obtain ⟨t, after, rfl, plain⟩ := List.eq_append_cons_of_mem member
    obtain ⟨k, l', rfl, lead⟩ := leading_spaces after
    refine ⟨t, space, List.replicate k space ++ l' ++ 0 :: tail, k, l', ?_, plain, Or.inr rfl, ?_, ?_, lead, ?_, ?_, ?_⟩
    · rw [List.append_assoc, List.cons_append]
    · exact skipSpaces_line k lead tail
    · have one : (if space = (0 : UInt8) then 0 else 1) + k = k + 1 := Nat.add_comm 1 k
      rw [one, List.drop_succ_cons, List.append_assoc]
      exact List.drop_left' List.length_replicate
    · intro b inside
      rcases List.mem_append.mp inside with first | later
      · exact List.mem_append_left _ first
      · exact List.mem_append_right _ (List.mem_cons_of_mem _ (List.mem_append_right _ later))
    · rw [List.length_append, List.length_cons, List.length_append]
      omega
    · rw [tokens_append, tokens_spaces]
  · refine ⟨l, 0, tail, 0, [], rfl, member, Or.inl rfl, rfl, rfl, (fun same => by cases same), ?_, Nat.le_refl _, ?_⟩
    · rw [List.append_nil]
      exact fun b inside => inside
    · exact (List.append_nil _).symm

theorem setupLoop_tokens {fuel p : Nat} (here : m.drop p = l ++ 0 :: tail) (clean : (0 : UInt8) ∉ l)
    (lead : l.head? ≠ some space) (enough : l.length < fuel) :
    setupLoop hypervisor fuel m p g =
      some ((tokens l).foldlM (fun g t => argStep hypervisor g (lower t)) g) := by
  induction fuel generalizing m p l g with
  | zero => exact absurd enough (Nat.not_lt_zero _)
  | succ fuel ih =>
    cases l with
    | nil =>
      have stop : m[p]? = some 0 := by
        rw [← Nat.add_zero p, ← List.getElem?_drop, here]
        rfl
      rw [setupLoop, stop]
      rfl
    | cons c l =>
      obtain ⟨t, d, r, k, l', cut⟩ := cut_line (c :: l) tail
      have arg : t ≠ [] := by
        rintro rfl
        have same : c = d := (List.cons.inj cut.line).1
        rcases cut.stop with zero | blank
        · exact clean (zero ▸ same ▸ List.mem_cons_self)
        · exact lead (congrArg some (same.trans blank))
      have plain : ∀ b ∈ t, b ≠ 0 ∧ b ≠ space := by
        intro b member
        refine ⟨fun zero => clean ?_, fun blank => cut.plain (blank ▸ member)⟩
        exact zero ▸ cut.inside b (List.mem_append_left _ member)
      have cleanRest : (0 : UInt8) ∉ l' := fun member => clean (cut.inside 0 (List.mem_append_right _ member))
      have longer : 0 < t.length := List.length_pos_iff.mpr arg
      have shorter := cut.shorter
      obtain ⟨m', drops, stops, continues⟩ :=
        @setupLoop_round hypervisor g t r m d k p fuel (here.trans cut.line) arg plain cut.stop cut.skip
      rw [cut.tokens, tokens_plain cut.plain, if_neg arg, List.singleton_append, List.foldlM_cons]
      cases result : argStep hypervisor g (lower t) with
      | error e =>
        rw [stops e result]
        rfl
      | ok g' =>
        have next := drops ((if d = 0 then 0 else 1) + k)
        rw [cut.rest, ← Nat.add_assoc] at next
        rw [continues g' result, ih next cleanRest cut.lead (by omega)]
        rfl

/-- The whole command line, as a fold over its tokens that stops at the first one out of range. -/
theorem setupCmdline_tokens {fuel : Nat} (clean : (0 : UInt8) ∉ line) (enough : line.length < fuel) (tail : List UInt8) :
    setupCmdline hypervisor fuel (some (line ++ 0 :: tail)) g =
      some (((tokens line).map lower).foldlM (argStep hypervisor) g) := by
  obtain ⟨k, l, rfl, lead⟩ := leading_spaces line
  have start : (List.replicate k space ++ l ++ 0 :: tail).drop k = l ++ 0 :: tail := by
    rw [List.append_assoc]
    exact List.drop_left' List.length_replicate
  have cleanLine : (0 : UInt8) ∉ l := fun member => clean (List.mem_append_right _ member)
  rw [List.length_append] at enough
  change (skipSpaces _).bind _ = _
  rw [skipSpaces_line k lead, Option.bind_some, setupLoop_tokens start cleanLine lead (by omega), tokens_spaces,
    List.foldlM_map]

theorem foldlM_ok_iff {ts : List (List UInt8)} (clean : ∀ t ∈ ts, (0 : UInt8) ∉ t) :
    ts.foldlM (argStep hypervisor) g = .ok (ts.foldl (rule hypervisor) g) ↔ ∀ t ∈ ts, InRange t := by
  induction ts generalizing g with
  | nil => exact ⟨fun _ t member => (List.not_mem_nil member).elim, fun _ => rfl⟩
  | cons t ts ih =>
    obtain ⟨here, later⟩ := List.forall_mem_cons.mp clean
    obtain ⟨fits, overflows⟩ := @argStep_outcome hypervisor g t here
    rw [List.foldlM_cons, List.foldl_cons, List.forall_mem_cons]
    by_cases inRange : InRange t
    · rw [fits inRange]
      exact (ih later).trans ⟨fun rest => ⟨inRange, rest⟩, And.right⟩
    · obtain ⟨e, stops⟩ := overflows inRange
      rw [stops]
      constructor
      · intro same
        cases same
      · rintro ⟨now, -⟩
        exact absurd now inRange

end Tokens

/-- setup_cmdline returns, with the fold of the rules over the tokens in lower case, exactly when
each of them is in range; spaces and the case of letters never make a difference. -/
theorem cmdline_fold_iff {hypervisor : Bool} {g : Globals} {line : List UInt8} {fuel : Nat}
    (clean : (0 : UInt8) ∉ line) (enough : line.length < fuel) (tail : List UInt8) :
    (setupCmdline hypervisor fuel (some (line ++ 0 :: tail)) g = some (.ok (tokenFold hypervisor g line)) ↔
      ∀ t ∈ tokens line, InRange (lower t)) ∧
    ∀ line' tail' fuel', Relation.EqvGen Respelled line line' → (0 : UInt8) ∉ line' → line'.length < fuel' →
      setupCmdline hypervisor fuel' (some (line' ++ 0 :: tail')) g =
        setupCmdline hypervisor fuel (some (line ++ 0 :: tail)) g := by
  constructor
  · have cleanTokens : ∀ t ∈ (tokens line).map lower, (0 : UInt8) ∉ t := by
      intro t member
      obtain ⟨token, inside, rfl⟩ := List.mem_map.mp member
      exact clean_lower (fun zero => clean (mem_of_token line token inside 0 zero))
    rw [setupCmdline_tokens clean enough, Option.some.injEq, tokenFold, foldlM_ok_iff cleanTokens, List.forall_mem_map]
  · intro line' tail' fuel' respelled clean' enough'
    rw [setupCmdline_tokens clean enough, setupCmdline_tokens clean' enough', respelled_tokens respelled]

theorem cmdline_fold_iff_port : setupCmdline false 40 (some (text " Serial=0x2F8  dbg=on" ++ [0]))
    ⟨false, 0x3F8, false, false⟩ = some (.ok ⟨true, 0x2F8, true, false⟩) := by
  have clean : (0 : UInt8) ∉ text " Serial=0x2F8  dbg=on" := by decide +kernel
  have short : (text " Serial=0x2F8  dbg=on").length < 40 := by decide +kernel
  have inRange : ∀ t ∈ tokens (text " Serial=0x2F8  dbg=on"), InRange (lower t) := by
    unfold InRange
    decide +kernel
  exact (cmdline_fold_iff clean short []).1.mpr inRange

/-- A port number of twenty digits. -/
theorem cmdline_overflow : setupCmdline false 40 (some (text "serial=99999999999999999999" ++ [0]))
    ⟨false, 0x3F8, false, false⟩ ≠ some (.ok (tokenFold false ⟨false, 0x3F8, false, false⟩
      (text "serial=99999999999999999999"))) := by
  decide +kernel

end EvalynOS.Cmdline
