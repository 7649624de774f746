import Mathlib

/-! Hardware breakpoints, drivers/x86_64/drX.c: four slots in a table, an address register for
each slot, and the enable bits of DR7. -/
namespace EvalynOS.DrX

abbrev Address := BitVec 64

structure Debug where
  hbreakpoints : Fin 4 → Address
  dr : Fin 4 → Address
  dr7 : BitVec 64

def initial : Debug := ⟨fun _ => 0, fun _ => 0, 0⟩

def drxSetbp (reg : Fin 4) (value : Address) (d : Debug) : Debug :=
  { d with dr := fun i => if i = reg then value else d.dr i }

def drxEnablebp (reg : Fin 4) (d : Debug) : Debug :=
  { d with dr7 := d.dr7 ||| 1#64 <<< (reg.val * 2) }

def Debug.put (i : Fin 4) (addr : Address) (d : Debug) : Debug :=
  { d with hbreakpoints := fun j => if j = i then addr else d.hbreakpoints j }

/- The loop of drx_alloc_bp. -/
def allocFrom (addr : Address) : List (Fin 4) → Debug → Bool × Debug
  | [], d => (false, d)
  | i :: rest, d =>
    if d.hbreakpoints i = addr then (false, d)
    else if d.hbreakpoints i = 0 then (true, drxEnablebp i (drxSetbp i addr (d.put i addr)))
    else allocFrom addr rest d

def drxAllocBp (addr : Address) (d : Debug) : Bool × Debug :=
  if addr = 0 then (false, d) else allocFrom addr (List.finRange 4) d

/- The loop of drx_free_bp. -/
def freeFrom (addr : Address) : List (Fin 4) → Debug → Bool × Debug
  | [], d => (false, d)
  | i :: rest, d =>
    if d.hbreakpoints i = addr then (true, drxEnablebp i (drxSetbp i 0 (d.put i 0)))
    else freeFrom addr rest d

def drxFreeBp (addr : Address) (d : Debug) : Bool × Debug :=
  if addr = 0 then (false, d) else freeFrom addr (List.finRange 4) d

inductive Call where
  | alloc (addr : Address)
  | free (addr : Address)

def Call.exec (d : Debug) : Call → Bool × Debug
  | .alloc addr => drxAllocBp addr d
  | .free addr => drxFreeBp addr d

/- What is asked of each call of a run, in the state in which it is made. -/
def Along (p : Debug → Call → Prop) : Debug → List Call → Prop
  | _, [] => True
  | d, c :: calls => p d c ∧ Along p (c.exec d).2 calls

/-- Where each call keeps an invariant exactly if it passes a test, the runs that keep it are
those whose calls all pass. -/
theorem along_iff {inv : Debug → Prop} {p test : Debug → Call → Prop}
    (step : ∀ d c, inv d → (p d c ↔ test d c)) (keeps : ∀ d c, inv d → test d c → inv (c.exec d).2)
    (calls : List Call) {d : Debug} (start : inv d) : Along p d calls ↔ Along test d calls := by
  induction calls generalizing d with
  | nil => exact Iff.rfl
  | cons c calls ih =>
    constructor
    · rintro ⟨first, rest⟩
      have passes := (step d c start).mp first
      exact ⟨passes, (ih (keeps d c start passes)).mp rest⟩
    · rintro ⟨passes, rest⟩
      exact ⟨(step d c start).mpr passes, (ih (keeps d c start passes)).mpr rest⟩

section Loops

variable {addr : Address} {d : Debug}

/-- drx_alloc_bp stops at the first slot that is empty or has the address. -/
theorem allocFrom_eq (slots : List (Fin 4)) : allocFrom addr slots d =
    match slots.find? (fun i => d.hbreakpoints i = addr ∨ d.hbreakpoints i = 0) with
    | none => (false, d)
    | some i =>
      if d.hbreakpoints i = addr then (false, d)
      else (true, drxEnablebp i (drxSetbp i addr (d.put i addr))) := by
  induction slots with
  | nil => rfl
  | cons i rest ih =>
    unfold allocFrom
    by_cases here : d.hbreakpoints i = addr
    · simp [here]
    · by_cases empty : d.hbreakpoints i = 0
      · simp [empty]
      · simp only [here, empty, ↓reduceIte, List.find?_cons, or_self, decide_false, ih]

theorem freeFrom_eq (slots : List (Fin 4)) : freeFrom addr slots d =
    match slots.find? (fun i => d.hbreakpoints i = addr) with
    | none => (false, d)
    | some i => (true, drxEnablebp i (drxSetbp i 0 (d.put i 0))) := by
  induction slots with
  | nil => rfl
  | cons i rest ih =>
    unfold freeFrom
    by_cases here : d.hbreakpoints i = addr
    · simp [here]
    · simp [here, ih]

theorem find_first {p : Fin 4 → Bool} {i : Fin 4} (found : (List.finRange 4).find? p = some i) :
    p i = true ∧ ∀ j < i, p j = false := by
  obtain ⟨holds, n, bound, here, before⟩ := List.find?_eq_some_iff_getElem.mp found
  refine ⟨holds, ?_⟩
  intro j earlier
  have position : n = i.val := by
    rw [← here, List.getElem_finRange]
    rfl
  have skipped := before j.val (by omega)
  rw [List.getElem_finRange] at skipped
  simpa using skipped

/-- The outcomes of drx_alloc_bp for an address other than zero. -/
theorem drxAllocBp_cases (nonzero : addr ≠ 0) :
    (∃ i, d.hbreakpoints i = addr ∧ (∀ j < i, d.hbreakpoints j ≠ 0) ∧ drxAllocBp addr d = (false, d)) ∨
    (∃ i, d.hbreakpoints i = 0 ∧ (∀ j < i, d.hbreakpoints j ≠ addr) ∧
      drxAllocBp addr d = (true, drxEnablebp i (drxSetbp i addr (d.put i addr)))) ∨
    ((∀ i, d.hbreakpoints i ≠ addr ∧ d.hbreakpoints i ≠ 0) ∧ drxAllocBp addr d = (false, d)) := by
  simp only [drxAllocBp, if_neg nonzero, allocFrom_eq]
  cases found : (List.finRange 4).find? (fun i => d.hbreakpoints i = addr ∨ d.hbreakpoints i = 0) with
  | none =>
    refine .inr (.inr ⟨fun i => ?_, rfl⟩)
    simpa using List.find?_eq_none.mp found i (List.mem_finRange i)
  | some i =>
    obtain ⟨stops, before⟩ := find_first found
    simp only [decide_eq_true_eq, decide_eq_false_iff_not, not_or] at stops before
    by_cases here : d.hbreakpoints i = addr
    · exact .inl ⟨i, here, fun j earlier => (before j earlier).2, if_pos here⟩
    · exact .inr (.inl ⟨i, stops.resolve_left here, fun j earlier => (before j earlier).1, if_neg here⟩)

theorem drxFreeBp_cases (nonzero : addr ≠ 0) :
    (∃ i, d.hbreakpoints i = addr ∧ drxFreeBp addr d = (true, drxEnablebp i (drxSetbp i 0 (d.put i 0)))) ∨
    ((∀ i, d.hbreakpoints i ≠ addr) ∧ drxFreeBp addr d = (false, d)) := by
  simp only [drxFreeBp, if_neg nonzero, freeFrom_eq]
  cases found : (List.finRange 4).find? (fun i => d.hbreakpoints i = addr) with
  | none =>
    refine .inr ⟨fun i => ?_, rfl⟩
    simpa using List.find?_eq_none.mp found i (List.mem_finRange i)
  | some i => exact .inl ⟨i, by simpa using (find_first found).1, rfl⟩

end Loops

/-! The table as a set of addresses. -/

def breakpoints (d : Debug) : Finset Address := (Finset.univ.image d.hbreakpoints).erase 0

def Distinct (d : Debug) : Prop :=
  ∀ i j, d.hbreakpoints i ≠ 0 → d.hbreakpoints i = d.hbreakpoints j → i = j

/-- What a set of at most four addresses does. -/
def Meets (d : Debug) : Call → Prop
  | .alloc addr =>
    ((drxAllocBp addr d).1 = true ↔ addr ≠ 0 ∧ addr ∉ breakpoints d ∧ (breakpoints d).card < 4) ∧
    ((drxAllocBp addr d).1 = true → breakpoints (drxAllocBp addr d).2 = insert addr (breakpoints d)) ∧
    ((drxAllocBp addr d).1 = false → (drxAllocBp addr d).2 = d) ∧ Distinct (drxAllocBp addr d).2
  | .free addr =>
    ((drxFreeBp addr d).1 = true ↔ addr ∈ breakpoints d) ∧
    ((drxFreeBp addr d).1 = true → breakpoints (drxFreeBp addr d).2 = (breakpoints d).erase addr) ∧
    ((drxFreeBp addr d).1 = false → (drxFreeBp addr d).2 = d) ∧ Distinct (drxFreeBp addr d).2

/- The address is in a slot behind an empty one. -/
def BehindHole (d : Debug) : Call → Prop
  | .alloc addr => addr ≠ 0 ∧ ∃ i j, i < j ∧ d.hbreakpoints i = 0 ∧ d.hbreakpoints j = addr
  | .free _ => False

section Table

variable {addr : Address} {d : Debug}

theorem mem_breakpoints : addr ∈ breakpoints d ↔ addr ≠ 0 ∧ ∃ i, d.hbreakpoints i = addr := by
  simp [breakpoints]

theorem card_breakpoints (distinct : Distinct d) :
    (breakpoints d).card < 4 ↔ ∃ i, d.hbreakpoints i = 0 := by
  constructor
  · intro few
    by_contra full
    have nonzero : ∀ i, d.hbreakpoints i ≠ 0 := fun i zero => full ⟨i, zero⟩
    have injective : Function.Injective d.hbreakpoints := fun i j same => distinct i j (nonzero i) same
    have absent : (0 : Address) ∉ Finset.univ.image d.hbreakpoints := by simpa using nonzero
    rw [breakpoints, Finset.erase_eq_of_notMem absent, Finset.card_image_of_injective _ injective,
      Finset.card_univ, Fintype.card_fin] at few
    exact lt_irrefl 4 few
  · rintro ⟨i, zero⟩
    have member : (0 : Address) ∈ Finset.univ.image d.hbreakpoints :=
      Finset.mem_image.mpr ⟨i, Finset.mem_univ i, zero⟩
    have bound : (Finset.univ.image d.hbreakpoints).card ≤ 4 := by
      simpa using Finset.card_image_le (s := Finset.univ) (f := d.hbreakpoints)
    rw [breakpoints, Finset.card_erase_of_mem member]
    omega

theorem breakpoints_fill {d' : Debug} {i : Fin 4} (empty : d.hbreakpoints i = 0) (nonzero : addr ≠ 0)
    (table : d'.hbreakpoints = (d.put i addr).hbreakpoints) : breakpoints d' = insert addr (breakpoints d) := by
  ext a
  simp only [mem_breakpoints, Finset.mem_insert, table, Debug.put]
  constructor
  · rintro ⟨positive, j, here⟩
    split at here
    · exact .inl here.symm
    · exact .inr ⟨positive, j, here⟩
  · rintro (rfl | ⟨positive, j, here⟩)
    · exact ⟨nonzero, i, if_pos rfl⟩
    · refine ⟨positive, j, ?_⟩
      rw [if_neg]
      · exact here
      · rintro rfl
        exact positive (here.symm.trans empty)

theorem distinct_fill {d' : Debug} {i : Fin 4} (distinct : Distinct d) (absent : ∀ j, d.hbreakpoints j ≠ addr)
    (table : d'.hbreakpoints = (d.put i addr).hbreakpoints) : Distinct d' := by
  intro j k positive same
  simp only [table, Debug.put] at positive same
  split at same
  · rename_i isJ
    split at same
    · rename_i isK
      exact isJ.trans isK.symm
    · exact absurd same.symm (absent k)
  · rename_i notJ
    split at same
    · exact absurd same (absent j)
    · rw [if_neg notJ] at positive
      exact distinct j k positive same

theorem breakpoints_clear {d' : Debug} {i : Fin 4} (distinct : Distinct d) (here : d.hbreakpoints i = addr)
    (nonzero : addr ≠ 0) (table : d'.hbreakpoints = (d.put i 0).hbreakpoints) :
    breakpoints d' = (breakpoints d).erase addr := by
  ext a
  simp only [mem_breakpoints, Finset.mem_erase, table, Debug.put]
  constructor
  · rintro ⟨positive, j, there⟩
    split at there
    · exact absurd there.symm positive
    · rename_i other
      refine ⟨?_, positive, j, there⟩
      rintro rfl
      exact other (distinct j i (there ▸ nonzero) (there.trans here.symm))
  · rintro ⟨different, positive, j, there⟩
    refine ⟨positive, j, ?_⟩
    rw [if_neg]
    · exact there
    · rintro rfl
      exact different (there.symm.trans here)

theorem distinct_clear {d' : Debug} {i : Fin 4} (distinct : Distinct d)
    (table : d'.hbreakpoints = (d.put i 0).hbreakpoints) : Distinct d' := by
  intro j k positive same
  simp only [table, Debug.put] at positive same
  split at same
  · rename_i isJ
    exact absurd (if_pos isJ) positive
  · rename_i notJ
    rw [if_neg notJ] at positive
    split at same
    · exact absurd same positive
    · exact distinct j k positive same

theorem meets_alloc_iff (distinct : Distinct d) : Meets d (.alloc addr) ↔ ¬ BehindHole d (.alloc addr) := by
  by_cases zero : addr = 0
  · subst zero
    simp [Meets, BehindHole, drxAllocBp, distinct]
  rcases @drxAllocBp_cases addr d zero with ⟨i, here, before, result⟩ | ⟨i, empty, before, result⟩ | ⟨full, result⟩
  · -- the address is found before any hole
    have member : addr ∈ breakpoints d := mem_breakpoints.mpr ⟨zero, i, here⟩
    simp only [Meets, result, member, distinct, BehindHole]
    simp only [Bool.false_eq_true, not_true_eq_false, false_and, and_false, false_implies, and_self, true_iff,
      implies_true]
    rintro ⟨-, j, k, earlier, hole, there⟩
    have same : k = i := distinct k i (there ▸ zero) (there.trans here.symm)
    exact before j (same ▸ earlier) hole
  · have few : (breakpoints d).card < 4 := (card_breakpoints distinct).mpr ⟨i, empty⟩
    simp only [Meets, result, mem_breakpoints, few, BehindHole, zero, not_false_eq_true, ne_eq, true_and]
    constructor
    · rintro ⟨granted, -⟩ ⟨j, k, -, -, there⟩
      exact (granted.mp trivial).1 ⟨k, there⟩
    · intro noHole
      have absent : ∀ j, d.hbreakpoints j ≠ addr := by
        intro j there
        have order : ¬ i < j := fun later => noHole ⟨i, j, later, empty, there⟩
        rcases Nat.lt_or_ge j i with earlier | later
        · exact before j earlier there
        · have same : i = j := by omega
          exact zero ((same ▸ there).symm.trans empty)
      refine ⟨?_, ?_, ?_, distinct_fill distinct absent rfl⟩
      · simpa using absent
      · intro _
        exact breakpoints_fill empty zero rfl
      · intro denied
        cases denied
  · have many : ¬ (breakpoints d).card < 4 := by
      rw [card_breakpoints distinct]
      rintro ⟨i, empty⟩
      exact (full i).2 empty
    simp only [Meets, result, many, distinct, BehindHole]
    simp only [Bool.false_eq_true, and_false, false_implies, and_self, true_iff, implies_true]
    rintro ⟨-, i, j, -, hole, -⟩
    exact (full i).2 hole

theorem meets_free (distinct : Distinct d) : Meets d (.free addr) := by
  by_cases zero : addr = 0
  · subst zero
    simp [Meets, drxFreeBp, mem_breakpoints, distinct]
  rcases @drxFreeBp_cases addr d zero with ⟨i, here, result⟩ | ⟨absent, result⟩
  · have member : addr ∈ breakpoints d := mem_breakpoints.mpr ⟨zero, i, here⟩
    simp only [Meets, result]
    refine ⟨by simp [member], ?_, ?_, distinct_clear distinct rfl⟩
    · intro _
      exact breakpoints_clear distinct here zero rfl
    · intro denied
      cases denied
  · have missing : addr ∉ breakpoints d := by
      rw [mem_breakpoints]
      rintro ⟨-, i, here⟩
      exact absent i here
    simp [Meets, result, missing, distinct]

theorem meets_iff (distinct : Distinct d) (c : Call) : Meets d c ↔ ¬ BehindHole d c := by
  cases c with
  | alloc addr => exact meets_alloc_iff distinct
  | free addr => exact iff_of_true (meets_free distinct) id

theorem Meets.distinct {c : Call} (meets : Meets d c) : Distinct (c.exec d).2 := by
  cases c with
  | alloc addr => exact meets.2.2.2
  | free addr => exact meets.2.2.2

end Table

/-- The slots are a set of at most four addresses in exactly those runs in which no address
is allocated that is in a slot behind an empty one. -/
theorem breakpoint_set_iff (calls : List Call) :
    Along Meets initial calls ↔ Along (fun d c => ¬ BehindHole d c) initial calls := by
  apply @along_iff Distinct
  · intro d c distinct
    exact meets_iff distinct c
  · intro d c distinct fine
    exact ((meets_iff distinct c).mpr fine).distinct
  · intro i j positive
    exact absurd rfl positive

/-- The second slot has 0x2000 and the first is free: 0x2000 is taken once more. -/
theorem breakpoint_twice :
    let calls : List Call := [.alloc 0x1000, .alloc 0x2000, .free 0x1000, .alloc 0x2000]
    ¬ Along Meets initial calls := by
  intro calls meets
  have last : Meets (drxFreeBp 0x1000 (drxAllocBp 0x2000 (drxAllocBp 0x1000 initial).2).2).2 (.alloc 0x2000) :=
    meets.2.2.2.1
  have same := last.distinct 0 1
  exact absurd (same (by decide) (by decide)) (by decide)

/-! The registers. -/

/-- Each address register has its slot of the table, and the enable bits say which are in use. -/
structure Mirrors (d : Debug) : Prop where
  addresses : ∀ i, d.dr i = d.hbreakpoints i
  enabled : ∀ i : Fin 4, d.dr7.getLsbD (2 * i.val) = true ↔ d.hbreakpoints i ≠ 0
  others : ∀ b, (∀ i : Fin 4, b ≠ 2 * i.val) → d.dr7.getLsbD b = initial.dr7.getLsbD b

/- drx_free_bp finds its address. -/
def Removes (d : Debug) : Call → Prop
  | .alloc _ => False
  | .free addr => addr ≠ 0 ∧ ∃ i, d.hbreakpoints i = addr

section Registers

variable {d : Debug}

theorem enable_bit (dr7 : BitVec 64) (i : Fin 4) (b : Nat) :
    (dr7 ||| 1#64 <<< (i.val * 2)).getLsbD b = (dr7.getLsbD b || decide (b = 2 * i.val)) := by
  have small := i.isLt
  have single : (1#64 <<< (i.val * 2)).getLsbD b = decide (b = 2 * i.val) := by
    rw [BitVec.getLsbD_shiftLeft, BitVec.getLsbD_one, Bool.eq_iff_iff]
    simp only [Bool.and_eq_true, Bool.not_eq_true', decide_eq_true_eq, decide_eq_false_iff_not]
    omega
  rw [BitVec.getLsbD_or, single]

theorem Mirrors.fill (mirrors : Mirrors d) {i : Fin 4} {addr : Address} (nonzero : addr ≠ 0) :
    Mirrors (drxEnablebp i (drxSetbp i addr (d.put i addr))) := by
  refine ⟨?_, ?_, ?_⟩
  · intro j
    simp only [drxEnablebp, drxSetbp, Debug.put]
    rw [mirrors.addresses j]
  · intro j
    simp only [drxEnablebp, drxSetbp, Debug.put, enable_bit, Bool.or_eq_true, decide_eq_true_eq]
    by_cases here : j = i
    · simp only [here, or_true, ↓reduceIte, true_iff]
      exact nonzero
    · have other : 2 * j.val ≠ 2 * i.val := by omega
      rw [mirrors.enabled j, if_neg here]
      simp [other]
  · intro b other
    simp only [drxEnablebp, drxSetbp, Debug.put, enable_bit]
    rw [mirrors.others b other]
    simp [other i]

/-- The slot is empty and still enabled. -/
theorem not_mirrors_clear (i : Fin 4) : ¬ Mirrors (drxEnablebp i (drxSetbp i 0 (d.put i 0))) := by
  intro mirrors
  have enabled := mirrors.enabled i
  simp only [drxEnablebp, drxSetbp, Debug.put, enable_bit, decide_true, Bool.or_true, ↓reduceIte, true_iff] at enabled
  exact enabled rfl

theorem mirrors_iff (mirrors : Mirrors d) (c : Call) : Mirrors (c.exec d).2 ↔ ¬ Removes d c := by
  cases c with
  | alloc addr =>
    refine iff_of_true ?_ id
    by_cases zero : addr = 0
    · simpa [Call.exec, drxAllocBp, zero] using mirrors
    rcases @drxAllocBp_cases addr d zero with ⟨i, _, _, result⟩ | ⟨i, _, _, result⟩ | ⟨_, result⟩
    · simpa [Call.exec, result] using mirrors
    · simpa [Call.exec, result] using mirrors.fill zero
    · simpa [Call.exec, result] using mirrors
  | free addr =>
    by_cases zero : addr = 0
    · simpa [Call.exec, drxFreeBp, Removes, zero] using mirrors
    rcases @drxFreeBp_cases addr d zero with ⟨i, here, result⟩ | ⟨absent, result⟩
    · simp only [Call.exec, result, not_mirrors_clear, Removes, false_iff, not_not]
      exact ⟨zero, i, here⟩
    · simp only [Call.exec, result, mirrors, Removes, true_iff]
      rintro ⟨-, i, here⟩
      exact absent i here

end Registers

/-- The registers follow the table in exactly those runs in which no breakpoint is removed. -/
theorem registers_mirror_iff (calls : List Call) :
    Along (fun d c => Mirrors (c.exec d).2) initial calls ↔ Along (fun d c => ¬ Removes d c) initial calls := by
  apply @along_iff Mirrors
  · intro d c mirrors
    exact mirrors_iff mirrors c
  · intro d c mirrors fine
    exact (mirrors_iff mirrors c).mpr fine
  · exact ⟨fun _ => rfl, by decide, fun _ _ => rfl⟩

/-- DR7 still enables the slot of a breakpoint that was removed. -/
theorem removed_stays_enabled :
    let calls : List Call := [.alloc 0x1000, .free 0x1000]
    ¬ Along (fun d c => Mirrors (c.exec d).2) initial calls := by
  intro calls mirrors
  have last : Mirrors (drxFreeBp 0x1000 (drxAllocBp 0x1000 initial).2).2 := mirrors.2.1
  have enabled := last.enabled 0
  exact absurd (enabled.mp (by decide)) (by decide)

end EvalynOS.DrX
