import EvalynOS.Lib.Bits

/-! Canonical prefix codes. A code is given by the lengths of its codewords; a symbol with
the length 0 has none. The codewords of one length are consecutive numbers in the order of
their symbols, and the shorter ones come first. -/
namespace Lib

/- The codewords of one length. -/
def used (lens : List Nat) (len : Nat) : Nat := if len = 0 then 0 else lens.count len

def firstCode (lens : List Nat) : Nat → Nat
  | 0 => 0
  | len + 1 => 2 * (firstCode lens len + used lens len)

def codeOf (lens : List Nat) (s : Nat) : Nat :=
  firstCode lens (lens.getD s 0) + (lens.take s).count (lens.getD s 0)

/- Most significant bit first. -/
def codeword (lens : List Nat) (s : Nat) : List Bool := (bits (codeOf lens s) (lens.getD s 0)).reverse

structure Kraft (lens : List Nat) (width : Nat) : Prop where
  short : ∀ len ∈ lens, len ≤ width
  sum : ∑ len ∈ Finset.Icc 1 width, used lens len * 2 ^ (width - len) ≤ 2 ^ width

section Codes

variable {lens : List Nat} {width len len' s t : Nat}

theorem used_pos (positive : 0 < len) : used lens len = lens.count len := if_neg (Nat.ne_of_gt positive)

theorem firstCode_scaled (inside : len ≤ width) :
    firstCode lens len * 2 ^ (width - len) = ∑ ℓ ∈ Finset.Ico 1 len, used lens ℓ * 2 ^ (width - ℓ) := by
  induction len with
  | zero => simp [firstCode]
  | succ len ih =>
    have double : 2 * 2 ^ (width - (len + 1)) = 2 ^ (width - len) := by
      rw [← Nat.pow_succ']
      congr 1
      omega
    have scaled : firstCode lens (len + 1) * 2 ^ (width - (len + 1)) =
        firstCode lens len * 2 ^ (width - len) + used lens len * 2 ^ (width - len) := by
      rw [firstCode, ← double]
      ring
    rw [scaled, ih (by omega)]
    cases len with
    | zero => simp [used]
    | succ len => rw [Finset.sum_Ico_succ_top (Nat.succ_le_succ (Nat.zero_le len))]

theorem Kraft.room (kraft : Kraft lens width) (inside : len ≤ width) :
    firstCode lens len + used lens len ≤ 2 ^ len := by
  cases len with
  | zero => simp [firstCode, used]
  | succ len =>
    have scaled := @firstCode_scaled lens width (len + 1) inside
    have grown : ∑ ℓ ∈ Finset.Ico 1 (len + 2), used lens ℓ * 2 ^ (width - ℓ) ≤ 2 ^ width := by
      apply Nat.le_trans _ kraft.sum
      apply Finset.sum_le_sum_of_subset
      intro ℓ member
      rw [Finset.mem_Ico] at member
      rw [Finset.mem_Icc]
      omega
    rw [Finset.sum_Ico_succ_top (by omega), ← scaled, ← Nat.add_mul] at grown
    have parts : 2 ^ width = 2 ^ (len + 1) * 2 ^ (width - (len + 1)) := by
      rw [← Nat.pow_add]
      congr 1
      omega
    rw [parts] at grown
    exact Nat.le_of_mul_le_mul_right grown (Nat.two_pow_pos _)

/-- Behind the codewords of one length come those of the longer ones. -/
theorem firstCode_after (shorter : len < len') :
    (firstCode lens len + used lens len) * 2 ^ (len' - len) ≤ firstCode lens len' := by
  induction len' with
  | zero => exact absurd shorter (Nat.not_lt_zero _)
  | succ len' ih =>
    rcases Nat.lt_succ_iff_lt_or_eq.mp shorter with before | rfl
    · have double : 2 ^ (len' + 1 - len) = 2 * 2 ^ (len' - len) := by
        rw [← Nat.pow_succ']
        congr 1
        omega
      have earlier := ih before
      have step : (firstCode lens len + used lens len) * (2 * 2 ^ (len' - len)) ≤ 2 * firstCode lens len' := by
        rw [Nat.mul_left_comm]
        exact Nat.mul_le_mul_left 2 earlier
      rw [double, firstCode]
      omega
    · rw [Nat.add_sub_cancel_left, Nat.pow_one, firstCode, Nat.mul_comm]

theorem named_lt (named : 0 < lens.getD s 0) : s < lens.length := by
  by_contra outside
  rw [List.getD_eq_default _ _ (Nat.le_of_not_lt outside)] at named
  exact Nat.lt_irrefl 0 named

theorem rank_lt (inside : s < lens.length) : (lens.take s).count (lens.getD s 0) < lens.count (lens.getD s 0) := by
  have parts : lens.count (lens.getD s 0) =
      (lens.take s).count (lens.getD s 0) + (lens.drop s).count (lens.getD s 0) := by
    rw [← List.count_append, List.take_append_drop]
  rw [parts, List.drop_eq_getElem_cons inside, List.getD_eq_getElem _ _ inside, List.count_cons_self]
  omega

theorem rank_strict (before : s < t) (inside : t ≤ lens.length) :
    (lens.take s).count (lens.getD s 0) < (lens.take t).count (lens.getD s 0) := by
  have size : s < (lens.take t).length := by
    rw [List.length_take_of_le inside]
    exact before
  have same : (lens.take t).getD s 0 = lens.getD s 0 := by
    rw [List.getD_eq_getElem _ _ size, List.getD_eq_getElem _ _ (Nat.lt_of_lt_of_le before inside),
      List.getElem_take]
  have rank := rank_lt size
  rwa [same, List.take_take, Nat.min_eq_left (Nat.le_of_lt before)] at rank

theorem codeOf_lt (named : 0 < lens.getD s 0) :
    codeOf lens s < firstCode lens (lens.getD s 0) + used lens (lens.getD s 0) := by
  rw [used_pos named, codeOf]
  exact Nat.add_lt_add_left (rank_lt (named_lt named)) _

theorem Kraft.named_le (kraft : Kraft lens width) (named : 0 < lens.getD s 0) : lens.getD s 0 ≤ width := by
  rw [List.getD_eq_getElem _ _ (named_lt named)]
  exact kraft.short _ (List.getElem_mem _)

theorem Kraft.code_lt (kraft : Kraft lens width) (named : 0 < lens.getD s 0) :
    codeOf lens s < 2 ^ lens.getD s 0 :=
  Nat.lt_of_lt_of_le (codeOf_lt named) (kraft.room (kraft.named_le named))

@[simp] theorem codeword_length (lens : List Nat) (s : Nat) : (codeword lens s).length = lens.getD s 0 := by
  rw [codeword, List.length_reverse, bits_length]

theorem codeword_take (inside : len ≤ lens.getD s 0) :
    (codeword lens s).take len = (bits (codeOf lens s / 2 ^ (lens.getD s 0 - len)) len).reverse := by
  rw [codeword, List.take_reverse, bits_length, bits_drop]
  congr 2
  omega

theorem codeword_bit {path rest : List Bool} {b : Bool} (parts : codeword lens s = path ++ b :: rest) :
    (codeOf lens s).testBit rest.length = b := by
  have size := congrArg List.length parts
  rw [codeword_length, List.length_append, List.length_cons] at size
  have turned := congrArg List.reverse parts
  rw [codeword, List.reverse_reverse, List.reverse_append, List.reverse_cons, List.append_assoc] at turned
  have bit := bits_getD (codeOf lens s) (lens.getD s 0) rest.length
  rw [turned, List.getD_append_right _ _ _ _ (by rw [List.length_reverse]), List.length_reverse, Nat.sub_self] at bit
  rw [decide_eq_true (by omega), Bool.true_and] at bit
  exact bit.symm

/-- The codewords of longer ones, cut to one length, follow those of this length. -/
theorem cut_after (shorter : len < lens.getD s 0) :
    firstCode lens len + used lens len ≤ codeOf lens s / 2 ^ (lens.getD s 0 - len) := by
  rw [Nat.le_div_iff_mul_le (Nat.two_pow_pos _)]
  exact (firstCode_after shorter).trans (Nat.le_add_right _ _)

/-- No codeword is the beginning of another. -/
theorem Kraft.prefix_free (kraft : Kraft lens width) (named : 0 < lens.getD s 0) (named' : 0 < lens.getD t 0)
    (begins : codeword lens s <+: codeword lens t) : s = t := by
  have shorter := begins.length_le
  rw [codeword_length, codeword_length] at shorter
  have cut := List.prefix_iff_eq_take.mp begins
  rw [codeword_length, codeword_take shorter, codeword] at cut
  have small : codeOf lens t / 2 ^ (lens.getD t 0 - lens.getD s 0) < 2 ^ lens.getD s 0 := by
    rw [Nat.div_lt_iff_lt_mul (Nat.two_pow_pos _), ← Nat.pow_add, Nat.add_sub_cancel' shorter]
    exact kraft.code_lt named'
  have same := bits_inj (kraft.code_lt named) small (List.reverse_injective cut)
  rcases Nat.lt_or_eq_of_le shorter with longer | equal
  · have after := cut_after longer
    have inside := codeOf_lt named
    omega
  · rw [equal, Nat.sub_self, Nat.pow_zero, Nat.div_one, codeOf, codeOf, equal] at same
    have rank := Nat.add_left_cancel same
    rcases Nat.lt_trichotomy s t with before | here | behind
    · have strict := rank_strict before (Nat.le_of_lt (named_lt named'))
      rw [equal] at strict
      omega
    · exact here
    · have strict := rank_strict behind (Nat.le_of_lt (named_lt named))
      omega

end Codes

/-! How many beginnings the codewords of a code have: the nodes of its tree. -/

section Nodes

variable {lens : List Nat} {width k s : Nat}

/- A bound on the beginnings of the length width − k. -/
def spread (lens : List Nat) (width : Nat) : Nat → Nat
  | 0 => used lens width
  | k + 1 => used lens (width - (k + 1)) + (spread lens width k + 1) / 2

/-- Cut to one length, the codewords that are not shorter lie close together. -/
theorem Kraft.cut_within (kraft : Kraft lens width) (inside : k ≤ width) (named : 0 < lens.getD s 0)
    (long : width - k ≤ lens.getD s 0) :
    firstCode lens (width - k) ≤ codeOf lens s / 2 ^ (lens.getD s 0 - (width - k)) ∧
      codeOf lens s / 2 ^ (lens.getD s 0 - (width - k)) < firstCode lens (width - k) + spread lens width k := by
  induction k with
  | zero =>
    have equal : lens.getD s 0 = width := Nat.le_antisymm (kraft.named_le named) long
    have inside := codeOf_lt named
    rw [equal] at inside
    rw [Nat.sub_zero, equal, Nat.sub_self, Nat.pow_zero, Nat.div_one, spread]
    refine ⟨?_, inside⟩
    rw [codeOf, equal]
    exact Nat.le_add_right _ _
  | succ k ih =>
    rw [spread]
    rcases Nat.lt_or_eq_of_le long with longer | equal
    · obtain ⟨_, high⟩ := ih (by omega) (by omega)
      have deeper : width - k = width - (k + 1) + 1 := by omega
      have halves : codeOf lens s / 2 ^ (lens.getD s 0 - (width - (k + 1))) =
          codeOf lens s / 2 ^ (lens.getD s 0 - (width - k)) / 2 := by
        rw [Nat.div_div_eq_div_mul, ← Nat.pow_succ]
        congr 2
        omega
      have after := cut_after longer
      rw [deeper, firstCode] at high
      rw [deeper] at halves
      rw [halves] at after ⊢
      omega
    · have inside := codeOf_lt named
      rw [← equal, Nat.sub_self, Nat.pow_zero, Nat.div_one]
      rw [← equal] at inside
      refine ⟨?_, by omega⟩
      rw [codeOf, ← equal]
      exact Nat.le_add_right _ _

theorem spread_sum (lens : List Nat) (width n : Nat) :
    ∑ k ∈ Finset.range (n + 1), spread lens width k + spread lens width n ≤
      2 * ∑ k ∈ Finset.range (n + 1), used lens (width - k) + n := by
  induction n with
  | zero =>
    simp only [zero_add, Finset.range_one, Finset.sum_singleton, spread, Nat.sub_zero]
    omega
  | succ n ih =>
    rw [Finset.sum_range_succ, Finset.sum_range_succ _ (n + 1)]
    have half : 2 * ((spread lens width n + 1) / 2) ≤ spread lens width n + 1 := Nat.mul_div_le _ 2
    rw [spread]
    omega

theorem used_sum (short : ∀ len ∈ lens, len ≤ width) :
    ∑ len ∈ Finset.range (width + 1), used lens len = lens.countP (fun len => len ≠ 0) := by
  induction lens with
  | nil => simp [used]
  | cons len lens ih =>
    have rest := ih (fun other member => short other (List.mem_cons_of_mem _ member))
    have one : ∀ other, used (len :: lens) other = used lens other + if len = other ∧ len ≠ 0 then 1 else 0 := by
      intro other
      simp only [used, List.count_cons, beq_iff_eq]
      grind
    simp only [one, Finset.sum_add_distrib, rest, List.countP_cons]
    congr 1
    by_cases zero : len = 0
    · simp [zero]
    · simp [zero, Nat.lt_succ_of_le (short len List.mem_cons_self)]

/-- The beginnings of the codewords are few more than twice the codewords. -/
theorem Kraft.beginnings (kraft : Kraft lens width) {paths : List (List Bool)} (distinct : paths.Nodup)
    (begin_ : ∀ path ∈ paths, ∃ s, 0 < lens.getD s 0 ∧ path <+: codeword lens s) :
    paths.length ≤ 2 * lens.countP (fun len => len ≠ 0) + width := by
  have depth : ∀ path ∈ paths.toFinset, path.length ∈ Finset.range (width + 1) := by
    intro path member
    obtain ⟨s, named, begins⟩ := begin_ path (List.mem_toFinset.mp member)
    have short := begins.length_le.trans_eq (codeword_length lens s)
    have bound := kraft.named_le named
    rw [Finset.mem_range]
    omega
  have level : ∀ k, k ∈ Finset.range (width + 1) →
      (paths.toFinset.filter (fun path => path.length = width - k)).card ≤ spread lens width k := by
    intro k inside
    rw [Finset.mem_range] at inside
    have interval := Nat.card_Ico (firstCode lens (width - k)) (firstCode lens (width - k) + spread lens width k)
    rw [Nat.add_sub_cancel_left] at interval
    rw [← interval]
    apply Finset.card_le_card_of_injOn (fun path => number path.reverse)
    · intro path member
      obtain ⟨inPaths, size⟩ := Finset.mem_filter.mp member
      obtain ⟨s, named, begins⟩ := begin_ path (List.mem_toFinset.mp inPaths)
      have short := begins.length_le.trans_eq (codeword_length lens s)
      rw [size] at short
      have cut := List.prefix_iff_eq_take.mp begins
      rw [size, codeword_take short] at cut
      obtain ⟨low, high⟩ := kraft.cut_within (Nat.le_of_lt_succ inside) named short
      have small : codeOf lens s / 2 ^ (lens.getD s 0 - (width - k)) < 2 ^ (width - k) := by
        rw [Nat.div_lt_iff_lt_mul (Nat.two_pow_pos _), ← Nat.pow_add, Nat.add_sub_cancel' short]
        exact kraft.code_lt named
      change number path.reverse ∈ (Finset.Ico _ _ : Finset Nat)
      rw [cut, List.reverse_reverse, number_bits_of_lt small, Finset.mem_Ico]
      exact ⟨low, high⟩
    · intro left memberLeft right memberRight same
      have sizeLeft := (Finset.mem_filter.mp memberLeft).2
      have sizeRight := (Finset.mem_filter.mp memberRight).2
      apply List.reverse_injective
      apply number_inj _ same
      rw [List.length_reverse, List.length_reverse, sizeLeft, sizeRight]
  have count := Finset.card_eq_sum_card_fiberwise depth
  rw [List.toFinset_card_of_nodup distinct, ← Finset.sum_range_reflect] at count
  have total := spread_sum lens width width
  have leaves : ∑ k ∈ Finset.range (width + 1), used lens (width - k) = lens.countP (fun len => len ≠ 0) :=
    (Finset.sum_range_reflect (used lens) (width + 1)).trans (used_sum kraft.short)
  rw [leaves] at total
  have levels : paths.length ≤ ∑ k ∈ Finset.range (width + 1), spread lens width k := by
    rw [count]
    apply Finset.sum_le_sum
    intro k inside
    exact level k inside
  omega

end Nodes

end Lib
