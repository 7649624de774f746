import EvalynOS.Lib.Links

/-! Memory as a map from the address of an aligned 64-bit word to its value, and
null-terminated lists whose links are the first words of their nodes. -/
namespace Lib

abbrev Memory := Nat → Nat

namespace Memory

variable {m m' : Memory}

def store (m : Memory) (a v : Nat) : Memory := fun b => if b = a then v else m b

/-- The words of the `n` bytes from `p` on are set to zero. -/
def clear (m : Memory) (p n : Nat) : Memory := fun b => if p ≤ b ∧ b < p + n then 0 else m b

/-- The `n` bytes from `p` on are written, `byte k` being the one at `p + k`; in a word that
is written in part the other bytes stay. -/
def writeBytes (m : Memory) (p n : Nat) (byte : Nat → Nat) : Memory := fun a =>
  if a % 8 = 0 ∧ p < a + 8 ∧ a < p + n then
    ((List.range 8).map (fun j => (if p ≤ a + j ∧ a + j < p + n then byte (a + j - p) % 256
      else m a / 256 ^ j % 256) * 256 ^ j)).sum
  else m a

/-- The byte at an address. -/
def byteAt (m : Memory) (a : Nat) : Nat := m (a / 8 * 8) / 256 ^ (a % 8) % 256

@[simp] theorem store_same (m : Memory) (a v : Nat) : m.store a v a = v := if_pos rfl

theorem store_other {a b : Nat} (v : Nat) (other : b ≠ a) : m.store a v b = m b := if_neg other

@[simp] theorem store_store (m : Memory) (a v w : Nat) : (m.store a v).store a w = m.store a w := by
  funext b
  by_cases same : b = a
  · rw [same, store_same, store_same]
  · rw [store_other w same, store_other v same, store_other w same]

theorem clear_inside {p n b : Nat} (low : p ≤ b) (high : b < p + n) : m.clear p n b = 0 :=
  if_pos ⟨low, high⟩

theorem clear_outside {p n b : Nat} (outside : ¬ (p ≤ b ∧ b < p + n)) : m.clear p n b = m b :=
  if_neg outside

/-- Bytes written inside an aligned block change no word outside it. -/
theorem writeBytes_outside {p n a base size : Nat} (byte : Nat → Nat) (aligned : 8 ∣ base)
    (low : base ≤ p) (high : p + n ≤ base + size) (outside : ¬ (base ≤ a ∧ a < base + size)) :
    m.writeBytes p n byte a = m a := by
  apply if_neg
  rintro ⟨word, reached, inside⟩
  omega

/-- Numbers made of bytes. -/
theorem digits_lt {d : Nat → Nat} (byte : ∀ j, d j < 256) (n : Nat) :
    ((List.range n).map (fun j => d j * 256 ^ j)).sum < 256 ^ n := by
  induction n with
  | zero => simp
  | succ n ih =>
    rw [List.range_succ, List.map_append, List.sum_append]
    simp only [List.map_cons, List.map_nil, List.sum_cons, List.sum_nil, Nat.add_zero, Nat.pow_succ]
    have top := Nat.mul_le_mul_right (256 ^ n) (Nat.le_of_lt_succ (byte n))
    omega

theorem digit_sum {d : Nat → Nat} (byte : ∀ j, d j < 256) {n i : Nat} (inside : i < n) :
    ((List.range n).map (fun j => d j * 256 ^ j)).sum / 256 ^ i % 256 = d i := by
  induction n with
  | zero => cases inside
  | succ n ih =>
    have lower := digits_lt byte n
    rw [List.range_succ, List.map_append, List.sum_append]
    simp only [List.map_cons, List.map_nil, List.sum_cons, List.sum_nil, Nat.add_zero]
    by_cases last : i = n
    · rw [last, Nat.add_mul_div_right _ _ (Nat.pow_pos (by decide)), Nat.div_eq_of_lt lower, Nat.zero_add]
      exact Nat.mod_eq_of_lt (byte n)
    · obtain ⟨k, rfl⟩ : ∃ k, n = i + (k + 1) := ⟨n - i - 1, by omega⟩
      have shift : d (i + (k + 1)) * 256 ^ (i + (k + 1)) = d (i + (k + 1)) * 256 ^ k * 256 * 256 ^ i := by
        rw [Nat.pow_add, Nat.pow_succ]
        ac_rfl
      rw [shift, Nat.add_mul_div_right _ _ (Nat.pow_pos (by decide)), Nat.add_mul_mod_self_right]
      exact ih (by omega)

theorem byteAt_writeBytes (m : Memory) (p n : Nat) (byte : Nat → Nat) (a : Nat) :
    (m.writeBytes p n byte).byteAt a = if p ≤ a ∧ a < p + n then byte (a - p) % 256 else m.byteAt a := by
  have place : a / 8 * 8 + a % 8 = a := Nat.div_add_mod' a 8
  have index : a % 8 < 8 := Nat.mod_lt a (by decide)
  unfold byteAt writeBytes
  by_cases reached : a / 8 * 8 % 8 = 0 ∧ p < a / 8 * 8 + 8 ∧ a / 8 * 8 < p + n
  · rw [if_pos reached, digit_sum _ index, place]
    intro j
    split
    · exact Nat.mod_lt _ (by decide)
    · exact Nat.mod_lt _ (by decide)
  · rw [if_neg reached, if_neg (by omega)]

theorem byteAt_congr {a : Nat} (same : m' (a / 8 * 8) = m (a / 8 * 8)) : m'.byteAt a = m.byteAt a := by
  unfold byteAt
  rw [same]

end Memory

/-- A pointer, with zero for the null pointer. -/
def ptr (p : Nat) : Option Nat := if p = 0 then none else some p

theorem ptr_none {p : Nat} : ptr p = none ↔ p = 0 := by
  simp [ptr]

theorem ptr_some {p q : Nat} : ptr p = some q ↔ p = q ∧ q ≠ 0 := by
  unfold ptr
  split
  · rename_i null
    simp only [reduceCtorEq, false_iff, not_and, not_not]
    exact fun same => same.symm.trans null
  · rename_i nonnull
    rw [Option.some.injEq]
    exact ⟨fun same => ⟨same, same ▸ nonnull⟩, And.left⟩

/-- The nodes of the list that starts at the pointer `head`. -/
def Threaded (m : Memory) (head : Nat) (l : List Nat) : Prop := Chain (fun p => ptr (m p)) (ptr head) l

namespace Threaded

variable {m m' : Memory} {head p : Nat} {l : List Nat}

theorem congr (list : Threaded m head l) (agree : ∀ p ∈ l, m' p = m p) : Threaded m' head l :=
  Chain.congr (fun p member => by rw [agree p member]) list

theorem nil : Threaded m 0 [] := rfl

theorem cons_iff : Threaded m head (p :: l) ↔ head = p ∧ p ≠ 0 ∧ Threaded m (m p) l := by
  have unfolded : Threaded m head (p :: l) ↔ ptr head = some p ∧ Threaded m (m p) l := Iff.rfl
  rw [unfolded, ptr_some, and_assoc]

theorem null_iff (list : Threaded m head l) : head = 0 ↔ l = [] := by
  cases l with
  | nil =>
    have null : ptr head = none := list
    exact ⟨fun _ => rfl, fun _ => ptr_none.mp null⟩
  | cons q l =>
    obtain ⟨rfl, nonnull, _⟩ := cons_iff.mp list
    exact ⟨fun null => absurd null nonnull, fun empty => absurd empty (List.cons_ne_nil _ _)⟩

theorem ne_zero (list : Threaded m head l) (member : p ∈ l) : p ≠ 0 := by
  induction l generalizing head with
  | nil => cases member
  | cons q l ih =>
    obtain ⟨rfl, nonnull, rest⟩ := cons_iff.mp list
    rcases List.mem_cons.mp member with rfl | later
    · exact nonnull
    · exact ih rest later

theorem push (list : Threaded m head l) (nonnull : p ≠ 0) (fresh : p ∉ l) :
    Threaded (m.store p head) p (p :: l) := by
  refine cons_iff.mpr ⟨rfl, nonnull, ?_⟩
  rw [Memory.store_same]
  apply list.congr
  intro q member
  apply Memory.store_other
  rintro rfl
  exact fresh member

theorem pop (list : Threaded m head l) (nonnull : head ≠ 0) :
    ∃ rest, l = head :: rest ∧ Threaded m (m head) rest := by
  cases l with
  | nil => exact absurd (list.null_iff.mpr rfl) nonnull
  | cons q l =>
    obtain ⟨rfl, _, rest⟩ := cons_iff.mp list
    exact ⟨l, rfl, rest⟩

/-- Where the list goes on from one of its nodes. -/
theorem suffix {before : List Nat} (list : Threaded m head (before ++ p :: l)) :
    p ≠ 0 ∧ Threaded m (m p) l := by
  induction before generalizing head with
  | nil =>
    obtain ⟨rfl, nonnull, rest⟩ := cons_iff.mp list
    exact ⟨nonnull, rest⟩
  | cons q before ih =>
    obtain ⟨rfl, _, rest⟩ := cons_iff.mp list
    exact ih rest

/-- A node linked behind the last one. -/
theorem snoc {n : Nat} (list : Threaded m head (l ++ [p])) (agree : ∀ q ∈ l, m' q = m q)
    (link : m' p = n) (nonnull : n ≠ 0) (stop : m' n = 0) : Threaded m' head (l ++ [p, n]) := by
  induction l generalizing head with
  | nil =>
    obtain ⟨rfl, first, _⟩ := cons_iff.mp list
    refine cons_iff.mpr ⟨rfl, first, cons_iff.mpr ⟨link, nonnull, ?_⟩⟩
    rw [stop]
    exact nil
  | cons q l ih =>
    obtain ⟨rfl, first, rest⟩ := cons_iff.mp list
    refine cons_iff.mpr ⟨rfl, first, ?_⟩
    rw [agree head List.mem_cons_self]
    exact ih rest (fun r member => agree r (List.mem_cons_of_mem _ member))

theorem unique {l' : List Nat} (one : Threaded m head l) (two : Threaded m head l') : l = l' := by
  induction l generalizing head l' with
  | nil => exact (two.null_iff.mp (one.null_iff.mpr rfl)).symm
  | cons p l ih =>
    obtain ⟨rfl, nonnull, rest⟩ := cons_iff.mp one
    obtain ⟨rest', rfl, tail⟩ := two.pop nonnull
    rw [ih rest tail]

end Threaded

/-- A list with a pointer to its last node, for appending. -/
structure Queue (m : Memory) (head tail : Nat) (l : List Nat) : Prop where
  list : Threaded m head l
  last : tail = l.getLastD 0

namespace Queue

variable {m m' : Memory} {head tail p : Nat} {l : List Nat}

theorem nil (m : Memory) : Queue m 0 0 [] := ⟨Threaded.nil, rfl⟩

theorem congr (queue : Queue m head tail l) (agree : ∀ q ∈ l, m' q = m q) : Queue m' head tail l :=
  ⟨queue.list.congr agree, queue.last⟩

/-- The first node. -/
theorem first (queue : Queue m 0 tail l) (nonnull : p ≠ 0) (stop : m' p = 0) : Queue m' p p (l ++ [p]) := by
  rw [queue.list.null_iff.mp rfl]
  refine ⟨Threaded.cons_iff.mpr ⟨rfl, nonnull, ?_⟩, rfl⟩
  rw [stop]
  exact Threaded.nil

theorem last_mem (queue : Queue m head tail l) (nonempty : head ≠ 0) : tail ∈ l := by
  have some_ : l ≠ [] := fun empty => nonempty (queue.list.null_iff.mpr empty)
  rw [queue.last, List.getLastD_eq_getLast?, List.getLast?_eq_some_getLast some_]
  exact List.getLast_mem some_

/-- Another node behind the last one. -/
theorem snoc (queue : Queue m head tail l) (nonempty : head ≠ 0) (nonnull : p ≠ 0) (stop : m' p = 0)
    (link : m' tail = p) (agree : ∀ q ∈ l, q ≠ tail → m' q = m q) (distinct : l.Nodup) :
    Queue m' head p (l ++ [p]) := by
  have some_ : l ≠ [] := fun empty => nonempty (queue.list.null_iff.mpr empty)
  obtain ⟨before, last, rfl⟩ := (List.eq_nil_or_concat' l).resolve_left some_
  have same : tail = last := by
    rw [queue.last]
    simp
  subst same
  have others : ∀ q ∈ before, m' q = m q := by
    intro q member
    apply agree q (List.mem_append_left _ member)
    rintro rfl
    exact (List.nodup_append.mp distinct).2.2 q member q List.mem_cons_self rfl
  refine ⟨?_, by simp⟩
  rw [List.append_assoc]
  exact queue.list.snoc others link nonnull stop

end Queue

end Lib
