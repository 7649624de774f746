import Mathlib

/-! Singly linked structures, given by the partial function that follows a link.
A path runs from one node to another, a ring is a path back to its start, a chain
ends in the null link. -/
namespace Lib

variable {α : Type} {next next' : α → Option α}

/-- Following the links from the first node visits the list and arrives at the last argument. -/
def Path (next : α → Option α) : α → List α → α → Prop
  | p, [], q => p = q
  | p, x :: xs, q => p = x ∧ ∃ n, next x = some n ∧ Path next n xs q

def Chain (next : α → Option α) : Option α → List α → Prop
  | p, [] => p = none
  | p, x :: xs => p = some x ∧ Chain next (next x) xs

structure Ring (next : α → Option α) (p : α) (l : List α) : Prop where
  path : Path next p l p
  nonempty : l ≠ []
  nodup : l.Nodup

def Linked (next : α → Option α) (a b : α) : Prop := next a = some b

/-- The nodes that can be reached from `p`, `p` included. -/
def Reachable (next : α → Option α) (p q : α) : Prop := Relation.ReflTransGen (Linked next) p q

theorem Path.append {xs ys : List α} {p q : α} :
    Path next p (xs ++ ys) q ↔ ∃ m, Path next p xs m ∧ Path next m ys q := by
  induction xs generalizing p with
  | nil => simp [Path]
  | cons x xs ih =>
    constructor
    · rintro ⟨rfl, n, link, rest⟩
      obtain ⟨m, left, right⟩ := ih.mp rest
      exact ⟨m, ⟨rfl, n, link, left⟩, right⟩
    · rintro ⟨m, ⟨rfl, n, link, left⟩, right⟩
      exact ⟨rfl, n, link, ih.mpr ⟨m, left, right⟩⟩

/-- Where a path continues, its next stretch starts with the node it is at. -/
theorem Path.cons_start {x p q : α} {xs : List α} (path : Path next p (x :: xs) q) : p = x := path.1

theorem Path.congr {l : List α} {p q : α} (agree : ∀ x ∈ l, next' x = next x)
    (path : Path next p l q) : Path next' p l q := by
  induction l generalizing p with
  | nil => exact path
  | cons x xs ih =>
    obtain ⟨rfl, n, link, rest⟩ := path
    refine ⟨rfl, n, (agree p List.mem_cons_self).trans link, ?_⟩
    exact ih (fun y member => agree y (List.mem_cons_of_mem _ member)) rest

/-- Two walks that stop at their first node outside `P` are the same walk. -/
theorem Path.first_unique {P : α → Bool} {p x y : α} {xs ys : List α} (left : Path next p xs x)
    (right : Path next p ys y) (insideX : ∀ z ∈ xs, P z = true) (stopX : P x = false)
    (insideY : ∀ z ∈ ys, P z = true) (stopY : P y = false) : xs = ys ∧ x = y := by
  induction xs generalizing p ys with
  | nil =>
    have here : p = x := left
    subst here
    cases ys with
    | nil => exact ⟨rfl, right⟩
    | cons z zs =>
      obtain ⟨rfl, _⟩ := right
      rw [insideY p List.mem_cons_self] at stopX
      cases stopX
  | cons z zs ih =>
    obtain ⟨rfl, n, link, left⟩ := left
    cases ys with
    | nil =>
      have here : p = y := right
      subst here
      rw [insideX p List.mem_cons_self] at stopY
      cases stopY
    | cons w ws =>
      obtain ⟨rfl, m, link', right⟩ := right
      cases Option.some.inj (link.symm.trans link')
      obtain ⟨same, stop⟩ := ih left right (fun z member => insideX z (List.mem_cons_of_mem _ member))
        (fun z member => insideY z (List.mem_cons_of_mem _ member))
      exact ⟨by rw [same], stop⟩

theorem Chain.congr {l : List α} {p : Option α} (agree : ∀ x ∈ l, next' x = next x)
    (chain : Chain next p l) : Chain next' p l := by
  induction l generalizing p with
  | nil => exact chain
  | cons x xs ih =>
    obtain ⟨rfl, rest⟩ := chain
    refine ⟨rfl, ?_⟩
    rw [agree x List.mem_cons_self]
    exact ih (fun y member => agree y (List.mem_cons_of_mem _ member)) rest

theorem Path.reachable {l : List α} {p q : α} (path : Path next p l q) :
    (∀ x ∈ l, Reachable next p x) ∧ Reachable next p q := by
  induction l generalizing p with
  | nil => exact ⟨fun x member => absurd member List.not_mem_nil, path ▸ .refl⟩
  | cons x xs ih =>
    obtain ⟨rfl, n, link, rest⟩ := path
    obtain ⟨members, stop⟩ := ih rest
    have first : Reachable next p n := .single link
    refine ⟨?_, first.trans stop⟩
    intro y member
    rcases List.mem_cons.mp member with rfl | later
    · exact .refl
    · exact first.trans (members y later)

/-- A path that returns into its own list never leaves it. -/
theorem Path.linked_mem {l : List α} {p q x y : α} (path : Path next p l q) (back : q ∈ l)
    (member : x ∈ l) (link : next x = some y) : y ∈ l := by
  have step : ∀ (l' : List α) (p' : α), Path next p' l' q → x ∈ l' → y ∈ l' ∨ y = q := by
    intro l'
    induction l' with
    | nil => exact fun _ _ inside => absurd inside List.not_mem_nil
    | cons z zs ih =>
      rintro p' ⟨rfl, n, first, rest⟩ inside
      rcases List.mem_cons.mp inside with rfl | later
      · have same : y = n := Option.some.inj (link.symm.trans first)
        subst same
        cases zs with
        | nil => exact .inr rest
        | cons w ws => exact .inl (List.mem_cons_of_mem _ (rest.1 ▸ List.mem_cons_self))
      · rcases ih n rest later with found | stop
        · exact .inl (List.mem_cons_of_mem _ found)
        · exact .inr stop
  rcases step l p path member with found | rfl
  · exact found
  · exact back

theorem Chain.reachable_iff {l : List α} {p q : α} (chain : Chain next (some p) l) :
    Reachable next p q ↔ q ∈ l := by
  have closed : ∀ (l' : List α) (p' : Option α), Chain next p' l' →
      ∀ x ∈ l', ∀ y, next x = some y → y ∈ l' := by
    intro l'
    induction l' with
    | nil => exact fun _ _ x inside => absurd inside List.not_mem_nil
    | cons z zs ih =>
      rintro p' ⟨_, rest⟩ x inside y link
      rcases List.mem_cons.mp inside with rfl | later
      · rw [link] at rest
        cases zs with
        | nil => cases rest
        | cons w ws => exact List.mem_cons_of_mem _ (Option.some.inj rest.1 ▸ List.mem_cons_self)
      · exact List.mem_cons_of_mem _ (ih _ rest x later y link)
  have reached : ∀ (l' : List α) (p' : α), Chain next (some p') l' → ∀ x ∈ l', Reachable next p' x := by
    intro l'
    induction l' with
    | nil => exact fun _ _ x inside => absurd inside List.not_mem_nil
    | cons z zs ih =>
      rintro p' ⟨start, rest⟩ x inside
      cases Option.some.inj start
      rcases List.mem_cons.mp inside with rfl | later
      · exact .refl
      · cases link : next z with
        | none =>
          rw [link] at rest
          cases zs with
          | nil => cases later
          | cons w ws => cases rest.1
        | some n =>
          rw [link] at rest
          have first : Reachable next z n := .single link
          exact first.trans (ih n rest x later)
  constructor
  · intro reach
    induction reach with
    | refl =>
      cases l with
      | nil => cases chain
      | cons x xs => exact Option.some.inj chain.1 ▸ List.mem_cons_self
    | tail _ link ih => exact closed l _ chain _ ih _ link
  · exact reached l p chain q

namespace Ring

variable {p q : α} {l : List α}

theorem head_mem (ring : Ring next p l) : p ∈ l := by
  obtain ⟨path, nonempty, _⟩ := ring
  cases l with
  | nil => exact absurd rfl nonempty
  | cons x xs => exact path.1 ▸ List.mem_cons_self

/-- The nodes reachable from a ring's start are exactly those on the ring. -/
theorem reachable_iff (ring : Ring next p l) : Reachable next p q ↔ q ∈ l := by
  constructor
  · intro reach
    induction reach with
    | refl => exact ring.head_mem
    | tail _ link ih => exact ring.path.linked_mem ring.head_mem ih link
  · exact ring.path.reachable.1 q

theorem congr (ring : Ring next p l) (agree : ∀ x ∈ l, next' x = next x) : Ring next' p l :=
  ⟨ring.path.congr agree, ring.nonempty, ring.nodup⟩

/-- A ring may be entered at any of its nodes. -/
theorem rotate {xs ys : List α} (ring : Ring next p (xs ++ q :: ys)) :
    Ring next q (q :: (ys ++ xs)) := by
  obtain ⟨m, left, right⟩ := Path.append.mp ring.path
  have start : m = q := right.1
  subst start
  have order : (xs ++ m :: ys).Perm (m :: (ys ++ xs)) :=
    List.perm_middle.trans (List.Perm.cons _ List.perm_append_comm)
  refine ⟨?_, List.cons_ne_nil _ _, order.nodup_iff.mp ring.nodup⟩
  have whole : Path next m ((m :: ys) ++ xs) m := Path.append.mpr ⟨p, right, left⟩
  exact whole

end Ring

end Lib
