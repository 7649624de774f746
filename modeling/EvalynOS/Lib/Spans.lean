import Mathlib

/-! Half-open spans over a linear order, and lists of them that tile a window.
A tiling does not depend on the order of the list, and cutting one span in two
keeps it; nothing else is needed to move pieces between two lists. -/
namespace Lib

variable {α : Type*} [LinearOrder α]

/-- Two spans with no common point, stated on their ends. -/
def Apart (s t : α × α) : Prop := s.2 ≤ t.1 ∨ t.2 ≤ s.1

def Inside (x : α) (s : α × α) : Prop := s.1 ≤ x ∧ x < s.2

def Covers (l : List (α × α)) (x : α) : Prop := ∃ s ∈ l, Inside x s

structure Tiles (l : List (α × α)) (lo hi : α) : Prop where
  nonempty : ∀ s ∈ l, s.1 < s.2
  apart : l.Pairwise Apart
  covers : ∀ x, Covers l x ↔ Inside x (lo, hi)

theorem Apart.symm {s t : α × α} (apart : Apart s t) : Apart t s := Or.symm apart

instance : Std.Symm (@Apart α _) := ⟨fun _ _ => Apart.symm⟩

theorem Apart.not_both {s t : α × α} (apart : Apart s t) {x : α} (left : Inside x s) :
    ¬ Inside x t := by
  intro right
  rcases apart with before | after
  · exact absurd (right.1.trans_lt left.2) (not_lt.mpr before)
  · exact absurd (left.1.trans_lt right.2) (not_lt.mpr after)

/-- Proper spans without a common point are apart. -/
theorem apart_of_disjoint {s t : α × α} (left : s.1 < s.2) (right : t.1 < t.2)
    (disjoint : ∀ x, Inside x s → ¬ Inside x t) : Apart s t := by
  by_contra touching
  obtain ⟨below, above⟩ := not_or.mp touching
  have common : Inside (max s.1 t.1) s := ⟨le_max_left _ _, max_lt left (not_le.mp below)⟩
  exact disjoint _ common ⟨le_max_right _ _, max_lt (not_le.mp above) right⟩

/-- A span inside another keeps the distance the larger one had. -/
theorem Apart.narrow {s t u : α × α} (apart : Apart s t) (low : s.1 ≤ u.1) (high : u.2 ≤ s.2) :
    Apart u t := by
  rcases apart with before | after
  · exact .inl (high.trans before)
  · exact .inr (after.trans low)

theorem Covers.perm {l m : List (α × α)} (perm : l.Perm m) (x : α) : Covers l x ↔ Covers m x := by
  constructor
  · rintro ⟨s, member, inside⟩
    exact ⟨s, perm.mem_iff.mp member, inside⟩
  · rintro ⟨s, member, inside⟩
    exact ⟨s, perm.mem_iff.mpr member, inside⟩

theorem covers_cons {s : α × α} {l : List (α × α)} {x : α} :
    Covers (s :: l) x ↔ Inside x s ∨ Covers l x := by
  simp [Covers]

theorem covers_append {l m : List (α × α)} {x : α} :
    Covers (l ++ m) x ↔ Covers l x ∨ Covers m x := by
  simp [Covers, or_and_right, exists_or]

theorem inside_cut {a b c x : α} (low : a ≤ b) (high : b ≤ c) :
    Inside x (a, c) ↔ Inside x (a, b) ∨ Inside x (b, c) := by
  constructor
  · rintro ⟨left, right⟩
    rcases lt_or_ge x b with before | after
    · exact .inl ⟨left, before⟩
    · exact .inr ⟨after, right⟩
  · rintro (⟨left, right⟩ | ⟨left, right⟩)
    · exact ⟨left, right.trans_le high⟩
    · exact ⟨low.trans left, right⟩

/-- The part of `s` before `m`, if there is one. -/
def before (s m : α × α) : List (α × α) := if s.1 < m.1 then [(s.1, m.1)] else []
def after (s m : α × α) : List (α × α) := if m.2 < s.2 then [(m.2, s.2)] else []
def leftover (s m : α × α) : List (α × α) := before s m ++ after s m

theorem covers_leftover {s m : α × α} (low : s.1 ≤ m.1) (high : m.2 ≤ s.2)
    (positive : m.1 < m.2) {x : α} :
    Covers (leftover s m) x ↔ Inside x s ∧ ¬ Inside x m := by
  have left : Covers (before s m) x ↔ s.1 ≤ x ∧ x < m.1 := by
    unfold before
    split
    · simp [Covers, Inside]
    · rename_i none
      simp only [Covers, List.not_mem_nil, false_and, exists_false, false_iff, not_and]
      exact fun reached => not_lt.mpr ((not_lt.mp none).trans reached)
  have right : Covers (after s m) x ↔ m.2 ≤ x ∧ x < s.2 := by
    unfold after
    split
    · simp [Covers, Inside]
    · rename_i none
      simp only [Covers, List.not_mem_nil, false_and, exists_false, false_iff, not_and]
      exact fun reached => not_lt.mpr ((not_lt.mp none).trans reached)
  rw [leftover, covers_append, left, right]
  unfold Inside
  constructor
  · rintro (⟨reached, short⟩ | ⟨past, short⟩)
    · exact ⟨⟨reached, short.trans (positive.trans_le high)⟩,
        fun inner => absurd inner.1 (not_le.mpr short)⟩
    · exact ⟨⟨low.trans (positive.le.trans past), short⟩,
        fun inner => absurd inner.2 (not_lt.mpr past)⟩
  · rintro ⟨⟨reached, short⟩, outside⟩
    rcases lt_or_ge x m.1 with small | large
    · exact .inl ⟨reached, small⟩
    · exact .inr ⟨not_lt.mp (fun inner => outside ⟨large, inner⟩), short⟩

namespace Tiles

variable {l m : List (α × α)} {lo hi : α}

theorem perm (tiles : Tiles l lo hi) (order : l.Perm m) : Tiles m lo hi where
  nonempty := fun s member => tiles.nonempty s (order.mem_iff.mpr member)
  apart := tiles.apart.perm order Apart.symm
  covers := fun x => (Covers.perm order x).symm.trans (tiles.covers x)

/-- Cutting the first span at a point strictly inside it. -/
theorem cut {a b c : α} (tiles : Tiles ((a, c) :: l) lo hi) (low : a < b) (high : b < c) :
    Tiles ((a, b) :: (b, c) :: l) lo hi := by
  have heads := List.pairwise_cons.mp tiles.apart
  refine ⟨?_, ?_, ?_⟩
  · intro s member
    rcases List.mem_cons.mp member with rfl | member
    · exact low
    · rcases List.mem_cons.mp member with rfl | member
      · exact high
      · exact tiles.nonempty s (List.mem_cons_of_mem _ member)
  · refine List.pairwise_cons.mpr ⟨?_, List.pairwise_cons.mpr ⟨?_, heads.2⟩⟩
    · intro t member
      rcases List.mem_cons.mp member with rfl | member
      · exact .inl le_rfl
      · exact (heads.1 t member).narrow le_rfl high.le
    · intro t member
      exact (heads.1 t member).narrow low.le le_rfl
  · intro x
    rw [← tiles.covers x]
    simp only [covers_cons, inside_cut low.le high.le, or_assoc]

/-- Carving `m` out of the first span leaves what stands before and after it. -/
theorem carve {s m : α × α} (tiles : Tiles (s :: l) lo hi) (low : s.1 ≤ m.1) (high : m.2 ≤ s.2)
    (positive : m.1 < m.2) : Tiles (m :: (leftover s m ++ l)) lo hi := by
  have first : Tiles ((m.1, s.2) :: (before s m ++ l)) lo hi := by
    unfold before
    split
    · rename_i proper
      exact (tiles.cut proper (positive.trans_le high)).perm (List.Perm.swap _ _ _)
    · rename_i same
      have start : s.1 = m.1 := le_antisymm low (not_lt.mp same)
      rw [← start]
      exact tiles
  unfold leftover after
  split
  · rename_i proper
    refine (first.cut positive proper).perm (List.Perm.cons _ ?_)
    rw [List.append_assoc]
    exact List.perm_middle.symm
  · rename_i same
    have stop : m.2 = s.2 := le_antisymm high (not_lt.mp same)
    rw [← stop] at first
    rw [List.append_nil]
    exact first

theorem within (tiles : Tiles l lo hi) {s : α × α} (member : s ∈ l) : lo ≤ s.1 ∧ s.2 ≤ hi := by
  have start := (tiles.covers s.1).mp ⟨s, member, le_rfl, tiles.nonempty s member⟩
  refine ⟨start.1, ?_⟩
  by_contra beyond
  have last := (tiles.covers hi).mp ⟨s, member, start.2.le, not_le.mp beyond⟩
  exact lt_irrefl hi last.2

/-- The span that holds a point is the only one that does. -/
theorem unique (tiles : Tiles l lo hi) {s t : α × α} (left : s ∈ l) (right : t ∈ l) {x : α}
    (insideLeft : Inside x s) (insideRight : Inside x t) : s = t := by
  by_contra different
  exact (tiles.apart.forall left right different).not_both insideLeft insideRight

end Tiles

end Lib
