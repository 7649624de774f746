import EvalynOS.Memory.Vma
import EvalynOS.Lib.Spans

/-! The free and the used ranges of an address space tile its window. Every
operation of the allocator carves one range out of another and moves it to the
other tree, so the invariant is proved once for a carving. Addresses are exact
integers here; that no addition wraps is part of what is proved. -/
namespace EvalynOS.Vma
open Lib Lib.Word

def PageRange.span (r : PageRange) : Nat × Nat := (r.vaddr, r.vaddr + r.size)

def spans (l : List PageRange) : List (Nat × Nat) := l.map PageRange.span

def FreeAt (pm : Ranges) (a : Nat) : Prop := Covers (spans pm.freeRanges.nodes) a
def UsedAt (pm : Ranges) (a : Nat) : Prop := Covers (spans pm.usedRanges.nodes) a

/-- Page aligned, non-empty, pairwise disjoint, and with the window as union. -/
structure Tiling (w : Window) (pm : Ranges) : Prop where
  aligned : ∀ r ∈ pm.freeRanges.nodes ++ pm.usedRanges.nodes,
    pageSize ∣ r.vaddr ∧ pageSize ∣ r.size
  tiles : Tiles (spans (pm.freeRanges.nodes ++ pm.usedRanges.nodes)) w.lo w.hi

theorem Window.fresh_tiling (w : Window) : Tiling w w.fresh := by
  have size := Nat.add_sub_of_le w.nonempty.le
  constructor
  · intro r member
    have same : r = ⟨w.lo, w.hi - w.lo⟩ := by simpa [Window.fresh, SearchTree.singleton,
      SearchTree.empty] using member
    subst r
    exact ⟨w.alignedLo, Nat.dvd_sub w.alignedHi w.alignedLo⟩
  · have single : spans (w.fresh.freeRanges.nodes ++ w.fresh.usedRanges.nodes) = [(w.lo, w.hi)] := by
      simp [Window.fresh, SearchTree.singleton, SearchTree.empty, spans, PageRange.span, size]
    rw [single]
    refine ⟨?_, List.pairwise_singleton _ _, fun x => by simp [Covers]⟩
    intro s member
    rw [List.mem_singleton.mp member]
    exact w.nonempty

/-! Carving one range out of another. -/

def leftoverRanges (r m : PageRange) : List PageRange :=
  (if r.vaddr < m.vaddr then [⟨r.vaddr, m.vaddr - r.vaddr⟩] else []) ++
  (if m.vaddr + m.size < r.vaddr + r.size then
    [⟨m.vaddr + m.size, r.vaddr + r.size - (m.vaddr + m.size)⟩] else [])

theorem spans_leftover (r m : PageRange) : spans (leftoverRanges r m) = leftover r.span m.span := by
  unfold leftoverRanges leftover before after spans PageRange.span
  rw [List.map_append]
  congr 1
  · split
    · rename_i proper
      simp [Nat.add_sub_of_le proper.le]
    · rfl
  · split
    · rename_i proper
      simp [Nat.add_sub_of_le proper.le]
    · rfl

/-- `m` leaves the range `r` of the list `src` for the list `dst`. -/
structure Carve (src src' dst dst' : List PageRange) (r m : PageRange) : Prop where
  member : r ∈ src
  low : r.vaddr ≤ m.vaddr
  high : m.vaddr + m.size ≤ r.vaddr + r.size
  positive : 0 < m.size
  kept : src'.Perm (leftoverRanges r m ++ src.erase r)
  moved : dst'.Perm (m :: dst)

namespace Carve

variable {src src' dst dst' : List PageRange} {r m : PageRange} {lo hi : Nat}

theorem nonempty (c : Carve src src' dst dst' r m) : m.span.1 < m.span.2 :=
  Nat.lt_add_of_pos_right c.positive

theorem split_source (c : Carve src src' dst dst' r m) :
    (spans (src ++ dst)).Perm (r.span :: spans (src.erase r ++ dst)) := by
  have order := (List.perm_cons_erase c.member).append_right dst
  exact order.map PageRange.span

theorem tiles (c : Carve src src' dst dst' r m) (before : Tiles (spans (src ++ dst)) lo hi) :
    Tiles (spans (src' ++ dst')) lo hi := by
  have carved : Tiles (m.span :: (leftover r.span m.span ++ spans (src.erase r ++ dst))) lo hi :=
    (before.perm c.split_source).carve c.low c.high c.nonempty
  rw [← spans_leftover] at carved
  refine carved.perm (List.Perm.symm ?_)
  have order : (src' ++ dst').Perm (m :: (leftoverRanges r m ++ (src.erase r ++ dst))) := by
    refine (c.kept.append c.moved).trans (List.perm_middle.trans (List.Perm.cons _ ?_))
    rw [List.append_assoc]
  have mapped := order.map PageRange.span
  simpa only [spans, List.map_cons, List.map_append] using mapped

theorem aligned (c : Carve src src' dst dst' r m)
    (before : ∀ e ∈ src ++ dst, pageSize ∣ e.vaddr ∧ pageSize ∣ e.size)
    (start : pageSize ∣ m.vaddr) (size : pageSize ∣ m.size) :
    ∀ e ∈ src' ++ dst', pageSize ∣ e.vaddr ∧ pageSize ∣ e.size := by
  have whole := before r (List.mem_append_left _ c.member)
  have stop := Nat.dvd_add start size
  intro e member
  rcases List.mem_append.mp member with left | right
  · rcases List.mem_append.mp (c.kept.mem_iff.mp left) with piece | other
    · rcases List.mem_append.mp piece with first | last
      · split at first
        · rw [List.mem_singleton.mp first]
          exact ⟨whole.1, Nat.dvd_sub start whole.1⟩
        · exact absurd first List.not_mem_nil
      · split at last
        · rw [List.mem_singleton.mp last]
          exact ⟨stop, Nat.dvd_sub (Nat.dvd_add whole.1 whole.2) stop⟩
        · exact absurd last List.not_mem_nil
    · exact before e (List.mem_append_left _ (List.mem_of_mem_erase other))
  · rcases List.mem_cons.mp (c.moved.mem_iff.mp right) with rfl | other
    · exact ⟨start, size⟩
    · exact before e (List.mem_append_right _ other)

theorem dst_covers (c : Carve src src' dst dst' r m) (x : Nat) :
    Covers (spans dst') x ↔ Inside x m.span ∨ Covers (spans dst) x := by
  have order : (spans dst').Perm (m.span :: spans dst) := c.moved.map PageRange.span
  rw [Covers.perm order, covers_cons]

theorem src_covers (c : Carve src src' dst dst' r m) (before : Tiles (spans (src ++ dst)) lo hi)
    (x : Nat) : Covers (spans src') x ↔ Covers (spans src) x ∧ ¬ Inside x m.span := by
  have source : (spans src).Perm (r.span :: spans (src.erase r)) :=
    (List.perm_cons_erase c.member).map PageRange.span
  have target : (spans src').Perm (leftover r.span m.span ++ spans (src.erase r)) := by
    rw [← spans_leftover]
    simpa only [spans, List.map_append] using c.kept.map PageRange.span
  have heads := List.pairwise_cons.mp (before.perm c.split_source).apart
  have others : Covers (spans (src.erase r)) x → ¬ Inside x m.span := by
    rintro ⟨s, member, inside⟩ inner
    have listed : s ∈ spans (src.erase r ++ dst) := by
      simp only [spans, List.map_append]
      exact List.mem_append_left _ member
    exact (heads.1 s listed).not_both ⟨c.low.trans inner.1, inner.2.trans_le c.high⟩ inside
  rw [Covers.perm source, Covers.perm target, covers_append, covers_cons,
    covers_leftover c.low c.high c.nonempty, or_and_right, and_iff_left_of_imp others]

end Carve

theorem Tiling.of_alloc {w : Window} {pm pm' : Ranges} {r m : PageRange} (tiling : Tiling w pm)
    (c : Carve pm.freeRanges.nodes pm'.freeRanges.nodes pm.usedRanges.nodes pm'.usedRanges.nodes r m)
    (start : pageSize ∣ m.vaddr) (size : pageSize ∣ m.size) : Tiling w pm' :=
  ⟨c.aligned tiling.aligned start size, c.tiles tiling.tiles⟩

theorem Tiling.swapped {w : Window} {pm : Ranges} (tiling : Tiling w pm) :
    Tiles (spans (pm.usedRanges.nodes ++ pm.freeRanges.nodes)) w.lo w.hi :=
  tiling.tiles.perm (List.perm_append_comm.map PageRange.span)

theorem Tiling.of_free {w : Window} {pm pm' : Ranges} {r m : PageRange} (tiling : Tiling w pm)
    (c : Carve pm.usedRanges.nodes pm'.usedRanges.nodes pm.freeRanges.nodes pm'.freeRanges.nodes r m)
    (start : pageSize ∣ m.vaddr) (size : pageSize ∣ m.size) : Tiling w pm' := by
  have swap : ∀ e ∈ pm.usedRanges.nodes ++ pm.freeRanges.nodes,
      pageSize ∣ e.vaddr ∧ pageSize ∣ e.size := fun e member =>
    tiling.aligned e (List.mem_append.mpr (List.mem_append.mp member).symm)
  have carved := c.aligned swap start size
  constructor
  · intro e member
    exact carved e (List.mem_append.mpr (List.mem_append.mp member).symm)
  · exact (c.tiles tiling.swapped).perm (List.perm_append_comm.map PageRange.span)

end EvalynOS.Vma
