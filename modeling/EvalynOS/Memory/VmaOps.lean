import EvalynOS.Memory.VmaTiling

/-! What each allocator call does to a tiled address space: nothing, or one
carving. The comparator is only ever consulted on ranges that end below 2^64,
where it decides membership of an address in a range. -/
namespace EvalynOS.Vma
open Lib Lib.Word

/-- The exact rounding the callers mean, without wraparound. -/
def roundup (size : Nat) : Nat := (size + 4095) / 4096 * 4096

theorem alignUp_roundup {size : Nat} (bound : size + 4095 < 2 ^ 64) :
    alignUp size pageSize = roundup size := by
  have shape : alignUp size (2 ^ 12) = wadd size (2 ^ 12 - 1) / 2 ^ 12 * 2 ^ 12 :=
    alignUp_pow (by decide)
  rw [wadd_eq (by omega)] at shape
  exact shape

theorem isAligned_page (x : Nat) : isAligned x pageSize = true ↔ pageSize ∣ x :=
  isAligned_pow x 12

theorem roundup_dvd (size : Nat) : pageSize ∣ roundup size := Nat.dvd_mul_left _ _

theorem roundup_pos {size : Nat} (positive : 1 ≤ size) : 0 < roundup size := by
  unfold roundup
  omega

theorem le_roundup (size : Nat) : size ≤ roundup size := by
  unfold roundup
  omega

/-! Lookups and insertions in a tree whose ranges end below 2^64. -/

def Sound (t : VallocTree) : Prop := ∀ e ∈ t.nodes, 0 < e.size ∧ e.vaddr + e.size < 2 ^ 64

theorem vmmCmpRange_eq_iff {x e : PageRange} (positive : 0 < e.size)
    (bounded : e.vaddr + e.size < 2 ^ 64) :
    vmmCmpRange x e = .eq ↔ Inside x.vaddr e.span := by
  unfold vmmCmpRange
  rw [wadd_eq bounded]
  split
  · rename_i inside
    exact iff_of_true rfl inside
  · rename_i outside
    refine iff_of_false ?_ outside
    split
    · simp
    · split
      · simp
      · omega

theorem Sound.remove {t : VallocTree} (sound : Sound t) (r : PageRange) : Sound (t.remove r) :=
  fun e member => sound e (List.mem_of_mem_erase member)

theorem Sound.cons {t t' : VallocTree} {r : PageRange} (sound : Sound t)
    (order : t'.nodes.Perm (r :: t.nodes)) (positive : 0 < r.size)
    (bounded : r.vaddr + r.size < 2 ^ 64) : Sound t' := by
  intro e member
  rcases List.mem_cons.mp (order.mem_iff.mp member) with rfl | other
  · exact ⟨positive, bounded⟩
  · exact sound e other

theorem Sound.find_some {t : VallocTree} (sound : Sound t) {x e : PageRange}
    (found : t.find x = some e) : e ∈ t.nodes ∧ Inside x.vaddr e.span := by
  obtain ⟨member, equal⟩ := SearchTree.find_some found
  have limits := sound e member
  exact ⟨member, (vmmCmpRange_eq_iff limits.1 limits.2).mp equal⟩

theorem Sound.find_none {t : VallocTree} (sound : Sound t) {x : PageRange} :
    t.find x = none ↔ ¬ Covers (spans t.nodes) x.vaddr := by
  rw [SearchTree.find_none]
  constructor
  · rintro missing ⟨s, member, inside⟩
    obtain ⟨e, listed, rfl⟩ := List.mem_map.mp member
    have limits := sound e listed
    exact missing e listed ((vmmCmpRange_eq_iff limits.1 limits.2).mpr inside)
  · intro outside e member equal
    have limits := sound e member
    exact outside ⟨e.span, List.mem_map_of_mem member,
      (vmmCmpRange_eq_iff limits.1 limits.2).mp equal⟩

theorem Sound.insert {t : VallocTree} (sound : Sound t) {r : PageRange}
    (outside : ¬ Covers (spans t.nodes) r.vaddr) :
    ∃ t', t.insert r = some t' ∧ t'.nodes.Perm (r :: t.nodes) := by
  apply SearchTree.insert_some
  intro e member equal
  have limits := sound e member
  exact outside ⟨e.span, List.mem_map_of_mem member,
    (vmmCmpRange_eq_iff limits.1 limits.2).mp equal⟩

theorem covers_spans_cons {t : VallocTree} {r : PageRange} {l : List PageRange}
    (order : t.nodes.Perm (r :: l)) (x : Nat) :
    Covers (spans t.nodes) x ↔ Inside x r.span ∨ Covers (spans l) x := by
  have mapped : (spans t.nodes).Perm (r.span :: spans l) := order.map PageRange.span
  rw [Covers.perm mapped, covers_cons]

/-! Facts of a tiled address space. -/

section Tiled

variable {w : Window} {pm : Ranges}

theorem Tiling.limits (tiling : Tiling w pm) {r : PageRange}
    (member : r ∈ pm.freeRanges.nodes ++ pm.usedRanges.nodes) :
    w.lo ≤ r.vaddr ∧ r.vaddr + r.size ≤ w.hi ∧ 0 < r.size := by
  have listed : r.span ∈ spans (pm.freeRanges.nodes ++ pm.usedRanges.nodes) :=
    List.mem_map_of_mem member
  have within := tiling.tiles.within listed
  have positive := tiling.tiles.nonempty r.span listed
  exact ⟨within.1, within.2, Nat.pos_of_lt_add_right positive⟩

/-- An address determines the range that holds it, across both trees. -/
theorem Tiling.unique (tiling : Tiling w pm) {r s : PageRange} {x : Nat}
    (left : r ∈ pm.freeRanges.nodes ++ pm.usedRanges.nodes)
    (right : s ∈ pm.freeRanges.nodes ++ pm.usedRanges.nodes)
    (insideLeft : Inside x r.span) (insideRight : Inside x s.span) : r = s := by
  have same := tiling.tiles.unique (List.mem_map_of_mem left) (List.mem_map_of_mem right)
    insideLeft insideRight
  cases r
  cases s
  simp only [PageRange.span, Prod.mk.injEq] at same
  obtain ⟨rfl, size⟩ := same
  rw [Nat.add_left_cancel size]

theorem Tiling.sound_free (tiling : Tiling w pm) : Sound pm.freeRanges := by
  intro e member
  have limits := tiling.limits (List.mem_append_left _ member)
  exact ⟨limits.2.2, limits.2.1.trans_lt w.bounded⟩

theorem Tiling.sound_used (tiling : Tiling w pm) : Sound pm.usedRanges := by
  intro e member
  have limits := tiling.limits (List.mem_append_right _ member)
  exact ⟨limits.2.2, limits.2.1.trans_lt w.bounded⟩

theorem erased_outside {src dst : List PageRange} {lo hi x : Nat} {r : PageRange}
    (tiles : Tiles (spans (src ++ dst)) lo hi) (member : r ∈ src) (inside : Inside x r.span) :
    ¬ Covers (spans (src.erase r)) x ∧ ¬ Covers (spans dst) x := by
  have order : (spans (src ++ dst)).Perm (r.span :: spans (src.erase r ++ dst)) :=
    ((List.perm_cons_erase member).append_right dst).map PageRange.span
  have heads := List.pairwise_cons.mp (tiles.perm order).apart
  have apart : ∀ s ∈ spans (src.erase r ++ dst), ¬ Inside x s := fun s listed =>
    (heads.1 s listed).not_both inside
  constructor
  · rintro ⟨s, listed, reached⟩
    refine apart s ?_ reached
    simp only [spans, List.map_append]
    exact List.mem_append_left _ listed
  · rintro ⟨s, listed, reached⟩
    refine apart s ?_ reached
    simp only [spans, List.map_append]
    exact List.mem_append_right _ listed

theorem Tiling.free_not_used (tiling : Tiling w pm) {x : Nat} (free : FreeAt pm x) :
    ¬ UsedAt pm x := by
  obtain ⟨s, listed, reached⟩ := free
  obtain ⟨r, member, rfl⟩ := List.mem_map.mp listed
  exact (erased_outside tiling.tiles member reached).2

/-- A page is used as a whole. -/
theorem Tiling.used_page (tiling : Tiling w pm) {v x : Nat} (same : v / 4096 = x / 4096)
    (used : UsedAt pm v) : UsedAt pm x := by
  obtain ⟨span, member, inside⟩ := used
  obtain ⟨r, listed, rfl⟩ := List.mem_map.mp member
  obtain ⟨⟨i, start⟩, ⟨j, size⟩⟩ := tiling.aligned r (List.mem_append_right _ listed)
  obtain ⟨low, high⟩ := inside
  refine ⟨r.span, member, ?_, ?_⟩
  · simp only [PageRange.span, pageSize] at *
    omega
  · simp only [PageRange.span, pageSize] at *
    omega

end Tiled

/-! The three ways a range leaves its tree: whole, from its start, or from further
in. The two trees play the same part in an allocation and, exchanged, in a release. -/

section Trees

variable {src dst : VallocTree} {w : Window} {r : PageRange}

theorem carve_whole (tiles : Tiles (spans (src.nodes ++ dst.nodes)) w.lo w.hi) (dstSound : Sound dst)
    (member : r ∈ src.nodes) (positive : 0 < r.size) :
    ∃ d, dst.insert r = some d ∧
      Carve src.nodes (src.remove r).nodes dst.nodes d.nodes r r := by
  have inside : Inside r.vaddr r.span := ⟨le_rfl, Nat.lt_add_of_pos_right positive⟩
  obtain ⟨d, inserted, order⟩ := dstSound.insert (erased_outside tiles member inside).2
  refine ⟨d, inserted, member, le_rfl, le_rfl, positive, ?_, order⟩
  have pieces : leftoverRanges r r = [] := by simp [leftoverRanges]
  rw [pieces]
  exact List.Perm.refl _

theorem carve_start {size : Nat} (tiles : Tiles (spans (src.nodes ++ dst.nodes)) w.lo w.hi)
    (srcSound : Sound src) (dstSound : Sound dst) (member : r ∈ src.nodes) (positive : 0 < size)
    (fits : size < r.size) :
    ∃ s d, (src.remove r).insert ⟨wadd r.vaddr size, wsub r.size size⟩ = some s ∧
      dst.insert ⟨r.vaddr, size⟩ = some d ∧
      Carve src.nodes s.nodes dst.nodes d.nodes r ⟨r.vaddr, size⟩ := by
  have limits := srcSound r member
  rw [wadd_eq (by omega), wsub_eq (by omega) fits.le]
  have restInside : Inside (r.vaddr + size) r.span :=
    ⟨Nat.le_add_right _ _, Nat.add_lt_add_left fits _⟩
  have startInside : Inside r.vaddr r.span := ⟨le_rfl, Nat.lt_add_of_pos_right limits.1⟩
  obtain ⟨s, insertedRest, orderRest⟩ := (srcSound.remove r).insert
    (r := ⟨r.vaddr + size, r.size - size⟩) (erased_outside tiles member restInside).1
  obtain ⟨d, inserted, order⟩ := dstSound.insert
    (r := ⟨r.vaddr, size⟩) (erased_outside tiles member startInside).2
  refine ⟨s, d, insertedRest, inserted, member, le_rfl, Nat.add_le_add_left fits.le _, positive,
    ?_, order⟩
  have pieces : leftoverRanges r ⟨r.vaddr, size⟩ = [⟨r.vaddr + size, r.size - size⟩] := by
    simp only [leftoverRanges, lt_irrefl, ↓reduceIte, List.nil_append, Nat.add_lt_add_iff_left, fits,
      Nat.add_sub_add_left]
  rw [pieces]
  exact orderRest

/-- The remainder after the carved part is inserted only if there is one. -/
def insertRest (t : VallocTree) (vaddr size : Nat) : Option VallocTree :=
  if 0 < size then t.insert ⟨vaddr, size⟩ else some t

theorem carve_middle {vaddr size : Nat} (tiles : Tiles (spans (src.nodes ++ dst.nodes)) w.lo w.hi)
    (srcSound : Sound src) (dstSound : Sound dst) (member : r ∈ src.nodes) (positive : 0 < size)
    (low : r.vaddr < vaddr) (high : vaddr + size ≤ r.vaddr + r.size) :
    ∃ p s d, (src.remove r).insert ⟨r.vaddr, wsub vaddr r.vaddr⟩ = some p ∧
      insertRest p (wadd vaddr size) (wsub (wsub r.size (wsub vaddr r.vaddr)) size) = some s ∧
      dst.insert ⟨vaddr, size⟩ = some d ∧
      Carve src.nodes s.nodes dst.nodes d.nodes r ⟨vaddr, size⟩ := by
  have limits := srcSound r member
  rw [wadd_eq (by omega), wsub_eq (a := vaddr) (by omega) low.le,
    wsub_eq (a := r.size) (by omega) (by omega), wsub_eq (by omega) (by omega)]
  have startInside : Inside r.vaddr r.span := ⟨le_rfl, Nat.lt_add_of_pos_right limits.1⟩
  have bodyInside : Inside vaddr r.span := ⟨low.le, Nat.lt_of_lt_of_le (by omega) high⟩
  obtain ⟨p, insertedPre, orderPre⟩ := (srcSound.remove r).insert
    (r := ⟨r.vaddr, vaddr - r.vaddr⟩) (erased_outside tiles member startInside).1
  have preSound : Sound p := by
    apply (srcSound.remove r).cons orderPre
    · exact Nat.sub_pos_of_lt low
    · dsimp only
      omega
  obtain ⟨d, inserted, order⟩ := dstSound.insert
    (r := ⟨vaddr, size⟩) (erased_outside tiles member bodyInside).2
  have pre : (if r.vaddr < vaddr then [(⟨r.vaddr, vaddr - r.vaddr⟩ : PageRange)] else []) =
      [⟨r.vaddr, vaddr - r.vaddr⟩] := if_pos low
  by_cases rest : vaddr + size < r.vaddr + r.size
  · have restInside : Inside (vaddr + size) r.span :=
      ⟨low.le.trans (Nat.le_add_right _ _), rest⟩
    have restOutside : ¬ Covers (spans p.nodes) (vaddr + size) := by
      rw [covers_spans_cons orderPre]
      rintro (inPre | other)
      · have short := inPre.2
        simp only [PageRange.span] at short
        omega
      · exact (erased_outside tiles member restInside).1 other
    have size_eq : r.size - (vaddr - r.vaddr) - size = r.vaddr + r.size - (vaddr + size) := by omega
    rw [size_eq]
    obtain ⟨s, insertedPost, orderPost⟩ := preSound.insert
      (r := ⟨vaddr + size, r.vaddr + r.size - (vaddr + size)⟩) restOutside
    refine ⟨p, s, d, insertedPre, ?_, inserted, member, low.le, high, positive, ?_, order⟩
    · rw [insertRest, if_pos (by omega)]
      exact insertedPost
    · simp only [leftoverRanges, pre, rest, ↓reduceIte]
      refine orderPost.trans ((List.Perm.cons _ orderPre).trans ?_)
      exact List.Perm.swap _ _ _
  · refine ⟨p, p, d, insertedPre, ?_, inserted, member, low.le, high, positive, ?_, order⟩
    · rw [insertRest, if_neg (by omega)]
    · simp only [leftoverRanges, pre, rest, ↓reduceIte, List.append_nil]
      exact orderPre

end Trees

/-! One specification for each call. -/

section Calls

variable {w : Window} {pm : Ranges}

/-- An allocation in a tiled address space carves the rounded size from the start
of the first free range that holds it; it fails only if none does. -/
theorem valloc_cases (tiling : Tiling w pm) {size : Nat} (positive : 1 ≤ size)
    (bound : size + 4095 < 2 ^ 64) :
    (valloc pm size = (0, pm) ∧ ∀ r ∈ pm.freeRanges.nodes, r.size < roundup size) ∨
    ∃ r f u, valloc pm size = (r.vaddr, ⟨f, u, pm.refused⟩) ∧
      Carve pm.freeRanges.nodes f.nodes pm.usedRanges.nodes u.nodes r ⟨r.vaddr, roundup size⟩ := by
  have rounded := roundup_pos positive
  unfold valloc
  rw [if_neg (by omega), alignUp_roundup bound]
  dsimp only
  split
  · rename_i none
    exact .inl ⟨rfl, fun r member => by rw [none] at member; cases member⟩
  · split
    · rename_i missing
      refine .inl ⟨rfl, fun r member => ?_⟩
      simpa using List.find?_eq_none.mp missing r member
    · rename_i r found
      right
      have member := List.mem_of_find?_eq_some found
      have fits : roundup size ≤ r.size := by simpa using List.find?_some found
      split
      · rename_i same
        obtain ⟨d, inserted, carve⟩ := carve_whole tiling.tiles tiling.sound_used member (by omega)
        refine ⟨r, pm.freeRanges.remove r, d, ?_, ?_⟩
        · simp only [Ranges.removeFree, Ranges.insertUsed, inserted]
        · rw [← same]
          exact carve
      · rename_i different
        obtain ⟨s, d, kept, inserted, carve⟩ := carve_start tiling.tiles tiling.sound_free
          tiling.sound_used member rounded (Nat.lt_of_le_of_ne fits (Ne.symm different))
        refine ⟨r, s, d, ?_, carve⟩
        simp only [Ranges.removeFree, Ranges.insertFree, Ranges.insertUsed, kept, inserted]

/-- A release in a tiled address space gives back the rounded interval when one
used range holds all of it, and does nothing otherwise. -/
theorem vfree_cases (tiling : Tiling w pm) {vaddr size : Nat} (aligned : pageSize ∣ vaddr)
    (positive : 1 ≤ size) (bound : vaddr + roundup size < 2 ^ 64) :
    vfree pm vaddr size = (0, pm) ∨
    ∃ code r f u, 0 < code ∧ vfree pm vaddr size = (code, ⟨f, u, pm.refused⟩) ∧
      Carve pm.usedRanges.nodes u.nodes pm.freeRanges.nodes f.nodes r ⟨vaddr, roundup size⟩ := by
  have rounded := roundup_pos positive
  have fits := le_roundup size
  have grain : size + 4095 < 2 ^ 64 := by
    unfold roundup at bound
    omega
  unfold vfree
  rw [if_neg (by simpa using (isAligned_page vaddr).mpr aligned), alignUp_roundup grain]
  dsimp only
  split
  · exact .inl rfl
  · rename_i r found
    obtain ⟨member, inside⟩ := tiling.sound_used.find_some found
    have limits := tiling.sound_used r member
    rw [wadd_eq limits.2, wadd_eq bound]
    split
    · exact .inl rfl
    · rename_i enough
      right
      split
      · rename_i start
        subst start
        split
        · rename_i same
          obtain ⟨d, inserted, carve⟩ := carve_whole tiling.swapped tiling.sound_free member limits.1
          refine ⟨1, r, d, pm.usedRanges.remove r, by decide, ?_, ?_⟩
          · simp only [Ranges.removeUsed, Ranges.insertFree, inserted]
          · rw [← same]
            exact carve
        · obtain ⟨s, d, kept, inserted, carve⟩ := carve_start tiling.swapped tiling.sound_used
            tiling.sound_free member rounded (by omega)
          refine ⟨2, r, d, s, by decide, ?_, carve⟩
          simp only [Ranges.removeUsed, Ranges.insertFree, Ranges.insertUsed, kept, inserted]
      · rename_i later
        have low : r.vaddr < vaddr := Nat.lt_of_le_of_ne inside.1 later
        obtain ⟨p, s, d, first, rest, inserted, carve⟩ := carve_middle tiling.swapped
          tiling.sound_used tiling.sound_free member rounded low (by omega)
        refine ⟨3, r, d, s, by decide, ?_, carve⟩
        have pre : 0 < wsub vaddr r.vaddr := by
          rw [wsub_eq (by omega) low.le]
          omega
        simp only [Ranges.removeUsed, Ranges.insertFree, inserted, if_pos pre, Ranges.insertUsed, first]
        rw [insertRest, wadd_eq bound] at rest
        split at rest
        · rename_i post
          simp only [if_pos post, rest]
        · rename_i post
          simp only [if_neg post, Option.some.inj rest]

end Calls

end EvalynOS.Vma
