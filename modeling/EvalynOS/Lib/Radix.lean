import Mathlib

/-! Radix trees given by the partial function that reads an entry of a table. A path of
indices leads from the root to a table; the tree is separated when no two paths lead
to the same one, and then a change of one entry touches only the paths through it. -/
namespace Lib

variable {α ι : Type} {child child' : α → ι → Option α} {root : α}

def descend (child : α → ι → Option α) (t : α) : List ι → Option α
  | [] => some t
  | i :: path => (child t i).bind (fun t' => descend child t' path)

theorem descend_append (t : α) (left right : List ι) :
    descend child t (left ++ right) = (descend child t left).bind (fun t' => descend child t' right) := by
  induction left generalizing t with
  | nil => rfl
  | cons i left ih =>
    simp only [List.cons_append, descend]
    cases child t i with
    | none => rfl
    | some t' => exact ih t'

theorem descend_snoc (t : α) (path : List ι) (i : ι) :
    descend child t (path ++ [i]) = (descend child t path).bind (fun t' => child t' i) := by
  rw [descend_append]
  congr
  funext t'
  simp [descend]

/-- A lookup depends only on the entries it passes. -/
theorem descend_congr {path : List ι}
    (agree : ∀ before i after t, path = before ++ i :: after → descend child root before = some t →
      child' t i = child t i) : descend child' root path = descend child root path := by
  induction path generalizing root with
  | nil => rfl
  | cons i path ih =>
    simp only [descend]
    rw [agree [] i path root rfl rfl]
    cases link : child root i with
    | none => rfl
    | some t =>
      apply ih
      intro before j after u split reached
      apply agree (i :: before) j after u (by rw [split, List.cons_append])
      simp only [descend, link, Option.bind_some]
      exact reached

/-- A lookup that finds something found it before, if no entry on its way is new. -/
theorem descend_of_sub {path : List ι} {t : α}
    (sub : ∀ before i after u n, path = before ++ i :: after → descend child root before = some u →
      child' u i = some n → child u i = some n) (found : descend child' root path = some t) :
    descend child root path = some t := by
  induction path generalizing root with
  | nil => exact found
  | cons i path ih =>
    simp only [descend, Option.bind_eq_some_iff] at found
    obtain ⟨n, link, rest⟩ := found
    have old := sub [] i path root n rfl rfl link
    simp only [descend, old, Option.bind_some]
    apply ih _ rest
    intro before j after u m split reached
    apply sub (i :: before) j after u m (by rw [split, List.cons_append])
    simp only [descend, old, Option.bind_some]
    exact reached

def PathClosed (valid : List ι → Prop) : Prop := ∀ path rest, valid (path ++ rest) → valid path

/-- No table is reached along two paths. -/
def Separated (child : α → ι → Option α) (root : α) (valid : List ι → Prop) : Prop :=
  ∀ left right t, valid left → valid right → descend child root left = some t →
    descend child root right = some t → left = right

/-- The tables of the tree agree on every entry but one. -/
def AgreeBut (child child' : α → ι → Option α) (root : α) (valid : List ι → Prop) (t : α) (i : ι) : Prop :=
  ∀ path u j, valid (path ++ [j]) → descend child root path = some u → ¬ (u = t ∧ j = i) →
    child' u j = child u j

section Update

variable {valid : List ι → Prop} {path other : List ι} {t n : α} {i : ι}

theorem Separated.untouched (closed : PathClosed valid) (separated : Separated child root valid)
    (agree : AgreeBut child child' root valid t i) (validPath : valid path)
    (here : descend child root path = some t) (validOther : valid other)
    (outside : ¬ (path ++ [i]) <+: other) : descend child' root other = descend child root other := by
  apply descend_congr
  intro before j after u split reached
  have step : other = (before ++ [j]) ++ after := by
    rw [split, List.append_assoc]
    rfl
  have validStep : valid (before ++ [j]) := closed _ after (step ▸ validOther)
  apply agree before u j validStep reached
  rintro ⟨rfl, rfl⟩
  have same := separated before path u (closed _ [j] validStep) validPath reached here
  exact outside ⟨after, by rw [← same, step]⟩

/-- A fresh, empty table `n` in place of a missing entry. -/
structure Attached (child child' : α → ι → Option α) (root : α) (valid : List ι → Prop)
    (path : List ι) (t : α) (i : ι) (n : α) : Prop where
  agree : AgreeBut child child' root valid t i
  here : descend child root path = some t
  missing : child t i = none
  entry : child' t i = some n
  empty : ∀ j, valid (path ++ [i, j]) → child' n j = none
  fresh : ∀ other, valid other → descend child root other ≠ some n

theorem Attached.lookup [DecidableEq ι] (attached : Attached child child' root valid path t i n)
    (closed : PathClosed valid) (separated : Separated child root valid)
    (validHere : valid (path ++ [i])) (validOther : valid other) :
    descend child' root other =
      if other = path ++ [i] then some n else descend child root other := by
  have validPath := closed path [i] validHere
  have old : descend child root (path ++ [i]) = none := by
    rw [descend_snoc, attached.here, Option.bind_some, attached.missing]
  have toParent : descend child' root path = some t := by
    rw [separated.untouched closed attached.agree validPath attached.here validPath, attached.here]
    exact fun extends_ => absurd extends_.length_le (by simp)
  have new : descend child' root (path ++ [i]) = some n := by
    rw [descend_snoc, toParent, Option.bind_some, attached.entry]
  by_cases through : (path ++ [i]) <+: other
  · obtain ⟨rest, rfl⟩ := through
    cases rest with
    | nil =>
      rw [List.append_nil, if_pos rfl, new]
    | cons j rest =>
      have longer : path ++ [i] ++ j :: rest ≠ path ++ [i] := by simp
      have validNext : valid (path ++ [i, j]) := by
        apply closed _ rest
        simpa using validOther
      rw [if_neg longer, descend_append root (path ++ [i]), new, descend_append root (path ++ [i]), old]
      simp only [Option.bind_some, Option.bind_none, descend, attached.empty j validNext]
  · have different : other ≠ path ++ [i] := by
      rintro rfl
      exact through (List.prefix_refl _)
    rw [if_neg different]
    exact separated.untouched closed attached.agree validPath attached.here validOther through

theorem Attached.separated [DecidableEq ι] (attached : Attached child child' root valid path t i n)
    (closed : PathClosed valid) (separated : Separated child root valid)
    (validHere : valid (path ++ [i])) : Separated child' root valid := by
  intro left right u validLeft validRight toLeft toRight
  rw [attached.lookup closed separated validHere validLeft] at toLeft
  rw [attached.lookup closed separated validHere validRight] at toRight
  split at toLeft
  · rename_i isLeft
    split at toRight
    · rename_i isRight
      exact isLeft.trans isRight.symm
    · cases Option.some.inj toLeft
      exact absurd toRight (attached.fresh right validRight)
  · split at toRight
    · cases Option.some.inj toRight
      exact absurd toLeft (attached.fresh left validLeft)
    · exact separated left right u validLeft validRight toLeft toRight

end Update

/-! All that hangs below some entries of a table, each node after what hangs below it. -/

section Postorder

variable {indices : List ι}

def postorder (child : α → ι → Option α) (indices : List ι) : Nat → α → List ι → List α
  | 0, _, _ => []
  | n + 1, t, first => first.flatMap (fun i =>
    match child t i with
    | none => []
    | some c => postorder child indices n c indices ++ [c])

/-- A path that starts with one of the given indices. -/
def Starts (indices first : List ι) : List ι → Prop
  | [] => False
  | i :: rest => i ∈ first ∧ ∀ j ∈ rest, j ∈ indices

theorem Starts.cons {first path : List ι} {i : ι} (inFirst : i ∈ first)
    (starts : Starts indices indices path) : Starts indices first (i :: path) := by
  refine ⟨inFirst, ?_⟩
  cases path with
  | nil => exact starts.elim
  | cons j rest =>
    intro k member
    rcases List.mem_cons.mp member with rfl | later
    · exact starts.1
    · exact starts.2 k later

theorem mem_postorder {n : Nat} {t c : α} {first : List ι} :
    c ∈ postorder child indices n t first ↔
      ∃ path, Starts indices first path ∧ path.length ≤ n ∧ descend child t path = some c := by
  induction n generalizing t first with
  | zero =>
    refine ⟨fun member => absurd member List.not_mem_nil, ?_⟩
    rintro ⟨path, starts, short, _⟩
    rw [List.length_eq_zero_iff.mp (Nat.le_zero.mp short)] at starts
    exact starts.elim
  | succ n ih =>
    rw [postorder, List.mem_flatMap]
    constructor
    · rintro ⟨i, inFirst, member⟩
      cases link : child t i with
      | none =>
        rw [link] at member
        cases member
      | some d =>
        rw [link] at member
        rcases List.mem_append.mp member with below | here
        · obtain ⟨path, starts, short, reached⟩ := ih.mp below
          refine ⟨i :: path, starts.cons inFirst, Nat.succ_le_succ short, ?_⟩
          simp only [descend, link, Option.bind_some]
          exact reached
        · cases List.mem_singleton.mp here
          exact ⟨[i], ⟨inFirst, fun _ none => absurd none List.not_mem_nil⟩, Nat.succ_le_succ (Nat.zero_le n),
            by simp only [descend, link, Option.bind_some]⟩
    · rintro ⟨path, starts, short, reached⟩
      cases path with
      | nil => exact starts.elim
      | cons i rest =>
        refine ⟨i, starts.1, ?_⟩
        cases link : child t i with
        | none =>
          simp only [descend, link, Option.bind_none] at reached
          cases reached
        | some d =>
          simp only [descend, link, Option.bind_some] at reached
          cases rest with
          | nil =>
            cases Option.some.inj reached
            exact List.mem_append_right _ List.mem_cons_self
          | cons j rest =>
            apply List.mem_append_left
            exact ih.mpr ⟨j :: rest, ⟨starts.2 j List.mem_cons_self,
              fun k later => starts.2 k (List.mem_cons_of_mem _ later)⟩, Nat.le_of_succ_le_succ short, reached⟩

/-- What satisfies `keep` is listed once when no two paths lead to it. -/
theorem nodup_postorder {keep : α → Bool} (nodup : indices.Nodup) {n : Nat} {t : α} {first : List ι}
    (nodupFirst : first.Nodup)
    (unique : ∀ left right c, keep c = true → Starts indices first left → Starts indices first right →
      left.length ≤ n → right.length ≤ n → descend child t left = some c →
      descend child t right = some c → left = right) :
    ((postorder child indices n t first).filter keep).Nodup := by
  induction n generalizing t first with
  | zero => exact List.nodup_nil
  | succ n ih =>
    rw [postorder, List.filter_flatMap, List.nodup_flatMap]
    constructor
    · intro i inFirst
      cases link : child t i with
      | none => exact List.nodup_nil
      | some d =>
        have step : ∀ path, descend child t (i :: path) = descend child d path := by
          intro path
          simp only [descend, link, Option.bind_some]
        simp only [List.filter_append]
        rw [List.nodup_append]
        refine ⟨?_, (List.nodup_singleton d).filter _, ?_⟩
        · apply ih nodup
          intro left right c kept startsLeft startsRight shortLeft shortRight toLeft toRight
          have same := unique (i :: left) (i :: right) c kept (startsLeft.cons inFirst) (startsRight.cons inFirst)
            (Nat.succ_le_succ shortLeft) (Nat.succ_le_succ shortRight) ((step left).trans toLeft)
            ((step right).trans toRight)
          exact (List.cons.inj same).2
        · rintro c below d' here rfl
          obtain ⟨isNode, kept⟩ := List.mem_filter.mp here
          cases List.mem_singleton.mp isNode
          obtain ⟨path, starts, short, reached⟩ := mem_postorder.mp (List.mem_filter.mp below).1
          have same := unique [i] (i :: path) _ kept ⟨inFirst, fun _ none => absurd none List.not_mem_nil⟩
            (starts.cons inFirst) (Nat.succ_le_succ (Nat.zero_le n)) (Nat.succ_le_succ short)
            ((step []).trans rfl) ((step path).trans reached)
          cases path with
          | nil => exact starts
          | cons j rest => cases same
    · apply nodupFirst.imp_of_mem
      intro i j inI inJ different c belowI belowJ
      have through : ∀ k, k ∈ first → c ∈ (match child t k with
          | none => []
          | some d => postorder child indices n d indices ++ [d]).filter keep →
          keep c = true ∧ ∃ path, Starts indices first (k :: path) ∧ (k :: path).length ≤ n + 1 ∧
            descend child t (k :: path) = some c := by
        intro k inK member
        obtain ⟨below, kept⟩ := List.mem_filter.mp member
        have listed : c ∈ postorder child indices (n + 1) t [k] := by
          rw [postorder, List.flatMap_cons, List.flatMap_nil, List.append_nil]
          exact below
        obtain ⟨path, starts, short, reached⟩ := mem_postorder.mp listed
        cases path with
        | nil => exact starts.elim
        | cons l rest =>
          cases List.mem_singleton.mp starts.1
          exact ⟨kept, rest, ⟨inK, starts.2⟩, short, reached⟩
      obtain ⟨kept, left, startsLeft, shortLeft, toLeft⟩ := through i inI belowI
      obtain ⟨_, right, startsRight, shortRight, toRight⟩ := through j inJ belowJ
      have same := unique _ _ c kept startsLeft startsRight shortLeft shortRight toLeft toRight
      exact different (List.cons.inj same).1

end Postorder

end Lib
