import Mathlib

/-! An ordered search tree over a three-way comparator, seen as the sequence of
its nodes in order. The balancing of a concrete tree is invisible here: a lookup
returns a node that compares equal, and an insertion is refused exactly when
some node already compares equal to the new one. -/
namespace Lib

/-- A comparator together with the key that orders the nodes. Nodes of equal key
must compare equal, or an insertion could not keep the order. -/
structure Comparator (α : Type) where
  compare : α → α → Ordering
  key : α → Nat

structure SearchTree {α : Type} (c : Comparator α) where
  nodes : List α
  ordered : nodes.Pairwise (fun a b => c.key a ≤ c.key b)

namespace SearchTree

variable {α : Type} {c : Comparator α}

instance [DecidableEq α] : DecidableEq (SearchTree c) := fun s t =>
  decidable_of_iff (s.nodes = t.nodes) (by cases s; cases t; simp)

def empty (c : Comparator α) : SearchTree c := ⟨[], .nil⟩

def singleton (c : Comparator α) (a : α) : SearchTree c := ⟨[a], List.pairwise_singleton _ a⟩

def byKey (c : Comparator α) (a b : α) : Prop := c.key a ≤ c.key b

instance (c : Comparator α) : DecidableRel (byKey c) := fun a b => Nat.decLe (c.key a) (c.key b)
instance (c : Comparator α) : Std.Total (byKey c) := ⟨fun a b => Nat.le_total (c.key a) (c.key b)⟩
instance (c : Comparator α) : IsTrans α (byKey c) := ⟨fun _ _ _ => Nat.le_trans⟩

def find (t : SearchTree c) (a : α) : Option α :=
  t.nodes.find? (fun e => c.compare a e = .eq)

/-- The refused insertion is `none`; the tree is then left as it was. -/
def insert (t : SearchTree c) (a : α) : Option (SearchTree c) :=
  if t.nodes.any (fun e => c.compare a e = .eq) then none
  else some ⟨t.nodes.orderedInsert (byKey c) a, t.ordered.orderedInsert a⟩

def remove [DecidableEq α] (t : SearchTree c) (a : α) : SearchTree c :=
  ⟨t.nodes.erase a, t.ordered.sublist List.erase_sublist⟩

theorem find_some {t : SearchTree c} {a e : α} (found : t.find a = some e) :
    e ∈ t.nodes ∧ c.compare a e = .eq := by
  have equal := List.find?_some found
  exact ⟨List.mem_of_find?_eq_some found, of_decide_eq_true equal⟩

theorem find_none {t : SearchTree c} {a : α} :
    t.find a = none ↔ ∀ e ∈ t.nodes, c.compare a e ≠ .eq := by
  simp [find, List.find?_eq_none]

theorem insert_some {t : SearchTree c} {a : α} (apart : ∀ e ∈ t.nodes, c.compare a e ≠ .eq) :
    ∃ t', t.insert a = some t' ∧ t'.nodes.Perm (a :: t.nodes) := by
  have fresh : ¬ t.nodes.any (fun e => c.compare a e = .eq) = true := by
    simpa using apart
  refine ⟨_, if_neg fresh, ?_⟩
  exact List.perm_orderedInsert (byKey c) a t.nodes

theorem insert_eq_some {t t' : SearchTree c} {a : α} (inserted : t.insert a = some t') :
    (∀ e ∈ t.nodes, c.compare a e ≠ .eq) ∧ t'.nodes.Perm (a :: t.nodes) := by
  unfold insert at inserted
  split at inserted
  case isTrue => cases inserted
  case isFalse fresh =>
    cases Option.some.inj inserted
    exact ⟨by simpa using fresh, List.perm_orderedInsert (byKey c) a t.nodes⟩

theorem remove_perm [DecidableEq α] {t : SearchTree c} {a : α} (member : a ∈ t.nodes) :
    t.nodes.Perm (a :: (t.remove a).nodes) := List.perm_cons_erase member

end SearchTree

end Lib
