import EvalynOS.Lib.PrefixCode
import EvalynOS.Kgz.Bitstream

/-! The Huffman trees of deps/kgz_singleheader.h: their nodes and the arena they lie in. The
nodes of a tree are the beginnings of the codewords that it holds, in the order in which
they were made. -/
namespace EvalynOS.Kgz
open Lib

/- A function gives up, it goes outside of an array, or a loop needs more rounds than it has
been given here. -/
inductive Stop where
  | failed
  | fault
  | endless
  deriving DecidableEq, Repr

/- kgz_arena_t. Only the size of what lies in the buffer matters here. -/
structure Arena where
  buffer : Option Nat
  capacity : Nat
  offset : Nat
  deriving DecidableEq, Repr

def arenaInit (malloc : Option Nat) (capacity : Nat) : Arena :=
  match malloc with
  | none => ⟨none, 0, 0⟩
  | some buffer => ⟨some buffer, capacity, 0⟩

def Arena.reset (arena : Arena) : Arena := { arena with offset := 0 }

/- kgz_arena_allocate, with an alignment that is a power of two. -/
def Arena.allocate (arena : Arena) (size alignment : Nat) : Option Arena :=
  match arena.buffer with
  | none => none
  | some base =>
    let current := (base + arena.offset) % 2 ^ 64
    let aligned := (current + alignment - 1) % 2 ^ 64 / alignment * alignment
    let newOffset := (aligned + (2 ^ 64 - base) + size) % 2 ^ 64
    if arena.capacity < newOffset then none else some { arena with offset := newOffset }

/- huffman_cache_entry_t: a length of -1 means that the tree must be walked. -/
structure CacheEntry where
  symbol : Nat
  length : Int
  deriving DecidableEq, Repr

/- huffman_node_t. The symbol of a node lies in the low half of its first index. -/
structure HuffmanNode where
  isSymbol : Bool
  zeroIndex : Int
  oneIndex : Int
  deriving DecidableEq, Repr

namespace HuffmanNode

def child (node : HuffmanNode) (bit : Bool) : Int := if bit then node.oneIndex else node.zeroIndex

def setChild (node : HuffmanNode) (bit : Bool) (index : Int) : HuffmanNode :=
  if bit then { node with oneIndex := index } else { node with zeroIndex := index }

def symbol (node : HuffmanNode) : Nat := (node.zeroIndex % 65536).toNat

def setSymbol (node : HuffmanNode) (symbol : Nat) : HuffmanNode :=
  { node with isSymbol := true, zeroIndex := node.zeroIndex - node.zeroIndex % 65536 + symbol }

theorem setChild_child (node : HuffmanNode) (bit bit' : Bool) (index : Int) :
    (node.setChild bit index).child bit' = if bit' = bit then index else node.child bit' := by
  cases bit <;> cases bit' <;> rfl

@[simp] theorem setChild_isSymbol (node : HuffmanNode) (bit : Bool) (index : Int) :
    (node.setChild bit index).isSymbol = node.isSymbol := by
  cases bit <;> rfl

theorem setSymbol_symbol (node : HuffmanNode) {s : Nat} (small : s < 65536) : (node.setSymbol s).symbol = s := by
  change ((node.zeroIndex - node.zeroIndex % 65536 + s) % 65536).toNat = s
  omega

end HuffmanNode

/- kgz_huffman_tree_t; nodes_count is the length of the list. -/
structure HuffmanTree where
  table : List CacheEntry
  rootIndex : Int
  nodes : List HuffmanNode
  nodesCapacity : Nat
  deriving DecidableEq, Repr

namespace HuffmanTree

def getNode (tree : HuffmanTree) (index : Int) : Option HuffmanNode :=
  if index < 0 then none else tree.nodes[index.toNat]?

/- alloc_new_node; none stands for the answer -1. -/
def allocNewNode (tree : HuffmanTree) (arena : Arena) : Option (Int × HuffmanTree × Arena) :=
  let new : HuffmanNode := ⟨false, -1, -1⟩
  if tree.nodesCapacity ≤ tree.nodes.length then
    let newCapacity := if tree.nodesCapacity = 0 then 16 else tree.nodesCapacity * 2
    match arena.allocate (12 * newCapacity) 8 with
    | none => none
    | some arena =>
      some (tree.nodes.length, { tree with nodes := tree.nodes ++ [new], nodesCapacity := newCapacity }, arena)
  else some (tree.nodes.length, { tree with nodes := tree.nodes ++ [new] }, arena)

def setNode (tree : HuffmanTree) (index : Int) (node : HuffmanNode) : HuffmanTree :=
  { tree with nodes := tree.nodes.set index.toNat node }

/- The loop of insert_code from the node it has reached, for the low bits of the code. -/
def insertCode (code symbol : Nat) : Nat → HuffmanTree → Arena → Int → Except Stop (HuffmanTree × Arena)
  | 0, tree, arena, current =>
    match tree.getNode current with
    | none => .error .fault
    | some node => .ok (tree.setNode current (node.setSymbol symbol), arena)
  | i + 1, tree, arena, current =>
    match tree.getNode current with
    | none => .error .fault
    | some node =>
      if node.child (code.testBit i) = -1 then
        match tree.allocNewNode arena with
        | none => .error .failed
        | some (new, tree, arena) =>
          insertCode code symbol i (tree.setNode current (node.setChild (code.testBit i) new)) arena new
      else insertCode code symbol i tree arena (node.child (code.testBit i))

end HuffmanTree

section Arenas

variable {arena : Arena} {base size : Nat}

/-- An allocation takes its size and at most seven bytes in front of it. -/
theorem Arena.allocate_fits (buffer : arena.buffer = some base) (inside : base + arena.capacity ≤ 2 ^ 64)
    (bound : arena.capacity < 2 ^ 64) (positive : 0 < size) (fits : arena.offset + 7 + size ≤ arena.capacity) :
    ∃ offset, arena.allocate size 8 = some { arena with offset := offset } ∧ offset ≤ arena.offset + 7 + size := by
  have here : (base + arena.offset) % 2 ^ 64 = base + arena.offset := Nat.mod_eq_of_lt (by omega)
  have up : (base + arena.offset + 8 - 1) % 2 ^ 64 = base + arena.offset + 7 := by
    rw [Nat.add_sub_assoc (by decide)]
    exact Nat.mod_eq_of_lt (by omega)
  have low : base ≤ (base + arena.offset + 7) / 8 * 8 := by omega
  have high : (base + arena.offset + 7) / 8 * 8 ≤ base + arena.offset + 7 := Nat.div_mul_le_self _ 8
  have offset : ((base + arena.offset + 7) / 8 * 8 + (2 ^ 64 - base) + size) % 2 ^ 64 =
      (base + arena.offset + 7) / 8 * 8 - base + size := by
    have turn : (base + arena.offset + 7) / 8 * 8 + (2 ^ 64 - base) + size =
        (base + arena.offset + 7) / 8 * 8 - base + size + 2 ^ 64 := by
      omega
    rw [turn, Nat.add_mod_right]
    exact Nat.mod_eq_of_lt (by omega)
  refine ⟨(base + arena.offset + 7) / 8 * 8 - base + size, ?_, by omega⟩
  simp only [Arena.allocate, buffer, here, up, offset]
  rw [if_neg (by omega)]

end Arenas

/-! The tree as the list of the beginnings that its nodes stand for. -/

section Growth

variable {lens : List Nat} {k : Nat} {paths : List (List Bool)} {path new : List Bool} {nodes : List HuffmanNode}

/-- The index of the node of a beginning. -/
def place (paths : List (List Bool)) (path : List Bool) : Int :=
  if path ∈ paths then (paths.idxOf path : Int) else -1

theorem place_mem (member : path ∈ paths) : place paths path = (paths.idxOf path : Int) := if_pos member

theorem place_eq_neg (missing : path ∉ paths) : place paths path = -1 := if_neg missing

theorem place_ne_neg (member : path ∈ paths) : place paths path ≠ -1 := by
  rw [place_mem member]
  omega

theorem place_snoc (other : path ≠ new) : place (paths ++ [new]) path = place paths path := by
  by_cases member : path ∈ paths
  · rw [place_mem member, place_mem (List.mem_append_left _ member), List.idxOf_append_of_mem member]
  · rw [place_eq_neg member, place_eq_neg]
    intro within
    rcases List.mem_append.mp within with old | here
    · exact member old
    · exact other (List.mem_singleton.mp here)

theorem place_new (fresh : new ∉ paths) : place (paths ++ [new]) new = (paths.length : Int) := by
  rw [place_mem (List.mem_append_right _ (List.mem_singleton_self new)), List.idxOf_append_of_notMem fresh]
  simp

/-- The tree with these nodes holds the codewords of the first k symbols. -/
structure Grown (lens : List Nat) (k : Nat) (paths : List (List Bool)) (nodes : List HuffmanNode) : Prop where
  root : paths[0]? = some []
  distinct : paths.Nodup
  begins : ∀ path ∈ paths, path ≠ [] → ∃ s, 0 < lens.getD s 0 ∧ path <+: codeword lens s
  closed : ∀ path b, path ++ [b] ∈ paths → path ∈ paths
  held : ∀ s, s < k → 0 < lens.getD s 0 → codeword lens s ∈ paths
  size : nodes.length = paths.length
  inner : ∀ path ∈ paths, (∀ s, s < k → 0 < lens.getD s 0 → codeword lens s ≠ path) →
    ∃ node, nodes[paths.idxOf path]? = some node ∧ node.isSymbol = false ∧
      ∀ b, node.child b = place paths (path ++ [b])
  leaf : ∀ s, s < k → 0 < lens.getD s 0 → ∃ node, nodes[paths.idxOf (codeword lens s)]? = some node ∧
    node.isSymbol = true ∧ node.symbol = s

theorem Grown.root_mem (grown : Grown lens k paths nodes) : [] ∈ paths := List.mem_of_getElem? grown.root

theorem Grown.root_idx (grown : Grown lens k paths nodes) : paths.idxOf [] = 0 := by
  obtain ⟨inside, here⟩ := List.getElem?_eq_some_iff.mp grown.root
  rw [← here]
  exact grown.distinct.idxOf_getElem 0 inside

theorem idxOf_inj {other : List Bool} (member : path ∈ paths) (same : paths.idxOf path = paths.idxOf other) :
    path = other := (List.idxOf_inj member).mp same

/-- A node is made for a beginning that had none, below the node of the one before it. -/
theorem Grown.attach (grown : Grown lens k paths nodes) {b : Bool} {s : Nat} {node : HuffmanNode}
    (member : path ∈ paths) (named : 0 < lens.getD s 0) (begins : path ++ [b] <+: codeword lens s)
    (open_ : ∀ s, s < k → 0 < lens.getD s 0 → codeword lens s ≠ path) (missing : path ++ [b] ∉ paths)
    (here : nodes[paths.idxOf path]? = some node) :
    Grown lens k (paths ++ [path ++ [b]])
      ((nodes ++ [HuffmanNode.mk false (-1) (-1)]).set (paths.idxOf path) (node.setChild b nodes.length)) := by
  have idx : ∀ other ∈ paths, (paths ++ [path ++ [b]]).idxOf other = paths.idxOf other :=
    fun other inside => List.idxOf_append_of_mem inside
  have low : ∀ other ∈ paths, paths.idxOf other < nodes.length := by
    intro other inside
    rw [grown.size]
    exact List.idxOf_lt_length_of_mem inside
  obtain ⟨node', here', plain, children⟩ := grown.inner path member open_
  cases Option.some.inj (here.symm.trans here')
  refine ⟨?_, ?_, ?_, ?_, ?_, ?_, ?_, ?_⟩
  · rw [List.getElem?_append_left (List.length_pos_of_mem member), grown.root]
  · rw [List.nodup_append]
    refine ⟨grown.distinct, List.nodup_singleton _, ?_⟩
    rintro other inside last_ isNew rfl
    exact missing (List.mem_singleton.mp isNew ▸ inside)
  · intro other inside nonempty
    rcases List.mem_append.mp inside with old | isNew
    · exact grown.begins other old nonempty
    · rw [List.mem_singleton.mp isNew]
      exact ⟨s, named, begins⟩
  · intro other c inside
    apply List.mem_append_left
    rcases List.mem_append.mp inside with old | isNew
    · exact grown.closed other c old
    · rw [(List.append_inj' (List.mem_singleton.mp isNew) rfl).1]
      exact member
  · intro s' before named'
    exact List.mem_append_left _ (grown.held s' before named')
  · simp only [List.length_set, List.length_append, List.length_singleton, grown.size]
  · intro other inside other_open
    rcases List.mem_append.mp inside with old | isNew
    · rw [idx other old]
      by_cases same : other = path
      · subst same
        rw [List.getElem?_set_self (by rw [List.length_append]; exact Nat.lt_add_right _ (low other old))]
        refine ⟨_, rfl, by rw [HuffmanNode.setChild_isSymbol, plain], ?_⟩
        intro c
        rw [HuffmanNode.setChild_child]
        split
        · rename_i equal
          rw [equal, place_new missing, grown.size]
        · rename_i different
          rw [children c, place_snoc]
          intro equal
          exact different (List.singleton_inj.mp (List.append_inj' equal rfl).2)
      · obtain ⟨found, there, inner, below⟩ := grown.inner other old other_open
        have apart : paths.idxOf path ≠ paths.idxOf other := fun equal => same (idxOf_inj member equal).symm
        rw [List.getElem?_set_ne apart, List.getElem?_append_left (low other old)]
        refine ⟨found, there, inner, ?_⟩
        intro c
        rw [below c, place_snoc]
        intro equal
        exact same (List.append_inj' equal rfl).1
    · have isNew := List.mem_singleton.mp isNew
      subst isNew
      have last_ : (paths ++ [path ++ [b]]).idxOf (path ++ [b]) = nodes.length := by
        rw [List.idxOf_append_of_notMem missing, grown.size]
        simp
      rw [last_, List.getElem?_set_ne (Nat.ne_of_lt (low path member)), List.getElem?_append_right (Nat.le_refl _),
        Nat.sub_self]
      refine ⟨_, rfl, rfl, ?_⟩
      intro c
      have beyond : path ++ [b] ++ [c] ∉ paths ++ [path ++ [b]] := by
        intro within
        rcases List.mem_append.mp within with old | isNew
        · exact missing (grown.closed _ c old)
        · have sizes := congrArg List.length (List.mem_singleton.mp isNew)
          simp at sizes
      rw [place_eq_neg beyond]
      cases c <;> rfl
  · intro s' before named'
    have old := grown.held s' before named'
    obtain ⟨found, there, isSymbol⟩ := grown.leaf s' before named'
    have apart : paths.idxOf path ≠ paths.idxOf (codeword lens s') :=
      fun equal => open_ s' before named' (idxOf_inj member equal).symm
    rw [idx _ old, List.getElem?_set_ne apart, List.getElem?_append_left (low _ old)]
    exact ⟨found, there, isSymbol⟩

/-- The node at the end of a codeword becomes that of the symbol. -/
theorem Grown.mark (grown : Grown lens k paths nodes) {width : Nat} {node : HuffmanNode} (kraft : Kraft lens width)
    (named : 0 < lens.getD k 0) (small : k < 65536) (member : codeword lens k ∈ paths)
    (here : nodes[paths.idxOf (codeword lens k)]? = some node) :
    Grown lens (k + 1) paths (nodes.set (paths.idxOf (codeword lens k)) (node.setSymbol k)) := by
  have inside : paths.idxOf (codeword lens k) < nodes.length := (List.getElem?_eq_some_iff.mp here).1
  refine ⟨grown.root, grown.distinct, grown.begins, grown.closed, ?_, ?_, ?_, ?_⟩
  · intro s before named'
    rcases Nat.lt_succ_iff_lt_or_eq.mp before with earlier | rfl
    · exact grown.held s earlier named'
    · exact member
  · rw [List.length_set, grown.size]
  · intro path within open_
    have apart : paths.idxOf (codeword lens k) ≠ paths.idxOf path :=
      fun equal => open_ k (Nat.lt_succ_self k) named (idxOf_inj member equal)
    rw [List.getElem?_set_ne apart]
    exact grown.inner path within (fun s before => open_ s (Nat.lt_succ_of_lt before))
  · intro s before named'
    rcases Nat.lt_succ_iff_lt_or_eq.mp before with earlier | rfl
    · have apart : paths.idxOf (codeword lens k) ≠ paths.idxOf (codeword lens s) := by
        intro equal
        have same := kraft.prefix_free named named' (idxOf_inj member equal ▸ List.prefix_refl _)
        omega
      rw [List.getElem?_set_ne apart]
      exact grown.leaf s earlier named'
    · rw [List.getElem?_set_self inside]
      exact ⟨_, rfl, rfl, node.setSymbol_symbol small⟩

/-- A symbol without a codeword changes nothing. -/
theorem Grown.skip (grown : Grown lens k paths nodes) (unnamed : lens.getD k 0 = 0) :
    Grown lens (k + 1) paths nodes := by
  have earlier : ∀ s, s < k + 1 → 0 < lens.getD s 0 → s < k := by
    intro s before named
    rcases Nat.lt_succ_iff_lt_or_eq.mp before with less | rfl
    · exact less
    · omega
  refine ⟨grown.root, grown.distinct, grown.begins, grown.closed, ?_, grown.size, ?_, ?_⟩
  · exact fun s before named => grown.held s (earlier s before named) named
  · exact fun path member open_ => grown.inner path member (fun s before => open_ s (Nat.lt_succ_of_lt before))
  · exact fun s before named => grown.leaf s (earlier s before named) named

/-- The node of a codeword's beginning is reached and has the children of the tree. -/
theorem Grown.open_of_begins (_ : Grown lens k paths nodes) {width s : Nat} (kraft : Kraft lens width)
    (later : k ≤ s) (named : 0 < lens.getD s 0) (begins : path <+: codeword lens s) :
    ∀ t, t < k → 0 < lens.getD t 0 → codeword lens t ≠ path := by
  rintro t before named' rfl
  have same := kraft.prefix_free named' named begins
  omega

end Growth

end EvalynOS.Kgz
