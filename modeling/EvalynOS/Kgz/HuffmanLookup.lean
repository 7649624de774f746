import EvalynOS.Kgz.HuffmanCreate

/-! Symbols are read with kgz_huffman_tree_lookup: the table answers for the short codewords,
the walk down the tree for the others, and both give the symbol whose codeword comes next. -/
namespace EvalynOS.Kgz
open Lib

namespace HuffmanTree

/- The loop of kgz_huffman_tree_lookup_slow. A length above 15 ends it. -/
def slowLoop (tree : HuffmanTree) (stream : Bitstream) (bits : Nat) : Nat → HuffmanNode → Nat →
    Except Stop (Option Nat × Bitstream)
  | 0, node, length =>
    if node.isSymbol then .ok (some node.symbol, stream.consume length)
    else if node.child (bits.testBit length) = -1 then .ok (none, stream.consume length)
    else .ok (none, stream.consume (length + 1))
  | rounds + 1, node, length =>
    if node.isSymbol then .ok (some node.symbol, stream.consume length)
    else if node.child (bits.testBit length) = -1 then .ok (none, stream.consume length)
    else
      match tree.getNode (node.child (bits.testBit length)) with
      | none => .error .fault
      | some next => slowLoop tree stream bits rounds next (length + 1)

def lookupSlow (tree : HuffmanTree) (stream : Bitstream) (bits : Nat) : Except Stop (Option Nat × Bitstream) :=
  match tree.getNode tree.rootIndex with
  | none => .ok (none, stream)
  | some node => slowLoop tree stream bits 15 node 0

/- kgz_huffman_tree_lookup; none stands for the answer false. -/
def lookup (tree : HuffmanTree) (stream : Bitstream) : Except Stop (Option Nat × Bitstream) :=
  let (bits, stream) := stream.peek 15
  match tree.table[bits &&& 1023]? with
  | none => .error .fault
  | some entry =>
    if 0 < entry.length then .ok (some entry.symbol, stream.consume entry.length.toNat)
    else tree.lookupSlow stream bits

end HuffmanTree

section Walk

variable {lens : List Nat} {tree : HuffmanTree} {stream : Bitstream} {paths : List (List Bool)} {path : List Bool}
  {node : HuffmanNode} {n sym : Nat}

theorem Grown.mem_of_prefix {k : Nat} {nodes : List HuffmanNode} (grown : Grown lens k paths nodes) (before : sym < k)
    (named : 0 < lens.getD sym 0) (rest : List Bool) (parts : codeword lens sym = path ++ rest) : path ∈ paths := by
  induction rest generalizing path with
  | nil =>
    rw [List.append_nil] at parts
    exact parts ▸ grown.held sym before named
  | cons b rest ih =>
    apply grown.closed path b
    apply ih
    rw [parts, List.append_assoc]
    rfl

/-- The next bit of the number is the next bit on the way down. -/
theorem next_bit {b : Bool} (begins : path ++ [b] <+: bits n 15) : n.testBit path.length = b := by
  obtain ⟨rest, parts⟩ := begins
  have size := congrArg List.length parts
  simp only [List.length_append, List.length_singleton, bits_length] at size
  have bit := bits_getD n 15 path.length
  rw [← parts, List.append_assoc, List.getD_append_right _ _ _ _ (Nat.le_refl _), Nat.sub_self,
    decide_eq_true (by omega), Bool.true_and] at bit
  exact bit.symm

/-- The walk ends at the codeword with which the number begins. -/
theorem slowLoop_found (kraft : Kraft lens 15) (grown : Grown lens lens.length paths tree.nodes)
    (named : 0 < lens.getD sym 0) (begins : codeword lens sym <+: bits n 15) (rest : List Bool) {rounds : Nat}
    (parts : codeword lens sym = path ++ rest) (enough : rest.length ≤ rounds)
    (here : tree.nodes[paths.idxOf path]? = some node) :
    tree.slowLoop stream n rounds node path.length = .ok (some sym, stream.consume (lens.getD sym 0)) := by
  have inside := named_lt named
  induction rest generalizing path rounds node with
  | nil =>
    rw [List.append_nil] at parts
    subst parts
    obtain ⟨node', here', isSymbol, symbol⟩ := grown.leaf sym inside named
    cases Option.some.inj (here.symm.trans here')
    cases rounds <;> simp only [HuffmanTree.slowLoop, isSymbol, symbol, ↓reduceIte, codeword_length]
  | cons b rest ih =>
    have parts' : codeword lens sym = (path ++ [b]) ++ rest := by
      rw [parts, List.append_assoc]
      rfl
    have within : path ++ [b] <+: codeword lens sym := ⟨rest, parts'.symm⟩
    have open_ : ∀ t, t < lens.length → 0 < lens.getD t 0 → codeword lens t ≠ path := by
      rintro t _ named' rfl
      have same := kraft.prefix_free named' named ((List.prefix_append _ [b]).trans within)
      subst same
      have sizes := congrArg List.length parts
      rw [List.length_append, List.length_cons] at sizes
      omega
    have member : path ∈ paths := grown.mem_of_prefix inside named (b :: rest) parts
    have below : path ++ [b] ∈ paths := grown.mem_of_prefix inside named rest parts'
    obtain ⟨node', here', plain, children⟩ := grown.inner path member open_
    cases Option.some.inj (here.symm.trans here')
    have bit := next_bit (within.trans begins)
    have low : paths.idxOf (path ++ [b]) < tree.nodes.length := by
      rw [grown.size]
      exact List.idxOf_lt_length_of_mem below
    have found := List.getElem?_eq_getElem low
    cases rounds with
    | zero => exact absurd enough (Nat.not_succ_le_zero _)
    | succ rounds =>
      have deeper := ih parts' (Nat.le_of_succ_le_succ enough) found
      rw [List.length_append, List.length_singleton] at deeper
      simp only [HuffmanTree.slowLoop, plain, Bool.false_eq_true, ↓reduceIte, bit, children, if_neg (place_ne_neg below),
        getNode_place below found]
      exact deeper

/-- Where no codeword begins the number, the walk ends without a symbol. -/
theorem slowLoop_missing (kraft : Kraft lens 15) (grown : Grown lens lens.length paths tree.nodes)
    (missing : ∀ s, 0 < lens.getD s 0 → ¬ codeword lens s <+: bits n 15) (rounds : Nat) (depth : path.length + rounds = 15)
    (member : path ∈ paths) (begins : path <+: bits n 15) (here : tree.nodes[paths.idxOf path]? = some node) :
    ∃ stream', tree.slowLoop stream n rounds node path.length = .ok (none, stream') := by
  have open_ : ∀ t, t < lens.length → 0 < lens.getD t 0 → codeword lens t ≠ path := by
    rintro t _ named rfl
    exact missing t named begins
  induction rounds generalizing path node with
  | zero =>
    have nonempty : path ≠ [] := by
      rintro rfl
      exact absurd depth (by decide)
    obtain ⟨s, named, within⟩ := grown.begins path member nonempty
    have short := kraft.named_le named
    rw [← codeword_length] at short
    exact absurd (within.eq_of_length_le (by omega)).symm (open_ s (named_lt named) named)
  | succ rounds ih =>
    obtain ⟨node', here', plain, children⟩ := grown.inner path member open_
    cases Option.some.inj (here.symm.trans here')
    obtain ⟨rest, parts⟩ := begins
    have size := congrArg List.length parts
    rw [List.length_append, bits_length] at size
    obtain ⟨b, rest', rfl⟩ : ∃ b rest', rest = b :: rest' := by
      cases rest with
      | nil =>
        rw [List.length_nil] at size
        omega
      | cons b rest' => exact ⟨b, rest', rfl⟩
    have begins' : path ++ [b] <+: bits n 15 := ⟨rest', by rw [← parts, List.append_assoc]; rfl⟩
    have bit := next_bit begins'
    simp only [HuffmanTree.slowLoop, plain, Bool.false_eq_true, ↓reduceIte, bit, children]
    by_cases below : path ++ [b] ∈ paths
    · have low : paths.idxOf (path ++ [b]) < tree.nodes.length := by
        rw [grown.size]
        exact List.idxOf_lt_length_of_mem below
      have found := List.getElem?_eq_getElem low
      have open' : ∀ t, t < lens.length → 0 < lens.getD t 0 → codeword lens t ≠ path ++ [b] := by
        intro t _ named equal
        exact missing t named (equal ▸ begins')
      obtain ⟨stream', deeper⟩ := ih (by rw [List.length_append, List.length_singleton]; omega) below begins' found open'
      rw [List.length_append, List.length_singleton] at deeper
      rw [if_neg (place_ne_neg below), getNode_place below found]
      exact ⟨stream', deeper⟩
    · rw [if_pos (place_eq_neg below)]
      exact ⟨_, rfl⟩

theorem Grown.root_node {k : Nat} (grown : Grown lens k paths tree.nodes) :
    ∃ node, tree.getNode 0 = some node ∧ tree.nodes[paths.idxOf []]? = some node := by
  have inside : 0 < tree.nodes.length := by
    rw [grown.size]
    exact List.length_pos_of_mem grown.root_mem
  have here := List.getElem?_eq_getElem inside
  refine ⟨_, here, ?_⟩
  rw [grown.root_idx]
  exact here

/-- The walk from the root. -/
theorem Decodes.slow_found (decodes : Decodes lens tree) (named : 0 < lens.getD sym 0)
    (begins : codeword lens sym <+: bits n 15) :
    tree.lookupSlow stream n = .ok (some sym, stream.consume (lens.getD sym 0)) := by
  obtain ⟨paths, grown⟩ := decodes.grown
  obtain ⟨node, root, here⟩ := grown.root_node
  have short := decodes.kraft.named_le named
  rw [← codeword_length] at short
  rw [HuffmanTree.lookupSlow, decodes.root, root]
  exact slowLoop_found decodes.kraft grown named begins (codeword lens sym) rfl short here

theorem Decodes.slow_missing (decodes : Decodes lens tree)
    (missing : ∀ s, 0 < lens.getD s 0 → ¬ codeword lens s <+: bits n 15) :
    ∃ stream', tree.lookupSlow stream n = .ok (none, stream') := by
  obtain ⟨paths, grown⟩ := decodes.grown
  obtain ⟨node, root, here⟩ := grown.root_node
  rw [HuffmanTree.lookupSlow, decodes.root, root]
  exact slowLoop_missing decodes.kraft grown missing 15 rfl grown.root_mem List.nil_prefix here

end Walk

section Lookup

variable {lens : List Nat} {tree : HuffmanTree} {stream : Bitstream} {rest : List Bool} {n sym : Nat}

/-- An entry of the table agrees with the walk. -/
theorem Decodes.cached (decodes : Decodes lens tree) {entry : CacheEntry} (here : tree.table[n &&& 1023]? = some entry)
    (positive : 0 < entry.length) :
    ∃ s, 0 < lens.getD s 0 ∧ entry = ⟨s, lens.getD s 0⟩ ∧ codeword lens s <+: bits n 15 := by
  obtain ⟨s, _, named, _, isEntry, begins⟩ := decodes.cache.sound _ entry here positive
  refine ⟨s, named, isEntry, begins.trans ?_⟩
  have low : n &&& 1023 = n % 2 ^ 10 := land_mask n 10
  rw [low, ← bits_take n 15 10 (by decide)]
  exact List.take_prefix _ _

theorem Decodes.entry (decodes : Decodes lens tree) (n : Nat) : ∃ entry, tree.table[n &&& 1023]? = some entry := by
  have low : n &&& 1023 < tree.table.length := by
    rw [decodes.cache.size]
    exact Nat.lt_succ_of_le Nat.and_le_right
  exact ⟨_, List.getElem?_eq_getElem low⟩

/-- The table and the walk together give what the walk alone gives. -/
theorem Decodes.lookup_eq_slow (decodes : Decodes lens tree) (stream : Bitstream) :
    tree.lookup stream = tree.lookupSlow (stream.peek 15).2 (stream.peek 15).1 := by
  obtain ⟨entry, here⟩ := decodes.entry (stream.peek 15).1
  simp only [HuffmanTree.lookup, here]
  split
  · rename_i positive
    obtain ⟨s, named, rfl, begins⟩ := decodes.cached here positive
    rw [decodes.slow_found named begins, Int.toNat_natCast]
  · rfl

/-- What comes next, with zeros behind the end of the data. -/
theorem peeked (rest : List Bool) :
    bits (number (rest.take 15)) 15 = (rest ++ List.replicate 15 false).take 15 := by
  have short : (rest.take 15).length ≤ 15 := List.length_take_le _ _
  rw [bits_number_pad short, List.length_take, List.take_append, List.take_replicate]
  congr 2
  omega

theorem begins_peeked (decodes : Decodes lens tree) (named : 0 < lens.getD sym 0) :
    codeword lens sym <+: bits (number (rest.take 15)) 15 ↔
      codeword lens sym <+: rest ++ List.replicate 15 false := by
  have short := decodes.kraft.named_le named
  rw [← codeword_length] at short
  rw [peeked, List.prefix_take_iff]
  exact ⟨fun both => both.1, fun begins => ⟨begins, short⟩⟩

/-- The lookup gives the symbol whose codeword comes next in the stream, and takes it from
the stream. If no codeword comes next there is no symbol. -/
theorem lookup_exact (decodes : Decodes lens tree) (reads : Reads stream rest) :
    (∀ sym, 0 < lens.getD sym 0 → codeword lens sym <+: rest ++ List.replicate 15 false →
      ∃ stream', tree.lookup stream = .ok (some sym, stream') ∧
        (codeword lens sym <+: rest → Reads stream' (rest.drop (lens.getD sym 0)) ∧ stream'.data = stream.data)) ∧
    ((∀ sym, 0 < lens.getD sym 0 → ¬ codeword lens sym <+: rest ++ List.replicate 15 false) →
      ∃ stream', tree.lookup stream = .ok (none, stream')) := by
  obtain ⟨ahead, peek, reads', same, full⟩ := @Reads.peek stream rest 15 reads (by decide) (by decide)
  have walk := decodes.lookup_eq_slow stream
  rw [peek] at walk
  constructor
  · intro sym named begins
    refine ⟨_, walk.trans (decodes.slow_found named ((begins_peeked decodes named).mpr begins)), ?_⟩
    rintro ⟨later, parts⟩
    have short := decodes.kraft.named_le named
    have size := congrArg List.length parts
    rw [List.length_append, codeword_length] at size
    have reads'' : Reads ahead (codeword lens sym ++ later) := parts ▸ reads'
    have taken := reads''.consume (by rw [codeword_length]; omega)
    rw [codeword_length] at taken
    rw [← parts, ← codeword_length lens sym, List.drop_left, codeword_length]
    exact ⟨taken.1, taken.2.trans same⟩
  · intro missing
    obtain ⟨stream', result⟩ := @Decodes.slow_missing lens tree ahead _ decodes
      (fun sym named begins => missing sym named ((begins_peeked decodes named).mp begins))
    exact ⟨stream', walk.trans result⟩

/-- A symbol is read back from its codeword. -/
theorem lookup_codeword (decodes : Decodes lens tree) (named : 0 < lens.getD sym 0)
    (reads : Reads stream (codeword lens sym ++ rest)) :
    ∃ stream', tree.lookup stream = .ok (some sym, stream') ∧ Reads stream' rest ∧ stream'.data = stream.data := by
  have begins := List.prefix_append (codeword lens sym) rest
  obtain ⟨stream', result, after⟩ := (lookup_exact decodes reads).1 sym named
    (begins.trans (List.prefix_append _ _))
  obtain ⟨reads', same⟩ := after begins
  rw [← codeword_length lens sym, List.drop_left] at reads'
  exact ⟨stream', result, reads', same⟩

end Lookup

end EvalynOS.Kgz
