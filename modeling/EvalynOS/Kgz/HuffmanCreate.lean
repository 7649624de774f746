import EvalynOS.Kgz.Huffman

/-! kgz_huffman_tree_create: the codewords are numbered, put into the tree and spread over
the table. For lengths that a code can have, the tree fits its arena. -/
namespace EvalynOS.Kgz
open Lib

def bitReverse (code result : Nat) : Nat → Nat
  | 0 => result
  | bits + 1 => bitReverse (code >>> 1) ((result <<< 1 ||| code % 2) % 2 ^ 32) bits

/- The loop that counts the lengths, of which none is above 15. -/
def countLengths : List Nat → (Nat → Nat) → Option (Nat → Nat)
  | [], count => some count
  | len :: rest, count =>
    if 15 < len then none
    else if len = 0 then countLengths rest count
    else countLengths rest (Function.update count len (count len + 1))

/- The loop that sets next_code, from a number of bits on. -/
def nextCodes (count : Nat → Nat) : Nat → Nat → Nat → (Nat → Nat) → (Nat → Nat)
  | 0, _, _, next => next
  | rounds + 1, bits, code, next =>
    let code := ((code + count (bits - 1)) <<< 1) % 2 ^ 32
    nextCodes count rounds (bits + 1) code (Function.update next bits (code % 2 ^ 16))

def fillTable (entry : CacheEntry) (stride : Nat) : Nat → Nat → List CacheEntry → List CacheEntry
  | 0, _, table => table
  | rounds + 1, fill, table =>
    if fill < 1024 then fillTable entry stride rounds (fill + stride) (table.set fill entry) else table

/- The loop over the symbols. -/
def addSymbols : List Nat → Nat → (Nat → Nat) → HuffmanTree → Arena → Except Stop (HuffmanTree × Arena)
  | [], _, _, tree, arena => .ok (tree, arena)
  | len :: rest, sym, next, tree, arena =>
    if len = 0 then addSymbols rest (sym + 1) next tree arena
    else
      match tree.insertCode (next len) sym len arena tree.rootIndex with
      | .error stop => .error stop
      | .ok (tree, arena) =>
        let next' := Function.update next len ((next len + 1) % 2 ^ 16)
        if 10 < len then addSymbols rest (sym + 1) next' tree arena
        else
          let table := fillTable ⟨sym, len⟩ (1 <<< len) 1024 (bitReverse (next len) 0 len) tree.table
          addSymbols rest (sym + 1) next' { tree with table := table } arena

def initialCapacity (symbolLengths : List Nat) : Nat :=
  let leafCount := symbolLengths.countP (fun len => len ≠ 0)
  if 0 < leafCount then (if 16 < leafCount * 2 - 1 then leafCount * 2 - 1 else 16) else 16

/- kgz_huffman_tree_create. -/
def huffmanTreeCreate (symbolLengths : List Nat) (arena : Arena) : Except Stop (HuffmanTree × Arena) :=
  match arena.allocate 4120 8 with
  | none => .error .failed
  | some arena =>
    let capacity := initialCapacity symbolLengths
    match arena.allocate (12 * capacity) 8 with
    | none => .error .failed
    | some arena =>
      match HuffmanTree.allocNewNode ⟨[], 0, [], capacity⟩ arena with
      | none => .error .failed
      | some (root, tree, arena) =>
        match countLengths symbolLengths (fun _ => 0) with
        | none => .error .failed
        | some count =>
          let next := nextCodes (Function.update count 0 0) 15 1 0 (fun _ => 0)
          addSymbols symbolLengths 0 next
            { tree with rootIndex := root, table := List.replicate 1024 ⟨65535, -1⟩ } arena

/-! The numbers of the codewords. -/

section Numbers

variable {lens : List Nat} {width len sym : Nat}

theorem bitReverse_eq {code result : Nat} (width : Nat) (small : (result + 1) * 2 ^ width ≤ 2 ^ 32) :
    bitReverse code result width = result * 2 ^ width + number (bits code width).reverse := by
  induction width generalizing code result with
  | zero => simp [bitReverse, bits, number]
  | succ width ih =>
    have grown : (result + 1) * 2 ^ (width + 1) = (2 * result + 2) * 2 ^ width := by
      rw [Nat.pow_succ]
      ring
    have positive : 1 ≤ 2 ^ width := Nat.one_le_two_pow
    rw [grown] at small
    have low : code % 2 < 2 ^ 1 := Nat.mod_lt _ (by decide)
    have joined : (result <<< 1 ||| code % 2) % 2 ^ 32 = 2 * result + code % 2 := by
      rw [Nat.or_comm, or_shift low, Nat.add_comm, Nat.pow_one, Nat.mod_eq_of_lt]
      have less := Nat.le_mul_of_pos_right (2 * result + 2) (Nat.two_pow_pos width)
      omega
    have next : (2 * result + code % 2 + 1) * 2 ^ width ≤ 2 ^ 32 :=
      (Nat.mul_le_mul_right _ (by omega)).trans small
    have bit : (code.testBit 0).toNat = code % 2 := by
      rw [Nat.toNat_testBit, Nat.pow_zero, Nat.div_one]
    rw [bitReverse, joined, ih next, Nat.shiftRight_eq_div_pow, Nat.pow_one, bits, List.reverse_cons, number_append,
      List.length_reverse, bits_length, number, number, bit, Nat.pow_succ]
    ring

theorem countLengths_eq {count : Nat → Nat} (short : ∀ len ∈ lens, len ≤ 15) :
    ∃ count', countLengths lens count = some count' ∧
      ∀ len, 0 < len → count' len = count len + lens.count len := by
  induction lens generalizing count with
  | nil => exact ⟨count, rfl, fun _ _ => rfl⟩
  | cons first rest ih =>
    have inside := short first List.mem_cons_self
    have short' : ∀ len ∈ rest, len ≤ 15 := fun len member => short len (List.mem_cons_of_mem _ member)
    rw [countLengths, if_neg (Nat.not_lt_of_le inside)]
    split
    · rename_i zero
      obtain ⟨count', result, values⟩ := @ih count short'
      refine ⟨count', result, ?_⟩
      intro len positive
      rw [values len positive, List.count_cons_of_ne (by omega)]
    · obtain ⟨count', result, values⟩ := @ih (Function.update count first (count first + 1)) short'
      refine ⟨count', result, ?_⟩
      intro len positive
      rw [values len positive, List.count_cons, Function.update_apply]
      by_cases same : len = first
      · subst same
        simp only [↓reduceIte, beq_self_eq_true]
        omega
      · have other : (first == len) = false := by
          rw [beq_eq_false_iff_ne]
          exact fun equal => same equal.symm
        simp only [same, other, ↓reduceIte, Bool.false_eq_true, Nat.add_zero]

theorem nextCodes_eq (kraft : Kraft lens 15) {count : Nat → Nat} (counts : ∀ len, count len = used lens len)
    (rounds : Nat) {bits : Nat} {next : Nat → Nat} (all : bits + rounds = 15)
    (before : ∀ len, 0 < len → len ≤ bits → next len = firstCode lens len) :
    ∀ len, 0 < len → len ≤ 15 →
      nextCodes count rounds (bits + 1) (firstCode lens bits) next len = firstCode lens len := by
  induction rounds generalizing bits next with
  | zero => exact fun len positive inside => before len positive (by omega)
  | succ rounds ih =>
    have bound : firstCode lens bits + used lens bits ≤ 2 ^ bits := kraft.room (by omega)
    have power : 2 ^ bits ≤ 2 ^ 14 := Nat.pow_le_pow_right (by decide) (by omega)
    have code : ((firstCode lens bits + count (bits + 1 - 1)) <<< 1) % 2 ^ 32 = firstCode lens (bits + 1) := by
      rw [Nat.add_sub_cancel, counts, Nat.shiftLeft_eq, Nat.pow_one, Nat.mul_comm, firstCode]
      exact Nat.mod_eq_of_lt (by omega)
    have half : firstCode lens (bits + 1) % 2 ^ 16 = firstCode lens (bits + 1) := by
      rw [firstCode]
      exact Nat.mod_eq_of_lt (by omega)
    simp only [nextCodes, code, half]
    apply ih (by omega)
    intro len positive inside
    rw [Function.update_apply]
    split
    · rename_i equal
      rw [equal]
    · exact before len positive (by omega)

end Numbers

/-! The nodes of a tree are at most twice those that it starts with room for. -/

section Room

variable {tree : HuffmanTree} {arena : Arena} {base total start first : Nat}

structure Room (base total start first : Nat) (tree : HuffmanTree) (arena : Arena) : Prop where
  buffer : arena.buffer = some base
  capacity : arena.capacity = total
  stage : tree.nodesCapacity = first ∧ arena.offset ≤ start ∨
    tree.nodesCapacity = 2 * first ∧ arena.offset ≤ start + 7 + 24 * first
  within : tree.nodes.length ≤ tree.nodesCapacity

structure Arena.Holds (base total needed : Nat) : Prop where
  inside : base + total ≤ 2 ^ 64
  bound : total < 2 ^ 64
  fits : needed ≤ total

theorem Room.alloc (room : Room base total start first tree arena) (positive : 0 < first)
    (holds : Arena.Holds base total (start + 7 + 24 * first)) (more : tree.nodes.length < 2 * first) :
    ∃ tree' arena', tree.allocNewNode arena = some ((tree.nodes.length : Int), tree', arena') ∧
      tree'.nodes = tree.nodes ++ [HuffmanNode.mk false (-1) (-1)] ∧ tree'.table = tree.table ∧
      tree'.rootIndex = tree.rootIndex ∧ Room base total start first tree' arena' := by
  have within := room.within
  unfold HuffmanTree.allocNewNode
  split
  · rename_i full
    rcases room.stage with ⟨capacity, offset⟩ | ⟨capacity, _⟩
    · obtain ⟨offset', result, bound⟩ := @Arena.allocate_fits arena base (12 * (tree.nodesCapacity * 2)) room.buffer
        (by rw [room.capacity]; exact holds.inside) (by rw [room.capacity]; exact holds.bound) (by omega)
        (by rw [room.capacity]; have fits := holds.fits; omega)
      have positive' : tree.nodesCapacity ≠ 0 := by omega
      simp only [if_neg positive', result]
      refine ⟨_, _, rfl, rfl, rfl, rfl, room.buffer, room.capacity, .inr ⟨?_, ?_⟩, ?_⟩
      · change tree.nodesCapacity * 2 = 2 * first
        omega
      · change offset' ≤ start + 7 + 24 * first
        omega
      · change (tree.nodes ++ [_]).length ≤ tree.nodesCapacity * 2
        rw [List.length_append, List.length_singleton]
        omega
    · omega
  · rename_i free
    refine ⟨_, _, rfl, rfl, rfl, rfl, room.buffer, room.capacity, room.stage, ?_⟩
    change (tree.nodes ++ [_]).length ≤ tree.nodesCapacity
    rw [List.length_append, List.length_singleton]
    omega

theorem Room.set (room : Room base total start first tree arena) (index : Int) (node : HuffmanNode) :
    Room base total start first (tree.setNode index node) arena := by
  refine ⟨room.buffer, room.capacity, room.stage, ?_⟩
  change (tree.nodes.set index.toNat node).length ≤ tree.nodesCapacity
  rw [List.length_set]
  exact room.within

end Room

theorem initialCapacity_room (lens : List Nat) :
    16 ≤ initialCapacity lens ∧ 2 * lens.countP (fun len => len ≠ 0) + 15 ≤ 2 * initialCapacity lens := by
  simp only [initialCapacity]
  split
  · split <;> omega
  · omega

section Insertion

variable {lens : List Nat} {k : Nat} {paths : List (List Bool)} {path : List Bool} {tree : HuffmanTree} {arena : Arena}
  {base total start : Nat}

/-- The node of a beginning is where its place says. -/
theorem getNode_place {node : HuffmanNode} (member : path ∈ paths) (here : tree.nodes[paths.idxOf path]? = some node) :
    tree.getNode (place paths path) = some node := by
  rw [HuffmanTree.getNode, place_mem member, if_neg (by omega), Int.toNat_natCast, here]

/-- The loop goes down the codeword, makes the nodes that are missing and marks the last. -/
theorem insertCode_spec (kraft : Kraft lens 15) (named : 0 < lens.getD k 0) (small : k < 65536)
    (holds : Arena.Holds base total (start + 7 + 24 * initialCapacity lens)) (rest : List Bool)
    (parts : codeword lens k = path ++ rest) (member : path ∈ paths) (grown : Grown lens k paths tree.nodes)
    (room : Room base total start (initialCapacity lens) tree arena) :
    ∃ paths' tree' arena',
      tree.insertCode (codeOf lens k) k rest.length arena (place paths path) = .ok (tree', arena') ∧
        Grown lens (k + 1) paths' tree'.nodes ∧ Room base total start (initialCapacity lens) tree' arena' ∧
        tree'.table = tree.table ∧ tree'.rootIndex = tree.rootIndex := by
  induction rest generalizing path paths tree arena with
  | nil =>
    rw [List.append_nil] at parts
    subst parts
    have inside : paths.idxOf (codeword lens k) < tree.nodes.length := by
      rw [grown.size]
      exact List.idxOf_lt_length_of_mem member
    have here := List.getElem?_eq_getElem inside
    have marked := grown.mark kraft named small member here
    rw [List.length_nil, HuffmanTree.insertCode, getNode_place member here]
    refine ⟨paths, _, arena, rfl, ?_, room.set _ _, rfl, rfl⟩
    rw [place_mem member]
    exact marked
  | cons b rest ih =>
    have bit := codeword_bit parts
    have begins : path ++ [b] <+: codeword lens k := ⟨rest, by rw [parts, List.append_assoc]; rfl⟩
    have parts' : codeword lens k = (path ++ [b]) ++ rest := by
      rw [parts, List.append_assoc]
      rfl
    have open_ := grown.open_of_begins kraft (Nat.le_refl k) named ((List.prefix_append path [b]).trans begins)
    obtain ⟨node, here, _, children⟩ := grown.inner path member open_
    rw [List.length_cons, HuffmanTree.insertCode, getNode_place member here]
    simp only [bit, children]
    by_cases known : path ++ [b] ∈ paths
    · rw [if_neg (place_ne_neg known)]
      exact ih parts' known grown room
    · rw [if_pos (place_eq_neg known)]
      have grown' := grown.attach member named begins open_ known here
      have count : (paths ++ [path ++ [b]]).length ≤ 2 * lens.countP (fun len => len ≠ 0) + 15 := by
        apply kraft.beginnings grown'.distinct
        intro other inside
        by_cases empty : other = []
        · exact ⟨k, named, empty ▸ List.nil_prefix⟩
        · exact grown'.begins other inside empty
      have enough := initialCapacity_room lens
      have size := grown.size
      rw [List.length_append, List.length_singleton] at count
      obtain ⟨tree', arena', result, nodes, table, root, room'⟩ := room.alloc (by omega) holds (by omega)
      simp only [result]
      have index : place (paths ++ [path ++ [b]]) (path ++ [b]) = (tree.nodes.length : Int) := by
        rw [place_new known, size]
      have spot : (place paths path).toNat = paths.idxOf path := by
        rw [place_mem member, Int.toNat_natCast]
      have grown'' : Grown lens k (paths ++ [path ++ [b]])
          (tree'.setNode (place paths path) (node.setChild b tree.nodes.length)).nodes := by
        change Grown lens k _ (tree'.nodes.set (place paths path).toNat _)
        rw [nodes, spot]
        exact grown'
      obtain ⟨paths', after, arena'', result', spec, room'', table', root'⟩ := ih parts'
        (List.mem_append_right _ (List.mem_singleton_self _)) grown'' (room'.set _ _)
      rw [index] at result'
      exact ⟨paths', after, arena'', result', spec, room'', table'.trans table, root'.trans root⟩

end Insertion

/-! The table, and the tree as a whole. -/

section Creation

variable {lens : List Nat} {k : Nat} {table : List CacheEntry} {tree : HuffmanTree} {arena : Arena}
  {base total start : Nat}

/-- An entry of the table that is used holds a codeword with which its index begins. -/
structure CacheHolds (lens : List Nat) (k : Nat) (table : List CacheEntry) : Prop where
  size : table.length = 1024
  sound : ∀ i entry, table[i]? = some entry → 0 < entry.length →
    ∃ s, s < k ∧ 0 < lens.getD s 0 ∧ lens.getD s 0 ≤ 10 ∧ entry = ⟨s, lens.getD s 0⟩ ∧ codeword lens s <+: bits i 10

theorem fillTable_length (entry : CacheEntry) (stride rounds fill : Nat) (table : List CacheEntry) :
    (fillTable entry stride rounds fill table).length = table.length := by
  induction rounds generalizing fill table with
  | zero => rfl
  | succ rounds ih =>
    rw [fillTable]
    split
    · rw [ih, List.length_set]
    · rfl

theorem fillTable_getElem {entry found : CacheEntry} {stride fill i : Nat} (rounds : Nat)
    (here : (fillTable entry stride rounds fill table)[i]? = some found) :
    table[i]? = some found ∨ found = entry ∧ ∃ j, i = fill + j * stride := by
  induction rounds generalizing fill table with
  | zero => exact .inl here
  | succ rounds ih =>
    rw [fillTable] at here
    split at here
    · rcases ih here with before | ⟨isEntry, j, place⟩
      · by_cases first : i = fill
        · subst first
          rw [List.getElem?_set_self'] at before
          cases old : table[i]? with
          | none =>
            rw [old] at before
            cases before
          | some other =>
            rw [old] at before
            exact .inr ⟨(Option.some.inj before).symm, 0, by omega⟩
        · rw [List.getElem?_set_ne (fun equal => first equal.symm)] at before
          exact .inl before
      · exact .inr ⟨isEntry, j + 1, by rw [place, Nat.succ_mul]; omega⟩
    · exact .inl here

/-- The reversed number of a codeword is what the reader sees of it. -/
theorem bitReverse_codeword (kraft : Kraft lens 15) (named : 0 < lens.getD k 0) :
    bitReverse (codeOf lens k) 0 (lens.getD k 0) = number (codeword lens k) := by
  have short := kraft.named_le named
  have power : 2 ^ lens.getD k 0 ≤ 2 ^ 15 := Nat.pow_le_pow_right (by decide) short
  rw [bitReverse_eq _ (by omega), Nat.zero_mul, Nat.zero_add, codeword]

theorem CacheHolds.skip (holds : CacheHolds lens k table) : CacheHolds lens (k + 1) table := by
  refine ⟨holds.size, ?_⟩
  intro i entry here positive
  obtain ⟨s, before, rest⟩ := holds.sound i entry here positive
  exact ⟨s, Nat.lt_succ_of_lt before, rest⟩

theorem CacheHolds.fill (holds : CacheHolds lens k table) (kraft : Kraft lens 15) (named : 0 < lens.getD k 0)
    (short : lens.getD k 0 ≤ 10) :
    CacheHolds lens (k + 1) (fillTable ⟨k, lens.getD k 0⟩ (1 <<< lens.getD k 0) 1024
      (bitReverse (codeOf lens k) 0 (lens.getD k 0)) table) := by
  refine ⟨by rw [fillTable_length, holds.size], ?_⟩
  intro i entry here positive
  rcases fillTable_getElem 1024 here with before | ⟨isEntry, j, place⟩
  · exact holds.skip.sound i entry before positive
  · refine ⟨k, Nat.lt_succ_self k, named, short, isEntry, ?_⟩
    rw [List.prefix_iff_eq_take, codeword_length]
    have size : (codeword lens k).length = ((bits i 10).take (lens.getD k 0)).length := by
      rw [codeword_length, List.length_take_of_le (by rw [bits_length]; exact short)]
    apply number_inj size
    have bound := number_lt (codeword lens k)
    rw [codeword_length] at bound
    have low : 2 ^ 10 = 2 ^ lens.getD k 0 * 2 ^ (10 - lens.getD k 0) := by
      rw [← Nat.pow_add]
      congr 1
      omega
    rw [number_take, number_bits, place, bitReverse_codeword kraft named, Nat.shiftLeft_eq, Nat.one_mul, low,
      Nat.mod_mul_right_mod, Nat.mul_comm j, Nat.add_mul_mod_self_left, Nat.mod_eq_of_lt bound]

/-- The tree that is made for these lengths. -/
structure Decodes (lens : List Nat) (tree : HuffmanTree) : Prop where
  kraft : Kraft lens 15
  root : tree.rootIndex = 0
  grown : ∃ paths, Grown lens lens.length paths tree.nodes
  cache : CacheHolds lens lens.length tree.table

/-- The codewords of each length are given out in the order of the symbols. -/
theorem addSymbols_spec (kraft : Kraft lens 15) (few : lens.length ≤ 65536)
    (holds : Arena.Holds base total (start + 7 + 24 * initialCapacity lens)) (rest : List Nat) {next : Nat → Nat}
    {paths : List (List Bool)} (left : lens.drop k = rest) (inside : k ≤ lens.length)
    (codes : ∀ len, 0 < len → len ≤ 15 → next len = firstCode lens len + (lens.take k).count len)
    (root : tree.rootIndex = 0) (grown : Grown lens k paths tree.nodes) (cache : CacheHolds lens k tree.table)
    (room : Room base total start (initialCapacity lens) tree arena) :
    ∃ tree' arena', addSymbols rest k next tree arena = .ok (tree', arena') ∧ Decodes lens tree' ∧
      Room base total start (initialCapacity lens) tree' arena' := by
  induction rest generalizing k next paths tree arena with
  | nil =>
    have all : k = lens.length := Nat.le_antisymm inside (List.drop_eq_nil_iff.mp left)
    subst all
    exact ⟨tree, arena, rfl, ⟨kraft, root, ⟨paths, grown⟩, cache⟩, room⟩
  | cons len rest ih =>
    have more : k < lens.length := by
      by_contra outside
      rw [List.drop_eq_nil_of_le (Nat.le_of_not_lt outside)] at left
      cases left
    rw [List.drop_eq_getElem_cons more] at left
    obtain ⟨here, left'⟩ := List.cons.inj left
    have len_eq : lens.getD k 0 = len := by
      rw [List.getD_eq_getElem _ _ more, here]
    have step : ∀ ℓ, (lens.take (k + 1)).count ℓ = (lens.take k).count ℓ + if ℓ = len then 1 else 0 := by
      intro ℓ
      rw [List.take_succ_eq_append_getElem more, List.count_append, here, List.count_singleton]
      congr 1
      by_cases same : ℓ = len
      · rw [same, if_pos rfl, if_pos (beq_self_eq_true len)]
      · rw [if_neg same, if_neg (fun equal => same (beq_iff_eq.mp equal).symm)]
    rw [addSymbols]
    split
    · rename_i zero
      apply ih left' more _ root (grown.skip (len_eq.trans zero)) cache.skip room
      intro ℓ positive short
      rw [codes ℓ positive short, step, if_neg (by omega), Nat.add_zero]
    · rename_i nonzero
      have positive : 0 < len := Nat.pos_of_ne_zero nonzero
      have named : 0 < lens.getD k 0 := len_eq.symm ▸ positive
      have short : len ≤ 15 := len_eq ▸ kraft.named_le named
      have code : next len = codeOf lens k := by
        rw [codes len positive short, codeOf, len_eq]
      have bound := kraft.code_lt named
      have power : 2 ^ len ≤ 2 ^ 15 := Nat.pow_le_pow_right (by decide) short
      rw [len_eq] at bound
      have bump : (next len + 1) % 2 ^ 16 = next len + 1 := by
        rw [code]
        exact Nat.mod_eq_of_lt (by omega)
      obtain ⟨paths', tree', arena', result, grown', room', table, root'⟩ := insertCode_spec kraft named (by omega)
        holds (codeword lens k) (List.nil_append _).symm grown.root_mem grown room
      rw [place_mem grown.root_mem, grown.root_idx, codeword_length, len_eq, Nat.cast_zero] at result
      have codes' : ∀ ℓ, 0 < ℓ → ℓ ≤ 15 → Function.update next len (next len + 1) ℓ =
          firstCode lens ℓ + (lens.take (k + 1)).count ℓ := by
        intro ℓ positive' short'
        rw [Function.update_apply, step]
        split
        · rename_i same
          rw [same, codes len positive short, Nat.add_assoc]
        · rw [codes ℓ positive' short', Nat.add_zero]
      simp only [code, root, result] at bump codes' ⊢
      rw [bump]
      split
      · exact ih left' more codes' (root'.trans root) grown' (table ▸ cache.skip) room'
      · rename_i small
        have filled := cache.fill kraft named (len_eq.symm ▸ Nat.le_of_not_lt small)
        rw [len_eq] at filled
        rw [table]
        exact ih left' more codes' (root'.trans root) grown' filled
          ⟨room'.buffer, room'.capacity, room'.stage, room'.within⟩

/-- Lengths that a code can have make a tree, and the tree fits an arena of this size. -/
theorem huffmanTreeCreate_spec (kraft : Kraft lens 15) (few : lens.length ≤ 65536)
    (buffer : arena.buffer = some base)
    (holds : Arena.Holds base arena.capacity (arena.offset + 4141 + 36 * initialCapacity lens)) :
    ∃ tree offset, huffmanTreeCreate lens arena = .ok (tree, { arena with offset := offset }) ∧ Decodes lens tree ∧
      offset ≤ arena.offset + 4141 + 36 * initialCapacity lens := by
  have enough := initialCapacity_room lens
  have fits := holds.fits
  obtain ⟨first, result, firstBound⟩ := arena.allocate_fits buffer holds.inside holds.bound
    (show 0 < 4120 by decide) (by omega)
  have next_fits : first + 7 + 12 * initialCapacity lens ≤ arena.capacity := by omega
  obtain ⟨second, result', secondBound⟩ := @Arena.allocate_fits { arena with offset := first } base
    (12 * initialCapacity lens) buffer holds.inside holds.bound (by omega) next_fits
  change second ≤ first + 7 + _ at secondBound
  have room : Room base arena.capacity second (initialCapacity lens) ⟨[], 0, [], initialCapacity lens⟩
      { arena with offset := second } :=
    ⟨buffer, rfl, .inl ⟨rfl, Nat.le_refl _⟩, Nat.zero_le _⟩
  have holds' : Arena.Holds base arena.capacity (second + 7 + 24 * initialCapacity lens) :=
    ⟨holds.inside, holds.bound, by omega⟩
  obtain ⟨tree, arena', made, nodes, _, _, room'⟩ := room.alloc (by omega) holds' (by change 0 < _; omega)
  obtain ⟨count, counted, values⟩ := @countLengths_eq lens (fun _ => 0) kraft.short
  have counts : ∀ len, Function.update count 0 0 len = used lens len := by
    intro len
    rw [Function.update_apply, used]
    split
    · rfl
    · rename_i positive
      rw [values len (Nat.pos_of_ne_zero positive), Nat.zero_add]
  have next := @nextCodes_eq lens kraft (Function.update count 0 0) counts 15 0 (fun _ => 0) rfl (by omega)
  have grown : Grown lens 0 [[]] [HuffmanNode.mk false (-1) (-1)] := by
    refine ⟨rfl, List.nodup_singleton _, ?_, ?_, ?_, rfl, ?_, ?_⟩
    · intro path member nonempty
      exact absurd (List.mem_singleton.mp member) nonempty
    · intro path b member
      exact absurd (List.mem_singleton.mp member) (by simp)
    · exact fun s before => absurd before (Nat.not_lt_zero s)
    · intro path member _
      cases List.mem_singleton.mp member
      refine ⟨_, rfl, rfl, ?_⟩
      intro b
      cases b <;> rfl
    · exact fun s before => absurd before (Nat.not_lt_zero s)
  have cache : CacheHolds lens 0 (List.replicate 1024 ⟨65535, -1⟩) := by
    refine ⟨List.length_replicate, ?_⟩
    intro i entry here positive
    rw [List.eq_of_mem_replicate (List.mem_of_getElem? here)] at positive
    exact absurd positive (by decide)
  obtain ⟨tree', arena'', added, decodes, room''⟩ := @addSymbols_spec lens 0
    { tree with rootIndex := 0, table := List.replicate 1024 ⟨65535, -1⟩ } arena' base arena.capacity second kraft few
    holds' lens _ [[]] List.drop_zero (Nat.zero_le _) next rfl (nodes ▸ grown) cache
    ⟨room'.buffer, room'.capacity, room'.stage, room'.within⟩
  have same : arena'' = { arena with offset := arena''.offset } := by
    cases arena''
    have buffer' := room''.buffer
    have capacity' := room''.capacity
    simp only at buffer' capacity'
    rw [buffer', capacity', buffer]
  refine ⟨tree', arena''.offset, ?_, decodes, ?_⟩
  · simp only [huffmanTreeCreate, result, result', made, counted]
    rw [← same]
    exact added
  · rcases room''.stage with ⟨_, low⟩ | ⟨_, low⟩ <;> omega

end Creation

end EvalynOS.Kgz
