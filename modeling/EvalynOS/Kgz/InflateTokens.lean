import EvalynOS.Lib.Deflate
import EvalynOS.Kgz.Inflate

/-! The tokens of a block: a copy gives the same bytes on each of its three ways, and the
loop of kgz_dflt_handle_huffman adds to the output what its tokens stand for. -/
namespace EvalynOS.Kgz
open Lib Lib.Deflate

section Copies

variable {buffer : Buffer} {data : List UInt8} {distance length : Nat}

theorem push_ok {bytes : List UInt8} (memory : buffer.address ≠ none) :
    buffer.push bytes = .ok { buffer with data := buffer.data ++ bytes } :=
  if_neg (fun both => memory both.1)

theorem copied_one (data : List UInt8) (length : Nat) :
    copied data 1 length = List.replicate length (data.getD (data.length - 1) 0) := by
  apply List.ext_getElem
  · rw [copied_length, List.length_replicate]
  · intro i low high
    simp only [copied, List.getElem_map, Nat.mod_one, Nat.add_zero, List.getElem_replicate]

theorem copied_short (inside : distance ≤ data.length) (short : length ≤ distance) :
    copied data distance length = (data.drop (data.length - distance)).take length := by
  apply List.ext_getElem
  · rw [copied_length, List.length_take_of_le]
    rw [List.length_drop]
    omega
  · intro i low high
    rw [copied_length] at low
    have mod : i % distance = i := Nat.mod_eq_of_lt (by omega)
    simp only [copied, List.getElem_map, List.getElem_range, mod, List.getElem_take, List.getElem_drop]
    exact List.getD_eq_getElem _ _ (by omega)

/-- The byte that is copied next lies the distance back, among the old bytes or the new. -/
theorem copied_back (positive : 0 < distance) (inside : distance ≤ data.length) (i : Nat) :
    (data ++ copied data distance i)[data.length + (copied data distance i).length - distance]? =
      some (data.getD (data.length - distance + i % distance) 0) := by
  rw [copied_length]
  by_cases old : i < distance
  · have index : data.length + i - distance = data.length - distance + i := by omega
    rw [Nat.mod_eq_of_lt old, index, List.getElem?_append_left (by omega),
      List.getD_eq_getElem _ _ (show data.length - distance + i < data.length by omega)]
    exact List.getElem?_eq_getElem _
  · have index : data.length + i - distance - data.length = i - distance := by omega
    have turn : (i - distance) % distance = i % distance := (Nat.mod_eq_sub_mod (by omega)).symm
    rw [List.getElem?_append_right (by omega), index,
      List.getElem?_eq_getElem (show i - distance < (copied data distance i).length by rw [copied_length]; omega)]
    simp only [copied, List.getElem_map, List.getElem_range, turn]

theorem copyLoop_spec (positive : 0 < distance) (inside : distance ≤ data.length) (length i : Nat) :
    Buffer.copyLoop distance length data (copied data distance i) = .ok (copied data distance (i + length)) := by
  induction length generalizing i with
  | zero => rfl
  | succ length ih =>
    have next := ih (i + 1)
    rw [copied_succ] at next
    simp only [Buffer.copyLoop, copied_back positive inside i, next]
    congr 2
    omega

/-- A copy of one byte, of bytes that lie apart and of bytes that overlap all give the last
bytes over and over. -/
theorem lz77copy_spec (memory : buffer.address ≠ none) (positive : 0 < distance)
    (inside : distance ≤ buffer.data.length) (fits : buffer.data.length + length ≤ buffer.capacity) :
    buffer.lz77copy distance length =
      .ok { buffer with data := buffer.data ++ copied buffer.data distance length } := by
  have size : buffer.data.length - 1 < buffer.data.length := by omega
  unfold Buffer.lz77copy
  rw [if_neg (Nat.not_lt_of_le inside), if_neg (Nat.not_lt_of_le fits)]
  split
  · rename_i one
    rw [List.getElem?_eq_getElem size]
    simp only
    rw [push_ok memory, one, copied_one, List.getD_eq_getElem _ _ size]
  · split
    · rename_i short
      rw [push_ok memory, copied_short inside short]
    · have loop := copyLoop_spec positive inside length 0
      rw [Nat.zero_add] at loop
      change Buffer.copyLoop distance length buffer.data [] = _ at loop
      rw [loop]
      exact push_ok memory

end Copies

/-! The tables of lengths and distances. -/

theorem length_tables : ∀ s < 29, lengthExtraBits[s]? = some (lengths.getD s (0, 0)).2 ∧
    baseLength[s]? = some (lengths.getD s (0, 0)).1 ∧ (lengths.getD s (0, 0)).2 ≤ 5 ∧
    (lengths.getD s (0, 0)).1 ≤ 258 := by decide +kernel

theorem dist_tables : ∀ s < 30, distExtraBits[s]? = some (distances.getD s (0, 0)).2 ∧
    baseDist[s]? = some (distances.getD s (0, 0)).1 ∧ (distances.getD s (0, 0)).2 ≤ 13 ∧
    (distances.getD s (0, 0)).1 ≤ 24577 := by decide +kernel

section Tokens

variable {literals dists : List Nat} {ltree : HuffmanTree} {dtree : Option HuffmanTree} {stream : Bitstream}
  {rest : List Bool} {context : Context} {out out' final : List UInt8} {token : Token} {tokens : List Token}
  {rounds s n width : Nat}

/- A field of the stream as a number. -/
theorem Reads.number (reads : Reads stream (bits n width ++ rest)) (small : n < 2 ^ width) (short : width ≤ 32) :
    ∃ stream', stream.getbits width = (n, stream') ∧ Reads stream' rest ∧ stream'.data = stream.data := by
  obtain ⟨stream', result, after⟩ := reads.getbits (by rw [bits_length]; exact short)
  rw [bits_length, number_bits_of_lt small] at result
  exact ⟨stream', result, after⟩

/- The distances are read with the code of the block, or they are the fixed ones. -/
def Distances (dists : List Nat) : Option HuffmanTree → Prop
  | some dtree => Decodes dists dtree
  | none => dists = fixedDists

/-- Turning the five bits round reads the fixed code. -/
theorem fixed_distance (inside : s < 32) : bitReverse (Lib.number (codeword fixedDists s)) 0 5 = s := by
  have back := bits_number (codeword fixedDists s)
  rw [codeword_length, fixedDists_len s inside] at back
  rw [bitReverse_eq 5 (by decide), Nat.zero_mul, Nat.zero_add, back, codeword, List.reverse_reverse,
    codeOf_fixedDists s inside, fixedDists_len s inside]
  exact number_bits_of_lt inside

theorem readDistanceSymbol_spec (distances : Distances dists dtree) (named : 0 < dists.getD s 0) (inside : s < 30)
    (reads : Reads stream (codeword dists s ++ rest)) :
    ∃ stream', readDistanceSymbol dtree stream = .ok (s, stream') ∧ Reads stream' rest ∧
      stream'.data = stream.data := by
  cases dtree with
  | some dtree =>
    obtain ⟨stream', result, after⟩ := lookup_codeword distances named reads
    simp only [readDistanceSymbol, result]
    exact ⟨stream', rfl, after⟩
  | none =>
    have isFixed : dists = fixedDists := distances
    subst isFixed
    obtain ⟨stream', result, after⟩ := reads.getbits (by
      rw [codeword_length, fixedDists_len s (by omega)]
      decide)
    rw [codeword_length, fixedDists_len s (by omega)] at result
    simp only [readDistanceSymbol, result, fixed_distance (show s < 32 by omega)]
    exact ⟨stream', rfl, after⟩

/-- The rest of a copy, behind the symbol of its length. -/
theorem handleCopy_spec (distances : Distances dists dtree) {lengthSymbol lengthExtra distanceSymbol distanceExtra : Nat}
    (coded : Token.Coded literals dists (.copy lengthSymbol lengthExtra distanceSymbol distanceExtra))
    (memory : context.output.address ≠ none)
    (back : copyDistance distanceSymbol distanceExtra ≤ context.output.data.length)
    (fits : context.output.data.length + copyLength lengthSymbol lengthExtra ≤ context.output.capacity)
    (reads : Reads context.stream (bits lengthExtra (lengths.getD lengthSymbol (0, 0)).2 ++
      (codeword dists distanceSymbol ++ (bits distanceExtra (Deflate.distances.getD distanceSymbol (0, 0)).2 ++ rest)))) :
    ∃ stream', handleCopy dtree (257 + lengthSymbol) context = .ok { context with
        stream := stream'
        output := { context.output with
          data := context.output.data ++ copied context.output.data (copyDistance distanceSymbol distanceExtra)
            (copyLength lengthSymbol lengthExtra) } } ∧
      Reads stream' rest ∧ stream'.data = context.stream.data := by
  obtain ⟨lengthInside, _, lengthSmall, distanceInside, distanceNamed, distanceSmall⟩ := coded
  obtain ⟨lengthBits, lengthBase, lengthShort, lengthLow⟩ := length_tables lengthSymbol lengthInside
  obtain ⟨distanceBits, distanceBase, distanceShort, distanceLow⟩ := dist_tables distanceSymbol distanceInside
  have distancePos := distances_pos distanceSymbol distanceInside
  have lengthPower := Nat.pow_le_pow_right (show 0 < 2 by decide) lengthShort
  have distancePower := Nat.pow_le_pow_right (show 0 < 2 by decide) distanceShort
  obtain ⟨stream₁, first, reads₁, same₁⟩ := reads.number lengthSmall (by omega)
  obtain ⟨stream₂, second, reads₂, same₂⟩ := readDistanceSymbol_spec distances distanceNamed distanceInside reads₁
  obtain ⟨stream₃, third, reads₃, same₃⟩ := reads₂.number distanceSmall (by omega)
  have lengthValue : ((lengths.getD lengthSymbol (0, 0)).1 + lengthExtra) % 2 ^ 16 =
      copyLength lengthSymbol lengthExtra := Nat.mod_eq_of_lt (by omega)
  have distanceValue : ((Deflate.distances.getD distanceSymbol (0, 0)).1 + distanceExtra) % 2 ^ 16 =
      copyDistance distanceSymbol distanceExtra := Nat.mod_eq_of_lt (by omega)
  have positive : 0 < copyDistance distanceSymbol distanceExtra := Nat.lt_of_lt_of_le distancePos (Nat.le_add_right _ _)
  have copy := lz77copy_spec memory positive back fits
  unfold handleCopy
  rw [Nat.add_sub_cancel_left, lengthBits, lengthBase]
  simp only [first, second]
  rw [distanceBits, distanceBase]
  simp only [third, lengthValue, distanceValue, copy]
  exact ⟨stream₃, rfl, reads₃, same₃.trans (same₂.trans same₁)⟩

/-- One token: a round of the loop adds what the token stands for. -/
theorem huffmanLoop_token (decodes : Decodes literals ltree) (distances : Distances dists dtree)
    (coded : token.Coded literals dists) (memory : context.output.address ≠ none)
    (expands : token.expand context.output.data = some out') (fits : out'.length ≤ context.output.capacity)
    (reads : Reads context.stream (token.encode literals dists ++ rest)) (rounds : Nat) :
    ∃ stream', huffmanLoop ltree dtree (rounds + 1) context = huffmanLoop ltree dtree rounds
        { context with stream := stream', output := { context.output with data := out' } } ∧
      Reads stream' rest ∧ stream'.data = context.stream.data := by
  have grown := Token.expand_grows coded expands
  cases token with
  | literal byte =>
    have named : 0 < literals.getD byte.toNat 0 := coded
    have more : ¬ context.stream.data.length ≤ context.stream.currentByte := by
      rw [reads.ended_iff, List.append_eq_nil_iff, not_and_or]
      refine .inl (List.ne_nil_of_length_pos ?_)
      change 0 < (codeword literals byte.toNat).length
      rw [codeword_length]
      exact named
    obtain ⟨stream', result, after⟩ := lookup_codeword decodes named reads
    have whole : context.output.data ++ [byte] = out' := Option.some.inj expands
    subst whole
    have room : ¬ context.output.capacity ≤ context.output.data.length := by omega
    refine ⟨stream', ?_, after⟩
    rw [huffmanLoop, if_neg more, result]
    simp only
    rw [if_pos byte.toNat_lt, UInt8.ofNat_toNat, Buffer.insert, if_neg room, push_ok memory]
  | copy lengthSymbol lengthExtra distanceSymbol distanceExtra =>
    have named : 0 < literals.getD (257 + lengthSymbol) 0 := coded.2.1
    simp only [Token.encode, List.append_assoc] at reads
    have more : ¬ context.stream.data.length ≤ context.stream.currentByte := by
      rw [reads.ended_iff, List.append_eq_nil_iff, not_and_or]
      refine .inl (List.ne_nil_of_length_pos ?_)
      rw [codeword_length]
      exact named
    obtain ⟨stream₁, result, reads₁, same₁⟩ := lookup_codeword decodes named reads
    simp only [Token.expand] at expands
    split at expands
    · rename_i back
      have whole := Option.some.inj expands
      subst whole
      have room : context.output.data.length + copyLength lengthSymbol lengthExtra ≤ context.output.capacity := by
        rw [List.length_append, copied_length] at fits
        exact fits
      obtain ⟨stream', copy, reads', same'⟩ := @handleCopy_spec literals dists dtree rest
        { context with stream := stream₁ } distances lengthSymbol lengthExtra distanceSymbol distanceExtra coded memory
        back room reads₁
      refine ⟨stream', ?_, reads', same'.trans same₁⟩
      have above : ¬ 257 + lengthSymbol < 256 := by omega
      have other : ¬ 257 + lengthSymbol = 256 := by omega
      rw [huffmanLoop, if_neg more, result]
      simp only
      rw [if_neg above, if_neg other, copy]
    · cases expands

/-- The loop adds what all the tokens of the block stand for, and ends behind its last
symbol. -/
theorem huffmanLoop_spec (decodes : Decodes literals ltree) (distances : Distances dists dtree)
    (named : 0 < literals.getD 256 0) (coded : ∀ token ∈ tokens, token.Coded literals dists)
    (memory : context.output.address ≠ none) (expands : expandTokens context.output.data tokens = some final)
    (fits : final.length ≤ context.output.capacity)
    (enough : context.output.capacity < rounds + context.output.data.length)
    (reads : Reads context.stream (encodeTokens literals dists tokens ++ rest)) :
    ∃ stream', huffmanLoop ltree dtree rounds context =
        .ok { context with stream := stream', output := { context.output with data := final } } ∧
      Reads stream' rest ∧ stream'.data = context.stream.data := by
  have grown := expandTokens_grows coded expands
  obtain ⟨rounds, rfl⟩ : ∃ less, rounds = less + 1 := ⟨rounds - 1, by omega⟩
  induction tokens generalizing context rounds with
  | nil =>
    have same := Option.some.inj expands
    subst same
    have more : ¬ context.stream.data.length ≤ context.stream.currentByte := by
      rw [reads.ended_iff, List.append_eq_nil_iff, not_and_or]
      refine .inl (List.ne_nil_of_length_pos ?_)
      change 0 < (codeword literals 256).length
      rw [codeword_length]
      exact named
    obtain ⟨stream', result, after⟩ := lookup_codeword decodes named reads
    refine ⟨stream', ?_, after⟩
    rw [huffmanLoop, if_neg more, result]
    simp only
    rw [if_neg (Nat.lt_irrefl 256), if_pos trivial]
  | cons token tokens ih =>
    obtain ⟨next, first, later⟩ := Option.bind_eq_some_iff.mp expands
    have codedFirst := coded token List.mem_cons_self
    have codedRest : ∀ other ∈ tokens, other.Coded literals dists :=
      fun other member => coded other (List.mem_cons_of_mem _ member)
    have step := Token.expand_grows codedFirst first
    have below := expandTokens_grows codedRest later
    have reads' : Reads context.stream (token.encode literals dists ++ (encodeTokens literals dists tokens ++ rest)) := by
      rw [encodeTokens, List.flatMap_cons, List.append_assoc, List.append_assoc] at reads
      rw [encodeTokens, List.append_assoc]
      exact reads
    obtain ⟨stream₁, round, reads₁, same₁⟩ := huffmanLoop_token decodes distances codedFirst memory first
      (by omega) reads' rounds
    obtain ⟨less, rfl⟩ : ∃ less, rounds = less + 1 := ⟨rounds - 1, by omega⟩
    have enough' : context.output.capacity < less + 1 + next.length := by omega
    obtain ⟨stream', result, after, same'⟩ := @ih
      { context with stream := stream₁, output := { context.output with data := next } } codedRest memory later fits
      reads₁ below less enough'
    exact ⟨stream', round.trans result, after, same'.trans same₁⟩

end Tokens

end EvalynOS.Kgz
