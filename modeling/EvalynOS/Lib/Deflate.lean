import EvalynOS.Lib.PrefixCode

/-! The DEFLATE format: blocks of bytes as they are, or of literals and references back into
what came before, coded by two prefix codes that are fixed or come with the block. -/
namespace Lib.Deflate

/- The first length of each symbol and the bits that are added to it. -/
def lengths : List (Nat × Nat) :=
  [(3, 0), (4, 0), (5, 0), (6, 0), (7, 0), (8, 0), (9, 0), (10, 0), (11, 1), (13, 1), (15, 1), (17, 1), (19, 2),
    (23, 2), (27, 2), (31, 2), (35, 3), (43, 3), (51, 3), (59, 3), (67, 4), (83, 4), (99, 4), (115, 4), (131, 5),
    (163, 5), (195, 5), (227, 5), (258, 0)]

def distances : List (Nat × Nat) :=
  [(1, 0), (2, 0), (3, 0), (4, 0), (5, 1), (7, 1), (9, 2), (13, 2), (17, 3), (25, 3), (33, 4), (49, 4), (65, 5),
    (97, 5), (129, 6), (193, 6), (257, 7), (385, 7), (513, 8), (769, 8), (1025, 9), (1537, 9), (2049, 10),
    (3073, 10), (4097, 11), (6145, 11), (8193, 12), (12289, 12), (16385, 13), (24577, 13)]

/- A copy is given by its two symbols and the numbers that are added. -/
inductive Token where
  | literal (byte : UInt8)
  | copy (lengthSymbol lengthExtra distanceSymbol distanceExtra : Nat)
  deriving DecidableEq, Repr

def copyLength (symbol extra : Nat) : Nat := (lengths.getD symbol (0, 0)).1 + extra

def copyDistance (symbol extra : Nat) : Nat := (distances.getD symbol (0, 0)).1 + extra

/- The bytes of a copy: the last ones of the output, over and over. -/
def copied (out : List UInt8) (distance length : Nat) : List UInt8 :=
  (List.range length).map (fun i => out.getD (out.length - distance + i % distance) 0)

def Token.expand (out : List UInt8) : Token → Option (List UInt8)
  | .literal byte => some (out ++ [byte])
  | .copy lengthSymbol lengthExtra distanceSymbol distanceExtra =>
    if copyDistance distanceSymbol distanceExtra ≤ out.length then
      some (out ++ copied out (copyDistance distanceSymbol distanceExtra) (copyLength lengthSymbol lengthExtra))
    else none

def Token.encode (literals dists : List Nat) : Token → List Bool
  | .literal byte => codeword literals byte.toNat
  | .copy lengthSymbol lengthExtra distanceSymbol distanceExtra =>
    codeword literals (257 + lengthSymbol) ++ bits lengthExtra (lengths.getD lengthSymbol (0, 0)).2 ++
      codeword dists distanceSymbol ++ bits distanceExtra (distances.getD distanceSymbol (0, 0)).2

/- The symbols of the token have codewords. -/
def Token.Coded (literals dists : List Nat) : Token → Prop
  | .literal byte => 0 < literals.getD byte.toNat 0
  | .copy lengthSymbol lengthExtra distanceSymbol distanceExtra =>
    lengthSymbol < 29 ∧ 0 < literals.getD (257 + lengthSymbol) 0 ∧
      lengthExtra < 2 ^ (lengths.getD lengthSymbol (0, 0)).2 ∧
      distanceSymbol < 30 ∧ 0 < dists.getD distanceSymbol 0 ∧
      distanceExtra < 2 ^ (distances.getD distanceSymbol (0, 0)).2

def expandTokens (out : List UInt8) : List Token → Option (List UInt8)
  | [] => some out
  | token :: rest => (token.expand out).bind (fun out => expandTokens out rest)

/- The symbol 256 ends a block. -/
def encodeTokens (literals dists : List Nat) (tokens : List Token) : List Bool :=
  tokens.flatMap (Token.encode literals dists) ++ codeword literals 256

def fixedLiterals : List Nat :=
  List.replicate 144 8 ++ (List.replicate 112 9 ++ (List.replicate 24 7 ++ List.replicate 8 8))

def fixedDists : List Nat := List.replicate 32 5

/- How the lengths of a block's own codes are written, with the numbers that are added. -/
inductive LengthOp where
  | length (len : Nat)
  | again (extra : Nat)
  | zeros (extra : Nat)
  | manyZeros (extra : Nat)
  deriving DecidableEq, Repr

namespace LengthOp

def symbol : LengthOp → Nat
  | .length len => len
  | .again _ => 16
  | .zeros _ => 17
  | .manyZeros _ => 18

def extraBits : LengthOp → List Bool
  | .length _ => []
  | .again extra => bits extra 2
  | .zeros extra => bits extra 3
  | .manyZeros extra => bits extra 7

def Valid : LengthOp → Prop
  | .length len => len ≤ 15
  | .again extra => extra < 4
  | .zeros extra => extra < 8
  | .manyZeros extra => extra < 128

def expand (lens : List Nat) : LengthOp → Option (List Nat)
  | .length len => some (lens ++ [len])
  | .again extra => lens.getLast?.map (fun last => lens ++ List.replicate (extra + 3) last)
  | .zeros extra => some (lens ++ List.replicate (extra + 3) 0)
  | .manyZeros extra => some (lens ++ List.replicate (extra + 11) 0)

end LengthOp

def expandOps (lens : List Nat) : List LengthOp → Option (List Nat)
  | [] => some lens
  | op :: rest => (op.expand lens).bind (fun lens => expandOps lens rest)

/- The order in which the lengths of the code of the lengths are written. -/
def order : List Nat := [16, 17, 18, 0, 8, 7, 9, 6, 10, 5, 11, 4, 12, 3, 13, 2, 14, 1, 15]

/-- The codes that come with a block, as they are written in front of its tokens. -/
structure Tables where
  literalCount : Nat
  distCount : Nat
  codeCount : Nat
  codeLengths : List Nat
  ops : List LengthOp
  lens : List Nat
  deriving DecidableEq, Repr

namespace Tables

def literals (tables : Tables) : List Nat := tables.lens.take (tables.literalCount + 257)

def dists (tables : Tables) : List Nat := tables.lens.drop (tables.literalCount + 257)

def encode (tables : Tables) : List Bool :=
  bits tables.literalCount 5 ++ bits tables.distCount 5 ++ bits tables.codeCount 4 ++
    (order.take (tables.codeCount + 4)).flatMap (fun s => bits (tables.codeLengths.getD s 0) 3) ++
    tables.ops.flatMap (fun op => codeword tables.codeLengths op.symbol ++ op.extraBits)

structure Valid (tables : Tables) : Prop where
  literalCount : tables.literalCount < 32
  distCount : tables.distCount < 32
  codeCount : tables.codeCount < 16
  codeLengths : tables.codeLengths.length = 19
  small : ∀ len ∈ tables.codeLengths, len < 8
  written : ∀ s ∈ order.drop (tables.codeCount + 4), tables.codeLengths.getD s 0 = 0
  coded : ∀ op ∈ tables.ops, op.Valid ∧ 0 < tables.codeLengths.getD op.symbol 0
  expands : expandOps [] tables.ops = some tables.lens
  size : tables.lens.length = tables.literalCount + 257 + (tables.distCount + 1)
  code : Kraft tables.codeLengths 15
  literalCode : Kraft tables.literals 15
  distCode : Kraft tables.dists 15

end Tables

/- The padding in front of the length of a stored block ends a byte. -/
inductive Block where
  | stored (padding : List Bool) (data : List UInt8)
  | fixed (tokens : List Token)
  | dynamic (tables : Tables) (tokens : List Token)
  deriving DecidableEq, Repr

namespace Block

def body : Block → List Bool
  | .stored padding data =>
    bits 0 2 ++ (padding ++ bits data.length 16 ++ bits (65535 - data.length) 16 ++ bitsOf data)
  | .fixed tokens => bits 1 2 ++ encodeTokens fixedLiterals fixedDists tokens
  | .dynamic tables tokens => bits 2 2 ++ (tables.encode ++ encodeTokens tables.literals tables.dists tokens)

def encode (last : Bool) (block : Block) : List Bool := last :: block.body

def expand (out : List UInt8) : Block → Option (List UInt8)
  | .stored _ data => some (out ++ data)
  | .fixed tokens => expandTokens out tokens
  | .dynamic _ tokens => expandTokens out tokens

def Coded (literals dists : List Nat) (tokens : List Token) : Prop :=
  0 < literals.getD 256 0 ∧ ∀ token ∈ tokens, token.Coded literals dists

/-- A block that is well formed after this many bits of the stream. -/
def Valid (position : Nat) : Block → Prop
  | .stored padding data => padding.length < 8 ∧ (position + 3 + padding.length) % 8 = 0 ∧ data.length < 2 ^ 16
  | .fixed tokens => ∀ token ∈ tokens, token.Coded fixedLiterals fixedDists
  | .dynamic tables tokens => tables.Valid ∧ Coded tables.literals tables.dists tokens

end Block

/- The last block is marked. -/
def encode : List Block → List Bool
  | [] => []
  | [block] => block.encode true
  | block :: next :: rest => block.encode false ++ encode (next :: rest)

def Valid (position : Nat) : List Block → Prop
  | [] => True
  | block :: rest => block.Valid position ∧ Valid (position + (block.encode false).length) rest

def expand (out : List UInt8) : List Block → Option (List UInt8)
  | [] => some out
  | block :: rest => (block.expand out).bind (fun out => expand out rest)

/-! What is written grows with every token. -/

section Growth

variable {out out' final : List UInt8} {token : Token} {tokens : List Token} {op : LengthOp} {ops : List LengthOp}
  {lens lens' : List Nat}

@[simp] theorem copied_length (out : List UInt8) (distance length : Nat) : (copied out distance length).length = length := by
  rw [copied, List.length_map, List.length_range]

theorem copied_succ (out : List UInt8) (distance length : Nat) :
    copied out distance (length + 1) =
      copied out distance length ++ [out.getD (out.length - distance + length % distance) 0] := by
  rw [copied, List.range_succ, List.map_append, List.map_singleton, copied]

theorem lengths_pos : ∀ symbol < 29, 0 < (lengths.getD symbol (0, 0)).1 := by decide

theorem distances_pos : ∀ symbol < 30, 0 < (distances.getD symbol (0, 0)).1 := by decide

theorem Token.expand_grows {literals dists : List Nat} (coded : token.Coded literals dists)
    (expands : token.expand out = some out') : out.length < out'.length := by
  cases token with
  | literal byte =>
    rw [← Option.some.inj expands, List.length_append, List.length_singleton]
    exact Nat.lt_succ_self _
  | copy lengthSymbol lengthExtra distanceSymbol distanceExtra =>
    have positive := lengths_pos lengthSymbol coded.1
    simp only [Token.expand] at expands
    split at expands
    · rw [← Option.some.inj expands, List.length_append, copied_length, copyLength]
      omega
    · cases expands

theorem expandTokens_grows {literals dists : List Nat} (coded : ∀ token ∈ tokens, token.Coded literals dists)
    (expands : expandTokens out tokens = some final) : out.length ≤ final.length := by
  induction tokens generalizing out with
  | nil => exact Nat.le_of_eq (congrArg List.length (Option.some.inj expands))
  | cons token tokens ih =>
    obtain ⟨next, first, rest⟩ := Option.bind_eq_some_iff.mp expands
    have grown := Token.expand_grows (coded token List.mem_cons_self) first
    have later := ih (fun other member => coded other (List.mem_cons_of_mem _ member)) rest
    omega

theorem LengthOp.expand_grows (expands : op.expand lens = some lens') : lens.length < lens'.length := by
  cases op with
  | length len =>
    rw [← Option.some.inj expands, List.length_append, List.length_singleton]
    exact Nat.lt_succ_self _
  | again extra =>
    obtain ⟨last, _, rfl⟩ := Option.map_eq_some_iff.mp expands
    rw [List.length_append, List.length_replicate]
    omega
  | zeros extra =>
    rw [← Option.some.inj expands, List.length_append, List.length_replicate]
    omega
  | manyZeros extra =>
    rw [← Option.some.inj expands, List.length_append, List.length_replicate]
    omega

theorem expandOps_grows (expands : expandOps lens ops = some lens') : lens.length ≤ lens'.length := by
  induction ops generalizing lens with
  | nil => exact Nat.le_of_eq (congrArg List.length (Option.some.inj expands))
  | cons op ops ih =>
    obtain ⟨next, first, rest⟩ := Option.bind_eq_some_iff.mp expands
    have grown := LengthOp.expand_grows first
    have later := ih rest
    omega

end Growth

/-! The codes that are fixed. -/

theorem fixedLiterals_kraft : Kraft fixedLiterals 15 := ⟨by decide +kernel, by decide +kernel⟩

theorem fixedLiterals_named : ∀ s < 288, 0 < fixedLiterals.getD s 0 := by decide +kernel

theorem codeOf_fixedDists : ∀ s < 32, codeOf fixedDists s = s := by decide +kernel

theorem fixedDists_len : ∀ s < 32, fixedDists.getD s 0 = 5 := by decide

end Lib.Deflate
