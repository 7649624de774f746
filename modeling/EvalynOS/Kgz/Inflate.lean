import EvalynOS.Kgz.HuffmanLookup

/-! The decompressor of deps/kgz_singleheader.h: the output buffer, the three kinds of
blocks and the gzip file around them. -/
namespace EvalynOS.Kgz

/- kgz_buffer_t; the size is the length of the list. -/
structure Buffer where
  address : Option Nat
  data : List UInt8
  capacity : Nat
  deriving DecidableEq, Repr

namespace Buffer

/- What is stored behind the end of the buffer. Without memory the store is a fault. -/
def push (buffer : Buffer) (bytes : List UInt8) : Except Stop Buffer :=
  if buffer.address = none ∧ bytes ≠ [] then .error .fault
  else .ok { buffer with data := buffer.data ++ bytes }

def insert (buffer : Buffer) (byte : UInt8) : Except Stop Buffer :=
  if buffer.capacity ≤ buffer.data.length then .error .failed else buffer.push [byte]

/- kgz_buffer_insert_bulk, from an index of the data. -/
def insertBulk (buffer : Buffer) (data : List UInt8) (src len : Nat) : Except Stop Buffer :=
  if buffer.capacity < buffer.data.length + len then .error .failed
  else if len ≠ 0 ∧ data.length < src + len then .error .fault
  else buffer.push ((data.drop src).take len)

/- The bytes that the loop of kgz_buffer_lz77copy adds behind those already copied. -/
def copyLoop (distance : Nat) : Nat → List UInt8 → List UInt8 → Except Stop (List UInt8)
  | 0, _, done => .ok done
  | length + 1, data, done =>
    match (data ++ done)[data.length + done.length - distance]? with
    | none => .error .fault
    | some byte => copyLoop distance length data (done ++ [byte])

def lz77copy (buffer : Buffer) (distance length : Nat) : Except Stop Buffer :=
  if buffer.data.length < distance then .error .failed
  else if buffer.capacity < buffer.data.length + length then .error .failed
  else if distance = 1 then
    match buffer.data[buffer.data.length - 1]? with
    | none => .error .fault
    | some byte => buffer.push (List.replicate length byte)
  else if length ≤ distance then
    buffer.push ((buffer.data.drop (buffer.data.length - distance)).take length)
  else
    match copyLoop distance length buffer.data [] with
    | .error stop => .error stop
    | .ok bytes => buffer.push bytes

end Buffer

/- kgz_decompression_context_t. -/
structure Context where
  fixedTree : HuffmanTree
  stream : Bitstream
  output : Buffer
  arena : Arena
  deriving DecidableEq, Repr

@[irreducible] def baseLength : List Nat :=
  [3, 4, 5, 6, 7, 8, 9, 10, 11, 13, 15, 17, 19, 23, 27, 31, 35, 43, 51, 59, 67, 83, 99, 115, 131, 163, 195, 227, 258]

@[irreducible] def lengthExtraBits : List Nat :=
  [0, 0, 0, 0, 0, 0, 0, 0, 1, 1, 1, 1, 2, 2, 2, 2, 3, 3, 3, 3, 4, 4, 4, 4, 5, 5, 5, 5, 0]

@[irreducible] def baseDist : List Nat :=
  [1, 2, 3, 4, 5, 7, 9, 13, 17, 25, 33, 49, 65, 97, 129, 193, 257, 385, 513, 769, 1025, 1537, 2049, 3073, 4097, 6145,
    8193, 12289, 16385, 24577]

@[irreducible] def distExtraBits : List Nat :=
  [0, 0, 0, 0, 1, 1, 2, 2, 3, 3, 4, 4, 5, 5, 6, 6, 7, 7, 8, 8, 9, 9, 10, 10, 11, 11, 12, 12, 13, 13]

def clenAlphaOrder : List Nat := [16, 17, 18, 0, 8, 7, 9, 6, 10, 5, 11, 4, 12, 3, 13, 2, 14, 1, 15]

/- kgz_dflt_handle_stored. -/
def handleStored (context : Context) : Except Stop Context :=
  let stream := context.stream.align
  let (len, stream) := stream.readU16
  let (nlen, stream) := stream.readU16
  if len ≠ 65535 - nlen then .error .failed
  else
    let avail := (stream.data.length + (2 ^ 64 - stream.currentByte)) % 2 ^ 64
    let len := if avail < len then avail % 2 ^ 16 else len
    match context.output.insertBulk stream.data stream.currentByte len with
    | .error stop => .error stop
    | .ok output =>
      .ok { context with output := output, stream := { stream with currentByte := stream.currentByte + len } }

/- The loop that reads the lengths of the code of the lengths. -/
def readCodeLengths : List Nat → Bitstream → List Nat → List Nat × Bitstream
  | [], stream, lengths => (lengths, stream)
  | sym :: rest, stream, lengths =>
    let (len, stream) := stream.getbits 3
    readCodeLengths rest stream (lengths.set sym len)

/- The array sym_lengths has 320 entries. -/
def setLengths (value : Nat) : Nat → Nat → List Nat → Except Stop (List Nat)
  | 0, _, lengths => .ok lengths
  | times + 1, i, lengths =>
    if i < 320 then setLengths value times (i + 1) (lengths.set i value) else .error .fault

/- The loop that reads the lengths of the two codes. Each round reads one length at least,
so that as many rounds as lengths are enough; a symbol above 18 would not go on. -/
def readSymLengths (htree : HuffmanTree) (total : Nat) : Nat → Nat → List Nat → Bitstream →
    Except Stop (List Nat × Bitstream)
  | rounds, i, lengths, stream =>
    if total ≤ i then .ok (lengths, stream)
    else
      match rounds with
      | 0 => .error .endless
      | rounds + 1 =>
        match htree.lookup stream with
        | .error stop => .error stop
        | .ok (none, _) => .error .failed
        | .ok (some symbol, stream) =>
          if symbol ≤ 15 then
            match setLengths symbol 1 i lengths with
            | .error stop => .error stop
            | .ok lengths => readSymLengths htree total rounds (i + 1) lengths stream
          else if symbol = 16 then
            let (extra, stream) := stream.getbits 2
            if i = 0 then .error .failed
            else
              match setLengths (lengths.getD (i - 1) 0) (extra + 3) i lengths with
              | .error stop => .error stop
              | .ok lengths => readSymLengths htree total rounds (i + (extra + 3)) lengths stream
          else if symbol = 17 then
            let (extra, stream) := stream.getbits 3
            let times := min (extra + 3) (total - i)
            match setLengths 0 times i lengths with
            | .error stop => .error stop
            | .ok lengths => readSymLengths htree total rounds (i + times) lengths stream
          else if symbol = 18 then
            let (extra, stream) := stream.getbits 7
            let times := min (extra + 11) (total - i)
            match setLengths 0 times i lengths with
            | .error stop => .error stop
            | .ok lengths => readSymLengths htree total rounds (i + times) lengths stream
          else readSymLengths htree total rounds i lengths stream

/- create_dynamic_huffman_tables, with the tree of the literals first. -/
def createDynamicHuffmanTables (stream : Bitstream) (arena : Arena) :
    Except Stop (HuffmanTree × HuffmanTree × Bitstream × Arena) :=
  let (data, stream) := stream.peek 14
  let stream := stream.consume 14
  let hlit := data % 32
  let hdist := data / 32 % 32
  let hclen := data / 1024 % 16
  let (hsymLengths, stream) := readCodeLengths (clenAlphaOrder.take (hclen + 4)) stream (List.replicate 19 0)
  match huffmanTreeCreate hsymLengths arena with
  | .error stop => .error stop
  | .ok (htree, arena) =>
    let total := (hlit + 257) + (hdist + 1)
    match readSymLengths htree total total 0 (List.replicate 320 0) stream with
    | .error stop => .error stop
    | .ok (symLengths, stream) =>
      match huffmanTreeCreate ((symLengths.drop (hlit + 257)).take (hdist + 1)) arena with
      | .error stop => .error stop
      | .ok (dtree, arena) =>
        match huffmanTreeCreate (symLengths.take (hlit + 257)) arena with
        | .error stop => .error stop
        | .ok (ltree, arena) => .ok (ltree, dtree, stream, arena)

/- How a distance symbol is read: with the block's own code, or as five bits, which are
turned round. -/
def readDistanceSymbol (dtree : Option HuffmanTree) (stream : Bitstream) : Except Stop (Nat × Bitstream) :=
  match dtree with
  | some dtree =>
    match dtree.lookup stream with
    | .error stop => .error stop
    | .ok (none, _) => .error .failed
    | .ok (some symbol, stream) => .ok (symbol, stream)
  | none =>
    let (symbol, stream) := stream.getbits 5
    .ok (bitReverse symbol 0 5, stream)

/- The rest of a copy, after the symbol of its length. -/
def handleCopy (dtree : Option HuffmanTree) (symbol : Nat) (context : Context) : Except Stop Context :=
  match lengthExtraBits[symbol - 257]?, baseLength[symbol - 257]? with
  | some extraLengthBits, some base =>
    let (extra, stream) := context.stream.getbits extraLengthBits
    let length := (base + extra) % 2 ^ 16
    match readDistanceSymbol dtree stream with
    | .error stop => .error stop
    | .ok (distanceSymbol, stream) =>
      match distExtraBits[distanceSymbol]?, baseDist[distanceSymbol]? with
      | some extraDistBits, some base =>
        let (extraDist, stream) := stream.getbits extraDistBits
        let distance := (base + extraDist) % 2 ^ 16
        match context.output.lz77copy distance length with
        | .error stop => .error stop
        | .ok output => .ok { context with stream := stream, output := output }
      | _, _ => .error .fault
  | _, _ => .error .fault

/- The loop of kgz_dflt_handle_huffman. What goes on adds to the output, so that the room in
the output bounds the rounds. -/
def huffmanLoop (ltree : HuffmanTree) (dtree : Option HuffmanTree) : Nat → Context → Except Stop Context
  | 0, _ => .error .endless
  | rounds + 1, context =>
    if context.stream.data.length ≤ context.stream.currentByte then .ok context
    else
      match ltree.lookup context.stream with
      | .error stop => .error stop
      | .ok (none, stream) => .ok { context with stream := stream }
      | .ok (some symbol, stream) =>
        if symbol < 256 then
          match context.output.insert (UInt8.ofNat symbol) with
          | .error stop => .error stop
          | .ok output => huffmanLoop ltree dtree rounds { context with stream := stream, output := output }
        else if symbol = 256 then .ok { context with stream := stream }
        else
          match handleCopy dtree symbol { context with stream := stream } with
          | .error stop => .error stop
          | .ok context => huffmanLoop ltree dtree rounds context

/- kgz_dflt_handle_huffman. -/
def handleHuffman (context : Context) (dynamic : Bool) : Except Stop Context :=
  let rounds := context.output.capacity - context.output.data.length + 1
  if dynamic then
    match createDynamicHuffmanTables context.stream context.arena with
    | .error stop => .error stop
    | .ok (ltree, dtree, stream, arena) =>
      huffmanLoop ltree (some dtree) rounds { context with stream := stream, arena := arena }
  else huffmanLoop context.fixedTree none rounds context

def handleBlock (blockType : Nat) (context : Context) : Except Stop Context :=
  match blockType with
  | 0 => handleStored context
  | 1 => handleHuffman context false
  | 2 => handleHuffman context true
  | _ => .error .failed

/- The loop of kgz_deflate_decompress. -/
def blocksLoop : Nat → Context → Except Stop Context
  | 0, _ => .error .endless
  | rounds + 1, context =>
    let (last, stream) := context.stream.getbits 1
    let (blockType, stream) := stream.getbits 2
    match handleBlock blockType { context with stream := stream } with
    | .error stop => .error stop
    | .ok context =>
      let context := { context with arena := context.arena.reset }
      if last = 1 then .ok context else blocksLoop rounds context

/- A block takes three bits at least, and behind the end of the data there is none. -/
def deflateDecompress (context : Context) : Except Stop Context :=
  blocksLoop (8 * context.stream.data.length + 2) context

/-! The gzip file. -/

/- CHECK_BOUNDS, and the end of a string. -/
def skipString : List UInt8 → Nat → Option Nat
  | [], _ => none
  | byte :: rest, currentByte => if byte = 0 then some (currentByte + 1) else skipString rest (currentByte + 1)

/- The fields in front of the compressed data. -/
def gzipExtra (data : List UInt8) (flag : Nat) (currentByte : Nat) : Option Nat :=
  if flag.testBit 2 then
    if data.length < currentByte + 2 then none
    else
      let xlen := (data.getD currentByte 0).toNat ||| ((data.getD (currentByte + 1) 0).toNat <<< 8)
      if data.length < currentByte + 2 + xlen then none else some (currentByte + 2 + xlen)
  else some currentByte

def gzipString (data : List UInt8) (present : Bool) (currentByte : Nat) : Option Nat :=
  if present then skipString (data.drop currentByte) currentByte else some currentByte

def gzipCheck (data : List UInt8) (flag : Nat) (currentByte : Nat) : Option Nat :=
  if flag.testBit 1 then (if data.length < currentByte + 2 then none else some (currentByte + 2)) else some currentByte

/- Where the compressed data begins. -/
def gzipHeader (data : List UInt8) : Option Nat :=
  match data with
  | 0x1F :: 0x8B :: 8 :: flag :: rest =>
    if rest.length < 6 then none
    else do
      let currentByte ← gzipExtra data flag.toNat 10
      let currentByte ← gzipString data (flag.toNat.testBit 3) currentByte
      let currentByte ← gzipString data (flag.toNat.testBit 4) currentByte
      let currentByte ← gzipCheck data flag.toNat currentByte
      if data.length < currentByte + 9 then none else some currentByte
  | _ => none

def readU32 (data : List UInt8) (offset : Nat) : Nat :=
  (data.getD offset 0).toNat ||| ((data.getD (offset + 1) 0).toNat <<< 8) |||
    ((data.getD (offset + 2) 0).toNat <<< 16) ||| ((data.getD (offset + 3) 0).toNat <<< 24)

/- What malloc answers for the output, the arena and the arena of the fixed code. -/
structure Mallocs where
  output : Option Nat
  arena : Option Nat
  fixedArena : Option Nat
  deriving DecidableEq, Repr

def fixedCodes : List Nat :=
  (List.range 288).map (fun i => if i ≤ 143 then 8 else if i ≤ 255 then 9 else if i ≤ 279 then 7 else 8)

/- kgz_gzip_decompress: the buffer, and the size that the file gives for its contents. -/
def gzipDecompress (mallocs : Mallocs) (data : List UInt8) : Except Stop (Buffer × Nat) :=
  match gzipHeader data with
  | none => .error .failed
  | some currentByte =>
    let decompressedSize := readU32 data (data.length - 8 + 4)
    let output : Buffer := ⟨mallocs.output, [], (decompressedSize + 1024) % 2 ^ 32⟩
    let stream : Bitstream := ⟨(data.drop currentByte).take (data.length - currentByte - 8), 0, 0, 0, 0⟩
    match huffmanTreeCreate fixedCodes (arenaInit mallocs.fixedArena 28672) with
    | .error stop => .error stop
    | .ok (fixedTree, _) =>
      match deflateDecompress ⟨fixedTree, stream, output, arenaInit mallocs.arena 45056⟩ with
      | .error stop => .error stop
      | .ok context => .ok (context.output, decompressedSize)

end EvalynOS.Kgz
