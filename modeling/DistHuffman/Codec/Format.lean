/-
  The compressed block of `huffman.c`: tree text, encoding table, bit stream, and the two entry
  points `huffman_compress` and `huffman_inflate`.

  A pointer into a buffer is the list of the bytes from it to the end of the buffer. Reading or
  writing past that end is `Fault.bounds`. The data of `huffman_compress` comes with its length,
  so `data` is exactly those `data_size` bytes; `huffman_inflate` reads its block without looking
  at `data_size`, so there the two stay apart.
-/
import DistHuffman.Codec.Basic

namespace DistHuffman.Codec

/-- `buff[i]` -/
def load (buff : List UInt8) (i : Nat) : Except Fault UInt8 :=
  match buff[i]? with
  | some b => .ok b
  | none => .error .bounds

/-- `buff[i] = b` -/
def store (buff : List UInt8) (i : Nat) (b : UInt8) : Except Fault (List UInt8) :=
  if i < buff.length then .ok (buff.set i b) else .error .bounds

/-! ## Tree text -/

/-- `(**out_data) = b; (*out_data)++`, the write pointer being an index into the buffer. -/
def putByte (out : List UInt8 × Nat) (b : UInt8) : Except Fault (List UInt8 × Nat) := do
  let buff ← store out.1 out.2 b
  return (buff, out.2 + 1)

def serializeTreeNode : Node → List UInt8 × Nat → Except Fault (List UInt8 × Nat)
  | .null, out => putByte out 45
  | .mk l r _ b, out =>
      if b ≠ 0 then putByte out b
      else do
        let out ← putByte out 42
        let out ← serializeTreeNode l out
        serializeTreeNode r out

/-- `serialize_tree(tree, buff + pos)` -/
def serializeTree (tree : Node) (buff : List UInt8) (pos : Nat) : Except Fault (List UInt8) := do
  let out ← serializeTreeNode tree (buff, pos)
  return out.1

/-- The read pointer is the rest of the text. Every call reads a byte first, so the recursion is
    no deeper than the text is long and `fuel` is that length. -/
def deserializeTreeNode : Nat → Huffman → List UInt8 → Except Fault (Huffman × Node × List UInt8)
  | fuel + 1, h, c :: rest =>
      if c = 45 then .ok (h, .null, rest)
      else
        let n := treeAlloc h 0
        if c ≠ 42 then .ok (n.1, .mk .null .null n.2.weight c, rest)
        else do
          let l ← deserializeTreeNode fuel n.1 rest
          let r ← deserializeTreeNode fuel l.1 l.2.2
          return (r.1, .mk l.2.1 r.2.1 n.2.weight 0, r.2.2)
  | _, _, _ => .error .bounds

/-- `deserialize_tree`, with the number of bytes read. -/
def deserializeTree (h : Huffman) (data : List UInt8) : Except Fault (Huffman × Node × Nat) := do
  let r ← deserializeTreeNode data.length h data
  return (r.1, r.2.1, data.length - r.2.2.length)

/-! ## Encoding table -/

/-- `encoding_info_t` -/
structure EncodingInfo where
  byte : UInt8
  encodedByte : UInt8
  numBits : UInt8
  deriving DecidableEq, Repr

/-- The entries in the order they are written through `info_arr`. -/
def buildEncodingTable : Node → UInt8 → UInt8 → List EncodingInfo
  | .null, _, _ => []
  | .mk l r _ b, encodedByte, numBits =>
      if b ≠ 0 then [⟨b, encodedByte, numBits⟩]
      else
        buildEncodingTable l ((encodedByte <<< 1) ||| 0) (numBits + 1) ++
          buildEncodingTable r ((encodedByte <<< 1) ||| 1) (numBits + 1)

/-- `find_encoded_byte`: the code and `*out_num_bits`. -/
def findEncodedByte (infoArr : List EncodingInfo) (infoArrSize : UInt16) (b : UInt8) :
    UInt8 × UInt8 :=
  match (infoArr.take infoArrSize.toNat).find? (·.byte == b) with
  | some e => (e.encodedByte, e.numBits)
  | none => (0, 0)

/-! ## Bit stream -/

/-- `bitstream_t` -/
structure Bitstream where
  buff : List UInt8
  buffIndex : UInt16 := 0
  bitnum : UInt16 := 0
  deriving DecidableEq, Repr

/-- `bitnum++`, and on to the next byte after eight bits. -/
def Bitstream.advance (s : Bitstream) : Bitstream :=
  if s.bitnum + 1 = 8 then { s with bitnum := 0, buffIndex := s.buffIndex + 1 }
  else { s with bitnum := s.bitnum + 1 }

def bitstreamPutBit (s : Bitstream) (bit : UInt8) : Except Fault Bitstream := do
  let currentByte ← load s.buff s.buffIndex.toNat
  let buff ← store s.buff s.buffIndex.toNat
    (((bit &&& 1) <<< s.bitnum.toUInt8) ||| currentByte)
  return Bitstream.advance { s with buff := buff }

/-- The loop of `bitstream_put_bits`, over the remaining count. -/
def putBitsLoop : Nat → Bitstream → UInt8 → Except Fault Bitstream
  | 0, s, _ => .ok s
  | n + 1, s, byte => do
      let s ← bitstreamPutBit s (byte &&& 1)
      putBitsLoop n s (byte >>> 1)

def bitstreamPutBits (s : Bitstream) (byte numBits : UInt8) : Except Fault Bitstream :=
  putBitsLoop numBits.toNat s byte

/-- The shift count `8 - num_bits` is an `int`; shifting by a negative count is a fault. -/
def reverseBits (b numBits : UInt8) : Except Fault UInt8 :=
  let b := ((b &&& 0xF0) >>> 4) ||| ((b &&& 0x0F) <<< 4)
  let b := ((b &&& 0xCC) >>> 2) ||| ((b &&& 0x33) <<< 2)
  let b := ((b &&& 0xAA) >>> 1) ||| ((b &&& 0x55) <<< 1)
  if numBits ≤ 8 then .ok (UInt8.ofNat (b.toNat >>> (8 - numBits.toNat))) else .error .shift

def bitstreamReadBit (s : Bitstream) : Except Fault (UInt8 × Bitstream) := do
  let b ← load s.buff s.buffIndex.toNat
  return ((b >>> s.bitnum.toUInt8) &&& 1, s.advance)

/-! ## Compression -/

/-- One round of `compress_data`: `total_bits` and the stream. -/
def compressStep (infoArr : List EncodingInfo) (infoArrSize : UInt16) (s : UInt16 × Bitstream)
    (b : UInt8) : Except Fault (UInt16 × Bitstream) := do
  let e := findEncodedByte infoArr infoArrSize b
  let encodedByte ← reverseBits e.1 e.2
  let stream ← bitstreamPutBits s.2 encodedByte e.2
  return (s.1 + e.2.toUInt16, stream)

/-- `compress_data`, with the bytes it leaves behind `out_data`. -/
def compressData (infoArr : List EncodingInfo) (infoArrSize : UInt16) (data out : List UInt8) :
    Except Fault (UInt16 × List UInt8) := do
  let s ← data.foldlM (compressStep infoArr infoArrSize) (0, { buff := out })
  return (s.1, s.2.buff)

/-- `huffman_compress(data, data_size, out_data)`. -/
def huffmanCompress (data out : List UInt8) : Except Fault (List UInt8) := do
  let q := buildQueue {} data
  let t ← buildTree q.1 q.2
  if treeMaxSize < t.1.treePtr then throw .treePool
  if queueMaxSize < t.1.queuePtr then throw .queuePool
  let tree := t.2
  let treeSz := treeGetSize tree
  let out ← store out 0 (UInt8.ofNat treeSz)
  let out ← serializeTree tree out 3
  let encodingTableSize := treeCountLeaves tree
  let encodingTable := buildEncodingTable tree 0 0
  let c ← compressData encodingTable encodingTableSize data (out.drop (3 + treeSz))
  let numBits := c.1
  let out := out.take (3 + treeSz) ++ c.2
  let out ← store out 1 (numBits >>> 8).toUInt8
  store out 2 numBits.toUInt8

/-! ## Inflation -/

/-- The walk of `deserialize_next_char` from `curr`: the character, the stream and
    `*num_bits`. -/
def deserializeNextChar : Node → Bitstream → UInt8 → Except Fault (UInt8 × Bitstream × UInt8)
  | .null, _, _ => .error .nullNode
  | .mk l r _ _, s, numBits => do
      let b ← bitstreamReadBit s
      if b.1 = 0 then
        if l = .null then return (63, b.2, numBits + 1)
        else if l.byte ≠ 0 then return (l.byte, b.2, numBits + 1)
        else deserializeNextChar l b.2 (numBits + 1)
      else
        if r = .null then return (63, b.2, numBits + 1)
        else if r.byte ≠ 0 then return (r.byte, b.2, numBits + 1)
        else deserializeNextChar r b.2 (numBits + 1)

/-- The loop of `inflate_data`. A round reads at least one bit of `s.buff`, so
    `8 * s.buff.length` rounds are enough. -/
def inflateLoop (tree : Node) (dataSize totalBits : UInt16) :
    Nat → UInt16 → Bitstream → List UInt8 × Nat → Except Fault (List UInt8 × Nat)
  | 0, _, _, _ => .error .bounds
  | fuel + 1, bitsRead, s, out =>
      if bitsRead < totalBits ∧ s.buffIndex < dataSize then do
        let c ← deserializeNextChar tree s 0
        let out ← putByte out c.1
        inflateLoop tree dataSize totalBits fuel (bitsRead + c.2.2.toUInt16) c.2.1 out
      else .ok out

/-- `inflate_data`, with the number of bytes it writes. -/
def inflateData (tree : Node) (data : List UInt8) (dataSize totalBits : UInt16)
    (out : List UInt8) : Except Fault (List UInt8 × Nat) :=
  inflateLoop tree dataSize totalBits (8 * data.length + 1) 0 { buff := data } (out, 0)

/-- `huffman_inflate(data, data_size, out_data)`, with the number of bytes it writes. The encoding
    table it also builds is never read. -/
def huffmanInflate (data : List UInt8) (dataSize : UInt16) (out : List UInt8) :
    Except Fault (List UInt8 × Nat) := do
  let treeSize ← load data 0
  let hi ← load data 1
  let lo ← load data 2
  let numBits := (hi.toUInt16 <<< 8) ||| lo.toUInt16
  let t ← deserializeTree {} (data.drop 3)
  if treeSize.toNat < t.1.treePtr then throw .treePool
  if t.2.1 = .null then throw .nullNode
  inflateData t.2.1 (data.drop (3 + t.2.2)) dataSize numBits out

/-! The block of `huffman/main.c`, there and back. -/

example :
    (do
      let out ← huffmanCompress
        [65, 66, 67, 68, 68, 70, 68, 68, 68, 68, 68, 68, 70, 69, 69, 69, 69, 69]
        (List.replicate 64 0)
      huffmanInflate out 18 (List.replicate 20 7)) =
    .ok ([65, 66, 67, 68, 68, 70, 68, 68, 68, 68, 68, 68, 70, 69, 69, 69, 69, 69, 7, 7], 18) := by
  decide +kernel

end DistHuffman.Codec
