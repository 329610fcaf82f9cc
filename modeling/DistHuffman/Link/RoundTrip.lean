/-
  Link: `huffman_compress` and `huffman_inflate` against the code tree of the block.

  * `huffmanCompress_refines`: inside its limits the compressed block is the three header bytes, the
    tree text, and the block's bit string OR-ed into what the buffer held behind them.
  * `huffmanInflate_refines`: on a header, a tree text and a payload that starts with the bit string
    of a message, inflation writes that message.
  * `huffman_roundtrip`: compressing into a cleared buffer and inflating gives the block back.
-/
import DistHuffman.Link.Stream

namespace DistHuffman.Link

open DistHuffman.Lib DistHuffman.Codec

/-- The bit string of a message under the codes of a tree. -/
def bitsOf (t : CodeTree (UInt8 × Nat)) (msg : List UInt8) : List Bool := msg.flatMap (codeOf t)

theorem bitsOf_cons (t : CodeTree (UInt8 × Nat)) (b : UInt8) (msg : List UInt8) :
    bitsOf t (b :: msg) = codeOf t b ++ bitsOf t msg := rfl

/-- Depth of the deepest leaf below a node. -/
def nodeDepth : Node → Nat
  | .null => 0
  | .mk l r _ b => if b ≠ 0 then 0 else max (nodeDepth l) (nodeDepth r) + 1

theorem nodeDepth_embed (w : CodeTree (UInt8 × Nat) → UInt16) (t : CodeTree (UInt8 × Nat))
    (h : NonzeroBytes t) : nodeDepth (embed w t) = t.height := by
  induction t with
  | leaf e =>
    rw [embed, nodeDepth, if_pos (h e (by simp [CodeTree.leaves]))]
    rfl
  | node l r ihl ihr =>
    rw [embed, nodeDepth, if_neg (by decide), ihl h.left, ihr h.right]
    rfl

/-- Number of bits the encoding table of `tree` spends on `data`. -/
def encodedBits (tree : Node) (data : List UInt8) : Nat :=
  (data.map fun b =>
    (findEncodedByte (buildEncodingTable tree 0 0) (treeCountLeaves tree) b).2.toNat).sum

theorem encodedBits_embed (w : CodeTree (UInt8 × Nat) → UInt16) (t : CodeTree (UInt8 × Nat))
    (h : NonzeroBytes t) (hl : t.leaves.length < 65536) (hd : t.height ≤ 8) (data : List UInt8) :
    encodedBits (embed w t) data = (bitsOf t data).length := by
  unfold encodedBits bitsOf
  rw [List.length_flatMap]
  congr 1
  refine List.map_congr_left fun b _ => ?_
  have := codeOf_length_le t b
  rw [findEncodedByte_refines w t h hl, toNat_ofNat_byte (by omega)]

/-! ## Compression -/

section Table

/-! What `compress_data` writes depends on the codes in the table only. -/

variable {info : List EncodingInfo} {size : UInt16} {code : UInt8 → List Bool}
  (hfind : ∀ b, findEncodedByte info size b = (packMSB 0 (code b), UInt8.ofNat (code b).length))
  (h8 : ∀ b, (code b).length ≤ 8)

include hfind h8

theorem compressStep_refines (b : UInt8) {buff : List UInt8} {total pos : Nat}
    (hb : pos + (code b).length ≤ 8 * buff.length) (hi : pos + (code b).length ≤ 8 * 65536) :
    compressStep info size (UInt16.ofNat total, streamAt buff pos) b =
      .ok (UInt16.ofNat (total + (code b).length),
        streamAt (orBits buff pos (code b)) (pos + (code b).length)) := by
  have hlen := h8 b
  obtain ⟨r, hr, hlow⟩ := reverseBits_packMSB hlen
  unfold compressStep
  simp only [hfind]
  rw [hr, ok_bind, bitstreamPutBits_refines hlen hlow hb hi, ok_bind, UInt16.ofNat_add]
  congr 3
  rw [← UInt16.toNat_inj, UInt8.toNat_toUInt16, toNat_ofNat_byte (by omega),
    toNat_ofNat_word (Nat.lt_of_le_of_lt hlen (by decide))]

theorem compressFold_refines (msg : List UInt8) {buff : List UInt8} {total pos : Nat}
    (hb : pos + (msg.flatMap code).length ≤ 8 * buff.length)
    (hi : pos + (msg.flatMap code).length ≤ 8 * 65536) :
    msg.foldlM (compressStep info size) (UInt16.ofNat total, streamAt buff pos) =
      .ok (UInt16.ofNat (total + (msg.flatMap code).length),
        streamAt (orBits buff pos (msg.flatMap code)) (pos + (msg.flatMap code).length)) := by
  induction msg generalizing buff total pos with
  | nil => rfl
  | cons b msg ih =>
    rw [List.flatMap_cons, List.length_append] at hb hi
    rw [List.foldlM_cons, compressStep_refines hfind h8 b (by omega) (by omega), ok_bind,
      ih (by rw [orBits_length]; omega) (by omega), List.flatMap_cons, orBits_append,
      List.length_append]
    simp only [Nat.add_assoc]

theorem compressData_refines (msg : List UInt8) {out : List UInt8}
    (hb : (msg.flatMap code).length ≤ 8 * out.length)
    (hi : (msg.flatMap code).length ≤ 8 * 65536) :
    compressData info size msg out =
      .ok (UInt16.ofNat (msg.flatMap code).length, orBits out 0 (msg.flatMap code)) := by
  unfold compressData
  rw [streamAt_zero, show (0 : UInt16) = UInt16.ofNat 0 from rfl,
    compressFold_refines hfind h8 msg (by omega) (by omega), ok_bind, Nat.zero_add]
  rfl

end Table

/-- The three header bytes: tree size and bit count, high byte first. -/
def header (treeSz : Nat) (numBits : UInt16) : List UInt8 :=
  [UInt8.ofNat treeSz, (numBits >>> 8).toUInt8, numBits.toUInt8]

/-- The compressed block with code tree `t`, in a buffer that held `out`. -/
def blockOf (t : CodeTree (UInt8 × Nat)) (data out : List UInt8) : List UInt8 :=
  header t.size (UInt16.ofNat (bitsOf t data).length) ++ text (embed weight16 t) ++
    orBits (out.drop (3 + t.size)) 0 (bitsOf t data)

/-- The bits that `compress_data` writes for a message: none for byte 0. -/
def tableBits (t : CodeTree (UInt8 × Nat)) (msg : List UInt8) : List Bool :=
  msg.flatMap (tableCode t)

/-- The same for any bytes. The payload begins `t.size` bytes behind the header, over the end of the
    text where that is longer. -/
def writtenBlock (t : CodeTree (UInt8 × Nat)) (data out : List UInt8) : List UInt8 :=
  header t.size (UInt16.ofNat (tableBits t data).length) ++ (text (embed weight16 t)).take t.size ++
    orBits ((text (embed weight16 t)).drop t.size ++
      out.drop (3 + (text (embed weight16 t)).length)) 0 (tableBits t data)

theorem NonzeroBytes.tableBits {t : CodeTree (UInt8 × Nat)} (h : NonzeroBytes t)
    (msg : List UInt8) : tableBits t msg = bitsOf t msg :=
  congrArg (msg.flatMap ·) (funext h.tableCode)

theorem NonzeroBytes.writtenBlock {t : CodeTree (UInt8 × Nat)} (h : NonzeroBytes t)
    (data out : List UInt8) : writtenBlock t data out = blockOf t data out := by
  have htext := text_embed_length weight16 t h
  rw [Link.writtenBlock, blockOf, h.tableBits, List.take_of_length_le (Nat.le_of_eq htext),
    List.drop_eq_nil_of_le (Nat.le_of_eq htext), List.nil_append, htext]

/-- Length of the compressed block: header, one byte for each node, and the payload. -/
def blockLength (t : CodeTree (UInt8 × Nat)) (data : List UInt8) : Nat :=
  3 + t.size + ((bitsOf t data).length + 7) / 8

theorem codeTree_nonzero {data : List UInt8} (hne : data ≠ []) (h0 : ∀ b ∈ data, b ≠ 0) :
    NonzeroBytes (codeTree data) := fun e he =>
  h0 e.1 ((mem_codeTree_bytes hne e.1).mp (List.mem_map.mpr ⟨e, he, rfl⟩))

theorem codeTree_leaves_lt {data : List UInt8} (hne : data ≠ []) (hn : data.length < 65536) :
    (codeTree data).leaves.length < 65536 := by
  rw [codeTree_leaves_length hne]
  exact Nat.lt_of_le_of_lt (List.dedup_sublist data).length_le hn

theorem codeTree_size {data : List UInt8} (hne : data ≠ []) :
    (codeTree data).size = 2 * data.dedup.length - 1 := by
  have := (codeTree data).size_eq
  rw [codeTree_leaves_length hne] at this
  omega

/-- The text fits its place but for the two bytes that a leaf with byte 0 takes more. -/
theorem text_codeTree_length {data : List UInt8} (hne : data ≠ []) :
    (text (embed weight16 (codeTree data))).length =
      (codeTree data).size + if 0 ∈ data then 2 else 0 := by
  rw [text_embed_length_add, (codeTree_bytes_nodup hne).count]
  simp only [mem_codeTree_bytes hne]
  split <;> rfl

/-- What `huffman_compress` does once the tree is built and both pools were large enough. -/
theorem huffmanCompress_writes {data out : List UInt8} (hne : data ≠ [])
    (hn : data.length < 65536) (hk : data.dedup.length ≤ 30) (hd : (codeTree data).height ≤ 8)
    (hi : (tableBits (codeTree data) data).length ≤ 8 * 65536)
    (htext : 3 + (text (embed weight16 (codeTree data))).length ≤ out.length)
    (hroom : 3 + (codeTree data).size + ((tableBits (codeTree data) data).length + 7) / 8 ≤
      out.length) :
    huffmanCompress data out = .ok (writtenBlock (codeTree data) data out) := by
  have hsize := text_codeTree_length hne
  set t := codeTree data with ht
  set txt := text (embed weight16 t) with htxt
  have hleaves : t.leaves.length < 65536 := codeTree_leaves_lt hne hn
  have hle : t.size ≤ txt.length := by omega
  obtain ⟨x0, x1, x2, rest, rfl⟩ : ∃ x0 x1 x2 rest, out = x0 :: x1 :: x2 :: rest := by
    match out, hroom with
    | x0 :: x1 :: x2 :: rest, _ => exact ⟨x0, x1, x2, rest, rfl⟩
    | [_, _], h => simp only [List.length_cons, List.length_nil] at h; omega
    | [_], h => simp only [List.length_cons, List.length_nil] at h; omega
    | [], h => simp only [List.length_nil] at h; omega
  simp only [List.length_cons] at hroom htext
  have hser : serializeTree (embed weight16 t) (UInt8.ofNat t.size :: x1 :: x2 :: rest) 3 =
      .ok (UInt8.ofNat t.size :: x1 :: x2 :: (txt ++ rest.drop txt.length)) := by
    unfold serializeTree
    rw [serializeTreeNode_refines _ _ _ (by simp only [List.length_cons]; omega), ok_bind,
      pure_eq_ok, overlay, ← htxt, Nat.add_comm 3 txt.length]
    rfl
  -- the payload goes over what the text has beyond `t.size` bytes
  have hdrop : (UInt8.ofNat t.size :: x1 :: x2 :: (txt ++ rest.drop txt.length)).drop
      (3 + t.size) = txt.drop t.size ++ rest.drop txt.length := by
    rw [Nat.add_comm, ← List.drop_append_of_le_length hle]
    rfl
  have htake : (UInt8.ofNat t.size :: x1 :: x2 :: (txt ++ rest.drop txt.length)).take
      (3 + t.size) = UInt8.ofNat t.size :: x1 :: x2 :: txt.take t.size := by
    rw [Nat.add_comm, ← List.take_append_of_le_length hle]
    rfl
  unfold huffmanCompress
  simp only [buildTree_refines hne hn, ← ht, ok_bind, treeGetSize_embed]
  rw [if_neg (by simp only [pools, treeMaxSize, alphabetSize]; omega),
    if_neg (by simp only [pools, queueMaxSize, alphabetSize]; omega), store_of_lt _ (by simp),
    ok_bind, List.set_cons_zero, hser, ok_bind, hdrop, htake,
    compressData_refines (findEncodedByte_tableCode weight16 t hleaves)
      (fun b => Nat.le_trans (tableCode_length_le t b) hd) data
      (by
        unfold tableBits at hroom
        rw [List.length_append, List.length_drop, List.length_drop]
        omega) hi, ok_bind, store_of_lt _ (by simp), ok_bind, store_of_lt _ (by simp)]
  unfold writtenBlock
  rw [show (x0 :: x1 :: x2 :: rest).drop (3 + (text (embed weight16 t)).length) =
    rest.drop txt.length by rw [Nat.add_comm]; rfl]
  rfl

/-- Without byte 0 the text ends where the payload begins. -/
theorem huffmanCompress_refines {data out : List UInt8} (hne : data ≠ [])
    (hn : data.length < 65536) (h0 : ∀ b ∈ data, b ≠ 0) (hk : data.dedup.length ≤ 30)
    (hd : (codeTree data).height ≤ 8) (hi : (bitsOf (codeTree data) data).length ≤ 8 * 65536)
    (hroom : blockLength (codeTree data) data ≤ out.length) :
    huffmanCompress data out = .ok (blockOf (codeTree data) data out) := by
  have hnz := codeTree_nonzero hne h0
  unfold blockLength at hroom
  rw [← hnz.writtenBlock]
  rw [← hnz.tableBits] at hi hroom
  refine huffmanCompress_writes hne hn hk hd hi ?_ hroom
  rw [text_embed_length weight16 _ hnz]
  omega

/-! ## Inflation -/

/-- The bits of `buff` from `pos` on are `p`. -/
def BitsAt (buff : List UInt8) (pos : Nat) (p : List Bool) : Prop :=
  ∀ j, j < p.length → bitAt buff (pos + j) = p.getD j false

theorem BitsAt.cons {buff : List UInt8} {pos : Nat} {b : Bool} {p : List Bool}
    (h : BitsAt buff pos (b :: p)) : bitAt buff pos = b ∧ BitsAt buff (pos + 1) p := by
  refine ⟨by simpa using h 0 (by simp), fun j hj => ?_⟩
  have := h (j + 1) (by simpa using hj)
  rw [show pos + (j + 1) = pos + 1 + j by omega] at this
  simpa using this

theorem BitsAt.append {buff : List UInt8} {pos : Nat} {p q : List Bool}
    (h : BitsAt buff pos (p ++ q)) : BitsAt buff pos p ∧ BitsAt buff (pos + p.length) q := by
  induction p generalizing pos with
  | nil => exact ⟨fun j hj => by simp at hj, h⟩
  | cons b p ih =>
    obtain ⟨hb, ht⟩ := BitsAt.cons h
    obtain ⟨h1, h2⟩ := ih ht
    constructor
    · intro j hj
      cases j with
      | zero => simpa using hb
      | succ j =>
        rw [show pos + (j + 1) = pos + 1 + j by omega]
        simpa using h1 j (by simpa using hj)
    · rw [List.length_cons, show pos + (p.length + 1) = pos + 1 + p.length by omega]
      exact h2

/-- What happens at the child that a bit has chosen: it is the leaf `e`, or `e` is found by walking
    on from it. -/
theorem nextChar_child (w : CodeTree (UInt8 × Nat) → UInt16) {c : CodeTree (UInt8 × Nat)}
    (hc : NonzeroBytes c) {e : UInt8 × Nat} {q : List Bool} (hq : (e, q) ∈ c.paths)
    {s s' : Bitstream} {n n' : UInt8} (hleaf : q = [] → s = s' ∧ n = n')
    (hwalk : q ≠ [] → deserializeNextChar (embed w c) s n = .ok (e.1, s', n')) :
    (if embed w c = .null then (pure (63, s, n) : Except Fault (UInt8 × Bitstream × UInt8))
      else if (embed w c).byte ≠ 0 then pure ((embed w c).byte, s, n)
      else deserializeNextChar (embed w c) s n) = .ok (e.1, s', n') := by
  rw [if_neg (embed_ne_null w c)]
  cases c with
  | leaf e' =>
    simp only [CodeTree.paths, List.mem_singleton, Prod.mk.injEq] at hq
    obtain ⟨rfl, hnil⟩ := hq
    obtain ⟨rfl, rfl⟩ := hleaf hnil
    rw [embed, Node.byte, if_pos (hc e (by simp [CodeTree.leaves])), pure_eq_ok]
  | node cl cr =>
    rw [if_neg (by simp [embed, Node.byte]), hwalk (CodeTree.path_ne_nil hq)]

/-- Reading one character walks down the path that stands in the buffer. -/
theorem deserializeNextChar_refines (w : CodeTree (UInt8 × Nat) → UInt16)
    {t : CodeTree (UInt8 × Nat)}
    (h : NonzeroBytes t) {e : UInt8 × Nat} {p : List Bool} (hp : (e, p) ∈ t.paths) (hne : p ≠ [])
    {buff : List UInt8} {pos : Nat} (hbits : BitsAt buff pos p)
    (hb : pos + p.length ≤ 8 * buff.length) (hi : pos + p.length ≤ 8 * 65536) (n : UInt8) :
    deserializeNextChar (embed w t) (streamAt buff pos) n =
      .ok (e.1, streamAt buff (pos + p.length), n + UInt8.ofNat p.length) := by
  induction t generalizing p pos n with
  | leaf e' =>
    simp only [CodeTree.paths, List.mem_singleton, Prod.mk.injEq] at hp
    exact absurd hp.2 hne
  | node l r ihl ihr =>
    have hcount : ∀ q : List Bool,
        n + UInt8.ofNat (q.length + 1) = n + 1 + UInt8.ofNat q.length := by
      intro q
      rw [Nat.add_comm, UInt8.ofNat_add, ← UInt8.add_assoc]
      rfl
    have hend : ∀ q : List Bool, q = [] →
        streamAt buff (pos + 1) = streamAt buff (pos + 1 + q.length) ∧
          n + 1 = n + 1 + UInt8.ofNat q.length := by
      rintro q rfl
      exact ⟨rfl, (UInt8.add_zero _).symm⟩
    simp only [CodeTree.paths, List.mem_append, List.mem_map, Prod.mk.injEq] at hp
    rw [embed, deserializeNextChar]
    -- the bit at `pos` chooses the child
    rcases hp with ⟨⟨e', q⟩, hq, rfl, rfl⟩ | ⟨⟨e', q⟩, hq, rfl, rfl⟩
    · obtain ⟨hbit, hrest⟩ := hbits.cons
      simp only [List.length_cons] at hb hi ⊢
      rw [bitstreamReadBit_refines (by omega) (by omega), ok_bind, hbit,
        if_pos (show false.toUInt8 = 0 from rfl), hcount, Nat.add_comm q.length, ← Nat.add_assoc]
      exact nextChar_child w h.left hq (hend q) fun hq' =>
        ihl h.left hq hq' hrest (by omega) (by omega) (n + 1)
    · obtain ⟨hbit, hrest⟩ := hbits.cons
      simp only [List.length_cons] at hb hi ⊢
      rw [bitstreamReadBit_refines (by omega) (by omega), ok_bind, hbit,
        if_neg (show ¬ true.toUInt8 = 0 by decide), hcount, Nat.add_comm q.length,
        ← Nat.add_assoc]
      exact nextChar_child w h.right hq (hend q) fun hq' =>
        ihr h.right hq hq' hrest (by omega) (by omega) (n + 1)

/-- The next character when the code of `b` stands in the buffer. -/
theorem deserializeNextChar_codeOf (w : CodeTree (UInt8 × Nat) → UInt16)
    {l r : CodeTree (UInt8 × Nat)} (h : NonzeroBytes (.node l r)) {b : UInt8}
    (hb : b ∈ (CodeTree.node l r).leaves.map Prod.fst) {buff : List UInt8} {pos : Nat}
    (hcode : BitsAt buff pos (codeOf (.node l r) b))
    (hroom : pos + (codeOf (.node l r) b).length ≤ 8 * buff.length)
    (hi : pos + (codeOf (.node l r) b).length ≤ 8 * 65536) :
    deserializeNextChar (embed w (.node l r)) (streamAt buff pos) 0 =
      .ok (b, streamAt buff (pos + (codeOf (.node l r) b).length),
        UInt8.ofNat (codeOf (.node l r) b).length) := by
  obtain ⟨e, he, heb, hec⟩ := codeOf_mem_paths hb
  have hne := CodeTree.path_ne_nil he
  rw [hec] at hne
  have hpath : (e.1, codeOf (.node l r) b) ∈ (CodeTree.node l r).paths := by
    rw [← hec]
    exact he
  rw [deserializeNextChar_refines w h hpath hne hcode hroom hi 0, heb, UInt8.zero_add]

theorem codeOf_length_pos {l r : CodeTree (UInt8 × Nat)} {b : UInt8}
    (hb : b ∈ (CodeTree.node l r).leaves.map Prod.fst) : 0 < (codeOf (.node l r) b).length := by
  obtain ⟨e, he, -, hec⟩ := codeOf_mem_paths hb
  rw [← hec]
  exact List.length_pos_iff.mpr (CodeTree.path_ne_nil he)

/-- The loop, from bit `pos` with the message `msg` still to come. -/
theorem inflateLoop_refines (w : CodeTree (UInt8 × Nat) → UInt16) {l r : CodeTree (UInt8 × Nat)}
    (h : NonzeroBytes (.node l r)) (hd : (CodeTree.node l r).height ≤ 8) (msg : List UInt8)
    (hmsg : ∀ b ∈ msg, b ∈ (CodeTree.node l r).leaves.map Prod.fst)
    {buff dst : List UInt8} {pos j fuel : Nat} {m : UInt16}
    (hbits : BitsAt buff pos (bitsOf (.node l r) msg))
    (hb : pos + (bitsOf (.node l r) msg).length ≤ 8 * buff.length)
    (hi : pos + (bitsOf (.node l r) msg).length < 65536)
    (hm : pos + (bitsOf (.node l r) msg).length ≤ 8 * m.toNat)
    (hj : j + msg.length ≤ dst.length) (hf : msg.length < fuel) :
    inflateLoop (embed w (.node l r)) m
        (UInt16.ofNat (pos + (bitsOf (.node l r) msg).length)) fuel (UInt16.ofNat pos)
        (streamAt buff pos) (dst, j) =
      .ok (overlay dst j msg, j + msg.length) := by
  induction msg generalizing pos dst j fuel with
  | nil =>
    obtain ⟨fuel, rfl⟩ : ∃ k, fuel = k + 1 := ⟨fuel - 1, by omega⟩
    rw [inflateLoop, if_neg (by simp [bitsOf]), overlay_nil]
    rfl
  | cons b msg ih =>
    obtain ⟨fuel, rfl⟩ : ∃ k, fuel = k + 1 := ⟨fuel - 1, by omega⟩
    have hmem := hmsg b List.mem_cons_self
    have hlen8 := Nat.le_trans (codeOf_length_le (.node l r) b) hd
    have hpos := codeOf_length_pos hmem
    rw [bitsOf_cons] at hbits
    obtain ⟨hcode, hrest⟩ := hbits.append
    simp only [bitsOf_cons, List.length_append, List.length_cons] at hb hi hm hj hf ⊢
    have hguard : UInt16.ofNat pos <
          UInt16.ofNat (pos + ((codeOf (.node l r) b).length + (bitsOf (.node l r) msg).length)) ∧
        (streamAt buff pos).buffIndex < m := by
      constructor
      · rw [UInt16.lt_iff_toNat_lt, toNat_ofNat_word (by omega : pos < 65536),
          toNat_ofNat_word hi]
        omega
      · rw [UInt16.lt_iff_toNat_lt, streamAt_buffIndex (by omega)]
        omega
    have hchar := deserializeNextChar_codeOf w h hmem hcode (by omega) (by omega)
    have hnext : UInt16.ofNat pos + (UInt8.ofNat (codeOf (.node l r) b).length).toUInt16 =
        UInt16.ofNat (pos + (codeOf (.node l r) b).length) := by
      rw [UInt16.ofNat_add]
      congr 1
      rw [← UInt16.toNat_inj, UInt8.toNat_toUInt16, toNat_ofNat_byte (by omega),
        toNat_ofNat_word (Nat.lt_of_le_of_lt hlen8 (by decide))]
    rw [inflateLoop, if_pos hguard, hchar, ok_bind, putByte_refines _ (by omega), ok_bind, hnext,
      ← Nat.add_assoc,
      ih (fun c hc => hmsg c (by simp [hc])) hrest (by omega) (by omega) (by omega)
        (by rw [overlay_length (by simp; omega)]; omega) (by omega),
      show j + 1 = j + [b].length from rfl, overlay_overlay _ _ (by omega)]
    simp only [List.length_singleton, List.singleton_append, Nat.add_assoc, Nat.add_comm 1]

theorem pools_zero : ({} : Huffman) = pools 0 0 := rfl

theorem load_header {size i : Nat} {numBits : UInt16} {b : UInt8} (rest : List UInt8)
    (h : (header size numBits)[i]? = some b) : load (header size numBits ++ rest) i = .ok b := by
  refine load_of_getElem? ?_
  rw [List.getElem?_append_left (List.getElem?_eq_some_iff.mp h).1, h]

theorem drop_header (size : Nat) (numBits : UInt16) (rest : List UInt8) :
    (header size numBits ++ rest).drop 3 = rest := rfl

/-- Inflating a block whose payload starts with the bit string of `msg` writes `msg`. -/
theorem huffmanInflate_refines {l r : CodeTree (UInt8 × Nat)} (hplain : PlainBytes (.node l r))
    (hd : (CodeTree.node l r).height ≤ 8) (hsize : (CodeTree.node l r).size < 256)
    (msg : List UInt8)
    (hmsg : ∀ b ∈ msg, b ∈ (CodeTree.node l r).leaves.map Prod.fst) {payload dst : List UInt8}
    {m : UInt16} (hbits : BitsAt payload 0 (bitsOf (.node l r) msg))
    (hb : (bitsOf (.node l r) msg).length ≤ 8 * payload.length)
    (hi : (bitsOf (.node l r) msg).length < 65536)
    (hm : (bitsOf (.node l r) msg).length ≤ 8 * m.toNat) (hdst : msg.length ≤ dst.length)
    (hfuel : msg.length ≤ 8 * payload.length) :
    huffmanInflate
      (header (CodeTree.node l r).size (UInt16.ofNat (bitsOf (.node l r) msg).length) ++
        text (embed weight16 (.node l r)) ++ payload) m dst =
      .ok (overlay dst 0 msg, msg.length) := by
  have hwf := textWf_embed weight16 _ hplain
  have htext := text_embed_length weight16 _ hplain.nonzero
  unfold huffmanInflate
  rw [List.append_assoc, load_header _ (show _[0]? = some _ from rfl), ok_bind,
    load_header _ (show _[1]? = some _ from rfl), ok_bind,
    load_header _ (show _[2]? = some _ from rfl), ok_bind, drop_header, pools_zero,
    deserializeTree_text _ hwf, ok_bind]
  simp only [treeGetSize_embed, strip_embed, Nat.zero_add]
  rw [if_neg (by rw [toNat_ofNat_byte hsize]; simp [pools]), if_neg (embed_ne_null _ _),
    join_bytes]
  have hdrop : (header (CodeTree.node l r).size (UInt16.ofNat (bitsOf (.node l r) msg).length) ++
      (text (embed weight16 (.node l r)) ++ payload)).drop
        (3 + (text (embed weight16 (.node l r))).length) = payload := by
    rw [← List.drop_drop, drop_header, List.drop_left]
  unfold inflateData
  rw [hdrop, streamAt_zero]
  have hloop : inflateLoop (embed (fun _ => 0) (.node l r)) m
      (UInt16.ofNat (0 + (bitsOf (.node l r) msg).length)) (8 * payload.length + 1)
      (UInt16.ofNat 0) (streamAt payload 0) (dst, 0) = .ok (overlay dst 0 msg, 0 + msg.length) :=
    inflateLoop_refines (fun _ => 0) hplain.nonzero hd msg hmsg hbits (by omega) (by omega)
      (by omega) (by omega) (by omega)
  rw [Nat.zero_add, Nat.zero_add] at hloop
  exact hloop

/-! ## Round trip -/

theorem codeTree_node {data : List UInt8} (h2 : 2 ≤ data.dedup.length) (hne : data ≠ []) :
    ∃ l r, codeTree data = .node l r := by
  cases h : codeTree data with
  | leaf e =>
    have := codeTree_leaves_length hne
    rw [h] at this
    simp only [CodeTree.leaves, List.length_singleton] at this
    omega
  | node l r => exact ⟨l, r, rfl⟩

/-- Every byte of a block with a branching tree costs at least one bit. -/
theorem length_le_bitsOf {l r : CodeTree (UInt8 × Nat)} (msg : List UInt8)
    (hmsg : ∀ b ∈ msg, b ∈ (CodeTree.node l r).leaves.map Prod.fst) :
    msg.length ≤ (bitsOf (.node l r) msg).length := by
  induction msg with
  | nil => exact Nat.le_refl _
  | cons b msg ih =>
    have := ih fun c hc => hmsg c (by simp [hc])
    have hpos := codeOf_length_pos (hmsg b List.mem_cons_self)
    rw [bitsOf_cons, List.length_append, List.length_cons]
    omega

/-- Compressing a block into a cleared buffer and inflating the result gives the block back:
    exactly `data.length` bytes are written, and they are `data`. The limits are those of the
    program: both pools, codes of at most eight bits, a bit count that fits 16 bits, and room in
    the two buffers. -/
theorem huffman_roundtrip (data : List UInt8) (cap : Nat) (m : UInt16) (dst : List UInt8)
    (h : Huffman) (tree : Node) (hn : data.length < 65536) (h2 : 2 ≤ data.dedup.length)
    (hb : ∀ b ∈ data, b ≠ 0 ∧ b ≠ 42 ∧ b ≠ 45)
    (hbuild : buildTree (buildQueue {} data).1 (buildQueue {} data).2 = .ok (h, tree))
    (htree : h.treePtr ≤ treeMaxSize) (hqueue : h.queuePtr ≤ queueMaxSize)
    (hdepth : nodeDepth tree ≤ 8) (hbits : encodedBits tree data ≤ 65535)
    (hcap : 3 + treeGetSize tree + (encodedBits tree data + 7) / 8 ≤ cap)
    (hm : (encodedBits tree data + 7) / 8 ≤ m.toNat) (hdst : data.length ≤ dst.length) :
    ∃ out, huffmanCompress data (List.replicate cap 0) = .ok out ∧
      huffmanInflate out m dst = .ok (data ++ dst.drop data.length, data.length) := by
  have hne : data ≠ [] := by
    rintro rfl
    simp at h2
  have h0 : ∀ b ∈ data, b ≠ 0 := fun b hb' => (hb b hb').1
  have hnz := codeTree_nonzero hne h0
  rw [buildTree_refines hne hn] at hbuild
  obtain ⟨rfl, rfl⟩ := Prod.mk.inj (Except.ok.inj hbuild)
  have hk : data.dedup.length ≤ 30 := by
    simp only [pools, queueMaxSize, alphabetSize] at hqueue
    omega
  rw [nodeDepth_embed _ _ hnz] at hdepth
  rw [encodedBits_embed _ _ hnz (codeTree_leaves_lt hne hn) hdepth] at hbits hcap hm
  rw [treeGetSize_embed] at hcap
  refine ⟨_, huffmanCompress_refines hne hn h0 hk hdepth (by omega)
    (by rw [List.length_replicate]; exact hcap), ?_⟩
  have hmsg : ∀ b ∈ data, b ∈ (codeTree data).leaves.map Prod.fst :=
    fun b hb' => (mem_codeTree_bytes hne b).mpr hb'
  have hplain : PlainBytes (codeTree data) := fun e he =>
    hb e.1 ((mem_codeTree_bytes hne e.1).mp (List.mem_map.mpr ⟨e, he, rfl⟩))
  have hsize := codeTree_size hne
  obtain ⟨l, r, ht⟩ := codeTree_node h2 hne
  unfold blockOf
  rw [List.drop_replicate]
  rw [ht] at hdepth hbits hcap hm hmsg hplain hsize ⊢
  have hlen := length_le_bitsOf data hmsg
  set room := cap - (3 + (CodeTree.node l r).size) with hr
  have hpay : (orBits (List.replicate room 0) 0 (bitsOf (.node l r) data)).length = room := by
    rw [orBits_length, List.length_replicate]
  have hread : BitsAt (orBits (List.replicate room 0) 0 (bitsOf (.node l r) data)) 0
      (bitsOf (.node l r) data) := fun j _ => by
    rw [Nat.zero_add, bitAt_orBits_zero _ _ _ (by omega)]
  rw [huffmanInflate_refines hplain hdepth (by omega) data hmsg hread (by omega) (by omega)
    (by omega) hdst (by omega), overlay, List.take_zero, List.nil_append, Nat.zero_add]

theorem huffman_roundtrip_ABBC :
    ∃ out, huffmanCompress [65, 66, 66, 67] (List.replicate 16 0) = .ok out ∧
      huffmanInflate out 1 [9, 9, 9, 9, 9] = .ok ([65, 66, 66, 67, 9], 4) :=
  huffman_roundtrip [65, 66, 66, 67] 16 1 [9, 9, 9, 9, 9] ⟨5, 5, 5, 5⟩
    (.mk (.mk .null .null 2 66) (.mk (.mk .null .null 1 65) (.mk .null .null 1 67) 2 0) 4 0)
    (by decide) (by decide) (by decide +kernel) (by decide +kernel) (by decide) (by decide)
    (by decide)
    (by decide +kernel) (by decide +kernel) (by decide +kernel) (by decide)

end DistHuffman.Link
