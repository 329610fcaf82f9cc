/-
  Link: encoding table and bit stream.

  `build_encoding_table` lists the leaves with their paths, packed into a byte from the right, and
  `find_encoded_byte` is the lookup of a path (`findEncodedByte_refines`). A path of at most eight
  bits survives `reverse_bits`: the low bits of the result, least significant first, are the path
  (`reverseBits_packMSB`). A bit stream is a buffer and a bit position (`streamAt`); writing ORs
  bits in at that position (`bitstreamPutBits_refines`) and reading returns the bit there
  (`bitstreamReadBit_refines`).
-/
import DistHuffman.Lib.Bits
import DistHuffman.Link.Text

namespace DistHuffman.Link

open DistHuffman.Lib DistHuffman.Codec

/-! ## Encoding table -/

/-- The bytes that the table is made for, with the paths to them. A byte other than 0 makes a node
    a leaf. -/
def leafPaths : Node → List (UInt8 × List Bool)
  | .null => []
  | .mk l r _ b =>
      if b ≠ 0 then [(b, [])]
      else (leafPaths l).map (fun e => (e.1, false :: e.2)) ++
        (leafPaths r).map fun e => (e.1, true :: e.2)

/-- The entry for a path below a node reached with code `c` of `n` bits. -/
def entryOf (c n : UInt8) (e : UInt8 × List Bool) : EncodingInfo :=
  ⟨e.1, packMSB c e.2, n + UInt8.ofNat e.2.length⟩

/-- The same for a leaf that carries a weight. -/
def infoOf (c n : UInt8) (e : (UInt8 × Nat) × List Bool) : EncodingInfo :=
  ⟨e.1.1, packMSB c e.2, n + UInt8.ofNat e.2.length⟩

theorem entryOf_cons (c n : UInt8) (b : Bool) (e : UInt8 × List Bool) :
    entryOf ((c <<< 1) ||| b.toUInt8) (n + 1) e = entryOf c n (e.1, b :: e.2) := by
  simp only [entryOf, packMSB, List.foldl_cons, List.length_cons, UInt8.ofNat_add]
  rw [UInt8.add_assoc, UInt8.add_comm 1]
  rfl

/-- `build_encoding_table` writes one entry for each path. -/
theorem buildEncodingTable_eq (tree : Node) (c n : UInt8) :
    buildEncodingTable tree c n = (leafPaths tree).map (entryOf c n) := by
  induction tree generalizing c n with
  | null => rfl
  | mk l r w b ihl ihr =>
    unfold buildEncodingTable leafPaths
    by_cases hb : b ≠ 0
    · rw [if_pos hb, if_pos hb]
      simp [entryOf, packMSB]
    · rw [if_neg hb, if_neg hb, ihl, ihr, List.map_append, List.map_map, List.map_map]
      congr 1
      · exact List.map_congr_left fun e _ => entryOf_cons c n false e
      · exact List.map_congr_left fun e _ => entryOf_cons c n true e

/-- `tree_count_leaves` counts the paths, in 16 bits. -/
theorem treeCountLeaves_eq (tree : Node) :
    treeCountLeaves tree = UInt16.ofNat (leafPaths tree).length := by
  induction tree with
  | null => rfl
  | mk l r w b ihl ihr =>
    unfold treeCountLeaves leafPaths
    by_cases hb : b ≠ 0
    · rw [if_pos hb, if_pos hb]
      rfl
    · rw [if_neg hb, if_neg hb, ihl, ihr, List.length_append, List.length_map, List.length_map,
        UInt16.ofNat_add]

/-- Leaves with byte 0 are passed over. -/
theorem leafPaths_embed (w : CodeTree (UInt8 × Nat) → UInt16) (t : CodeTree (UInt8 × Nat)) :
    leafPaths (embed w t) = (t.paths.filter (·.1.1 ≠ 0)).map fun e => (e.1.1, e.2) := by
  induction t with
  | leaf e =>
    by_cases h : e.1 = 0
    · simp [embed, leafPaths, CodeTree.paths, h]
    · simp [embed, leafPaths, CodeTree.paths, h]
  | node l r ihl ihr =>
    simp only [embed, leafPaths, CodeTree.paths, List.filter_append, List.map_append,
      List.filter_map, List.map_map]
    rw [if_neg (by decide), ihl, ihr, List.map_map, List.map_map]
    rfl

theorem buildEncodingTable_embed_filter (w : CodeTree (UInt8 × Nat) → UInt16)
    (t : CodeTree (UInt8 × Nat)) (c n : UInt8) :
    buildEncodingTable (embed w t) c n = (t.paths.filter (·.1.1 ≠ 0)).map (infoOf c n) := by
  rw [buildEncodingTable_eq, leafPaths_embed, List.map_map]
  rfl

theorem NonzeroBytes.filter_paths {t : CodeTree (UInt8 × Nat)} (h : NonzeroBytes t) :
    t.paths.filter (·.1.1 ≠ 0) = t.paths := by
  refine List.filter_eq_self.mpr fun e he => ?_
  have hleaf : e.1 ∈ t.leaves := by
    rw [← CodeTree.paths_map_fst]
    exact List.mem_map.mpr ⟨e, he, rfl⟩
  simpa using h e.1 hleaf

theorem buildEncodingTable_embed (w : CodeTree (UInt8 × Nat) → UInt16) (t : CodeTree (UInt8 × Nat))
    (h : NonzeroBytes t) (c n : UInt8) :
    buildEncodingTable (embed w t) c n = t.paths.map (infoOf c n) := by
  rw [buildEncodingTable_embed_filter, h.filter_paths]

/-- The size of the table is the number of its entries. -/
theorem treeCountLeaves_embed (w : CodeTree (UInt8 × Nat) → UInt16) (t : CodeTree (UInt8 × Nat)) :
    treeCountLeaves (embed w t) = UInt16.ofNat (t.paths.filter (·.1.1 ≠ 0)).length := by
  rw [treeCountLeaves_eq, leafPaths_embed, List.length_map]

/-- The code of a byte: the path of its leaf. -/
def codeOf (t : CodeTree (UInt8 × Nat)) (b : UInt8) : List Bool := (t.map Prod.fst).codeOf b

theorem codeOf_mem_paths {t : CodeTree (UInt8 × Nat)} {b : UInt8} (h : b ∈ t.leaves.map Prod.fst) :
    ∃ e ∈ t.paths, e.1.1 = b ∧ e.2 = codeOf t b := by
  have hm := CodeTree.codeOf_mem (t := t.map Prod.fst) (a := b)
    (by rw [CodeTree.leaves_map]; exact h)
  rw [CodeTree.paths_map] at hm
  obtain ⟨e, he, heq⟩ := List.mem_map.mp hm
  exact ⟨e, he, (Prod.mk.inj heq).1, (Prod.mk.inj heq).2⟩

theorem codeOf_length_le (t : CodeTree (UInt8 × Nat)) (b : UInt8) :
    (codeOf t b).length ≤ t.height := by
  by_cases h : b ∈ t.leaves.map Prod.fst
  · obtain ⟨e, he, -, hc⟩ := codeOf_mem_paths h
    rw [← hc]
    exact CodeTree.path_length_le he
  · unfold codeOf CodeTree.codeOf
    have hn : (t.map Prod.fst).paths.find? (·.1 == b) = none := by
      rw [List.find?_eq_none]
      intro e he hb
      rw [← CodeTree.leaves_map, ← CodeTree.paths_map_fst] at h
      exact h (List.mem_map.mpr ⟨e, he, by simpa using hb⟩)
    rw [hn]
    exact Nat.zero_le _

/-- The code that the table has for a byte: none for byte 0. -/
def tableCode (t : CodeTree (UInt8 × Nat)) (b : UInt8) : List Bool :=
  if b = 0 then [] else codeOf t b

theorem tableCode_of_ne {b : UInt8} (h : b ≠ 0) (t : CodeTree (UInt8 × Nat)) :
    tableCode t b = codeOf t b := if_neg h

theorem tableCode_length_le (t : CodeTree (UInt8 × Nat)) (b : UInt8) :
    (tableCode t b).length ≤ t.height := by
  unfold tableCode
  split
  · exact Nat.zero_le _
  · exact codeOf_length_le t b

/-- Looking a byte up in the table is looking its path up in the tree. -/
theorem findEncodedByte_tableCode (w : CodeTree (UInt8 × Nat) → UInt16)
    (t : CodeTree (UInt8 × Nat)) (hl : t.leaves.length < 65536) (b : UInt8) :
    findEncodedByte (buildEncodingTable (embed w t) 0 0) (treeCountLeaves (embed w t)) b =
      (packMSB 0 (tableCode t b), UInt8.ofNat (tableCode t b).length) := by
  have hsize : (t.paths.filter (·.1.1 ≠ 0)).length < 65536 := by
    refine Nat.lt_of_le_of_lt (List.length_filter_le _ _) ?_
    rwa [CodeTree.paths_length]
  unfold findEncodedByte
  rw [buildEncodingTable_embed_filter, treeCountLeaves_embed, toNat_ofNat_word hsize,
    List.take_of_length_le (by rw [List.length_map]), List.find?_map]
  simp only [Function.comp_def, infoOf]
  by_cases hb : b = 0
  · have hnone : (t.paths.filter (·.1.1 ≠ 0)).find? (·.1.1 == b) = none := by
      rw [List.find?_eq_none, hb]
      intro e he
      simpa using (List.mem_filter.mp he).2
    rw [hnone, tableCode, if_pos hb]
    rfl
  · have hkeep : (t.paths.filter (·.1.1 ≠ 0)).find? (·.1.1 == b) =
        t.paths.find? (·.1.1 == b) := by
      rw [List.find?_filter]
      congr 1
      funext e
      by_cases he : e.1.1 = b
      · simp [he, hb]
      · simp [he]
    rw [hkeep, tableCode_of_ne hb, codeOf, CodeTree.codeOf, CodeTree.paths_map, List.find?_map]
    simp only [Function.comp_def]
    cases t.paths.find? fun e => e.1.1 == b with
    | none => rfl
    | some e => simp [infoOf]

theorem NonzeroBytes.tableCode {t : CodeTree (UInt8 × Nat)} (h : NonzeroBytes t) (b : UInt8) :
    tableCode t b = codeOf t b := by
  by_cases hb : b = 0
  · -- byte 0 is no leaf, so its code is empty as well
    have hnone : (t.map Prod.fst).paths.find? (·.1 == b) = none := by
      rw [List.find?_eq_none]
      intro e he heq
      have hleaf : e.1 ∈ t.leaves.map Prod.fst := by
        rw [← CodeTree.leaves_map, ← CodeTree.paths_map_fst]
        exact List.mem_map.mpr ⟨e, he, rfl⟩
      obtain ⟨x, hx, hxe⟩ := List.mem_map.mp hleaf
      exact h x hx (by rw [hxe, eq_of_beq heq, hb])
    rw [Link.tableCode, if_pos hb, codeOf, CodeTree.codeOf, hnone]
  · exact tableCode_of_ne hb t

theorem findEncodedByte_refines (w : CodeTree (UInt8 × Nat) → UInt16) (t : CodeTree (UInt8 × Nat))
    (h : NonzeroBytes t) (hl : t.leaves.length < 65536) (b : UInt8) :
    findEncodedByte (buildEncodingTable (embed w t) 0 0) (treeCountLeaves (embed w t)) b =
      (packMSB 0 (codeOf t b), UInt8.ofNat (codeOf t b).length) := by
  rw [findEncodedByte_tableCode w t hl, h.tableCode]

/-! ## `reverse_bits` -/

/-- The three swaps of `reverse_bits`. -/
def swapBits (b : UInt8) : UInt8 :=
  let b := ((b &&& 0xF0) >>> 4) ||| ((b &&& 0x0F) <<< 4)
  let b := ((b &&& 0xCC) >>> 2) ||| ((b &&& 0x33) <<< 2)
  ((b &&& 0xAA) >>> 1) ||| ((b &&& 0x55) <<< 1)

theorem reverseBits_of_le {b n : UInt8} (h : n ≤ 8) :
    reverseBits b n = .ok (UInt8.ofNat ((swapBits b).toNat >>> (8 - n.toNat))) := if_pos h

theorem reverseBits_of_gt {b n : UInt8} (h : ¬ n ≤ 8) : reverseBits b n = .error .shift := if_neg h

theorem testBit_swapBits (b : UInt8) (i : Nat) (hi : i < 8) :
    (swapBits b).toNat.testBit i = b.toNat.testBit (7 - i) := by
  have h : ∀ i < 8, (swapBits b).toNat.testBit i = b.toNat.testBit (7 - i) := by
    revert b
    exact forall_byte (by decide +kernel)
  exact h i hi

theorem reverseBits_packMSB {p : List Bool} (hp : p.length ≤ 8) :
    ∃ r, reverseBits (packMSB 0 p) (UInt8.ofNat p.length) = .ok r ∧ lowBits p.length r = p := by
  have hn : (UInt8.ofNat p.length).toNat = p.length := toNat_ofNat_byte (by omega)
  refine ⟨_, reverseBits_of_le ?_, lowBits_eq rfl fun i hi => ?_⟩
  · rw [UInt8.le_iff_toNat_le, hn]
    exact hp
  · have hlt : (swapBits (packMSB 0 p)).toNat >>> (8 - p.length) < 256 :=
      Nat.lt_of_le_of_lt (Nat.shiftRight_le ..) (UInt8.toNat_lt _)
    rw [hn, toNat_ofNat_byte hlt, Nat.testBit_shiftRight, testBit_swapBits _ _ (by omega),
      testBit_packMSB _ _ _ (by omega) (by omega),
      show p.length - 1 - (7 - (8 - p.length + i)) = i by omega]

/-! ## Bit stream -/

/-- A stream over `buff` at bit `pos`. -/
def streamAt (buff : List UInt8) (pos : Nat) : Bitstream :=
  ⟨buff, UInt16.ofNat (pos / 8), UInt16.ofNat (pos % 8)⟩

theorem streamAt_zero (buff : List UInt8) : ({ buff := buff } : Bitstream) = streamAt buff 0 := rfl

theorem streamAt_bitnum (buff : List UInt8) (pos : Nat) :
    (streamAt buff pos).bitnum.toNat = pos % 8 :=
  toNat_ofNat_word (Nat.lt_trans (Nat.mod_lt _ (by decide)) (by decide))

theorem streamAt_buffIndex {buff : List UInt8} {pos : Nat} (h : pos / 8 < 65536) :
    (streamAt buff pos).buffIndex.toNat = pos / 8 := toNat_ofNat_word h

theorem advance_streamAt (buff : List UInt8) (pos : Nat) :
    (streamAt buff pos).advance = streamAt buff (pos + 1) := by
  have hb := streamAt_bitnum buff pos
  have h8 : (streamAt buff pos).bitnum + 1 = 8 ↔ pos % 8 = 7 := by
    rw [← UInt16.toNat_inj, UInt16.toNat_add, hb]
    simp only [UInt16.reduceToNat]
    omega
  unfold Bitstream.advance
  split
  · next h =>
    rw [h8] at h
    simp only [streamAt]
    rw [show (pos + 1) / 8 = pos / 8 + 1 by omega, show (pos + 1) % 8 = 0 by omega,
      UInt16.ofNat_add]
    rfl
  · next h =>
    rw [h8] at h
    simp only [streamAt]
    rw [show (pos + 1) / 8 = pos / 8 by omega, show (pos + 1) % 8 = pos % 8 + 1 by omega,
      UInt16.ofNat_add]
    rfl

theorem toUInt8_bitnum (buff : List UInt8) (pos : Nat) :
    (streamAt buff pos).bitnum.toUInt8 = UInt8.ofNat (pos % 8) := by
  rw [← UInt8.toNat_inj, UInt16.toNat_toUInt8, streamAt_bitnum]
  simp

theorem and_one_eq (b : UInt8) : b &&& 1 = (b.toNat.testBit 0).toUInt8 := by
  revert b
  exact forall_byte (by decide +kernel)

theorem bitstreamPutBit_refines {buff : List UInt8} {pos : Nat} (bit : UInt8)
    (hp : pos < 8 * buff.length) (hi : pos / 8 < 65536) :
    bitstreamPutBit (streamAt buff pos) bit =
      .ok (streamAt (orBit buff pos (bit.toNat.testBit 0)) (pos + 1)) := by
  have hlt : pos / 8 < buff.length := by omega
  have hbuff : (streamAt buff pos).buff = buff := rfl
  unfold bitstreamPutBit
  rw [streamAt_buffIndex hi, hbuff, load_of_lt hlt, ok_bind, store_of_lt _ hlt, ok_bind,
    toUInt8_bitnum, and_one_eq bit, pure_eq_ok]
  rw [show ({ streamAt buff pos with
        buff := buff.set (pos / 8) ((bit.toNat.testBit 0).toUInt8 <<< UInt8.ofNat (pos % 8) |||
          buff.getD (pos / 8) 0) } : Bitstream) =
      streamAt (orBit buff pos (bit.toNat.testBit 0)) pos from rfl, advance_streamAt]

theorem putBitsLoop_refines (n : Nat) (buff : List UInt8) (pos : Nat) (byte : UInt8)
    (hp : pos + n ≤ 8 * buff.length) (hi : pos + n ≤ 8 * 65536) :
    putBitsLoop n (streamAt buff pos) byte =
      .ok (streamAt (orBits buff pos (lowBits n byte)) (pos + n)) := by
  induction n generalizing buff pos byte with
  | zero => rfl
  | succ n ih =>
    rw [putBitsLoop, bitstreamPutBit_refines _ (by omega) (by omega), ok_bind,
      ih _ _ _ (by rw [orBit_length]; omega) (by omega), lowBits_succ, orBits]
    rw [show (byte &&& 1).toNat.testBit 0 = byte.toNat.testBit 0 by
        rw [UInt8.toNat_and, Nat.testBit_and]
        simp,
      show pos + 1 + n = pos + (n + 1) by omega]

theorem bitstreamPutBits_refines {p : List Bool} {r : UInt8} (hp : p.length ≤ 8)
    (hr : lowBits p.length r = p) {buff : List UInt8} {pos : Nat}
    (hb : pos + p.length ≤ 8 * buff.length) (hi : pos + p.length ≤ 8 * 65536) :
    bitstreamPutBits (streamAt buff pos) r (UInt8.ofNat p.length) =
      .ok (streamAt (orBits buff pos p) (pos + p.length)) := by
  unfold bitstreamPutBits
  rw [toNat_ofNat_byte (by omega), putBitsLoop_refines _ _ _ _ hb hi, hr]

theorem shiftRight_and_one (c : UInt8) (k : Nat) (hk : k < 8) :
    (c >>> UInt8.ofNat k) &&& 1 = (c.toNat.testBit k).toUInt8 := by
  rw [and_one_eq, UInt8.toNat_shiftRight, toNat_ofNat_byte (by omega), Nat.mod_eq_of_lt hk,
    Nat.testBit_shiftRight, Nat.add_zero]

theorem bitstreamReadBit_refines {buff : List UInt8} {pos : Nat} (hp : pos < 8 * buff.length)
    (hi : pos / 8 < 65536) :
    bitstreamReadBit (streamAt buff pos) =
      .ok ((bitAt buff pos).toUInt8, streamAt buff (pos + 1)) := by
  have hlt : pos / 8 < buff.length := by omega
  unfold bitstreamReadBit
  rw [streamAt_buffIndex hi, show (streamAt buff pos).buff = buff from rfl, load_of_lt hlt, ok_bind,
    toUInt8_bitnum, shiftRight_and_one _ _ (Nat.mod_lt _ (by decide)), advance_streamAt]
  rfl

end DistHuffman.Link
