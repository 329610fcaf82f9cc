/-
  Link: what `huffman_compress` leaves of the old contents of `out_data`. Header and tree text are
  stored, but `bitstream_put_bit` ORs each bit into the byte that is there, so wherever the payload
  has a zero, the bits behind the last one included, the old bit stays (`sameBlock_iff`). Only a
  block with byte 0 has something else under its payload: the last two bytes of the tree text.

  So the block does not depend on the buffer exactly when, from there on, all the bits that
  `num_bits` counts are ones. Without byte 0 and below 8192 bytes, where `num_bits` cannot wrap,
  these are the blocks of one byte repeated, which have no payload (`compress_ignores_buffer_iff`).
-/
import DistHuffman.Link.Size

namespace DistHuffman.Link

open DistHuffman.Lib DistHuffman.Codec

/-- `3 + tree_sz + ceil(num_bits / 8)`, from the block's own header. -/
def usedLength (block : List UInt8) : Nat :=
  3 + (block.getD 0 0).toNat + ((storedBits block).toNat + 7) / 8

/-- `huffman_compress` leaves the same compressed bytes in two buffers. -/
def SameBlock (data out out' : List UInt8) : Prop :=
  ∃ res res', huffmanCompress data out = .ok res ∧ huffmanCompress data out' = .ok res' ∧
    res.take (usedLength res) = res'.take (usedLength res')

/-- The compressed bytes do not depend on what the buffer held. A block within the limits of
    `huffman_compress` needs at most 62 bytes more than its data. -/
def BufferIrrelevant (data : List UInt8) : Prop :=
  ∀ out out' : List UInt8, 62 + data.length ≤ out.length → 62 + data.length ≤ out'.length →
    SameBlock data out out'

/-- Bytes of the tree text that lie under the payload. -/
def overrun (data : List UInt8) : Nat := if 0 ∈ data then 2 else 0

/-- Bytes of the payload, by the 16-bit count of its bits. -/
def payloadBytes (data : List UInt8) : Nat :=
  ((tableBits (codeTree data) data).length % 65536 + 7) / 8

/-- No old bit is left in the payload: behind the tree text it is ones only. -/
def OnesBehindText (data : List UInt8) : Prop :=
  ∀ j, 8 * overrun data ≤ j → j < 8 * payloadBytes data →
    (tableBits (codeTree data) data).getD j false = true

theorem payloadBytes_le (data : List UInt8) :
    payloadBytes data ≤ ((tableBits (codeTree data) data).length + 7) / 8 := by
  have := Nat.mod_le (tableBits (codeTree data) data).length 65536
  unfold payloadBytes
  omega

section Written

variable {data : List UInt8} (hne : data ≠ [])

include hne

theorem text_length_eq :
    (text (embed weight16 (codeTree data))).length = (codeTree data).size + overrun data :=
  text_codeTree_length hne

/-- Within both limits 62 bytes more than the data are enough for text and payload. -/
theorem written_room (hk : data.dedup.length ≤ 30) (hd : (codeTree data).height ≤ 8) :
    (tableBits (codeTree data) data).length ≤ 8 * data.length ∧
      3 + (codeTree data).size + overrun data ≤ 62 + data.length ∧
      3 + (codeTree data).size + ((tableBits (codeTree data) data).length + 7) / 8 ≤
        62 + data.length := by
  have hbits : (tableBits (codeTree data) data).length ≤ 8 * data.length :=
    Nat.le_trans (tableBits_length_le _ _) (Nat.mul_le_mul_right _ hd)
  have hsize := codeTree_size hne
  have hdistinct := (List.dedup_sublist data).length_le
  have hover : overrun data ≤ 2 := by
    unfold overrun
    split <;> decide
  have hpos : 0 < data.length := List.length_pos_iff.mpr hne
  omega

theorem huffmanCompress_written_iff {out : List UInt8} (hn : data.length < 65536)
    (hout : 62 + data.length ≤ out.length) (res : List UInt8) :
    huffmanCompress data out = .ok res ↔
      (data.dedup.length ≤ 30 ∧ (codeTree data).height ≤ 8) ∧
        res = writtenBlock (codeTree data) data out := by
  have hwrites : data.dedup.length ≤ 30 → (codeTree data).height ≤ 8 →
      huffmanCompress data out = .ok (writtenBlock (codeTree data) data out) := by
    intro hk hd
    obtain ⟨hbits, htext, hroom⟩ := written_room hne hk hd
    refine huffmanCompress_writes hne hn hk hd (by omega) ?_ (Nat.le_trans hroom hout)
    rw [text_length_eq hne]
    omega
  constructor
  · intro hrun
    obtain ⟨hk, hd⟩ := limits_of_huffmanCompress hne hn hrun
    rw [hwrites hk hd] at hrun
    exact ⟨⟨hk, hd⟩, (Except.ok.inj hrun).symm⟩
  · intro h
    rw [h.2]
    exact hwrites h.1.1 h.1.2

theorem usedLength_writtenBlock (hk : data.dedup.length ≤ 30) (out : List UInt8) :
    usedLength (writtenBlock (codeTree data) data out) =
      3 + (codeTree data).size + payloadBytes data := by
  have hsize := codeTree_size hne
  have hzero : (writtenBlock (codeTree data) data out).getD 0 0 =
      UInt8.ofNat (codeTree data).size := rfl
  have hbits : storedBits (writtenBlock (codeTree data) data out) =
      UInt16.ofNat (tableBits (codeTree data) data).length := join_bytes _
  rw [usedLength, hbits, hzero, toNat_ofNat_byte (by omega), UInt16.toNat_ofNat', payloadBytes]

/-- What lies under the payload: the rest of the text, and then the buffer. -/
theorem bitAt_under (out : List UInt8) (j : Nat) :
    bitAt ((text (embed weight16 (codeTree data))).drop (codeTree data).size ++
        out.drop (3 + (text (embed weight16 (codeTree data))).length)) j =
      if j < 8 * overrun data then
        bitAt ((text (embed weight16 (codeTree data))).drop (codeTree data).size) j
      else bitAt out (8 * (3 + (codeTree data).size) + j) := by
  have hlen : ((text (embed weight16 (codeTree data))).drop (codeTree data).size).length =
      overrun data := by
    rw [List.length_drop, text_length_eq hne]
    omega
  split
  · next h => exact bitAt_append_left (by rwa [hlen]) _
  · next h =>
    rw [bitAt_append_right (by rw [hlen]; omega), bitAt_drop, hlen, text_length_eq hne]
    congr 1
    omega

/-- The used bytes of two blocks agree where their payloads do. -/
theorem take_writtenBlock_eq_iff (hk : data.dedup.length ≤ 30) (hd : (codeTree data).height ≤ 8)
    {out out' : List UInt8} (hout : 62 + data.length ≤ out.length)
    (hout' : 62 + data.length ≤ out'.length) :
    (writtenBlock (codeTree data) data out).take (3 + (codeTree data).size + payloadBytes data) =
        (writtenBlock (codeTree data) data out').take
          (3 + (codeTree data).size + payloadBytes data) ↔
      ∀ j, j < 8 * payloadBytes data →
        (tableBits (codeTree data) data).getD j false = true ∨ j < 8 * overrun data ∨
          bitAt out (8 * (3 + (codeTree data).size) + j) =
            bitAt out' (8 * (3 + (codeTree data).size) + j) := by
  obtain ⟨-, htext, hroom⟩ := written_room hne hk hd
  set t := codeTree data with ht
  set bits := tableBits t data with hbits
  have hfront : (header t.size (UInt16.ofNat bits.length) ++
      (text (embed weight16 t)).take t.size).length = 3 + t.size := by
    rw [List.length_append, List.length_take, text_length_eq hne, ← ht, Nat.min_eq_left (by omega)]
    rfl
  -- the payloads, bit by bit
  have hunder : ∀ o : List UInt8, 62 + data.length ≤ o.length →
      (bits.length + 7) / 8 ≤ ((text (embed weight16 t)).drop t.size ++
        o.drop (3 + (text (embed weight16 t)).length)).length := by
    intro o ho
    rw [List.length_append, List.length_drop, List.length_drop, text_length_eq hne, ← ht]
    omega
  have hbit : ∀ o : List UInt8, 62 + data.length ≤ o.length → ∀ j,
      bitAt (orBits ((text (embed weight16 t)).drop t.size ++
        o.drop (3 + (text (embed weight16 t)).length)) 0 bits) j =
        ((if j < 8 * overrun data then bitAt ((text (embed weight16 t)).drop t.size) j
          else bitAt o (8 * (3 + t.size) + j)) || bits.getD j false) := by
    intro o ho j
    have := hunder o ho
    rw [bitAt_orBits _ _ _ _ (by omega), bitAt_under hne, Nat.sub_zero, ← ht]
    simp
  have hpayload : ∀ o : List UInt8, 62 + data.length ≤ o.length →
      payloadBytes data ≤ (orBits ((text (embed weight16 t)).drop t.size ++
        o.drop (3 + (text (embed weight16 t)).length)) 0 bits).length := by
    intro o ho
    rw [orBits_length]
    exact Nat.le_trans (payloadBytes_le data) (hunder o ho)
  rw [writtenBlock, writtenBlock, ← hbits, ← hfront, List.take_length_add_append,
    List.take_length_add_append, List.append_cancel_left_eq,
    take_eq_take_iff_bitAt (hpayload out hout) (hpayload out' hout'), hfront]
  refine forall₂_congr fun j _ => ?_
  rw [hbit out hout, hbit out' hout']
  by_cases hover : j < 8 * overrun data
  · simp [hover]
  · cases bits.getD j false with
    | false => simp [hover]
    | true => simp

/-- Two buffers give the same block exactly when they agree wherever the payload has a zero and
    does not lie over the tree text. -/
theorem sameBlock_iff (hn : data.length < 65536) {out out' : List UInt8}
    (hout : 62 + data.length ≤ out.length) (hout' : 62 + data.length ≤ out'.length) :
    SameBlock data out out' ↔
      (data.dedup.length ≤ 30 ∧ (codeTree data).height ≤ 8) ∧
        ∀ j, j < 8 * payloadBytes data →
          (tableBits (codeTree data) data).getD j false = true ∨ j < 8 * overrun data ∨
            bitAt out (8 * (3 + (codeTree data).size) + j) =
              bitAt out' (8 * (3 + (codeTree data).size) + j) := by
  have hok := @huffmanCompress_written_iff data hne out hn hout
  have hok' := @huffmanCompress_written_iff data hne out' hn hout'
  constructor
  · intro h
    obtain ⟨res, res', hres, hres', htake⟩ := h
    obtain ⟨⟨hk, hd⟩, rfl⟩ := (hok res).mp hres
    obtain ⟨-, rfl⟩ := (hok' res').mp hres'
    rw [usedLength_writtenBlock hne hk, usedLength_writtenBlock hne hk,
      take_writtenBlock_eq_iff hne hk hd hout hout'] at htake
    exact ⟨⟨hk, hd⟩, htake⟩
  · intro h
    obtain ⟨⟨hk, hd⟩, hagree⟩ := h
    refine ⟨_, _, (hok _).mpr ⟨⟨hk, hd⟩, rfl⟩, (hok' _).mpr ⟨⟨hk, hd⟩, rfl⟩, ?_⟩
    rw [usedLength_writtenBlock hne hk, usedLength_writtenBlock hne hk,
      take_writtenBlock_eq_iff hne hk hd hout hout']
    exact hagree

theorem bufferIrrelevant_iff (hn : data.length < 65536) :
    BufferIrrelevant data ↔
      (data.dedup.length ≤ 30 ∧ (codeTree data).height ≤ 8) ∧ OnesBehindText data := by
  constructor
  · intro h
    -- a cleared buffer against one filled with ones
    have hsame := h (List.replicate (62 + data.length) 0) (List.replicate (62 + data.length) 255)
      (by simp) (by simp)
    obtain ⟨⟨hk, hd⟩, hagree⟩ := (sameBlock_iff hne hn (by simp) (by simp)).mp hsame
    refine ⟨⟨hk, hd⟩, fun j hover hj => ?_⟩
    obtain ⟨-, -, hroom⟩ := written_room hne hk hd
    have hused := payloadBytes_le data
    rcases hagree j hj with hone | hlow | hold
    · exact hone
    · omega
    · rw [bitAt_replicate_zero, bitAt_replicate_ones (by omega)] at hold
      cases hold
  · intro h out out' hout hout'
    refine (sameBlock_iff hne hn hout hout').mpr ⟨h.1, fun j hj => ?_⟩
    by_cases hover : j < 8 * overrun data
    · exact Or.inr (Or.inl hover)
    · exact Or.inl (h.2 j (by omega) hj)

/-- With two distinct bytes, none of them 0, some byte has a code that starts with a zero. -/
theorem exists_zero_bit (h0 : ∀ b ∈ data, b ≠ 0) (h2 : 2 ≤ data.dedup.length) :
    ∃ j, j < (tableBits (codeTree data) data).length ∧
      (tableBits (codeTree data) data).getD j false = false := by
  obtain ⟨l, r, ht⟩ := codeTree_node h2 hne
  obtain ⟨e, he⟩ := List.exists_mem_of_ne_nil _ l.leaves_ne_nil
  rw [← CodeTree.paths_map_fst] at he
  obtain ⟨⟨e, p⟩, hp, rfl⟩ := List.mem_map.mp he
  have hpath : (e, false :: p) ∈ (codeTree data).paths := by
    rw [ht, CodeTree.paths]
    exact List.mem_append_left _ (List.mem_map.mpr ⟨(e, p), hp, rfl⟩)
  obtain ⟨hdata, hcode⟩ := codeOf_of_mem_paths hne hpath
  have hmem : false ∈ tableBits (codeTree data) data := by
    refine List.mem_flatMap.mpr ⟨e.1, hdata, ?_⟩
    rw [tableCode_of_ne (h0 _ hdata), hcode]
    exact List.mem_cons_self
  obtain ⟨j, hj, hget⟩ := List.getElem_of_mem hmem
  refine ⟨j, hj, ?_⟩
  rw [List.getD_eq_getElem?_getD, List.getElem?_eq_getElem hj, hget]
  rfl

theorem bufferIrrelevant_iff_repeated (hn : data.length < 8192) (h0 : ∀ b ∈ data, b ≠ 0) :
    BufferIrrelevant data ↔ data.dedup.length = 1 := by
  have hpos : 0 < data.dedup.length := by
    rw [← codeTree_leaves_length hne]
    exact List.length_pos_iff.mpr (codeTree data).leaves_ne_nil
  have hover : overrun data = 0 := if_neg fun hmem => h0 0 hmem rfl
  rw [bufferIrrelevant_iff hne (by omega)]
  constructor
  · intro h
    obtain ⟨⟨hk, hd⟩, hones⟩ := h
    by_contra hmany
    obtain ⟨j, hj, hzero⟩ := exists_zero_bit hne h0 (by omega)
    obtain ⟨hbits, -, -⟩ := written_room hne hk hd
    have hone := hones j (by omega) (by unfold payloadBytes; omega)
    rw [hzero] at hone
    cases hone
  · intro h1
    have hheight := (codeTree data).height_lt_leaves
    rw [codeTree_leaves_length hne] at hheight
    have hbits := tableBits_length_le (codeTree data) data
    rw [show (codeTree data).height = 0 by omega, Nat.zero_mul] at hbits
    refine ⟨by omega, fun j _ hj => ?_⟩
    unfold payloadBytes at hj
    omega

end Written

/-- When the compressed bytes are the same whatever the buffer held: for any block the codec can
    take, exactly if its payload is ones behind the tree text; for a block below 8192 bytes without
    byte 0, exactly if it is one byte repeated. -/
theorem compress_ignores_buffer_iff (data : List UInt8) (hn : data.length < 65536) :
    (BufferIrrelevant data ↔
      data ≠ [] ∧ data.dedup.length ≤ 30 ∧ mergeHeight ((counts data).map Prod.snd) ≤ 8 ∧
        OnesBehindText data) ∧
    (data.length < 8192 → 0 ∉ data → (BufferIrrelevant data ↔ data.dedup.length = 1)) := by
  by_cases hne : data = []
  · -- `build_tree` fails its assertion
    have hfail : ¬ BufferIrrelevant data := by
      intro h
      obtain ⟨res, -, hres, -⟩ := h (List.replicate (62 + data.length) 0)
        (List.replicate (62 + data.length) 0) (by simp) (by simp)
      rw [hne] at hres
      cases hres
    refine ⟨⟨fun h => absurd h hfail, fun h => absurd hne h.1⟩, fun _ _ => ?_⟩
    refine ⟨fun h => absurd h hfail, fun h1 => ?_⟩
    rw [hne] at h1
    cases h1
  · refine ⟨?_, fun hshort h0 => bufferIrrelevant_iff_repeated hne hshort fun b hb hzero =>
      h0 (hzero ▸ hb)⟩
    rw [bufferIrrelevant_iff hne hn, codeTree_height hne, and_assoc]
    exact ⟨fun h => ⟨hne, h⟩, fun h => h.2⟩

/-- One byte repeated, and a block whose single bit falls on the tree text. -/
theorem compress_ignores_buffer_AAA : BufferIrrelevant [65, 65, 65] ∧ BufferIrrelevant [0, 65] := by
  constructor
  · exact ((compress_ignores_buffer_iff [65, 65, 65] (by decide)).2 (by decide) (by decide)).mpr
      (by decide)
  · refine (compress_ignores_buffer_iff [0, 65] (by decide)).1.mpr
      ⟨by decide, by decide, by decide, fun j hover hj => ?_⟩
    have hbytes : payloadBytes [0, 65] = 1 := by decide
    have htext : overrun [0, 65] = 2 := by decide
    omega

/-- `"AB"` compressed into the 128 bytes of `test_huffman`, cleared and filled with ones: the code
    of `A` is a zero bit, which leaves the old bit in place. -/
theorem compress_keeps_old_bits :
    (huffmanCompress [65, 66] (List.replicate 128 0)).map (fun res => res.take (usedLength res)) =
        .ok [3, 0, 2, 42, 65, 66, 2] ∧
      (huffmanCompress [65, 66] (List.replicate 128 255)).map
          (fun res => res.take (usedLength res)) = .ok [3, 0, 2, 42, 65, 66, 255] ∧
      ¬ BufferIrrelevant [65, 66] := by
  have hzeros : (huffmanCompress [65, 66] (List.replicate 128 0)).map
      (fun res => res.take (usedLength res)) = .ok [3, 0, 2, 42, 65, 66, 2] := by
    decide +kernel
  have hones : (huffmanCompress [65, 66] (List.replicate 128 255)).map
      (fun res => res.take (usedLength res)) = .ok [3, 0, 2, 42, 65, 66, 255] := by
    decide +kernel
  refine ⟨hzeros, hones, fun h => ?_⟩
  obtain ⟨res, res', hres, hres', hsame⟩ :=
    h (List.replicate 128 0) (List.replicate 128 255) (by simp) (by simp)
  rw [hres] at hzeros
  rw [hres'] at hones
  have := (Except.ok.inj hzeros).symm.trans (hsame.trans (Except.ok.inj hones))
  revert this
  decide

end DistHuffman.Link
