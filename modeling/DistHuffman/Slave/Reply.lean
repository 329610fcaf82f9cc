/-
  The reply to an ENCODE job. The worker finds its length with `strlen`, so it stops at the first
  zero byte. The tree text has none, but the bit count has one below 256 bits and at every multiple
  of 256, and the payload has one wherever eight bits in a row, from a byte boundary on, are zero.
  `encode_reply_whole_iff` says for which blocks the reply is whole.
-/
import DistHuffman.Slave.Isr
import DistHuffman.Link.Limits

namespace DistHuffman.Slave

open DistHuffman.Lib DistHuffman.Codec DistHuffman.Link

theorem processJob_of_runCodec {b : Buffer} {out : List UInt8} (h : runCodec b = .ok out)
    (h0 : 0 ∈ out) :
    processJob b = .ok fun i =>
      (replyHeader (b 0) :: UInt8.ofNat (out.takeWhile (· ≠ 0)).length :: out).getD i.toNat 0 := by
  unfold processJob strlen
  rw [h, ok_bind, if_pos h0]
  rfl

/-- `strlen` is `n` exactly if the first zero is at `n`. -/
theorem takeWhile_length_eq_iff {l : List UInt8} {n : Nat} (h : n < l.length) :
    (l.takeWhile (· ≠ 0)).length = n ↔ (∀ i < n, l.getD i 0 ≠ 0) ∧ l.getD n 0 = 0 := by
  induction l generalizing n with
  | nil => simp at h
  | cons b l ih =>
    by_cases hb : b = 0
    · subst hb
      rw [List.takeWhile_cons_of_neg (by simp)]
      constructor
      · rintro rfl
        exact ⟨by simp, rfl⟩
      · rintro ⟨hall, -⟩
        cases n with
        | zero => rfl
        | succ n => exact absurd rfl (hall 0 (Nat.succ_pos n))
    · rw [List.takeWhile_cons_of_pos (by simpa using hb), List.length_cons]
      cases n with
      | zero => simp [hb]
      | succ n =>
        rw [Nat.succ_inj, ih (by simpa using h), Nat.forall_lt_succ_left]
        simp [hb]

/-- `in_buffer` holds an ENCODE job with payload `data`. -/
structure IsEncodeJob (b : Buffer) (data : List UInt8) : Prop where
  job : jobOf (b 0) = encode
  size : b 1 = UInt8.ofNat data.length
  payload : ∀ i (h : i < data.length), b (UInt8.ofNat (2 + i)) = data[i]

theorem IsEncodeJob.runCodec_eq {b : Buffer} {data : List UInt8} (h : IsEncodeJob b data)
    (hlen : data.length ≤ 254) : runCodec b = huffmanCompress data (List.replicate 254 0) := by
  have hsize : (b 1).toNat = data.length := by rw [h.size, toNat_ofNat_byte (by omega)]
  have hpayload : (b.bytes.drop 2).take data.length = data := by
    refine List.ext_getElem (by simp [Buffer.bytes]; omega) fun i h1 h2 => ?_
    simp only [Buffer.bytes, List.getElem_take, List.getElem_drop, List.getElem_map,
      List.getElem_range]
    exact h.payload i h2
  unfold runCodec
  rw [h.job, if_pos (show encode = encode &&& encode from rfl), hsize, if_pos (by omega), hpayload]

/-! ## Zero bytes of a block -/

theorem forall_take_iff {l : List UInt8} {n : Nat} (h : n ≤ l.length) :
    (∀ i < n, l.getD i 0 ≠ 0) ↔ ∀ b ∈ l.take n, b ≠ 0 := by
  constructor
  · intro hall b hb
    obtain ⟨i, hi, rfl⟩ := List.getElem_of_mem hb
    rw [List.length_take] at hi
    have := hall i (by omega)
    rw [List.getD_eq_getElem _ _ (by omega)] at this
    rwa [List.getElem_take]
  · intro hall i hi
    rw [List.getD_eq_getElem _ _ (by omega)]
    exact hall _ (List.mem_take_iff_getElem.mpr ⟨i, by omega, rfl⟩)

theorem header_bytes {n : Nat} (h : n < 65536) :
    (UInt16.ofNat n >>> 8).toUInt8.toNat = n / 256 ∧ (UInt16.ofNat n).toUInt8.toNat = n % 256 := by
  have hn : (UInt16.ofNat n).toNat = n := toNat_ofNat_word h
  constructor
  · rw [UInt16.toNat_toUInt8, UInt16.toNat_shiftRight, hn]
    simp only [UInt16.reduceToNat, Nat.reduceMod, Nat.shiftRight_eq_div_pow]
    omega
  · rw [UInt16.toNat_toUInt8, hn]

/-- Byte `j` of a payload written into zeros is not zero: one of its eight bits is set. -/
theorem payload_ne_zero_iff {room : Nat} {bits : List Bool} (h : bits.length ≤ 8 * room) (j : Nat) :
    (orBits (List.replicate room 0) 0 bits).getD j 0 ≠ 0 ↔
      ∃ k < 8, bits.getD (8 * j + k) false = true := by
  rw [Ne, getD_eq_zero_iff, Classical.not_forall]
  refine exists_congr fun k => ?_
  rw [bitAt_orBits_zero _ _ _ h]
  simp

section Block

variable {t : CodeTree (UInt8 × Nat)} (ht : NonzeroBytes t) {data : List UInt8}
  (hroom : blockLength t data < 254)

/-- The payload part of a cleared reply buffer. -/
def payloadOf (t : CodeTree (UInt8 × Nat)) (data : List UInt8) : List UInt8 :=
  orBits (List.replicate (254 - (3 + t.size)) 0) 0 (bitsOf t data)

theorem blockOf_zeros (t : CodeTree (UInt8 × Nat)) (data : List UInt8) :
    blockOf t data (List.replicate 254 0) =
      header t.size (UInt16.ofNat (bitsOf t data).length) ++ text (embed weight16 t) ++
        payloadOf t data := by
  unfold blockOf payloadOf
  rw [List.drop_replicate]

include ht in
theorem front_length (n : UInt16) :
    (header t.size n ++ text (embed weight16 t)).length = 3 + t.size := by
  rw [List.length_append, text_embed_length weight16 t ht]
  rfl

include ht hroom in
theorem blockOf_zeros_length : (blockOf t data (List.replicate 254 0)).length = 254 := by
  unfold blockLength at hroom
  rw [blockOf_zeros, List.length_append, front_length ht, payloadOf, orBits_length,
    List.length_replicate]
  omega

include hroom in
theorem payloadOf_ne_zero_iff (j : Nat) :
    (payloadOf t data).getD j 0 ≠ 0 ↔ ∃ k < 8, (bitsOf t data).getD (8 * j + k) false = true := by
  unfold blockLength at hroom
  exact payload_ne_zero_iff (by omega) j

include ht hroom in
theorem blockOf_zeros_end :
    (blockOf t data (List.replicate 254 0)).getD (blockLength t data) 0 = 0 := by
  by_contra hne
  rw [blockOf_zeros, blockLength, List.getD_append_right _ _ _ _ (by rw [front_length ht]; omega),
    front_length ht, Nat.add_sub_cancel_left] at hne
  obtain ⟨k, -, hk⟩ := (payloadOf_ne_zero_iff hroom _).mp hne
  rw [List.getD_eq_default _ _ (by omega)] at hk
  cases hk

include hroom in
theorem header_ne_zero_iff :
    (∀ b ∈ header t.size (UInt16.ofNat (bitsOf t data).length), b ≠ 0) ↔
      256 ≤ (bitsOf t data).length ∧ (bitsOf t data).length % 256 ≠ 0 := by
  have hleaves := List.length_pos_iff.mpr t.leaves_ne_nil
  have hsize := t.size_eq
  unfold blockLength at hroom
  obtain ⟨hhi, hlo⟩ := @header_bytes (bitsOf t data).length (by omega)
  have hsz : (UInt8.ofNat t.size).toNat = t.size := toNat_ofNat_byte (by omega)
  simp only [header, List.forall_mem_cons, List.not_mem_nil, false_imp_iff, implies_true, and_true,
    Ne, ← UInt8.toNat_inj, hsz, hhi, hlo, UInt8.toNat_zero]
  omega

include ht hroom in
/-- `strlen` finds the end of a block written into zeros exactly if no byte of the bit count and no
    byte of the payload is zero. -/
theorem strlen_block_iff :
    ((blockOf t data (List.replicate 254 0)).takeWhile (· ≠ 0)).length = blockLength t data ↔
      256 ≤ (bitsOf t data).length ∧ (bitsOf t data).length % 256 ≠ 0 ∧
        ∀ j < ((bitsOf t data).length + 7) / 8,
          ∃ k < 8, (bitsOf t data).getD (8 * j + k) false = true := by
  have hlen := blockOf_zeros_length ht hroom
  have htake : (blockOf t data (List.replicate 254 0)).take (blockLength t data) =
      header t.size (UInt16.ofNat (bitsOf t data).length) ++ text (embed weight16 t) ++
        (payloadOf t data).take (((bitsOf t data).length + 7) / 8) := by
    rw [blockOf_zeros, blockLength, ← front_length ht, List.take_length_add_append]
  have hpay : ((bitsOf t data).length + 7) / 8 ≤ (payloadOf t data).length := by
    unfold blockLength at hroom
    rw [payloadOf, orBits_length, List.length_replicate]
    omega
  rw [takeWhile_length_eq_iff (by omega), and_iff_left (blockOf_zeros_end ht hroom),
    forall_take_iff (by omega), htake]
  simp only [List.forall_mem_append, header_ne_zero_iff hroom]
  rw [and_iff_left (text_embed_ne_zero weight16 t ht), ← forall_take_iff hpay, and_assoc]
  simp only [payloadOf_ne_zero_iff hroom]

end Block

/-! ## The reply -/

theorem isr_data (w : Worker) :
    isr w twSrDataAck = processJob (receive w).inBuffer >>= fun out =>
      .ok { receive w with outBuffer := out } := rfl

/-- The size byte of a reply is the full length of the block behind it, as the tree size and the
    bit count of the block give it. -/
def Whole (out : Buffer) : Prop :=
  (out 1).toNat = 3 + (out 2).toNat + (256 * (out 3).toNat + (out 4).toNat + 7) / 8

/-- The reply that carries a block written into zeros. -/
theorem whole_block_iff {t : CodeTree (UInt8 × Nat)} (ht : NonzeroBytes t) {data : List UInt8}
    (hroom : blockLength t data < 254) (hdr : UInt8) :
    Whole (fun i => (hdr ::
        UInt8.ofNat ((blockOf t data (List.replicate 254 0)).takeWhile (· ≠ 0)).length ::
        blockOf t data (List.replicate 254 0)).getD i.toNat 0) ↔
      ((blockOf t data (List.replicate 254 0)).takeWhile (· ≠ 0)).length = blockLength t data := by
  have hle : ((blockOf t data (List.replicate 254 0)).takeWhile (· ≠ 0)).length ≤ 254 :=
    Nat.le_trans (List.takeWhile_prefix _).length_le
      (Nat.le_of_eq (blockOf_zeros_length ht hroom))
  generalize htw : ((blockOf t data (List.replicate 254 0)).takeWhile (· ≠ 0)).length = n at hle
  have hbytes : Whole (fun i => (hdr :: UInt8.ofNat n ::
        blockOf t data (List.replicate 254 0)).getD i.toNat 0) ↔
      (UInt8.ofNat n).toNat = 3 + (UInt8.ofNat t.size).toNat +
        (256 * (UInt16.ofNat (bitsOf t data).length >>> 8).toUInt8.toNat +
          (UInt16.ofNat (bitsOf t data).length).toUInt8.toNat + 7) / 8 := Iff.rfl
  rw [hbytes]
  unfold blockLength at hroom ⊢
  obtain ⟨hhi, hlo⟩ := @header_bytes (bitsOf t data).length (by omega)
  rw [hhi, hlo, toNat_ofNat_byte (by omega), toNat_ofNat_byte (by omega), Nat.div_add_mod]

/-- For the event that completes an ENCODE job, with one of the controller's blocks as payload: the
    reply is whole exactly if the block respects both limits of the codec, its code takes at least
    256 bits but no multiple of 256, and no eight bits that share a byte are all zero. -/
theorem encode_reply_whole_iff (w : Worker) (data : List UInt8) (hblock : IsBlock data)
    (hjob : IsEncodeJob (receive w).inBuffer data) :
    (∃ w', isr w twSrDataAck = .ok w' ∧ Whole w'.outBuffer) ↔
      (data.dedup.length ≤ 30 ∧ mergeHeight ((counts data).map Prod.snd) ≤ 8) ∧
      256 ≤ (bitsOf (codeTree data) data).length ∧
      (bitsOf (codeTree data) data).length % 256 ≠ 0 ∧
      ∀ j < ((bitsOf (codeTree data) data).length + 7) / 8,
        ∃ k < 8, (bitsOf (codeTree data) data).getD (8 * j + k) false = true := by
  rw [← codeTree_height hblock.nonempty, isr_data]
  have hrun := hjob.runCodec_eq (Nat.le_trans hblock.length_le (by decide))
  have hok := @huffmanCompress_eq_ok_iff data (List.replicate 254 0) hblock
    (by rw [List.length_replicate]; decide)
  by_cases hlim : data.dedup.length ≤ 30 ∧ (codeTree data).height ≤ 8
  · rw [and_iff_right hlim]
    obtain ⟨hbits, hlen⟩ := blockLength_le hblock hlim.1 hlim.2
    have hnz := codeTree_nonzero hblock.nonempty fun b hb =>
      alphabet_ne_zero b (hblock.letters b hb)
    have hroom : blockLength (codeTree data) data < 254 := by omega
    have hzero : 0 ∈ blockOf (codeTree data) data (List.replicate 254 0) := by
      have hend := blockOf_zeros_end hnz hroom
      rw [List.getD_eq_getElem _ _ (by rw [blockOf_zeros_length hnz hroom]; exact hroom)] at hend
      exact List.mem_of_getElem hend
    rw [processJob_of_runCodec (hrun.trans ((hok _).mpr ⟨hlim, rfl⟩)) hzero, ok_bind,
      ← strlen_block_iff hnz hroom,
      ← whole_block_iff hnz hroom (replyHeader ((receive w).inBuffer 0))]
    constructor
    · rintro ⟨w', hw', hwhole⟩
      cases hw'
      exact hwhole
    · intro hwhole
      exact ⟨_, rfl, hwhole⟩
  · constructor
    · rintro ⟨w', hw', -⟩
      obtain ⟨out, hout, -⟩ := of_bind_eq_ok hw'
      obtain ⟨res, hres, -⟩ := of_bind_eq_ok hout
      rw [hrun] at hres
      exact absurd ((hok res).mp hres).1 hlim
    · intro h
      exact absurd h.1 hlim

/-- A worker about to receive the last byte of the job to compress `data`. -/
def lastByteWorker (data : List UInt8) : Worker where
  bufferAddress := UInt8.ofNat (data.length + 1)
  inBuffer := fun i => (encode :: UInt8.ofNat data.length :: data.dropLast).getD i.toNat 0
  outBuffer := fun _ => 0
  twdr := data.getLastD 0
  twar := (0x20 : UInt8) <<< 1
  twcr := twie ||| twea ||| twint ||| twen

/-- Twenty letters three times over. -/
theorem encode_reply_whole_letters :
    ∃ w', isr (lastByteWorker (List.replicate 3 (alphabet.take 20)).flatten) twSrDataAck = .ok w' ∧
      Whole w'.outBuffer := by
  refine (encode_reply_whole_iff _ (List.replicate 3 (alphabet.take 20)).flatten
    ⟨by decide, by decide, by decide +kernel⟩ ⟨by decide, by decide, by decide +kernel⟩).mpr ?_
  decide +kernel

/-- The job to compress "AB": the block has seven bytes, the reply announces one. -/
theorem encode_reply_cut_AB :
    IsBlock [65, 66] ∧ 2 ≤ [65, 66].dedup.length ∧
    IsEncodeJob (receive (lastByteWorker [65, 66])).inBuffer [65, 66] ∧
    ∃ w', isr (lastByteWorker [65, 66]) twSrDataAck = .ok w' ∧
      (List.range 9).map (fun i => w'.outBuffer (UInt8.ofNat i)) =
        [3, 1, 3, 0, 2, 42, 65, 66, 2] ∧ ¬ Whole w'.outBuffer := by
  have hrun : runCodec (receive (lastByteWorker [65, 66])).inBuffer =
      .ok (3 :: 0 :: 2 :: 42 :: 65 :: 66 :: 2 :: List.replicate 247 0) := by decide +kernel
  refine ⟨⟨by decide, by decide, by decide +kernel⟩, by decide,
    ⟨by decide, by decide, by decide⟩, ?_⟩
  rw [isr_data, processJob_of_runCodec hrun (by decide), ok_bind]
  exact ⟨_, rfl, by decide, by unfold Whole; decide⟩

end DistHuffman.Slave
