/-
  Whether the result of a job fits `out_buffer`, of which the codec gets the 254 bytes from
  `out_buffer[2]` on. Neither `huffman_compress` nor `huffman_inflate` is told how many they are.

  Compression needs no more: at most 62 bytes for header and tree, and six bits for each of at most
  253 letters. A block of 253 bytes can hold 2000 codes of one bit though, and inflating it writes
  a character for each (`reply_fits_iff`).
-/
import DistHuffman.Link.Inside
import DistHuffman.Slave.Isr

namespace DistHuffman.Slave

open DistHuffman.Lib DistHuffman.Codec DistHuffman.Link

/-- `in_buffer[2 .. 2 + in_buffer[1])` -/
def jobData (b : Buffer) : List UInt8 := (b.bytes.drop 2).take (b 1).toNat

/-- The codec returns: everything it wrote from `out_buffer[2]` on is inside `out_buffer`. -/
def ReplyFits (b : Buffer) : Prop := ∃ out, runCodec b = .ok out

theorem jobData_length {b : Buffer} (h : (b 1).toNat ≤ 254) : (jobData b).length = (b 1).toNat := by
  simp only [jobData, Buffer.bytes, List.length_take, List.length_drop, List.length_map,
    List.length_range]
  omega

/-- The bytes the decoder is given: the block and the rest of `in_buffer`. -/
theorem drop_bytes_eq (b : Buffer) :
    b.bytes.drop 2 = jobData b ++ (b.bytes.drop 2).drop (b 1).toNat :=
  (List.take_append_drop _ _).symm

theorem runCodec_encode {b : Buffer} (hjob : jobOf (b 0) = encode) (hsize : (b 1).toNat ≤ 254) :
    runCodec b = huffmanCompress (jobData b) (List.replicate 254 0) := by
  unfold runCodec
  rw [hjob, if_pos (show encode = encode &&& encode from rfl), if_pos (by omega)]
  rfl

theorem jobOf_and_encode (status : UInt8) :
    encode = jobOf status &&& encode ↔ jobOf status = encode := by
  revert status
  exact forall_byte (by decide +kernel)

theorem runCodec_decode {b : Buffer} (hjob : jobOf (b 0) ≠ encode) :
    runCodec b = (huffmanInflate (b.bytes.drop 2) (b 1).toUInt16 (List.replicate 254 0)).map
      Prod.fst := by
  unfold runCodec
  rw [if_neg (mt (jobOf_and_encode (b 0)).mp hjob)]

/-- Up to 253 letters, no more than 30 of them distinct, compress to at most 252 bytes. -/
theorem blockLength_le_reply {data : List UInt8} (hne : data ≠ []) (hlen : data.length ≤ 253)
    (hk : data.dedup.length ≤ 30) : blockLength (codeTree data) data ≤ 252 := by
  have hbits : (bitsOf (codeTree data) data).length ≤ (5 + 1) * data.length :=
    bitsOf_length_le_log hne (Nat.le_trans hk (by decide))
  unfold blockLength
  rw [codeTree_size hne]
  omega

theorem replyFits_encode_iff {b : Buffer} (h1 : 1 ≤ (b 1).toNat) (h253 : (b 1).toNat ≤ 253)
    (hjob : jobOf (b 0) = encode) (hletters : ∀ c ∈ jobData b, c ∈ alphabet) :
    ReplyFits b ↔
      (jobData b).dedup.length ≤ 30 ∧ mergeHeight ((counts (jobData b)).map Prod.snd) ≤ 8 := by
  have hlen := @jobData_length b (by omega)
  have hne : jobData b ≠ [] := List.ne_nil_of_length_pos (by omega)
  have hok := @huffmanCompress_ok_iff (jobData b) (List.replicate 254 0) hne (by omega)
    (fun c hc => alphabet_ne_zero c (hletters c hc)) fun hk _ => by
      rw [List.length_replicate]
      exact Nat.le_trans (blockLength_le_reply hne (by omega) hk) (by decide)
  unfold ReplyFits
  rw [runCodec_encode hjob (by omega), ← codeTree_height hne]
  constructor
  · intro h
    obtain ⟨out, hout⟩ := h
    exact ((hok out).mp hout).1
  · intro hlim
    exact ⟨_, (hok _).mpr ⟨hlim, rfl⟩⟩

theorem replyFits_decode_iff {b : Buffer} (h253 : (b 1).toNat ≤ 253) (hjob : jobOf (b 0) ≠ encode)
    {t : CodeTree (UInt8 × Nat)} {msg : List UInt8} (hblock : IsMessageBlock t msg (jobData b)) :
    ReplyFits b ↔ msg.length ≤ 254 := by
  have hlen := @jobData_length b (by omega)
  have hiff := huffmanInflate_message_iff hblock (by omega) ((b.bytes.drop 2).drop (b 1).toNat)
    (List.replicate 254 0)
  rw [← drop_bytes_eq, hlen, List.length_replicate, ← ofNat_toUInt16 (b 1).toNat_lt,
    UInt8.ofNat_toNat] at hiff
  unfold ReplyFits
  rw [runCodec_decode hjob, ← hiff]
  cases huffmanInflate (b.bytes.drop 2) (b 1).toUInt16 (List.replicate 254 0) with
  | error e =>
    constructor
    · intro h
      obtain ⟨out, hout⟩ := h
      cases hout
    · intro h
      obtain ⟨res, hres⟩ := h
      cases hres
  | ok res => exact ⟨fun _ => ⟨res, rfl⟩, fun _ => ⟨res.1, rfl⟩⟩

/-- The result of a job fits: an ENCODE job on letters whenever the codec can compress it at all, a
    DECODE job on a compressed block exactly when its message has at most 254 characters. -/
theorem reply_fits_iff (b : Buffer) (h1 : 1 ≤ (b 1).toNat) (h253 : (b 1).toNat ≤ 253) :
    (jobOf (b 0) = encode → (∀ c ∈ jobData b, c ∈ alphabet) →
      (ReplyFits b ↔
        (jobData b).dedup.length ≤ 30 ∧ mergeHeight ((counts (jobData b)).map Prod.snd) ≤ 8)) ∧
    (jobOf (b 0) ≠ encode → ∀ t msg, IsMessageBlock t msg (jobData b) →
      (ReplyFits b ↔ msg.length ≤ 254)) :=
  ⟨replyFits_encode_iff h1 h253, fun hjob _ _ hblock => replyFits_decode_iff h253 hjob hblock⟩

/-- A buffer that starts with the bytes of `l`. -/
def bufferOf (l : List UInt8) : Buffer := fun i => l.getD i.toNat 0

/-- `'A'` and `'B'` with one bit each. -/
def treeAB : CodeTree (UInt8 × Nat) := .node (.leaf (65, 1)) (.leaf (66, 1))

theorem treeAB_plain : PlainBytes treeAB := by
  unfold PlainBytes
  decide

/-- The job to compress `"AB"` and the job to inflate the result. -/
theorem reply_fits_AB :
    ReplyFits (bufferOf [2, 2, 65, 66]) ∧ ReplyFits (bufferOf [0, 7, 3, 0, 2, 42, 65, 66, 2]) := by
  constructor
  · exact ((reply_fits_iff (bufferOf [2, 2, 65, 66]) (by decide) (by decide)).1 (by decide)
      (by decide +kernel)).mpr (by decide +kernel)
  · refine ((reply_fits_iff (bufferOf [0, 7, 3, 0, 2, 42, 65, 66, 2]) (by decide) (by decide)).2
      (by decide) treeAB [65, 66] ⟨treeAB_plain, by unfold Encodes; decide +kernel, [2], ?_⟩).mpr
      (by decide)
    exact ⟨by decide, by unfold BitsAt; decide, by decide⟩

/-- The job to inflate `"AB"` 128 times over, a block of 38 bytes. -/
def jobABAB : Buffer := bufferOf ([0, 38, 3, 1, 0, 42, 65, 66] ++ List.replicate 32 170)

/-- Well-formed, and 256 characters are two more than there is room for. -/
theorem reply_overflows_ABAB :
    (jobABAB 1).toNat = 38 ∧ jobOf (jobABAB 0) ≠ encode ∧
      IsMessageBlock treeAB (List.replicate 128 [65, 66]).flatten (jobData jobABAB) ∧
      ¬ ReplyFits jobABAB := by
  have hblock : IsMessageBlock treeAB (List.replicate 128 [65, 66]).flatten (jobData jobABAB) := by
    refine ⟨treeAB_plain, ?_, List.replicate 32 170, ?_, ?_, ?_⟩
    · unfold Encodes
      decide +kernel
    · decide +kernel
    · exact bitsAt_of_bitsFrom (show _ = _ ++ [] by decide +kernel)
    · decide +kernel
  refine ⟨by decide, by decide, hblock, fun h => ?_⟩
  have := (replyFits_decode_iff (by decide) (by decide) hblock).mp h
  revert this
  decide +kernel

end DistHuffman.Slave
