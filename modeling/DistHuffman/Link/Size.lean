/-
  Link: the size of a compressed block. The bits that the encoding table spends on a block add up
  to the cost of its code tree (`bitsOf_length_eq`), that is to the weights of its internal nodes,
  and merging keeps them within a logarithm a byte (`bitsOf_length_le_log`). `huffman_compress`
  leaves `out_data` alone behind the last byte they need. With two or more distinct bytes each byte
  costs a bit; a block of one repeated byte has a tree of one leaf and costs none.
-/
import DistHuffman.Lib.Budget
import DistHuffman.Link.Limits
import DistHuffman.Link.Shape
import Mathlib.Algebra.BigOperators.Group.Finset.Basic

namespace DistHuffman.Link

open DistHuffman.Lib DistHuffman.Codec

/-- `num_bits` as `huffman_inflate` reads it from a block. -/
def storedBits (block : List UInt8) : UInt16 :=
  ((block.getD 1 0).toUInt16 <<< 8) ||| (block.getD 2 0).toUInt16

theorem storedBits_blockOf (t : CodeTree (UInt8 × Nat)) (data out : List UInt8) :
    storedBits (blockOf t data out) = UInt16.ofNat (bitsOf t data).length :=
  join_bytes _

/-! ## Bits and internal weights -/

/-- A sum over a list, collected by value. -/
theorem sum_map_eq_sum_count {data K : List UInt8} (hnd : K.Nodup) (hmem : ∀ b, b ∈ K ↔ b ∈ data)
    (g : UInt8 → Nat) : (data.map g).sum = (K.map fun b => data.count b * g b).sum := by
  have hset : data.toFinset = K.toFinset := by
    ext b
    rw [List.mem_toFinset, List.mem_toFinset, hmem]
  rw [Finset.sum_list_map_count, hset, List.sum_toFinset _ hnd]
  rfl

theorem bitsOf_length_eq {data : List UInt8} (hne : data ≠ []) :
    (bitsOf (codeTree data) data).length = (codeTree data).pathCost Prod.snd := by
  set t := codeTree data with ht
  have hnd : (t.leaves.map Prod.fst).Nodup := codeTree_bytes_nodup hne
  -- each path is what looking its byte up gives, and carries the number of occurrences
  have hpath : ∀ e ∈ t.paths, data.count e.1.1 * (codeOf t e.1.1).length = e.1.2 * e.2.length := by
    intro e he
    have hleaf : e.1 ∈ t.leaves := by
      rw [← CodeTree.paths_map_fst]
      exact List.mem_map.mpr ⟨e, he, rfl⟩
    have hcount : e.1.2 = data.count e.1.1 :=
      snd_of_mem_counts data _ ((codeTree_leaves_perm hne).mem_iff.mp hleaf)
    have hcode : codeOf t e.1.1 = e.2 := by
      refine CodeTree.codeOf_eq (by rw [CodeTree.leaves_map]; exact hnd) ?_
      rw [CodeTree.paths_map]
      exact List.mem_map.mpr ⟨e, he, rfl⟩
    rw [hcount, hcode]
  unfold bitsOf
  rw [List.length_flatMap, sum_map_eq_sum_count hnd (mem_codeTree_bytes hne) fun b =>
    (codeOf t b).length, ← CodeTree.paths_map_fst, List.map_map, List.map_map,
    CodeTree.pathCost, pathSum, CodeTree.levels, List.map_map]
  exact congrArg List.sum (List.map_congr_left hpath)

/-- Greedy merging spends at most `log k + 1` bits a byte for `k` distinct bytes. -/
theorem bitsOf_length_le_log {data : List UInt8} (hne : data ≠ []) {t : Nat}
    (hk : data.dedup.length ≤ 2 ^ t) :
    (bitsOf (codeTree data) data).length ≤ (t + 1) * data.length := by
  rw [bitsOf_length_eq hne, ← counts_sum data]
  refine pathCost_mergeLoop_le_log ?_ (mergedTrees_eq hne)
  rw [counts_length]
  exact hk

/-- Size of a compressed block, and what the call leaves alone. The limits are the program's own:
    both pools, codes of at most eight bits, a bit count of 16 bits, and room in `out_data`. -/
theorem huffman_compress_size (data out : List UInt8) (h : Huffman) (tree : Node)
    (hne : data ≠ []) (hn : data.length < 65536) (h0 : ∀ b ∈ data, b ≠ 0)
    (hbuild : buildTree (buildQueue {} data).1 (buildQueue {} data).2 = .ok (h, tree))
    (htree : h.treePtr ≤ treeMaxSize) (hqueue : h.queuePtr ≤ queueMaxSize)
    (hdepth : nodeDepth tree ≤ 8) (hbits : encodedBits tree data ≤ 65535)
    (hroom : 3 + treeGetSize tree + (encodedBits tree data + 7) / 8 ≤ out.length) :
    ∃ res, huffmanCompress data out = .ok res ∧
      (storedBits res).toNat = (internalWeights tree).sum ∧
      res.length = out.length ∧
      ∀ i, 3 + treeGetSize tree + ((storedBits res).toNat + 7) / 8 ≤ i → res[i]? = out[i]? := by
  have hnz := codeTree_nonzero hne h0
  have hweight : weight (codeTree data) < 65536 := by
    rw [codeTree_weight hne]
    exact hn
  rw [buildTree_refines hne hn] at hbuild
  obtain ⟨rfl, rfl⟩ := Prod.mk.inj (Except.ok.inj hbuild)
  rw [nodeDepth_embed _ _ hnz] at hdepth
  rw [encodedBits_embed _ _ hnz (codeTree_leaves_lt hne hn) hdepth] at hbits hroom
  rw [treeGetSize_embed] at hroom ⊢
  have hk : data.dedup.length ≤ 30 := by
    simp only [pools, queueMaxSize, alphabetSize] at hqueue
    omega
  have hstored : (storedBits (blockOf (codeTree data) data out)).toNat =
      (bitsOf (codeTree data) data).length := by
    rw [storedBits_blockOf, toNat_ofNat_word (by omega)]
  have hfront : (header (codeTree data).size (UInt16.ofNat (bitsOf (codeTree data) data).length) ++
      text (embed weight16 (codeTree data))).length = 3 + (codeTree data).size := by
    rw [List.length_append, text_embed_length weight16 _ hnz]
    rfl
  refine ⟨_, huffmanCompress_refines hne hn h0 hk hdepth (by omega) hroom, ?_, ?_, ?_⟩
  · rw [hstored, internalWeights_embed hweight, bitsOf_length_eq hne]
  · rw [blockOf, List.length_append, hfront, orBits_length, List.length_drop]
    omega
  · intro i hi
    rw [hstored] at hi
    rw [blockOf, List.getElem?_append_right (by omega), hfront,
      getElem?_orBits _ _ _ _ (by omega), List.getElem?_drop,
      Nat.add_sub_cancel' (by omega)]

theorem huffman_compress_size_ABBC :
    ∃ res, huffmanCompress [65, 66, 66, 67] (List.replicate 16 7) = .ok res ∧
      (storedBits res).toNat = 6 ∧ res[9]? = some 7 := by
  obtain ⟨res, hres, hsize, -, hframe⟩ :=
    huffman_compress_size [65, 66, 66, 67] (List.replicate 16 7) ⟨5, 5, 5, 5⟩
      (.mk (.mk .null .null 2 66) (.mk (.mk .null .null 1 65) (.mk .null .null 1 67) 2 0) 4 0)
      (by decide) (by decide) (by decide +kernel) (by decide +kernel) (by decide) (by decide)
      (by decide) (by decide +kernel) (by decide +kernel)
  have hsix : (storedBits res).toNat = 6 := hsize.trans (by decide)
  refine ⟨res, hres, hsix, ?_⟩
  rw [hframe 9 (by rw [hsix]; decide)]
  rfl

/-! ## A bit for each byte -/

theorem bitsOf_codeTree_of_repeated {data : List UInt8} (hne : data ≠ [])
    (h1 : data.dedup.length = 1) : (bitsOf (codeTree data) data).length = 0 := by
  have hheight := (codeTree data).height_lt_leaves
  rw [codeTree_leaves_length hne, h1] at hheight
  have hle := bitsOf_length_le (codeTree data) data
  rw [show (codeTree data).height = 0 by omega, Nat.zero_mul] at hle
  omega

/-- The stored bit count reaches the number of bytes. The worker's buffer has room for 254 bytes. -/
theorem stored_bits_ge_iff (data out : List UInt8) (h : IsBlock data) (hroom : 190 ≤ out.length) :
    (∃ res, huffmanCompress data out = .ok res ∧ data.length ≤ (storedBits res).toNat) ↔
      2 ≤ data.dedup.length ∧ data.dedup.length ≤ 30 ∧
        mergeHeight ((counts data).map Prod.snd) ≤ 8 := by
  have hlen : 0 < data.length := List.length_pos_iff.mpr h.nonempty
  have hstored : (bitsOf (codeTree data) data).length ≤ 1024 →
      (storedBits (blockOf (codeTree data) data out)).toNat =
        (bitsOf (codeTree data) data).length := by
    intro hle
    rw [storedBits_blockOf, toNat_ofNat_word (by omega)]
  rw [← codeTree_height h.nonempty]
  constructor
  · rintro ⟨res, hres, hbits⟩
    obtain ⟨⟨hk, hd⟩, rfl⟩ := (huffmanCompress_eq_ok_iff h hroom res).mp hres
    rw [hstored (blockLength_le h hk hd).1] at hbits
    refine ⟨?_, hk, hd⟩
    have hpos : 0 < data.dedup.length := by
      rw [← codeTree_leaves_length h.nonempty]
      exact List.length_pos_iff.mpr (codeTree data).leaves_ne_nil
    by_contra hlt
    have := bitsOf_codeTree_of_repeated h.nonempty (by omega)
    omega
  · rintro ⟨h2, hk, hd⟩
    refine ⟨_, (huffmanCompress_eq_ok_iff h hroom _).mpr ⟨⟨hk, hd⟩, rfl⟩, ?_⟩
    rw [hstored (blockLength_le h hk hd).1]
    obtain ⟨l, r, ht⟩ := codeTree_node h2 h.nonempty
    have hmsg := fun b hb => (mem_codeTree_bytes h.nonempty b).mpr hb
    rw [ht] at hmsg ⊢
    exact length_le_bitsOf data hmsg

theorem stored_bits_ge_ABA :
    ∃ res, huffmanCompress [65, 66, 65] (List.replicate 254 0) = .ok res ∧
      3 ≤ (storedBits res).toNat :=
  (stored_bits_ge_iff [65, 66, 65] (List.replicate 254 0) ⟨by decide, by decide,
    letters_of_upper (by simp)⟩ (by rw [List.length_replicate]; decide)).mpr
    ⟨by decide, by decide, by decide⟩

/-- A block of one letter, three times: no bits at all. -/
theorem stored_bits_zero_AAA :
    IsBlock [65, 65, 65] ∧ ∃ res, huffmanCompress [65, 65, 65] (List.replicate 254 0) = .ok res ∧
      (storedBits res).toNat = 0 := by
  have hb : IsBlock [65, 65, 65] := ⟨by decide, by decide, letters_of_upper (by simp)⟩
  refine ⟨hb, _, (huffmanCompress_eq_ok_iff hb (by rw [List.length_replicate]; decide) _).mpr
    ⟨⟨by decide, by decide⟩, rfl⟩, ?_⟩
  rw [storedBits_blockOf]
  decide +kernel

end DistHuffman.Link
