/-
  The two fixed limits of `huffman.c`: the queue pool and the eight bits of `encoded_byte`.

  Queue entries are never given back, so one call takes `2 * k - 1` of them for `k` distinct bytes
  and the 59 of the pool are enough exactly up to 30 distinct bytes (`queuePool_fits_iff`).

  A code is as long as its leaf is deep, and how deep depends on the numbers of occurrences alone
  (`mergeHeight`). Nine distinct bytes cannot make a code longer than eight bits; from ten on some
  block of at most 128 bytes does (`codes_fit_iff`).

  Compression succeeds on the blocks that respect both limits and on no other
  (`huffmanCompress_eq_ok_iff`).
-/
import DistHuffman.Link.RoundTrip

namespace DistHuffman.Link

open DistHuffman.Lib DistHuffman.Codec

theorem dedup_length_le_alphabet {data : List UInt8} (h : ∀ b ∈ data, b ∈ alphabet) :
    data.dedup.length ≤ 59 :=
  (List.subperm_of_subset (List.nodup_dedup data) fun b hb =>
    h b (List.mem_dedup.mp hb)).length_le

theorem alphabet_ne_zero : ∀ b ∈ alphabet, b ≠ 0 := by
  have hall : alphabet.all (· ≠ 0) = true := by decide
  intro b hb
  simpa using List.all_eq_true.mp hall b hb

theorem alphabet_nodup : alphabet.Nodup := by decide

/-- Capital letters are in the alphabet. -/
theorem letters_of_upper {data : List UInt8} (h : ∀ b ∈ data, 65 ≤ b.toNat ∧ b.toNat ≤ 90) :
    ∀ b ∈ data, b ∈ alphabet := by
  intro b hb
  have hupper := h b hb
  refine List.mem_append_left _ (List.mem_append_right _ (List.mem_map.mpr
    ⟨b.toNat - 65, List.mem_range.mpr (by omega), ?_⟩))
  rw [show 65 + (b.toNat - 65) = b.toNat by omega, UInt8.ofNat_toNat]

/-! ## Queue pool -/

/-- `build_queue` and `build_tree` stay inside `queue_memory` exactly when the block has at most
    30 distinct bytes. `queue_ptr` counts the calls of `queue_alloc`: nothing moves it back. -/
theorem queuePool_fits_iff (data : List UInt8) (hne : data ≠ []) (hn : data.length < 65536)
    (_ha : ∀ b ∈ data, b ∈ alphabet) :
    (∃ h tree, buildTree (buildQueue {} data).1 (buildQueue {} data).2 = .ok (h, tree) ∧
      h.queuePtr ≤ queueMaxSize) ↔ data.dedup.length ≤ 30 := by
  have hbuild := buildTree_refines hne hn
  constructor
  · rintro ⟨h, tree, heq, hle⟩
    rw [hbuild] at heq
    obtain ⟨rfl, -⟩ := Prod.mk.inj (Except.ok.inj heq)
    simp only [pools, queueMaxSize, alphabetSize] at hle
    omega
  · intro hk
    refine ⟨_, _, hbuild, ?_⟩
    simp only [pools, queueMaxSize, alphabetSize]
    omega

theorem queuePool_fits_two :
    (∃ h tree, buildTree (buildQueue {} [65, 66]).1 (buildQueue {} [65, 66]).2 = .ok (h, tree) ∧
      h.queuePtr ≤ queueMaxSize) ↔ [65, 66].dedup.length ≤ 30 :=
  queuePool_fits_iff [65, 66] (by decide) (by decide) (letters_of_upper (by simp))

/-- The letters `a` to `z` and `A` to `E`: 61 queue entries. -/
theorem queuePool_overflows :
    alphabet.take 31 ≠ [] ∧ (∀ b ∈ alphabet.take 31, b ∈ alphabet) ∧
    ∃ h tree, buildTree (buildQueue {} (alphabet.take 31)).1
        (buildQueue {} (alphabet.take 31)).2 = .ok (h, tree) ∧
      h.queuePtr = 61 ∧ ¬ h.queuePtr ≤ queueMaxSize := by
  have hbuild := @buildTree_refines (alphabet.take 31) (by decide) (by decide)
  exact ⟨by decide, fun _ => List.mem_of_mem_take, _, _, hbuild, by decide, by decide⟩

/-! ## Code length -/

/-- Merge numbers greedily, each with the number of rounds stacked below it: the height of the
    tree that `build_tree` makes of entries with these weights. -/
def mergeHeight (ws : List Nat) : Nat :=
  ((mergeLoop Prod.fst (fun a b : Nat × Nat => (a.1 + b.1, max a.2 b.2 + 1)) ws.length
    (ws.map (·, 0))).headD (0, 0)).2

/-- Only the numbers of occurrences decide how high the tree gets. -/
theorem codeTree_height {data : List UInt8} (hne : data ≠ []) :
    (codeTree data).height = mergeHeight ((counts data).map Prod.snd) := by
  have hsim : mergeLoop Prod.fst (fun a b : Nat × Nat => (a.1 + b.1, max a.2 b.2 + 1))
      (counts data).length (((counts data).map CodeTree.leaf).map fun t => (weight t, t.height)) =
      (mergeLoop weight .node (counts data).length ((counts data).map CodeTree.leaf)).map
        fun t => (weight t, t.height) := by
    refine mergeLoop_map _ (fun _ => True) ?_ ?_ ?_ _ _ trivial
    · intros
      trivial
    · intro a b _ _
      simp only [weight_node, CodeTree.height]
    · intros
      exact Iff.rfl
  rw [show mergeLoop weight CodeTree.node (counts data).length ((counts data).map CodeTree.leaf) =
    [codeTree data] from mergedTrees_eq hne, List.map_map] at hsim
  unfold mergeHeight
  rw [List.length_map, List.map_map, show ((fun w : Nat => (w, 0)) ∘ Prod.snd) =
    ((fun t : CodeTree (UInt8 × Nat) => (weight t, t.height)) ∘ CodeTree.leaf) by
      funext e
      simp [weight, CodeTree.leaves, CodeTree.height], hsim]
  rfl

/-- Every entry of the encoding table that `huffman_compress` builds has at most eight bits. -/
def CodesFit (data : List UInt8) : Prop :=
  ∃ h tree, buildTree (buildQueue {} data).1 (buildQueue {} data).2 = .ok (h, tree) ∧
    ∀ e ∈ buildEncodingTable tree 0 0, e.numBits ≤ 8

/-- A block as the controller sends it: 1 to 128 bytes of the alphabet. -/
structure IsBlock (data : List UInt8) : Prop where
  nonempty : data ≠ []
  length_le : data.length ≤ 128
  letters : ∀ b ∈ data, b ∈ alphabet

theorem height_lt_alphabet {data : List UInt8} (h : IsBlock data) :
    (codeTree data).height < 59 := by
  have h1 := (codeTree data).height_lt_leaves
  have h2 := dedup_length_le_alphabet h.letters
  rw [codeTree_leaves_length h.nonempty] at h1
  omega

theorem codesFit_iff_height {data : List UInt8} (h : IsBlock data) :
    CodesFit data ↔ (codeTree data).height ≤ 8 := by
  have hbuild := buildTree_refines h.nonempty (Nat.lt_of_le_of_lt h.length_le (by decide))
  have hnz := codeTree_nonzero h.nonempty fun b hb => alphabet_ne_zero b (h.letters b hb)
  have hheight := height_lt_alphabet h
  -- below 256 the bit counter of an entry is the length of its path
  have hbits : ∀ e ∈ (codeTree data).paths,
      (infoOf 0 0 e).numBits ≤ 8 ↔ e.2.length ≤ 8 := by
    intro e he
    have := CodeTree.path_length_le he
    rw [infoOf, UInt8.zero_add, UInt8.le_iff_toNat_le, toNat_ofNat_byte (by omega)]
    rfl
  unfold CodesFit
  constructor
  · rintro ⟨p, tree, heq, hall⟩
    rw [hbuild] at heq
    obtain ⟨-, rfl⟩ := Prod.mk.inj (Except.ok.inj heq)
    rw [buildEncodingTable_embed _ _ hnz] at hall
    obtain ⟨e, he, hlen⟩ := (codeTree data).exists_path_height
    rw [← hlen, ← hbits e he]
    exact hall _ (List.mem_map.mpr ⟨e, he, rfl⟩)
  · intro hle
    refine ⟨_, _, hbuild, fun e he => ?_⟩
    rw [buildEncodingTable_embed _ _ hnz] at he
    obtain ⟨p, hp, rfl⟩ := List.mem_map.mp he
    exact (hbits p hp).mpr (Nat.le_trans (CodeTree.path_length_le hp) hle)

theorem codesFit_iff_mergeHeight {data : List UInt8} (h : IsBlock data) :
    CodesFit data ↔ mergeHeight ((counts data).map Prod.snd) ≤ 8 := by
  rw [codesFit_iff_height h, codeTree_height h.nonempty]

/-- The first `k` letters once each, and four of them more often: occurrences
    1, 1, 3, 1, 7, 1, 15, 1, 31, 1, 1, … in queue order. -/
def skewedBlock (k : Nat) : List UInt8 :=
  alphabet.take k ++ List.replicate 2 99 ++ List.replicate 6 101 ++ List.replicate 14 103 ++
    List.replicate 30 105

/-- Bytes that are new one after the other queue in their order. -/
theorem counts_of_nodup {l : List UInt8} (h : l.Nodup) : counts l = l.map (·, 1) := by
  induction l using List.reverseRecOn with
  | nil => rfl
  | append_singleton l b ih =>
    obtain ⟨hl, -, hdisj⟩ := List.nodup_append.mp h
    have hb : b ∉ (counts l).map Prod.fst := by
      rw [mem_counts_map_fst]
      intro hmem
      exact hdisj b hmem b (List.mem_singleton.mpr rfl) rfl
    rw [counts_append_singleton, countStep, if_neg hb, ih hl, List.map_append]
    refine insertTies_of_forall_not_lt fun e he => ?_
    obtain ⟨c, -, rfl⟩ := List.mem_map.mp he
    exact Nat.lt_irrefl 1

/-- Further occurrences are counted in place. -/
theorem counts_append_repeats {l r : List UInt8} (hl : l.Nodup) (hr : ∀ b ∈ r, b ∈ l) :
    counts (l ++ r) = l.map fun b => (b, r.count b + 1) := by
  induction r using List.reverseRecOn with
  | nil => simpa using counts_of_nodup hl
  | append_singleton r c ih =>
    have ih' := ih fun b hb => hr b (List.mem_append_left _ hb)
    have hc : c ∈ (counts (l ++ r)).map Prod.fst := by
      rw [mem_counts_map_fst]
      exact List.mem_append_left _ (hr c (List.mem_append_right _ (List.mem_singleton.mpr rfl)))
    rw [← List.append_assoc, counts_append_singleton, countStep, if_pos hc, ih', List.map_map]
    refine List.map_congr_left fun b _ => ?_
    rw [Function.comp_apply, List.count_append, List.count_singleton, countUp]
    by_cases h : b = c
    · simp [h]
    · simp [h, Ne.symm h]

/-- The numbers of occurrences in `skewedBlock`, in queue order. -/
theorem counts_skewedBlock {k : Nat} (hk : 10 ≤ k) :
    (counts (skewedBlock k)).map Prod.snd =
      ([1, 1, 3, 1, 7, 1, 15, 1, 31] ++ List.replicate 50 1).take k := by
  have hall : alphabet.map (fun b => (List.replicate 2 (99 : UInt8) ++ (List.replicate 6 101 ++
      (List.replicate 14 103 ++ List.replicate 30 105))).count b + 1) =
      [1, 1, 3, 1, 7, 1, 15, 1, 31] ++ List.replicate 50 1 := by
    decide +kernel
  have hmem : ∀ b ∈ ([99, 101, 103, 105] : List UInt8), b ∈ alphabet.take k := by
    intro b hb
    have h10 : ∀ b ∈ ([99, 101, 103, 105] : List UInt8), b ∈ alphabet.take 10 := by decide +kernel
    exact (List.take_subset_take_left alphabet hk) (h10 b hb)
  unfold skewedBlock
  rw [List.append_assoc, List.append_assoc, List.append_assoc,
    counts_append_repeats (alphabet_nodup.sublist (List.take_sublist k alphabet)) ?_,
    List.map_map, ← hall, List.map_take]
  · rfl
  · intro b hb
    simp only [List.mem_append, List.mem_replicate] at hb
    refine hmem b ?_
    simp only [List.mem_cons, List.not_mem_nil, or_false]
    tauto

/-- From ten distinct bytes on the block is one that the controller sends and has a code of more
    than eight bits. -/
theorem skewedBlock_spec {k : Nat} (hk : 10 ≤ k) (hk' : k < 60) :
    IsBlock (skewedBlock k) ∧ (skewedBlock k).dedup.length = k ∧
      8 < mergeHeight ((counts (skewedBlock k)).map Prod.snd) := by
  have hcounts := counts_skewedBlock hk
  have halphabet : alphabet.length = 59 := by decide
  refine ⟨⟨?_, ?_, ?_⟩, ?_, ?_⟩
  · simp [skewedBlock]
  · simp only [skewedBlock, List.length_append, List.length_take, List.length_replicate]
    omega
  · intro b hb
    simp only [skewedBlock, List.mem_append, List.mem_replicate] at hb
    rcases hb with (((hb | ⟨-, rfl⟩) | ⟨-, rfl⟩) | ⟨-, rfl⟩) | ⟨-, rfl⟩
    · exact List.mem_of_mem_take hb
    all_goals decide
  · rw [← counts_length, ← List.length_map Prod.snd, hcounts, List.length_take,
      List.length_append, List.length_replicate, List.length_cons]
    simp only [List.length_cons, List.length_nil]
    omega
  · rw [hcounts]
    have hall : ∀ k < 60, 10 ≤ k →
        8 < mergeHeight (([1, 1, 3, 1, 7, 1, 15, 1, 31] ++ List.replicate 50 1).take k) := by
      decide +kernel
    exact hall k hk' hk

/-- When the codes of a block fit the eight bits of `encoded_byte`: exactly when greedy merging of
    its numbers of occurrences (in queue order) stacks at most eight rounds. They fit in every block
    with as many distinct bytes exactly when these are at most 9. -/
theorem codes_fit_iff (data : List UInt8) (h : IsBlock data) :
    (CodesFit data ↔ mergeHeight ((counts data).map Prod.snd) ≤ 8) ∧
    ((∀ d, IsBlock d → d.dedup.length = data.dedup.length → CodesFit d) ↔
      data.dedup.length ≤ 9) := by
  refine ⟨codesFit_iff_mergeHeight h, fun hall => ?_, fun h9 d hd hdistinct => ?_⟩
  · by_contra hlt
    have hk := dedup_length_le_alphabet h.letters
    obtain ⟨hblock, hdistinct, hhigh⟩ :=
      @skewedBlock_spec data.dedup.length (by omega) (by omega)
    have := (codesFit_iff_mergeHeight hblock).mp (hall _ hblock hdistinct)
    omega
  · rw [codesFit_iff_height hd]
    have := (codeTree d).height_lt_leaves
    rw [codeTree_leaves_length hd.nonempty] at this
    omega

theorem codes_fit_two :
    CodesFit [65, 66] ∧ ∀ d, IsBlock d → d.dedup.length = 2 → CodesFit d := by
  obtain ⟨hone, hall⟩ := codes_fit_iff [65, 66]
    ⟨by decide, by decide, letters_of_upper (by simp)⟩
  exact ⟨hone.mpr (by decide), hall.mpr (by decide)⟩

/-- 62 bytes with ten distinct letters: the two rarest get nine bits. -/
theorem codes_exceed_byte : IsBlock (skewedBlock 10) ∧ ¬ CodesFit (skewedBlock 10) := by
  obtain ⟨hblock, -, hhigh⟩ := @skewedBlock_spec 10 (by decide) (by decide)
  refine ⟨hblock, fun hfit => ?_⟩
  have := (codesFit_iff_mergeHeight hblock).mp hfit
  omega

/-! ## Both limits -/

theorem compressFold_ok {info : List EncodingInfo} {size : UInt16} {msg : List UInt8}
    {s s' : UInt16 × Bitstream} (h : msg.foldlM (compressStep info size) s = .ok s') :
    ∀ b ∈ msg, (findEncodedByte info size b).2 ≤ 8 := by
  induction msg generalizing s with
  | nil => simp
  | cons b msg ih =>
    rw [List.foldlM_cons] at h
    obtain ⟨s1, hstep, hrest⟩ := of_bind_eq_ok h
    obtain ⟨r, hrev, -⟩ := of_bind_eq_ok hstep
    intro c hc
    rcases List.mem_cons.mp hc with rfl | hc
    · by_contra hgt
      rw [reverseBits_of_gt hgt] at hrev
      cases hrev
    · exact ih hrest c hc

/-- The path of a leaf is the code of its byte. -/
theorem codeOf_of_mem_paths {data : List UInt8} (hne : data ≠ []) {e : (UInt8 × Nat) × List Bool}
    (he : e ∈ (codeTree data).paths) : e.1.1 ∈ data ∧ codeOf (codeTree data) e.1.1 = e.2 := by
  have hleaf : e.1 ∈ (codeTree data).leaves := by
    rw [← CodeTree.paths_map_fst]
    exact List.mem_map.mpr ⟨e, he, rfl⟩
  refine ⟨(mem_codeTree_bytes hne _).mp (List.mem_map.mpr ⟨e.1, hleaf, rfl⟩),
    CodeTree.codeOf_eq ?_ ?_⟩
  · rw [CodeTree.leaves_map]
    exact codeTree_bytes_nodup hne
  · rw [CodeTree.paths_map]
    exact List.mem_map.mpr ⟨e, he, rfl⟩

/-- Some byte of the block has a code as long as the tree is high: of two deepest leaves at most one
    carries byte 0, which has none. -/
theorem exists_tableCode_height {data : List UInt8} (hne : data ≠ []) :
    ∃ b ∈ data, (tableCode (codeTree data) b).length = (codeTree data).height := by
  by_cases hflat : (codeTree data).height = 0
  · obtain ⟨b, hb⟩ := List.exists_mem_of_ne_nil data hne
    have := tableCode_length_le (codeTree data) b
    exact ⟨b, hb, by omega⟩
  obtain ⟨e, he, e', he', hpath, hlen, hlen'⟩ :=
    (codeTree data).exists_two_paths_height (Nat.pos_of_ne_zero hflat)
  obtain ⟨hmem, hcode⟩ := codeOf_of_mem_paths hne he
  obtain ⟨hmem', hcode'⟩ := codeOf_of_mem_paths hne he'
  by_cases hzero : e.1.1 = 0
  · have hother : e'.1.1 ≠ 0 := by
      intro hzero'
      rw [hzero] at hcode
      rw [hzero'] at hcode'
      exact hpath (hcode.symm.trans hcode')
    exact ⟨e'.1.1, hmem', by rw [tableCode_of_ne hother, hcode', hlen']⟩
  · exact ⟨e.1.1, hmem, by rw [tableCode_of_ne hzero, hcode, hlen]⟩

/-- A successful compression stayed inside both pools and met no code longer than eight bits. -/
theorem limits_of_huffmanCompress {data out res : List UInt8} (hne : data ≠ [])
    (hn : data.length < 65536) (hrun : huffmanCompress data out = .ok res) :
    data.dedup.length ≤ 30 ∧ (codeTree data).height ≤ 8 := by
  unfold huffmanCompress at hrun
  simp only [buildTree_refines hne hn, ok_bind] at hrun
  split at hrun
  · cases hrun
  split at hrun
  · cases hrun
  next hq =>
    obtain ⟨o1, -, hrun⟩ := of_bind_eq_ok hrun
    obtain ⟨o2, -, hrun⟩ := of_bind_eq_ok hrun
    obtain ⟨c, hc, -⟩ := of_bind_eq_ok hrun
    obtain ⟨s, hfold, -⟩ := of_bind_eq_ok hc
    have hk : data.dedup.length ≤ 30 := by
      simp only [pools, queueMaxSize, alphabetSize] at hq
      omega
    refine ⟨hk, ?_⟩
    obtain ⟨b, hb, hlen⟩ := exists_tableCode_height hne
    have h8 := compressFold_ok hfold b hb
    have hheight := (codeTree data).height_lt_leaves
    rw [codeTree_leaves_length hne] at hheight
    rwa [findEncodedByte_tableCode _ _ (codeTree_leaves_lt hne hn), hlen,
      UInt8.le_iff_toNat_le, toNat_ofNat_byte (by omega)] at h8

theorem flatMap_length_le {code : UInt8 → List Bool} {h : Nat} (hcode : ∀ b, (code b).length ≤ h)
    (msg : List UInt8) : (msg.flatMap code).length ≤ h * msg.length := by
  induction msg with
  | nil => exact Nat.le_refl _
  | cons b msg ih =>
    have := hcode b
    rw [List.flatMap_cons, List.length_append, List.length_cons, Nat.mul_succ]
    omega

theorem bitsOf_length_le (t : CodeTree (UInt8 × Nat)) (msg : List UInt8) :
    (bitsOf t msg).length ≤ t.height * msg.length := flatMap_length_le (codeOf_length_le t) msg

theorem tableBits_length_le (t : CodeTree (UInt8 × Nat)) (msg : List UInt8) :
    (tableBits t msg).length ≤ t.height * msg.length :=
  flatMap_length_le (tableCode_length_le t) msg

/-- Within both limits a block takes 3 bytes for the header, at most 59 for the tree, and a payload
    that is not longer than the data. -/
theorem blockLength_le_add {data : List UInt8} (hne : data ≠ []) (hk : data.dedup.length ≤ 30)
    (hd : (codeTree data).height ≤ 8) :
    (bitsOf (codeTree data) data).length ≤ 8 * data.length ∧
      blockLength (codeTree data) data ≤ 62 + data.length := by
  have hbits : (bitsOf (codeTree data) data).length ≤ 8 * data.length :=
    Nat.le_trans (bitsOf_length_le _ _) (Nat.mul_le_mul_right _ hd)
  refine ⟨hbits, ?_⟩
  unfold blockLength
  rw [codeTree_size hne]
  omega

theorem blockLength_le {data : List UInt8} (h : IsBlock data) (hk : data.dedup.length ≤ 30)
    (hd : (codeTree data).height ≤ 8) :
    (bitsOf (codeTree data) data).length ≤ 1024 ∧ blockLength (codeTree data) data ≤ 190 := by
  have := blockLength_le_add h.nonempty hk hd
  have := h.length_le
  omega

/-- Compression returns exactly within the two limits, in a buffer that is large enough for the
    blocks within them. -/
theorem huffmanCompress_ok_iff {data out : List UInt8} (hne : data ≠ [])
    (hn : data.length < 65536) (h0 : ∀ b ∈ data, b ≠ 0)
    (hroom : data.dedup.length ≤ 30 → (codeTree data).height ≤ 8 →
      blockLength (codeTree data) data ≤ out.length) (res : List UInt8) :
    huffmanCompress data out = .ok res ↔
      (data.dedup.length ≤ 30 ∧ (codeTree data).height ≤ 8) ∧
        res = blockOf (codeTree data) data out := by
  have hrefines : data.dedup.length ≤ 30 → (codeTree data).height ≤ 8 →
      huffmanCompress data out = .ok (blockOf (codeTree data) data out) := by
    intro hk hd
    have hbits := (blockLength_le_add hne hk hd).1
    exact huffmanCompress_refines hne hn h0 hk hd (by omega) (hroom hk hd)
  constructor
  · intro hrun
    obtain ⟨hk, hd⟩ := limits_of_huffmanCompress hne hn hrun
    rw [hrefines hk hd] at hrun
    exact ⟨⟨hk, hd⟩, (Except.ok.inj hrun).symm⟩
  · intro h
    rw [h.2]
    exact hrefines h.1.1 h.1.2

theorem huffmanCompress_eq_ok_iff {data out : List UInt8} (h : IsBlock data)
    (hroom : 190 ≤ out.length) (res : List UInt8) :
    huffmanCompress data out = .ok res ↔
      (data.dedup.length ≤ 30 ∧ (codeTree data).height ≤ 8) ∧
        res = blockOf (codeTree data) data out :=
  huffmanCompress_ok_iff h.nonempty (Nat.lt_of_le_of_lt h.length_le (by decide))
    (fun b hb => alphabet_ne_zero b (h.letters b hb))
    (fun hk hd => Nat.le_trans (blockLength_le h hk hd).2 hroom) res

end DistHuffman.Link
