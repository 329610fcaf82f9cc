/-
  Link: `build_queue` and `build_tree` against an abstract construction.

  Abstractly the queue is the list of the distinct bytes with their numbers of occurrences
  (`counts`), and the tree is what greedy merging by weight makes of it (`codeTree`). `embed`
  turns such a tree into the record tree of the program. Below 2^16 bytes no weight wraps, so

  * `buildQueue_refines`: `build_queue` returns the embedded `counts`, with one node and one queue
    entry taken from the pools for each distinct byte;
  * `buildTree_refines`: `build_tree` returns the embedded `codeTree`, with one node and one queue
    entry more for each merge.

  `codeTree_leaves_perm` says what is in that tree: the distinct bytes, each once.
-/
import DistHuffman.Codec.Basic
import DistHuffman.Lib.Merge
import DistHuffman.Lib.Bits
import DistHuffman.Lib.CodeTree
import Mathlib.Algebra.Order.BigOperators.Group.List
import Mathlib.Algebra.Order.Group.Nat
import Mathlib.Data.List.Induction

namespace DistHuffman.Link

open DistHuffman.Lib DistHuffman.Codec

/-! ## The abstract construction -/

/-- One more occurrence of `b` in the entry that carries it. -/
def countUp (b : UInt8) (e : UInt8 × Nat) : UInt8 × Nat :=
  if e.1 = b then (e.1, e.2 + 1) else e

/-- Count one more byte: in place when it is queued already, else as a new entry behind the
    entries of weight 1. -/
def countStep (q : List (UInt8 × Nat)) (b : UInt8) : List (UInt8 × Nat) :=
  if b ∈ q.map Prod.fst then q.map (countUp b)
  else insertTies Prod.snd (b, 1) q

/-- The distinct bytes of a block with their numbers of occurrences, in queue order. -/
def counts (data : List UInt8) : List (UInt8 × Nat) := data.foldl countStep []

/-- Number of bytes a subtree stands for. -/
def weight (t : CodeTree (UInt8 × Nat)) : Nat := (t.leaves.map Prod.snd).sum

/-- Greedy merging of the counted bytes. -/
def mergedTrees (data : List UInt8) : List (CodeTree (UInt8 × Nat)) :=
  mergeLoop weight .node (counts data).length ((counts data).map .leaf)

/-- The code tree of a block; the default is never used on a non-empty block. -/
def codeTree (data : List UInt8) : CodeTree (UInt8 × Nat) :=
  (mergedTrees data).headD (.leaf (0, 0))

theorem weight_node (l r : CodeTree (UInt8 × Nat)) : weight (.node l r) = weight l + weight r := by
  simp [weight, CodeTree.leaves]

/-! ## Contents of the queue -/

theorem countUp_fst (b : UInt8) (e : UInt8 × Nat) : (countUp b e).1 = e.1 := by
  unfold countUp
  split <;> rfl

theorem map_countUp_of_not_mem {b : UInt8} {q : List (UInt8 × Nat)} (h : b ∉ q.map Prod.fst) :
    q.map (countUp b) = q := by
  conv_rhs => rw [← List.map_id q]
  refine List.map_congr_left fun e he => if_neg fun hb => h ?_
  rw [← hb]
  exact List.mem_map.mpr ⟨e, he, rfl⟩

theorem countStep_map_fst_perm (q : List (UInt8 × Nat)) (b : UInt8) :
    ((countStep q b).map Prod.fst).Perm
      (if b ∈ q.map Prod.fst then q.map Prod.fst else b :: q.map Prod.fst) := by
  unfold countStep
  split
  · rw [List.map_map]
    exact List.Perm.of_eq (List.map_congr_left fun e _ => countUp_fst b e)
  · exact (insertTies_perm Prod.snd (b, 1) q).map Prod.fst

theorem counts_append_singleton (data : List UInt8) (b : UInt8) :
    counts (data ++ [b]) = countStep (counts data) b := by
  unfold counts
  rw [List.foldl_append, List.foldl_cons, List.foldl_nil]

theorem counts_nodup (data : List UInt8) : ((counts data).map Prod.fst).Nodup := by
  induction data using List.reverseRecOn with
  | nil => simp [counts]
  | append_singleton data b ih =>
    rw [counts_append_singleton, (countStep_map_fst_perm _ b).nodup_iff]
    split
    · exact ih
    · next h => exact List.nodup_cons.mpr ⟨h, ih⟩

theorem mem_counts_map_fst (data : List UInt8) (b : UInt8) :
    b ∈ (counts data).map Prod.fst ↔ b ∈ data := by
  induction data using List.reverseRecOn with
  | nil => simp [counts]
  | append_singleton data c ih =>
    rw [counts_append_singleton, (countStep_map_fst_perm _ c).mem_iff, List.mem_append,
      List.mem_singleton]
    split
    · next h =>
      rw [ih]
      constructor
      · exact Or.inl
      · rintro (hb | rfl)
        · exact hb
        · exact ih.mp h
    · rw [List.mem_cons, ih, or_comm]

/-- Every queued byte carries its number of occurrences. -/
theorem snd_of_mem_counts (data : List UInt8) :
    ∀ e ∈ counts data, e.2 = data.count e.1 := by
  induction data using List.reverseRecOn with
  | nil => simp [counts]
  | append_singleton data b ih =>
    intro e he
    rw [counts_append_singleton, countStep] at he
    rw [List.count_append, List.count_singleton]
    split at he
    · obtain ⟨e', he', rfl⟩ := List.mem_map.mp he
      have := ih e' he'
      by_cases h : e'.1 = b
      · subst h
        simp [countUp, this]
      · simp [countUp, h, Ne.symm h, this]
    · next h =>
      rcases mem_insertTies.mp he with rfl | he'
      · have hb : b ∉ data := fun hb => h ((mem_counts_map_fst data b).mpr hb)
        simp [List.count_eq_zero_of_not_mem hb]
      · have hne : b ≠ e.1 := by
          rintro rfl
          exact h (List.mem_map.mpr ⟨e, he', rfl⟩)
        simp [hne, ih e he']

theorem counts_map_fst_perm_dedup (data : List UInt8) :
    ((counts data).map Prod.fst).Perm data.dedup := by
  refine (List.perm_ext_iff_of_nodup (counts_nodup data) (List.nodup_dedup data)).mpr fun b => ?_
  rw [mem_counts_map_fst, List.mem_dedup]

/-- One queue entry for each distinct byte. -/
theorem counts_length (data : List UInt8) : (counts data).length = data.dedup.length := by
  rw [← (counts_map_fst_perm_dedup data).length_eq, List.length_map]

theorem counts_ne_nil {data : List UInt8} (h : data ≠ []) : counts data ≠ [] := by
  rw [← List.length_pos_iff, counts_length, List.length_pos_iff]
  exact (List.dedup_eq_nil data).not.mpr h

theorem countStep_sum (q : List (UInt8 × Nat)) (b : UInt8) (hnd : (q.map Prod.fst).Nodup) :
    ((countStep q b).map Prod.snd).sum = (q.map Prod.snd).sum + 1 := by
  unfold countStep
  split
  · next hb =>
    induction q with
    | nil => simp at hb
    | cons e q ih =>
      simp only [List.map_cons, List.nodup_cons, List.mem_cons] at hnd hb
      simp only [List.map_cons, List.sum_cons]
      by_cases h : e.1 = b
      · -- the bytes behind `e` differ from `b`, so nothing else is counted up
        rw [map_countUp_of_not_mem (h ▸ hnd.1), countUp, if_pos h]
        simp only
        omega
      · have hb' : b ∈ q.map Prod.fst := hb.resolve_left fun h' => h h'.symm
        rw [ih hnd.2 hb', countUp, if_neg h]
        omega
  · rw [((insertTies_perm Prod.snd (b, 1) q).map Prod.snd).sum_eq, List.map_cons, List.sum_cons]
    omega

theorem counts_sum (data : List UInt8) : ((counts data).map Prod.snd).sum = data.length := by
  induction data using List.reverseRecOn with
  | nil => simp [counts]
  | append_singleton data b ih =>
    rw [counts_append_singleton, countStep_sum _ _ (counts_nodup data), ih, List.length_append,
      List.length_singleton]

/-! ## Contents of the tree -/

theorem mergedTrees_eq {data : List UInt8} (h : data ≠ []) :
    mergedTrees data = [codeTree data] := by
  obtain ⟨t, ht⟩ := mergeLoop_eq_singleton weight .node (counts data).length
    ((counts data).map CodeTree.leaf) (by simpa using counts_ne_nil h) (by simp)
  have : codeTree data = t := by
    unfold codeTree mergedTrees
    rw [ht]
    rfl
  rw [this]
  exact ht

/-- Merging rearranges the leaves it starts from. -/
theorem leaves_perm_of_mergeLoop {es : List (UInt8 × Nat)} {t : CodeTree (UInt8 × Nat)}
    (h : mergeLoop weight .node es.length (es.map .leaf) = [t]) : t.leaves.Perm es := by
  have hp := mergeLoop_flatMap_perm weight CodeTree.node CodeTree.leaves (fun _ _ => rfl)
    es.length (es.map CodeTree.leaf)
  rw [h] at hp
  simpa [List.flatMap_map, CodeTree.leaves] using hp

/-- The leaves of the code tree are the counted bytes, rearranged. -/
theorem codeTree_leaves_perm {data : List UInt8} (h : data ≠ []) :
    (codeTree data).leaves.Perm (counts data) := leaves_perm_of_mergeLoop (mergedTrees_eq h)

theorem codeTree_bytes_nodup {data : List UInt8} (h : data ≠ []) :
    ((codeTree data).leaves.map Prod.fst).Nodup :=
  ((codeTree_leaves_perm h).map Prod.fst).nodup_iff.mpr (counts_nodup data)

theorem mem_codeTree_bytes {data : List UInt8} (h : data ≠ []) (b : UInt8) :
    b ∈ (codeTree data).leaves.map Prod.fst ↔ b ∈ data := by
  rw [((codeTree_leaves_perm h).map Prod.fst).mem_iff, mem_counts_map_fst]

theorem codeTree_leaves_length {data : List UInt8} (h : data ≠ []) :
    (codeTree data).leaves.length = data.dedup.length := by
  rw [(codeTree_leaves_perm h).length_eq, counts_length]

theorem codeTree_weight {data : List UInt8} (h : data ≠ []) :
    weight (codeTree data) = data.length := by
  unfold weight
  rw [((codeTree_leaves_perm h).map Prod.snd).sum_eq, counts_sum]

/-! ## Embedding -/

/-- The record tree of an abstract tree; `w` gives the weight fields. -/
def embed (w : CodeTree (UInt8 × Nat) → UInt16) : CodeTree (UInt8 × Nat) → Node
  | .leaf e => .mk .null .null (w (.leaf e)) e.1
  | .node l r => .mk (embed w l) (embed w r) (w (.node l r)) 0

/-- The weight field that `build_queue` and `build_tree` fill in. -/
def weight16 (t : CodeTree (UInt8 × Nat)) : UInt16 := UInt16.ofNat (weight t)

theorem embed_weight (w : CodeTree (UInt8 × Nat) → UInt16) (t : CodeTree (UInt8 × Nat)) :
    (embed w t).weight = w t := by
  cases t <;> rfl

theorem embed_ne_null (w : CodeTree (UInt8 × Nat) → UInt16) (t : CodeTree (UInt8 × Nat)) :
    embed w t ≠ .null := by
  cases t <;> exact Node.noConfusion

/-- `huffman_t` after `t` calls of `tree_alloc` and `q` calls of `queue_alloc`. -/
def pools (t q : Nat) : Huffman := ⟨t, UInt16.ofNat t, q, UInt16.ofNat q⟩

theorem treeAlloc_pools (t q : Nat) (w : UInt16) :
    treeAlloc (pools t q) w = (pools (t + 1) q, .mk .null .null w 0) := by
  simp [treeAlloc, pools, UInt16.ofNat_add]

theorem queueAlloc_pools (t q : Nat) : queueAlloc (pools t q) = pools t (q + 1) := by
  simp [queueAlloc, pools, UInt16.ofNat_add]

theorem queueInsert_eq (q : List Node) (el : Node) :
    queueInsert q el = insertTies Node.weight el q := by
  induction q with
  | nil => rfl
  | cons n q ih =>
    simp only [queueInsert, insertTies, gt_iff_lt, ih]

/-! ## `build_queue` -/

/-- A queued byte as the program has it. -/
def leafNode (e : UInt8 × Nat) : Node := .mk .null .null (UInt16.ofNat e.2) e.1

theorem embed_leaf (e : UInt8 × Nat) : embed weight16 (.leaf e) = leafNode e := by
  simp [embed, weight16, weight, CodeTree.leaves, leafNode]

theorem queueCount_leafNodes (b : UInt8) (q : List (UInt8 × Nat)) (hnd : (q.map Prod.fst).Nodup) :
    queueCount b (q.map leafNode) =
      if b ∈ q.map Prod.fst then
        some ((q.map (countUp b)).map leafNode)
      else none := by
  induction q with
  | nil => rfl
  | cons e q ih =>
    simp only [List.map_cons, List.nodup_cons] at hnd
    rw [List.map_cons, leafNode, queueCount]
    simp only [List.map_cons, List.mem_cons]
    by_cases h : e.1 = b
    · rw [if_pos h, if_pos (Or.inl h.symm), map_countUp_of_not_mem (h ▸ hnd.1), countUp, if_pos h]
      simp [leafNode, UInt16.ofNat_add]
    · have hb : (b = e.1 ∨ b ∈ q.map Prod.fst) ↔ b ∈ q.map Prod.fst :=
        ⟨fun h' => h'.resolve_left fun h'' => h h''.symm, Or.inr⟩
      rw [if_neg h, ih hnd.2, countUp, if_neg h]
      simp only [hb]
      split <;> rfl

theorem leafNode_weight_lt {c : Nat} {e : UInt8 × Nat} (hc : c < 65536) (he : e.2 < 65536) :
    UInt16.ofNat c < (leafNode e).weight ↔ c < e.2 := by
  rw [leafNode, Node.weight, UInt16.lt_iff_toNat_lt, toNat_ofNat_word hc,
    toNat_ofNat_word he]

theorem snd_le_sum {q : List (UInt8 × Nat)} {e : UInt8 × Nat} (he : e ∈ q) :
    e.2 ≤ (q.map Prod.snd).sum :=
  List.single_le_sum (by simp) _ (List.mem_map.mpr ⟨e, he, rfl⟩)

theorem buildQueueStep_refines (t : Nat) (q : List (UInt8 × Nat)) (b : UInt8)
    (hnd : (q.map Prod.fst).Nodup) (hq : (q.map Prod.snd).sum < 65536) :
    buildQueueStep (pools t t, q.map leafNode) b =
      (pools (t + ((countStep q b).length - q.length)) (t + ((countStep q b).length - q.length)),
        (countStep q b).map leafNode) := by
  unfold buildQueueStep countStep
  simp only [queueCount_leafNodes b q hnd]
  split_ifs with h
  · simp
  · have hins : insertTies Node.weight (leafNode (b, 1)) (q.map leafNode) =
        (insertTies Prod.snd (b, 1) q).map leafNode :=
      insertTies_map leafNode (b, 1) q fun e he =>
        leafNode_weight_lt (c := 1) (by decide) (Nat.lt_of_le_of_lt (snd_le_sum he) hq)
    simp only [treeAlloc_pools, queueAddElement, queueAlloc_pools, queueInsert_eq,
      insertTies_length, Nat.add_sub_cancel_left]
    exact congrArg (Prod.mk _) hins

theorem countStep_length_ge (q : List (UInt8 × Nat)) (b : UInt8) :
    q.length ≤ (countStep q b).length := by
  unfold countStep
  split
  · exact Nat.le_of_eq (List.length_map ..).symm
  · rw [insertTies_length]
    omega

theorem buildQueue_refines {data : List UInt8} (hn : data.length < 65536) :
    buildQueue {} data =
      (pools (counts data).length (counts data).length, (counts data).map leafNode) := by
  induction data using List.reverseRecOn with
  | nil => rfl
  | append_singleton data b ih =>
    rw [List.length_append, List.length_singleton] at hn
    have ih := ih (by omega)
    unfold buildQueue at ih ⊢
    rw [List.foldl_append, ih, List.foldl_cons, List.foldl_nil,
      buildQueueStep_refines _ _ _ (counts_nodup data) (by rw [counts_sum]; omega),
      ← counts_append_singleton]
    have := countStep_length_ge (counts data) b
    rw [← counts_append_singleton] at this
    rw [Nat.add_sub_cancel' this]

/-! ## `build_tree` -/

/-- The node that a round of `build_tree` makes. -/
def join (a b : Node) : Node := .mk a b (a.weight + b.weight) 0

/-- `huffman_t` after `n` more rounds of `build_tree`, each with one call of both allocators. -/
def grown (h : Huffman) (n : Nat) : Huffman :=
  ⟨h.treePtr + n, h.allocatedTreeSize + UInt16.ofNat n, h.queuePtr + n,
    h.allocatedQueueSize + UInt16.ofNat n⟩

theorem grown_zero (h : Huffman) : grown h 0 = h := by
  simp [grown]

theorem grown_succ (h : Huffman) (n : Nat) (w : UInt16) :
    grown (queueAlloc (treeAlloc h w).1) n = grown h (n + 1) := by
  simp only [grown, queueAlloc, treeAlloc, UInt16.ofNat_add, UInt16.add_assoc, Nat.add_assoc,
    Nat.add_comm 1 n, UInt16.add_comm 1 (UInt16.ofNat n)]
  rfl

theorem grown_pools (t q n : Nat) : grown (pools t q) n = pools (t + n) (q + n) := by
  simp [grown, pools, UInt16.ofNat_add]

/-- As long as `queue_size` does not wrap, the rounds of `build_tree` are those of `mergeLoop`. -/
theorem buildTreeLoop_eq (fuel : Nat) (h : Huffman) (l : List Node) (hl : l.length < 65536) :
    buildTreeLoop fuel h l =
      (grown h (min fuel (l.length - 1)), mergeLoop Node.weight join fuel l) := by
  induction fuel generalizing h l with
  | zero => simp [buildTreeLoop, mergeLoop, grown_zero]
  | succ fuel ih =>
    rcases l with _ | ⟨a, _ | ⟨b, rest⟩⟩
    · simp [buildTreeLoop, mergeLoop, grown_zero]
    · simp [buildTreeLoop, mergeLoop, grown_zero]
    · have hsize : queueSize (a :: b :: rest) ≥ 2 := by
        rw [queueSize, ge_iff_le, UInt16.le_iff_toNat_le, toNat_ofNat_word hl]
        exact Nat.le_add_left 2 rest.length
      simp only [List.length_cons] at hl
      simp only [buildTreeLoop, if_pos hsize, mergeLoop, queueAddElement, queueInsert_eq]
      rw [show Node.mk a b (treeAlloc h (a.weight + b.weight)).2.weight 0 = join a b from rfl,
        ih _ _ (by rw [insertTies_length]; omega), grown_succ, insertTies_length]
      simp only [List.length_cons]
      rw [show min fuel (rest.length + 1 - 1) + 1 = min (fuel + 1) (rest.length + 1 + 1 - 1) by
        omega]

theorem embed_weight16_lt {s t : CodeTree (UInt8 × Nat)} (hs : weight s < 65536)
    (ht : weight t < 65536) :
    (embed weight16 s).weight < (embed weight16 t).weight ↔ weight s < weight t := by
  rw [embed_weight, embed_weight, weight16, weight16, UInt16.lt_iff_toNat_lt,
    toNat_ofNat_word hs, toNat_ofNat_word ht]

/-- While the weights sum to less than 2^16, merging the records is merging the trees. -/
theorem mergeLoop_embed (fuel : Nat) (q : List (CodeTree (UInt8 × Nat)))
    (hq : (q.map weight).sum < 65536) :
    mergeLoop Node.weight join fuel (q.map (embed weight16)) =
      (mergeLoop weight .node fuel q).map (embed weight16) := by
  refine mergeLoop_map (embed weight16) (fun q => (q.map weight).sum < 65536) ?_ ?_ ?_ fuel q hq
  · intro a b rest h
    rw [((insertTies_perm weight (.node a b) rest).map weight).sum_eq]
    simp only [List.map_cons, List.sum_cons, weight_node] at h ⊢
    omega
  · intro a b rest _
    simp only [join, embed, embed_weight, weight16, weight_node, UInt16.ofNat_add]
  · intro a b rest h y hy
    have hy' : weight y ≤ (rest.map weight).sum :=
      List.single_le_sum (by simp) _ (List.mem_map.mpr ⟨y, hy, rfl⟩)
    simp only [List.map_cons, List.sum_cons] at h
    refine embed_weight16_lt ?_ (by omega)
    rw [weight_node]
    omega

/-- `build_tree` on a queue of leaves whose weights sum to less than 2^16. -/
theorem buildTree_leafNodes (h : Huffman) (es : List (UInt8 × Nat)) (t : CodeTree (UInt8 × Nat))
    (hlen : es.length < 65536) (hsum : (es.map Prod.snd).sum < 65536)
    (ht : mergeLoop weight .node es.length (es.map .leaf) = [t]) :
    buildTree h (es.map leafNode) = .ok (grown h (es.length - 1), embed weight16 t) := by
  have hmap : es.map leafNode = (es.map CodeTree.leaf).map (embed weight16) := by
    rw [List.map_map]
    exact List.map_congr_left fun e _ => (embed_leaf e).symm
  have hweights : (es.map CodeTree.leaf).map weight = es.map Prod.snd := by
    rw [List.map_map]
    exact List.map_congr_left fun e _ => by simp [weight, CodeTree.leaves]
  have hmerge := mergeLoop_embed es.length (es.map CodeTree.leaf) (by rw [hweights]; exact hsum)
  rw [ht] at hmerge
  unfold buildTree
  rw [buildTreeLoop_eq _ _ _ (by rw [List.length_map]; exact hlen), List.length_map, hmap, hmerge]
  simp only [List.map_cons, List.map_nil]
  rw [Nat.min_eq_right (Nat.sub_le _ _)]

theorem buildTree_refines {data : List UInt8} (hne : data ≠ []) (hn : data.length < 65536) :
    buildTree (buildQueue {} data).1 (buildQueue {} data).2 =
      .ok (pools (2 * data.dedup.length - 1) (2 * data.dedup.length - 1),
        embed weight16 (codeTree data)) := by
  have hpos : 0 < data.dedup.length := by
    rw [← counts_length]
    exact List.length_pos_iff.mpr (counts_ne_nil hne)
  have hle : data.dedup.length ≤ data.length := (List.dedup_sublist data).length_le
  rw [buildQueue_refines hn, buildTree_leafNodes _ (counts data) (codeTree data)
    (by rw [counts_length]; omega) (by rw [counts_sum]; exact hn) (mergedTrees_eq hne),
    grown_pools, counts_length,
    show data.dedup.length + (data.dedup.length - 1) = 2 * data.dedup.length - 1 by omega]

end DistHuffman.Link
