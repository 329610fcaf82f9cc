/-
  Link: `build_tree` on a sorted queue of leaves gives the least weighted path length. The
  competitors are all record trees with the same weights at their childless records, also those
  with records that have one child only: contracting these does not make a path longer
  (`exists_contraction`), so it is enough to look at full binary trees (`pathCost_mergeLoop_le`).
-/
import DistHuffman.Link.Shape

namespace DistHuffman.Link

open DistHuffman.Lib DistHuffman.Codec

/-- The weights of the childless records. -/
def leafWeights (n : Node) : List Nat := (leafRecords n).map Prod.snd

/-- A record as `build_queue` allocates it. -/
def IsLeaf (n : Node) : Prop := ∃ w b, n = .mk .null .null w b

/-- A full binary tree over the same weights, in the same order, that costs no more. -/
theorem exists_contraction (n : Node) (hn : n ≠ .null) (d : Nat) :
    ∃ t : CodeTree Nat, t.leaves = leafWeights n ∧
      t.pathCost id + t.total id * d ≤ pathLengthFrom d n := by
  induction n generalizing d with
  | null => exact absurd rfl hn
  | mk l r w b ihl ihr =>
    unfold leafWeights leafRecords pathLengthFrom
    by_cases hl : l = .null
    · by_cases hr : r = .null
      · rw [if_pos ⟨hl, hr⟩, if_pos ⟨hl, hr⟩]
        refine ⟨.leaf w.toNat, rfl, ?_⟩
        simp [CodeTree.pathCost_leaf, CodeTree.total, CodeTree.leaves]
      · -- only a right child: drop the record
        obtain ⟨t, ht, hc⟩ := ihr hr (d + 1)
        rw [if_neg fun h => hr h.2, if_neg fun h => hr h.2, hl]
        refine ⟨t, ht, ?_⟩
        rw [Nat.mul_add_one] at hc
        omega
    · rw [if_neg fun h => hl h.1, if_neg fun h => hl h.1]
      obtain ⟨tl, htl, hcl⟩ := ihl hl (d + 1)
      rw [Nat.mul_add_one] at hcl
      by_cases hr : r = .null
      · rw [hr, leafRecords, List.append_nil]
        refine ⟨tl, htl, ?_⟩
        omega
      · obtain ⟨tr, htr, hcr⟩ := ihr hr (d + 1)
        rw [Nat.mul_add_one] at hcr
        refine ⟨.node tl tr, ?_, ?_⟩
        · rw [CodeTree.leaves, htl, htr, List.map_append]
          rfl
        · rw [CodeTree.pathCost_node, CodeTree.total_node, Nat.add_mul]
          omega

/-- A queue of leaves is made of bytes and weights. -/
theorem map_leafNode_of_isLeaf {q : List Node} (h : ∀ n ∈ q, IsLeaf n) :
    (q.map fun n => (n.byte, n.weight.toNat)).map leafNode = q := by
  rw [List.map_map]
  refine (List.map_congr_left ?_).trans (List.map_id q)
  intro n hn
  obtain ⟨w, b, rfl⟩ := h n hn
  simp [leafNode, Node.byte, Node.weight]

/-- `hlen` is the range of `queue_size`; a queue that `build_queue` makes has an entry for each
    byte value at most. -/
theorem build_tree_optimal (h : Huffman) (q : List Node) (hne : q ≠ [])
    (hleaf : ∀ n ∈ q, IsLeaf n) (hlen : q.length < 65536)
    (hsorted : q.Pairwise fun a b => a.weight ≤ b.weight)
    (hsum : (q.map fun n => n.weight.toNat).sum ≤ 65535) :
    ∃ h' root, buildTree h q = .ok (h', root) ∧
      (leafWeights root).Perm (q.map fun n => n.weight.toNat) ∧
      ∀ t : Node, (leafWeights t).Perm (leafWeights root) →
        weightedPathLength root ≤ weightedPathLength t := by
  let es := q.map fun n => (n.byte, n.weight.toNat)
  have heslen : es.length = q.length := List.length_map _
  have hweights : es.map Prod.snd = q.map fun n => n.weight.toNat := by
    rw [List.map_map]
    rfl
  obtain ⟨r, hr⟩ := mergeLoop_eq_singleton weight .node es.length (es.map .leaf)
    (by simpa [es] using hne) (by simp)
  have hbuild := buildTree_leafNodes h es r (by rw [heslen]; exact hlen)
    (by rw [hweights]; omega) hr
  rw [map_leafNode_of_isLeaf hleaf] at hbuild
  have hperm : r.leaves.Perm es := leaves_perm_of_mergeLoop hr
  have hw : weight r < 65536 := by
    unfold weight
    rw [(hperm.map Prod.snd).sum_eq, hweights]
    omega
  have hroot : leafWeights (embed weight16 r) = r.leaves.map Prod.snd := by
    rw [leafWeights, leafRecords_embed hw]
  refine ⟨_, _, hbuild, ?_, ?_⟩
  · rw [hroot, ← hweights]
    exact hperm.map Prod.snd
  · intro t ht
    rw [hroot] at ht
    have htne : t ≠ .null := by
      intro h0
      rw [h0] at ht
      exact r.leaves_ne_nil (List.map_eq_nil_iff.mp ht.nil_eq.symm)
    obtain ⟨s, hs, hcost⟩ := exists_contraction t htne 0
    have hsort : es.Pairwise fun a b => a.2 ≤ b.2 := by
      rw [List.pairwise_map]
      exact hsorted.imp fun hab => UInt16.le_iff_toNat_le.mp hab
    have hmin := pathCost_mergeLoop_le Prod.snd es.length es r hsort hr id s
      (by
        rw [List.map_id, hs]
        exact ht.trans (hperm.map Prod.snd))
    rw [weightedPathLength, weightedPathLength, pathLengthFrom_embed hw]
    omega

theorem build_tree_optimal_ABC :
    ∃ h' root, buildTree {} [.mk .null .null 1 65, .mk .null .null 1 66, .mk .null .null 3 67] =
        .ok (h', root) ∧
      ∀ t : Node, (leafWeights t).Perm (leafWeights root) →
        weightedPathLength root ≤ weightedPathLength t := by
  obtain ⟨h', root, hb, -, hmin⟩ := build_tree_optimal {}
    [.mk .null .null 1 65, .mk .null .null 1 66, .mk .null .null 3 67] (by decide)
    (by simp [IsLeaf]) (by decide) (by decide) (by decide)
  exact ⟨h', root, hb, hmin⟩

end DistHuffman.Link
