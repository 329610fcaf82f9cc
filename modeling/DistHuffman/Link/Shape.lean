/-
  Link: what can be read off a record tree without knowing how it was made: its childless records,
  the weights of the others, the weighted path length. `WellBuilt` asks two children of every other
  record, and their weights to sum to its own. On an embedded tree these are the leaves and the
  cost of the abstract tree (`leafRecords_embed`, `pathLengthFrom_embed`, `internalWeights_embed`).
-/
import DistHuffman.Lib.Optimal
import DistHuffman.Link.Text

namespace DistHuffman.Link

open DistHuffman.Lib DistHuffman.Codec

/-- The records without children, as byte and weight, from left to right. -/
def leafRecords : Node → List (UInt8 × Nat)
  | .null => []
  | .mk l r w b =>
      if l = .null ∧ r = .null then [(b, w.toNat)] else leafRecords l ++ leafRecords r

/-- The weights of the records with a child. -/
def internalWeights : Node → List Nat
  | .null => []
  | .mk l r w _ =>
      if l = .null ∧ r = .null then [] else w.toNat :: internalWeights l ++ internalWeights r

/-- Sum over the childless records of weight times depth, for a tree that hangs at depth `d`. -/
def pathLengthFrom (d : Nat) : Node → Nat
  | .null => 0
  | .mk l r w _ =>
      if l = .null ∧ r = .null then w.toNat * d
      else pathLengthFrom (d + 1) l + pathLengthFrom (d + 1) r

def weightedPathLength (n : Node) : Nat := pathLengthFrom 0 n

/-- A record with a child has two, and the sum of their weights. -/
def WellBuilt : Node → Prop
  | .null => True
  | .mk l r w _ =>
      l = .null ∧ r = .null ∨
        l ≠ .null ∧ r ≠ .null ∧ w.toNat = l.weight.toNat + r.weight.toNat ∧
          WellBuilt l ∧ WellBuilt r

theorem weight_eq_total (t : CodeTree (UInt8 × Nat)) : weight t = t.total Prod.snd := rfl

theorem weight16_toNat {t : CodeTree (UInt8 × Nat)} (h : weight t < 65536) :
    (weight16 t).toNat = weight t := toNat_ofNat_word h

section Embedded

variable {l r t : CodeTree (UInt8 × Nat)}

theorem weight_left_lt (h : weight (.node l r) < 65536) : weight l < 65536 := by
  rw [weight_node] at h
  omega

theorem weight_right_lt (h : weight (.node l r) < 65536) : weight r < 65536 := by
  rw [weight_node] at h
  omega

/-- The test for a childless record fails at an embedded node. -/
theorem not_childless : ¬ (embed weight16 l = .null ∧ embed weight16 r = .null) :=
  fun h => embed_ne_null _ _ h.1

theorem leaf_weight (e : UInt8 × Nat) : weight (.leaf e) = e.2 := by
  simp [weight, CodeTree.leaves]

theorem leafRecords_embed (h : weight t < 65536) : leafRecords (embed weight16 t) = t.leaves := by
  induction t with
  | leaf e =>
    rw [embed, leafRecords, if_pos ⟨rfl, rfl⟩, weight16_toNat h, leaf_weight]
    rfl
  | node l r ihl ihr =>
    rw [embed, leafRecords, if_neg not_childless, ihl (weight_left_lt h), ihr (weight_right_lt h)]
    rfl

theorem pathLengthFrom_embed (h : weight t < 65536) (d : Nat) :
    pathLengthFrom d (embed weight16 t) = t.pathCost Prod.snd + weight t * d := by
  induction t generalizing d with
  | leaf e =>
    rw [embed, pathLengthFrom, if_pos ⟨rfl, rfl⟩, weight16_toNat h, CodeTree.pathCost_leaf,
      Nat.zero_add]
  | node l r ihl ihr =>
    rw [embed, pathLengthFrom, if_neg not_childless, ihl (weight_left_lt h),
      ihr (weight_right_lt h), CodeTree.pathCost_node, weight_node, ← weight_eq_total,
      ← weight_eq_total, Nat.mul_add_one, Nat.mul_add_one, Nat.add_mul]
    omega

/-- Summing the internal weights is another way to add up weight times depth. -/
theorem internalWeights_embed (h : weight t < 65536) :
    (internalWeights (embed weight16 t)).sum = t.pathCost Prod.snd := by
  induction t with
  | leaf e => rw [embed, internalWeights, if_pos ⟨rfl, rfl⟩, CodeTree.pathCost_leaf, List.sum_nil]
  | node l r ihl ihr =>
    rw [embed, internalWeights, if_neg not_childless, List.cons_append, List.sum_cons,
      List.sum_append, ihl (weight_left_lt h), ihr (weight_right_lt h), weight16_toNat h,
      CodeTree.pathCost_node, weight_node, ← weight_eq_total, ← weight_eq_total]
    omega

theorem wellBuilt_embed (h : weight t < 65536) : WellBuilt (embed weight16 t) := by
  induction t with
  | leaf e => exact Or.inl ⟨rfl, rfl⟩
  | node l r ihl ihr =>
    refine Or.inr ⟨embed_ne_null _ _, embed_ne_null _ _, ?_, ihl (weight_left_lt h),
      ihr (weight_right_lt h)⟩
    rw [embed_weight, embed_weight, weight16_toNat h, weight16_toNat (weight_left_lt h),
      weight16_toNat (weight_right_lt h), weight_node]

end Embedded

/-! ## The tree of a block -/

/-- `build_tree` after `build_queue`: one leaf for each byte of the block, carrying its number of
    occurrences, and no weight wraps. -/
theorem build_tree_of_block (data : List UInt8) (hpos : 1 ≤ data.length)
    (hn : data.length ≤ 65535) (hk : data.dedup.length ≤ 59) :
    ∃ h root, buildTree (buildQueue {} data).1 (buildQueue {} data).2 = .ok (h, root) ∧
      WellBuilt root ∧
      ((leafRecords root).map Prod.fst).Perm data.dedup ∧
      (∀ e ∈ leafRecords root, e.2 = data.count e.1) ∧
      root.weight.toNat = data.length ∧
      h.treePtr = 2 * data.dedup.length - 1 ∧
      h.allocatedTreeSize.toNat = 2 * data.dedup.length - 1 ∧
      treeGetSize root = 2 * data.dedup.length - 1 ∧
      2 * data.dedup.length - 1 ≤ treeMaxSize ∧ treeMaxSize < 256 := by
  have hne : data ≠ [] := List.length_pos_iff.mp hpos
  have hw : weight (codeTree data) < 65536 := by
    rw [codeTree_weight hne]
    omega
  refine ⟨_, _, buildTree_refines hne (by omega), wellBuilt_embed hw, ?_, ?_, ?_, rfl, ?_, ?_, ?_,
    by decide⟩
  · rw [leafRecords_embed hw]
    exact ((codeTree_leaves_perm hne).map Prod.fst).trans (counts_map_fst_perm_dedup data)
  · intro e he
    rw [leafRecords_embed hw, (codeTree_leaves_perm hne).mem_iff] at he
    exact snd_of_mem_counts data e he
  · rw [embed_weight, weight16_toNat hw, codeTree_weight hne]
  · exact toNat_ofNat_word (by omega)
  · have hsize := CodeTree.size_eq (codeTree data)
    rw [codeTree_leaves_length hne] at hsize
    rw [treeGetSize_embed]
    omega
  · have : treeMaxSize = 117 := rfl
    omega

theorem build_tree_of_block_ABA :
    ∃ h root, buildTree (buildQueue {} [65, 66, 65]).1 (buildQueue {} [65, 66, 65]).2 =
        .ok (h, root) ∧
      WellBuilt root ∧ root.weight.toNat = 3 ∧ h.treePtr = 3 := by
  obtain ⟨h, root, hb, hw, -, -, hr, ht, -⟩ :=
    build_tree_of_block [65, 66, 65] (by decide) (by decide) (by decide)
  exact ⟨h, root, hb, hw, hr, ht⟩

end DistHuffman.Link
