/-
  Link: the encoding table of a tree as a code. A tree whose internal nodes have two children is a
  code tree of its bytes (`exists_codeTree`), so the paths to the leaves are a complete prefix code.
  Up to eight bits an entry of the table gives its path back (`bitString_entryOf`), and so the table
  is that code (`encoding_table_complete`). Nothing is asked of the weights.
-/
import DistHuffman.Lib.PrefixCode
import DistHuffman.Link.RoundTrip

namespace DistHuffman.Link

open DistHuffman.Lib DistHuffman.Codec

/-- Internal nodes, which have byte 0, have two children, and leaves have none. -/
def FullTree : Node → Prop
  | .null => False
  | .mk l r _ b => if b ≠ 0 then l = .null ∧ r = .null else FullTree l ∧ FullTree r

/-- The bit string that an entry stands for: the low `num_bits` bits of `encoded_byte`, the highest
    of them first. -/
def bitString (e : EncodingInfo) : List Bool :=
  (List.range e.numBits.toNat).map fun i => e.encodedByte.toNat.testBit (e.numBits.toNat - 1 - i)

theorem exists_codeTree {tree : Node} (h : FullTree tree) :
    ∃ t : CodeTree UInt8, t.paths = leafPaths tree ∧ t.height = nodeDepth tree := by
  induction tree with
  | null => exact h.elim
  | mk l r w b ihl ihr =>
    unfold FullTree at h
    unfold leafPaths nodeDepth
    by_cases hb : b ≠ 0
    · rw [if_pos hb, if_pos hb]
      exact ⟨.leaf b, rfl, rfl⟩
    · rw [if_neg hb] at h
      obtain ⟨tl, hpathl, hheightl⟩ := ihl h.1
      obtain ⟨tr, hpathr, hheightr⟩ := ihr h.2
      refine ⟨.node tl tr, ?_, ?_⟩
      · rw [if_neg hb, CodeTree.paths, hpathl, hpathr]
      · rw [if_neg hb, CodeTree.height, hheightl, hheightr]

theorem numBits_entryOf {e : UInt8 × List Bool} (h : e.2.length ≤ 8) :
    (entryOf 0 0 e).numBits.toNat = e.2.length := by
  rw [entryOf, UInt8.zero_add]
  exact toNat_ofNat_byte (by omega)

theorem bitString_entryOf {e : UInt8 × List Bool} (h : e.2.length ≤ 8) :
    bitString (entryOf 0 0 e) = e.2 := by
  have hbits := numBits_entryOf h
  refine List.ext_getElem (by simp [bitString, hbits]) fun i h1 h2 => ?_
  simp only [bitString, List.getElem_map, List.getElem_range, hbits]
  have hbit := testBit_packMSB 0 e.2 (e.2.length - 1 - i) (by omega) (by omega)
  rw [entryOf, hbit, show e.2.length - 1 - (e.2.length - 1 - i) = i by omega,
    List.getD_eq_getElem?_getD, List.getElem?_eq_getElem h2, Option.getD_some]

/-- The search finds the entry of a byte that occurs once. -/
theorem findEncodedByte_entryOf {paths : List (UInt8 × List Bool)} (hlt : paths.length < 65536)
    {e : UInt8 × List Bool} (hfind : paths.find? (·.1 == e.1) = some e) :
    findEncodedByte (paths.map (entryOf 0 0)) (UInt16.ofNat paths.length) e.1 =
      ((entryOf 0 0 e).encodedByte, (entryOf 0 0 e).numBits) := by
  unfold findEncodedByte
  rw [toNat_ofNat_word hlt, List.take_of_length_le (by rw [List.length_map]), List.find?_map]
  simp only [Function.comp_def, entryOf] at hfind ⊢
  rw [hfind]
  rfl

/-- The table of a full tree with distinct bytes and depth at most 8: as many entries as
    `tree_count_leaves` says, one for each leaf; no bit string begins another; their shares add up
    to 1; and the search for the byte of a leaf gives the path to that leaf. -/
theorem encoding_table_complete (tree : Node) (hfull : FullTree tree)
    (hnd : ((leafPaths tree).map Prod.fst).Nodup) (hdepth : nodeDepth tree ≤ 8) :
    (buildEncodingTable tree 0 0).length = (treeCountLeaves tree).toNat ∧
    (buildEncodingTable tree 0 0).map EncodingInfo.byte = (leafPaths tree).map Prod.fst ∧
    (buildEncodingTable tree 0 0).Pairwise
      (fun e e' => Incomparable (bitString e) (bitString e')) ∧
    ((buildEncodingTable tree 0 0).map fun e => (1 / 2 : ℚ) ^ e.numBits.toNat).sum = 1 ∧
    ∀ b p, (b, p) ∈ leafPaths tree →
      ∃ code n, findEncodedByte (buildEncodingTable tree 0 0) (treeCountLeaves tree) b = (code, n) ∧
        bitString ⟨b, code, n⟩ = p := by
  obtain ⟨t, hpaths, hheight⟩ := exists_codeTree hfull
  have hshort : ∀ e ∈ leafPaths tree, e.2.length ≤ 8 := by
    intro e he
    rw [← hpaths] at he
    have := CodeTree.path_length_le he
    omega
  have hlt : (leafPaths tree).length < 65536 := by
    have hpow : 2 ^ t.height ≤ 2 ^ 8 := Nat.pow_le_pow_right (by decide) (by omega)
    have := t.leaves_length_le
    rw [← hpaths, CodeTree.paths_length]
    omega
  rw [buildEncodingTable_eq, treeCountLeaves_eq]
  refine ⟨?_, ?_, ?_, ?_, fun b p hmem => ?_⟩
  · rw [List.length_map, toNat_ofNat_word hlt]
  · rw [List.map_map]
    rfl
  · rw [List.pairwise_map]
    have hprefix := t.paths_incomparable
    rw [hpaths] at hprefix
    refine hprefix.imp_of_mem fun {e e'} he he' h => ?_
    rwa [bitString_entryOf (hshort e he), bitString_entryOf (hshort e' he')]
  · have hshares : (leafPaths tree).map (fun e => (1 / 2 : ℚ) ^ (entryOf 0 0 e).numBits.toNat) =
        t.paths.map fun e => (1 / 2 : ℚ) ^ e.2.length := by
      rw [hpaths]
      refine List.map_congr_left fun e he => ?_
      rw [numBits_entryOf (hshort e he)]
    rw [List.map_map, Function.comp_def, hshares]
    exact t.kraft_sum
  · have hfind : (leafPaths tree).find? (·.1 == b) = some (b, p) := by
      rw [← hpaths, CodeTree.paths_map_fst] at hnd
      rw [← hpaths] at hmem ⊢
      exact CodeTree.find?_paths hnd hmem
    have hsearch := findEncodedByte_entryOf (e := (b, p)) hlt hfind
    exact ⟨_, _, hsearch, bitString_entryOf (hshort (b, p) hmem)⟩

/-- `'B'` with one bit, `'A'` and `'C'` with two. -/
def treeBAC : Node :=
  .mk (.mk .null .null 2 66) (.mk (.mk .null .null 1 65) (.mk .null .null 1 67) 2 0) 4 0

theorem encoding_table_complete_BAC :
    FullTree treeBAC ∧ ((leafPaths treeBAC).map Prod.fst).Nodup ∧ nodeDepth treeBAC ≤ 8 ∧
    (buildEncodingTable treeBAC 0 0).length = 3 ∧
    ((buildEncodingTable treeBAC 0 0).map fun e => (1 / 2 : ℚ) ^ e.numBits.toNat).sum = 1 := by
  have hfull : FullTree treeBAC := by simp [FullTree, treeBAC]
  have hnd : ((leafPaths treeBAC).map Prod.fst).Nodup := by decide
  have hdepth : nodeDepth treeBAC ≤ 8 := by decide
  obtain ⟨hlength, -, -, hsum, -⟩ := encoding_table_complete treeBAC hfull hnd hdepth
  exact ⟨hfull, hnd, hdepth, hlength, hsum⟩

end DistHuffman.Link
