/-
  Link: `huffman_inflate` on any string of bytes. `Spells` is the grammar that
  `deserialize_tree_node` reads, zero bytes and missing children included, and a run of
  `huffman_inflate` splits into a tree that its text spells and a run of `inflate_data` behind it
  (`huffmanInflate_eq_ok_iff`).

  Nothing compares the tree text, the node count and the bit count of a block with its size: the
  one guard of the loop measures the payload by the size of the whole block and never stops it.
  So a run stays inside the block exactly when the three are consistent (`inflate_inside_iff`).
-/
import DistHuffman.Link.Size
import DistHuffman.Link.Walk

namespace DistHuffman.Link

open DistHuffman.Lib DistHuffman.Codec

/-! ## The tree text -/

/-- A text and the tree it stands for. A zero byte is a leaf that looks like an internal node. -/
inductive Spells : Node → List UInt8 → Prop where
  | missing : Spells .null [45]
  | leaf {c : UInt8} (h45 : c ≠ 45) (h42 : c ≠ 42) : Spells (.mk .null .null 0 c) [c]
  | node {l r : Node} {s s' : List UInt8} (hl : Spells l s) (hr : Spells r s') :
      Spells (.mk l r 0 0) (42 :: (s ++ s'))

theorem Spells.levels_le {t : Node} {s : List UInt8} (h : Spells t s) : levels t ≤ s.length := by
  induction h with
  | missing => exact Nat.zero_le _
  | leaf h45 h42 => exact Nat.le_refl _
  | node hl hr ihl ihr =>
    simp only [levels, List.length_cons, List.length_append]
    omega

theorem Spells.deserializeTreeNode {t : Node} {s : List UInt8} (h : Spells t s) {fuel : Nat}
    (hfuel : s.length ≤ fuel) (p q : Nat) (rest : List UInt8) :
    Codec.deserializeTreeNode fuel (pools p q) (s ++ rest) =
      .ok (pools (p + treeGetSize t) q, t, rest) := by
  induction h generalizing fuel p rest with
  | missing =>
    obtain ⟨fuel, rfl⟩ := Nat.exists_eq_add_of_le' hfuel
    rfl
  | @leaf c h45 h42 =>
    obtain ⟨fuel, rfl⟩ := Nat.exists_eq_add_of_le' hfuel
    simp only [List.length_singleton, List.singleton_append, Codec.deserializeTreeNode, if_neg h45,
      if_pos h42, treeAlloc_pools]
    rfl
  | @node l r s s' hl hr ihl ihr =>
    simp only [List.length_cons, List.length_append] at hfuel
    obtain ⟨fuel, rfl⟩ : ∃ k, fuel = k + 1 := ⟨fuel - 1, by omega⟩
    simp only [List.cons_append, List.append_assoc, Codec.deserializeTreeNode, treeAlloc_pools]
    rw [if_neg (by decide), if_neg (by decide), ihl (by omega), ok_bind, ihr (by omega), ok_bind]
    simp only [treeGetSize]
    rw [show p + 1 + treeGetSize l + treeGetSize r = p + (treeGetSize l + treeGetSize r + 1) by
      omega]
    rfl

theorem spells_of_deserializeTreeNode {fuel p q : Nat} {h' : Huffman} {s rest : List UInt8}
    {t : Node} (hd : Codec.deserializeTreeNode fuel (pools p q) s = .ok (h', t, rest)) :
    ∃ text, s = text ++ rest ∧ Spells t text ∧ h' = pools (p + treeGetSize t) q := by
  induction fuel generalizing p h' s rest t with
  | zero => cases hd
  | succ fuel ih =>
    cases s with
    | nil => cases hd
    | cons c s =>
      unfold Codec.deserializeTreeNode at hd
      by_cases h45 : c = 45
      · rw [if_pos h45] at hd
        cases hd
        exact ⟨[45], by rw [h45]; rfl, .missing, rfl⟩
      · simp only [if_neg h45, treeAlloc_pools] at hd
        by_cases h42 : c ≠ 42
        · rw [if_pos h42] at hd
          cases hd
          exact ⟨[c], rfl, .leaf h45 h42, rfl⟩
        · rw [if_neg h42] at hd
          obtain ⟨⟨h1, l, rest1⟩, hl, hd⟩ := of_bind_eq_ok hd
          obtain ⟨textl, rfl, hspelll, rfl⟩ := ih hl
          obtain ⟨⟨h2, r, rest2⟩, hr, hd⟩ := of_bind_eq_ok hd
          obtain ⟨textr, rfl, hspellr, rfl⟩ := ih hr
          cases hd
          refine ⟨42 :: (textl ++ textr), ?_, .node hspelll hspellr, ?_⟩
          · rw [not_not.mp h42, List.cons_append, List.append_assoc]
          · simp only [treeGetSize]
            rw [show p + 1 + treeGetSize l + treeGetSize r =
              p + (treeGetSize l + treeGetSize r + 1) by omega]

/-- `deserialize_tree` accepts exactly the texts of the grammar, and what follows is the payload. -/
theorem deserializeTree_eq_ok_iff {s : List UInt8} {h' : Huffman} {t : Node} {n : Nat} :
    deserializeTree {} s = .ok (h', t, n) ↔
      ∃ text payload, s = text ++ payload ∧ Spells t text ∧ h' = pools (treeGetSize t) 0 ∧
        n = text.length := by
  rw [pools_zero, deserializeTree]
  constructor
  · intro hd
    obtain ⟨⟨h1, t1, rest⟩, hnode, hret⟩ := of_bind_eq_ok hd
    obtain ⟨text, rfl, hspell, rfl⟩ := spells_of_deserializeTreeNode hnode
    cases hret
    refine ⟨text, rest, rfl, hspell, by rw [Nat.zero_add], ?_⟩
    rw [List.length_append, Nat.add_sub_cancel]
  · intro h
    obtain ⟨text, payload, rfl, hspell, rfl, rfl⟩ := h
    rw [hspell.deserializeTreeNode (by simp) 0 0 payload, ok_bind, List.length_append,
      Nat.add_sub_cancel, Nat.zero_add]
    rfl

/-! ## `huffman_inflate` -/

/-- Behind the header and a tree text `huffman_inflate` is `inflate_data`. -/
theorem Spells.huffmanInflate {tree : Node} {text : List UInt8} (h : Spells tree text)
    {data payload : List UInt8} (hlen : 3 ≤ data.length) (hdrop : data.drop 3 = text ++ payload)
    (hnull : tree ≠ .null) (hpool : treeGetSize tree ≤ (data.getD 0 0).toNat) (dataSize : UInt16)
    (out : List UInt8) :
    Codec.huffmanInflate data dataSize out =
      inflateData tree payload dataSize (storedBits data) out := by
  unfold Codec.huffmanInflate
  rw [load_of_lt (by omega), ok_bind, load_of_lt (by omega), ok_bind, load_of_lt (by omega),
    ok_bind, deserializeTree_eq_ok_iff.mpr ⟨text, payload, hdrop, h, rfl, rfl⟩, ok_bind]
  simp only [pools]
  rw [if_neg (Nat.not_lt.mpr hpool), if_neg hnull, ← List.drop_drop, hdrop, List.drop_left]
  rfl

/-- `huffman_inflate` returns exactly when a text behind the header spells a tree that is there and
    not larger than byte 0 says, and `inflate_data` returns on what follows. -/
theorem huffmanInflate_eq_ok_iff {data : List UInt8} (hlen : 3 ≤ data.length) (dataSize : UInt16)
    (out : List UInt8) (res : List UInt8 × Nat) :
    huffmanInflate data dataSize out = .ok res ↔
      ∃ tree text payload, data.drop 3 = text ++ payload ∧ Spells tree text ∧ tree ≠ .null ∧
        treeGetSize tree ≤ (data.getD 0 0).toNat ∧
        inflateData tree payload dataSize (storedBits data) out = .ok res := by
  constructor
  · intro h
    have hrun := h
    unfold huffmanInflate at h
    obtain ⟨treeSize, hload, h⟩ := of_bind_eq_ok h
    rw [load_of_lt (by omega)] at hload
    cases hload
    obtain ⟨hi, -, h⟩ := of_bind_eq_ok h
    obtain ⟨lo, -, h⟩ := of_bind_eq_ok h
    obtain ⟨⟨h', tree, n⟩, hde, h⟩ := of_bind_eq_ok h
    obtain ⟨text, payload, hdrop, hspell, rfl, rfl⟩ := deserializeTree_eq_ok_iff.mp hde
    simp only at h
    split at h
    · cases h
    · next hpool =>
      split at h
      · cases h
      · next hnull =>
        refine ⟨tree, text, payload, hdrop, hspell, hnull, Nat.le_of_not_lt hpool, ?_⟩
        rw [← hspell.huffmanInflate hlen hdrop hnull (Nat.le_of_not_lt hpool)]
        exact hrun
  · intro h
    obtain ⟨tree, text, payload, hdrop, hspell, hnull, hpool, h⟩ := h
    rw [hspell.huffmanInflate hlen hdrop hnull hpool]
    exact h

/-! ## Inside the block -/

/-- `huffman_inflate` of a block that fills its buffer returns, whatever the destination, as long as
    that has room for a character a bit: it has not read past the block, not taken more nodes than
    byte 0 says and not followed a `NULL` root. -/
def InsideBlock (data : List UInt8) : Prop :=
  ∀ out : List UInt8, 8 * data.length ≤ out.length →
    ∃ res, huffmanInflate data (UInt16.ofNat data.length) out = .ok res

/-- A text behind the header spells a tree that is there and not larger than byte 0 says, and
    complete codes in the bits behind it make up the bit count. -/
def SelfContained (data : List UInt8) : Prop :=
  ∃ tree text payload, data.drop 3 = text ++ payload ∧ Spells tree text ∧ tree ≠ .null ∧
    treeGetSize tree ≤ (data.getD 0 0).toNat ∧
    (storedBits data).toNat ≤
      walkBits (walks tree (8 * payload.length) (bitsFrom payload 0))

theorem walkBits_walks_le {n : Node} (hn : n ≠ .null) (fuel : Nat) (bits : List Bool) :
    walkBits (walks n fuel bits) ≤ bits.length := by
  induction fuel generalizing bits with
  | zero => exact Nat.zero_le _
  | succ fuel ih =>
    rw [walks]
    cases hwalk : walk bits n with
    | none => exact Nat.zero_le _
    | some r =>
      have hr := walk_length hn hwalk
      have := ih (bits.drop r.2)
      rw [List.length_drop] at this
      rw [Option.elim_some, walkBits_cons]
      omega

/-- Where the walks end before `data_size` bytes, only the bit count decides. -/
theorem takeWalks_ne_none_iff {dataSize totalBits pos : Nat} {ws : List (UInt8 × Nat)}
    (h : pos + walkBits ws < 8 * dataSize) :
    takeWalks dataSize totalBits pos ws ≠ none ↔ totalBits ≤ pos + walkBits ws := by
  induction ws generalizing pos with
  | nil =>
    rw [walkBits_nil] at h ⊢
    rw [takeWalks]
    by_cases htotal : pos < totalBits
    · rw [if_pos ⟨htotal, by omega⟩]
      exact ⟨fun h => absurd rfl h, fun h => by omega⟩
    · rw [if_neg (fun h => htotal h.1)]
      exact ⟨fun _ => by omega, fun _ => Option.some_ne_none _⟩
  | cons r ws ih =>
    rw [walkBits_cons] at h ⊢
    by_cases htotal : pos < totalBits
    · rw [takeWalks, if_pos ⟨htotal, by omega⟩, Ne, Option.map_eq_none_iff, ← Nat.add_assoc]
      exact ih (by omega)
    · rw [takeWalks_stop (fun h => htotal h.1)]
      exact ⟨fun _ => by omega, fun _ => Option.some_ne_none _⟩

theorem runWalks_ne_none_iff {tree : Node} (htree : tree ≠ .null) {payload : List UInt8}
    {dataSize totalBits : UInt16} (h : payload.length < dataSize.toNat) :
    runWalks tree payload dataSize totalBits ≠ none ↔
      totalBits.toNat ≤ walkBits (walks tree (8 * payload.length) (bitsFrom payload 0)) := by
  have hle := walkBits_walks_le htree (8 * payload.length) (bitsFrom payload 0)
  rw [bitsFrom_length] at hle
  rw [runWalks, takeWalks_ne_none_iff (by omega), Nat.zero_add]

/-- Decoding stays inside a block exactly when the block is self-contained. -/
theorem inflate_inside_iff (data : List UInt8) (h4 : 4 ≤ data.length) (h255 : data.length ≤ 255) :
    InsideBlock data ↔ SelfContained data := by
  have hsize : (UInt16.ofNat data.length).toNat = data.length := toNat_ofNat_word (by omega)
  -- both sides speak about the same split of the block
  have hsplit : ∀ {tree : Node} {text payload : List UInt8}, data.drop 3 = text ++ payload →
      Spells tree text → levels tree ≤ 255 ∧ payload.length < data.length := by
    intro tree text payload hdrop hspell
    have hlen := congrArg List.length hdrop
    have hlevels := hspell.levels_le
    rw [List.length_drop, List.length_append] at hlen
    omega
  constructor
  · intro h
    obtain ⟨res, hres⟩ := h (List.replicate (8 * data.length) 0) (by simp)
    obtain ⟨tree, text, payload, hdrop, hspell, hnull, hpool, hdata⟩ :=
      (huffmanInflate_eq_ok_iff (by omega) _ _ _).mp hres
    obtain ⟨hlevels, hpayload⟩ := hsplit hdrop hspell
    obtain ⟨ws, hws, -⟩ := (inflateData_eq_ok_iff hnull hlevels (by omega) _ _).mp hdata
    refine ⟨tree, text, payload, hdrop, hspell, hnull, hpool, ?_⟩
    rw [← runWalks_ne_none_iff hnull (hsize ▸ hpayload), hws]
    exact Option.some_ne_none _
  · intro h out hout
    obtain ⟨tree, text, payload, hdrop, hspell, hnull, hpool, hbits⟩ := h
    obtain ⟨hlevels, hpayload⟩ := hsplit hdrop hspell
    obtain ⟨ws, hws⟩ := Option.ne_none_iff_exists'.mp
      ((runWalks_ne_none_iff hnull (hsize ▸ hpayload)).mpr hbits)
    have hlength := runWalks_length hnull hws
    have hdata := (inflateData_eq_ok_iff hnull hlevels (by omega) out _).mpr
      ⟨ws, hws, by omega, rfl⟩
    exact ⟨_, (huffmanInflate_eq_ok_iff (by omega) _ _ _).mpr
      ⟨tree, text, payload, hdrop, hspell, hnull, hpool, hdata⟩⟩

/-- The block that `huffman_compress` gives for `"AB"`. -/
theorem inflate_inside_AB : InsideBlock [3, 0, 2, 42, 65, 66, 2] :=
  (inflate_inside_iff [3, 0, 2, 42, 65, 66, 2] (by decide) (by decide)).mpr
    ⟨.mk (.mk .null .null 0 65) (.mk .null .null 0 66) 0 0, [42, 65, 66], [2], rfl,
      .node (.leaf (by decide) (by decide)) (.leaf (by decide) (by decide)), by decide, by decide,
      by decide⟩

/-- A tree of one leaf and a bit count of one, with no payload: the bit is read behind the block. -/
theorem inflate_leaves_block : ¬ InsideBlock [1, 0, 1, 65] := by
  intro h
  obtain ⟨res, hres⟩ := h (List.replicate 32 0) (by decide)
  rw [show huffmanInflate [1, 0, 1, 65] (UInt16.ofNat [(1 : UInt8), 0, 1, 65].length)
    (List.replicate 32 0) = .error .bounds by decide] at hres
  cases hres

/-! ## Blocks of a message -/

theorem bitsFrom_of_bitsAt {buff : List UInt8} {pos : Nat} {p : List Bool} (h : BitsAt buff pos p)
    (hp : pos + p.length ≤ 8 * buff.length) :
    bitsFrom buff pos = p ++ bitsFrom buff (pos + p.length) := by
  induction p generalizing pos with
  | nil => rfl
  | cons b p ih =>
    obtain ⟨hb, hrest⟩ := h.cons
    simp only [List.length_cons] at hp ⊢
    rw [bitsFrom_cons (by omega), hb, ih hrest (by omega), List.cons_append, Nat.add_assoc,
      Nat.add_comm 1]

theorem bitsAt_of_bitsFrom {buff : List UInt8} {pos : Nat} {p rest : List Bool}
    (h : bitsFrom buff pos = p ++ rest) : BitsAt buff pos p := by
  intro j hj
  have hlen := congrArg List.length h
  rw [bitsFrom_length, List.length_append] at hlen
  have hget := congrArg (fun l => l[j]?) h
  simp only [bitsFrom, List.getElem?_map, List.getElem?_append_left hj] at hget
  rw [List.getElem?_range (by omega), Option.map_some] at hget
  rw [List.getD_eq_getElem?_getD, ← hget, Option.getD_some]

/-- A walk over the path of a leaf ends there. -/
theorem walk_path (w : CodeTree (UInt8 × Nat) → UInt16) {t : CodeTree (UInt8 × Nat)}
    (h : NonzeroBytes t) {e : UInt8 × Nat} {p : List Bool} (hp : (e, p) ∈ t.paths) (hne : p ≠ [])
    (rest : List Bool) : walk (p ++ rest) (embed w t) = some (e.1, p.length) := by
  induction t generalizing p with
  | leaf e' =>
    simp only [CodeTree.paths, List.mem_singleton, Prod.mk.injEq] at hp
    exact absurd hp.2 hne
  | node l r ihl ihr =>
    -- one step down, to a leaf or to the rest of the path
    have hstep : ∀ (c : CodeTree (UInt8 × Nat)) (b : Bool) (q : List Bool), NonzeroBytes c →
        child (embed w (.node l r)) b = embed w c → (e, q) ∈ c.paths →
        (q ≠ [] → walk (q ++ rest) (embed w c) = some (e.1, q.length)) →
        walk (b :: q ++ rest) (embed w (.node l r)) = some (e.1, (b :: q).length) := by
      intro c b q hc hchild hq ih
      rw [List.cons_append, walk, hchild, if_neg (embed_ne_null w c)]
      cases c with
      | leaf e' =>
        simp only [CodeTree.paths, List.mem_singleton, Prod.mk.injEq] at hq
        obtain ⟨rfl, rfl⟩ := hq
        rw [embed, Node.byte, if_pos (hc e (by simp [CodeTree.leaves]))]
        rfl
      | node cl cr =>
        rw [if_neg (by simp [embed, Node.byte]), ih (CodeTree.path_ne_nil hq)]
        rfl
    simp only [CodeTree.paths, List.mem_append, List.mem_map, Prod.mk.injEq] at hp
    rcases hp with ⟨⟨e', q⟩, hq, rfl, rfl⟩ | ⟨⟨e', q⟩, hq, rfl, rfl⟩
    · exact hstep l false q h.left rfl hq (ihl h.left hq)
    · exact hstep r true q h.right rfl hq (ihr h.right hq)

/-- A message that can be told from its bits: each character is a leaf with a code of its own. -/
def Encodes (t : CodeTree (UInt8 × Nat)) (msg : List UInt8) : Prop :=
  ∀ c ∈ msg, c ∈ t.leaves.map Prod.fst ∧ codeOf t c ≠ []

/-- On the bits of a message the loop makes one walk for each character. -/
theorem takeWalks_message (w : CodeTree (UInt8 × Nat) → UInt16) {t : CodeTree (UInt8 × Nat)}
    (h : NonzeroBytes t) {msg : List UInt8} (hmsg : Encodes t msg) {dataSize pos fuel : Nat}
    (hsize : pos + (bitsOf t msg).length ≤ 8 * dataSize) (rest : List Bool)
    (hfuel : (bitsOf t msg).length ≤ fuel) :
    takeWalks dataSize (pos + (bitsOf t msg).length) pos
        (walks (embed w t) fuel (bitsOf t msg ++ rest)) =
      some (msg.map fun c => (c, (codeOf t c).length)) := by
  induction msg generalizing pos fuel with
  | nil => exact takeWalks_stop (fun h => Nat.lt_irrefl _ h.1) _
  | cons c msg ih =>
    obtain ⟨hleaf, hne⟩ := hmsg c List.mem_cons_self
    have hpos : 0 < (codeOf t c).length := List.length_pos_iff.mpr hne
    obtain ⟨e, he, hec, hcode⟩ := codeOf_mem_paths hleaf
    have hwalk : walk (codeOf t c ++ (bitsOf t msg ++ rest)) (embed w t) =
        some (c, (codeOf t c).length) := by
      have hpath : (e.1, codeOf t c) ∈ t.paths := by
        rw [← hcode]
        exact he
      rw [walk_path w h hpath hne, hec]
    simp only [bitsOf_cons, List.length_append] at hsize hfuel ⊢
    obtain ⟨fuel, rfl⟩ : ∃ k, fuel = k + 1 := ⟨fuel - 1, by omega⟩
    rw [List.append_assoc, walks, hwalk, Option.elim_some, takeWalks, if_pos (by omega),
      List.drop_left, ← Nat.add_assoc,
      ih (fun c hc => hmsg c (List.mem_cons_of_mem _ hc)) (by omega) (by omega)]
    rfl

theorem spells_embed (w : CodeTree (UInt8 × Nat) → UInt16) {t : CodeTree (UInt8 × Nat)}
    (h : PlainBytes t) : Spells (embed (fun _ => 0) t) (text (embed w t)) := by
  induction t with
  | leaf e =>
    obtain ⟨h0, h42, h45⟩ := h e (by simp [CodeTree.leaves])
    simp only [embed, text, if_pos h0]
    exact .leaf h45 h42
  | node l r ihl ihr =>
    simp only [embed, text]
    rw [if_neg (by decide)]
    exact .node (ihl fun e he => h e (List.mem_append_left _ he))
      (ihr fun e he => h e (List.mem_append_right _ he))

/-- A compressed block of `msg` under the tree `t`, possibly with more behind it. -/
structure IsMessageBlock (t : CodeTree (UInt8 × Nat)) (msg block : List UInt8) : Prop where
  plain : PlainBytes t
  encodes : Encodes t msg
  layout : ∃ payload, block = header t.size (UInt16.ofNat (bitsOf t msg).length) ++
    text (embed weight16 t) ++ payload ∧ BitsAt payload 0 (bitsOf t msg) ∧
    (bitsOf t msg).length ≤ 8 * payload.length

theorem BitsAt.append_right {buff : List UInt8} {pos : Nat} {p : List Bool} (h : BitsAt buff pos p)
    (hp : pos + p.length ≤ 8 * buff.length) (more : List UInt8) : BitsAt (buff ++ more) pos p := by
  intro j hj
  rw [← h j hj]
  unfold bitAt
  rw [List.getD_append _ _ _ _ (by omega)]

/-- Inflating a block of a message returns exactly when there is room for the message, whatever
    stands behind the block. -/
theorem huffmanInflate_message_iff {t : CodeTree (UInt8 × Nat)} {msg block : List UInt8}
    (h : IsMessageBlock t msg block) (hlen : block.length ≤ 255) (more out : List UInt8) :
    (∃ res, huffmanInflate (block ++ more) (UInt16.ofNat block.length) out = .ok res) ↔
      msg.length ≤ out.length := by
  obtain ⟨payload, hblock, hbits, hroom⟩ := h.layout
  have htext := text_embed_length weight16 t h.plain.nonzero
  have hspell := spells_embed weight16 h.plain
  have hlevels := hspell.levels_le
  have hsplit : block.length = 3 + t.size + payload.length := by
    rw [hblock, List.length_append, List.length_append, htext]
    rfl
  have hds : (UInt16.ofNat block.length).toNat = block.length := toNat_ofNat_word (by omega)
  have hdata : block ++ more = header t.size (UInt16.ofNat (bitsOf t msg).length) ++
      (text (embed weight16 t) ++ (payload ++ more)) := by
    rw [hblock, List.append_assoc, List.append_assoc]
  have hpool : treeGetSize (embed (fun _ => 0) t) ≤ ((block ++ more).getD 0 0).toNat := by
    rw [hdata, treeGetSize_embed]
    exact Nat.le_of_eq (toNat_ofNat_byte (by omega)).symm
  have hstored : storedBits (block ++ more) = UInt16.ofNat (bitsOf t msg).length := by
    rw [hdata]
    exact join_bytes _
  have hrun : runWalks (embed (fun _ => 0) t) (payload ++ more) (UInt16.ofNat block.length)
      (UInt16.ofNat (bitsOf t msg).length) = some (msg.map fun c => (c, (codeOf t c).length)) := by
    have hbits' := hbits.append_right (by omega) more
    have hroom' : (bitsOf t msg).length ≤ 8 * (payload ++ more).length := by
      rw [List.length_append]
      omega
    rw [runWalks, hds, toNat_ofNat_word (by omega), bitsFrom_of_bitsAt hbits' (by omega)]
    have := takeWalks_message (fun _ => 0) h.plain.nonzero h.encodes
      (show 0 + (bitsOf t msg).length ≤ 8 * block.length by omega)
      (bitsFrom (payload ++ more) (0 + (bitsOf t msg).length)) hroom'
    rwa [Nat.zero_add] at this ⊢
  rw [hspell.huffmanInflate (by rw [List.length_append]; omega) (by rw [hdata]; rfl)
    (embed_ne_null _ _) hpool, hstored]
  have hiff := @inflateData_eq_ok_iff (embed (fun _ => 0) t) (payload ++ more)
    (UInt16.ofNat block.length) (UInt16.ofNat (bitsOf t msg).length) (embed_ne_null _ _) (by omega)
    (by omega) out
  constructor
  · intro h
    obtain ⟨res, hres⟩ := h
    obtain ⟨ws, hws, hle, -⟩ := (hiff res).mp hres
    rw [hrun] at hws
    cases hws
    rwa [List.length_map] at hle
  · intro hle
    exact ⟨_, (hiff _).mpr ⟨_, hrun, by rwa [List.length_map], rfl⟩⟩

end DistHuffman.Link
