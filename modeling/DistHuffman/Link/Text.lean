/-
  Link: the tree text. `text` is the pre-order text of a record tree, `strip` the tree without its
  weights. `serialize_tree` writes `text` (`serializeTreeNode_refines`), and on `text` followed by
  anything `deserialize_tree` gives the stripped tree back, reads exactly the text and takes
  `tree_get_size` nodes from the pool (`deserializeTree_text`). Children may be missing; what is
  asked of the tree is `TextWf`.
-/
import DistHuffman.Codec.Format
import DistHuffman.Lib.Overlay
import DistHuffman.Link.Build

namespace DistHuffman.Link

open DistHuffman.Lib DistHuffman.Codec

theorem ok_bind {α β : Type} (a : α) (f : α → Except Fault β) : (Except.ok a >>= f) = f a := rfl

theorem pure_eq_ok {α : Type} (a : α) : (pure a : Except Fault α) = .ok a := rfl

theorem error_bind {α β : Type} (e : Fault) (f : α → Except Fault β) :
    (.error e >>= f : Except Fault β) = .error e := rfl

/-- A run that ends with a result got one from its first part. -/
theorem of_bind_eq_ok {α β : Type} {x : Except Fault α} {f : α → Except Fault β} {b : β}
    (h : x >>= f = .ok b) : ∃ a, x = .ok a ∧ f a = .ok b := by
  cases x with
  | error e => cases h
  | ok a => exact ⟨a, rfl, h⟩

theorem load_of_getElem? {buff : List UInt8} {i : Nat} {b : UInt8} (h : buff[i]? = some b) :
    load buff i = .ok b := by
  unfold load
  rw [h]

theorem load_of_lt {buff : List UInt8} {i : Nat} (h : i < buff.length) :
    load buff i = .ok (buff.getD i 0) := by
  rw [List.getD_eq_getElem?_getD, List.getElem?_eq_getElem h]
  exact load_of_getElem? (List.getElem?_eq_getElem h)

theorem store_of_lt {buff : List UInt8} {i : Nat} (b : UInt8) (h : i < buff.length) :
    store buff i b = .ok (buff.set i b) := if_pos h

/-- `**out_data = '*'` for an internal node, the byte of a leaf, `'-'` for a missing child. -/
def text : Node → List UInt8
  | .null => [45]
  | .mk l r _ b => if b ≠ 0 then [b] else 42 :: text l ++ text r

/-- The tree with all weights 0, as `deserialize_tree` allocates it. -/
def strip : Node → Node
  | .null => .null
  | .mk l r _ b => .mk (strip l) (strip r) 0 b

/-- A leaf has no children and a byte that the text does not use for anything else. -/
def TextWf : Node → Prop
  | .null => True
  | .mk l r _ b => if b ≠ 0 then l = .null ∧ r = .null ∧ b ≠ 42 ∧ b ≠ 45 else TextWf l ∧ TextWf r

theorem putByte_refines {buff : List UInt8} {pos : Nat} (b : UInt8) (h : pos < buff.length) :
    putByte (buff, pos) b = .ok (overlay buff pos [b], pos + 1) := by
  unfold putByte
  rw [store_of_lt b h, ok_bind, overlay_singleton b h]
  rfl

theorem serializeTreeNode_refines (n : Node) (buff : List UInt8) (pos : Nat)
    (h : pos + (text n).length ≤ buff.length) :
    serializeTreeNode n (buff, pos) =
      .ok (overlay buff pos (text n), pos + (text n).length) := by
  induction n generalizing buff pos with
  | null =>
    simp only [text, List.length_singleton] at h
    exact putByte_refines 45 h
  | mk l r w b ihl ihr =>
    unfold serializeTreeNode
    unfold text at h ⊢
    split_ifs at h ⊢ with hb
    · simp only [List.length_singleton] at h
      exact putByte_refines b h
    · simp only [List.length_append, List.length_cons] at h
      have h1 : pos ≤ buff.length := by omega
      have hlen : (overlay buff pos [42]).length = buff.length :=
        overlay_length (by simp only [List.length_singleton]; omega)
      rw [putByte_refines 42 (by omega), ok_bind, ihl _ _ (by omega), ok_bind,
        ihr _ _ (by rw [overlay_length (by omega)]; omega),
        show pos + 1 = pos + [(42 : UInt8)].length from rfl,
        overlay_overlay _ _ h1, List.singleton_append,
        show pos + [(42 : UInt8)].length + (text l).length = pos + (42 :: text l).length by
          simp; omega,
        overlay_overlay _ _ h1]
      rw [List.length_append, Nat.add_assoc]

theorem text_length_pos (n : Node) : 0 < (text n).length := by
  cases n with
  | null => simp [text]
  | mk l r w b =>
    unfold text
    split <;> simp

theorem deserializeTreeNode_text (n : Node) (hn : TextWf n) (fuel t q : Nat) (rest : List UInt8)
    (hf : (text n).length ≤ fuel) :
    deserializeTreeNode fuel (pools t q) (text n ++ rest) =
      .ok (pools (t + treeGetSize n) q, strip n, rest) := by
  induction n generalizing fuel t rest with
  | null =>
    obtain ⟨fuel, rfl⟩ : ∃ k, fuel = k + 1 := ⟨fuel - 1, by simp [text] at hf; omega⟩
    rfl
  | mk l r w b ihl ihr =>
    obtain ⟨fuel, rfl⟩ : ∃ k, fuel = k + 1 :=
      ⟨fuel - 1, by have := text_length_pos (.mk l r w b); omega⟩
    unfold TextWf at hn
    unfold text at hf ⊢
    split_ifs at hn hf ⊢ with hb
    · obtain ⟨rfl, rfl, h42, h45⟩ := hn
      simp only [List.cons_append, List.nil_append, deserializeTreeNode, if_neg h45, if_pos h42,
        treeAlloc_pools]
      rfl
    · simp only [List.length_append, List.length_cons] at hf
      have hb0 : b = 0 := by simpa using hb
      subst hb0
      simp only [List.cons_append, deserializeTreeNode, treeAlloc_pools]
      rw [if_neg (by decide), if_neg (by decide), List.append_assoc,
        ihl hn.1 fuel (t + 1) _ (by omega), ok_bind, ihr hn.2 fuel _ _ (by omega), ok_bind]
      simp only [treeGetSize, strip, Node.weight]
      rw [show t + 1 + treeGetSize l + treeGetSize r = t + (treeGetSize l + treeGetSize r + 1) by
        omega]
      rfl

theorem deserializeTree_text (n : Node) (hn : TextWf n) (t q : Nat) (rest : List UInt8) :
    deserializeTree (pools t q) (text n ++ rest) =
      .ok (pools (t + treeGetSize n) q, strip n, (text n).length) := by
  unfold deserializeTree
  rw [deserializeTreeNode_text n hn _ t q rest (by simp), ok_bind, List.length_append,
    Nat.add_sub_cancel]
  rfl

/-! ## The format -/

/-- No leaf carries a byte with a meaning of its own: 0, `'*'` or `'-'`. -/
def PlainBytes (t : CodeTree (UInt8 × Nat)) : Prop :=
  ∀ e ∈ t.leaves, e.1 ≠ 0 ∧ e.1 ≠ 42 ∧ e.1 ≠ 45

/-- No leaf carries byte 0, which marks an internal node. -/
def NonzeroBytes (t : CodeTree (UInt8 × Nat)) : Prop := ∀ e ∈ t.leaves, e.1 ≠ 0

theorem NonzeroBytes.left {l r : CodeTree (UInt8 × Nat)} (h : NonzeroBytes (.node l r)) :
    NonzeroBytes l := fun e he => h e (List.mem_append_left _ he)

theorem NonzeroBytes.right {l r : CodeTree (UInt8 × Nat)} (h : NonzeroBytes (.node l r)) :
    NonzeroBytes r := fun e he => h e (List.mem_append_right _ he)

theorem PlainBytes.nonzero {t : CodeTree (UInt8 × Nat)} (h : PlainBytes t) : NonzeroBytes t :=
  fun e he => (h e he).1

theorem textWf_embed (w : CodeTree (UInt8 × Nat) → UInt16) (t : CodeTree (UInt8 × Nat))
    (h : PlainBytes t) : TextWf (embed w t) := by
  induction t with
  | leaf e =>
    obtain ⟨h0, h42, h45⟩ := h e (by simp [CodeTree.leaves])
    rw [embed, TextWf, if_pos h0]
    exact ⟨rfl, rfl, h42, h45⟩
  | node l r ihl ihr =>
    simp only [embed, TextWf]
    rw [if_neg (by decide)]
    exact ⟨ihl fun e he => h e (List.mem_append_left _ he),
      ihr fun e he => h e (List.mem_append_right _ he)⟩

theorem strip_embed (w : CodeTree (UInt8 × Nat) → UInt16) (t : CodeTree (UInt8 × Nat)) :
    strip (embed w t) = embed (fun _ => 0) t := by
  induction t with
  | leaf e => rfl
  | node l r ihl ihr => simp only [embed, strip, ihl, ihr]

theorem treeGetSize_embed (w : CodeTree (UInt8 × Nat) → UInt16) (t : CodeTree (UInt8 × Nat)) :
    treeGetSize (embed w t) = t.size := by
  induction t with
  | leaf e => rfl
  | node l r ihl ihr => simp only [embed, treeGetSize, CodeTree.size, ihl, ihr]

/-- One byte for each node, and two more for a leaf with byte 0: it passes for an internal node, and
    its missing children are written out. -/
theorem text_embed_length_add (w : CodeTree (UInt8 × Nat) → UInt16) (t : CodeTree (UInt8 × Nat)) :
    (text (embed w t)).length = t.size + 2 * (t.leaves.map Prod.fst).count 0 := by
  induction t with
  | leaf e =>
    by_cases h : e.1 = 0
    · simp [embed, text, CodeTree.size, CodeTree.leaves, h]
    · simp [embed, text, CodeTree.size, CodeTree.leaves, h]
  | node l r ihl ihr =>
    simp only [embed, text]
    rw [if_neg (by decide), List.length_append, List.length_cons, ihl, ihr, CodeTree.leaves,
      List.map_append, List.count_append]
    simp only [CodeTree.size]
    omega

/-- Where no child is missing the text has one byte for each node. -/
theorem text_embed_length (w : CodeTree (UInt8 × Nat) → UInt16) (t : CodeTree (UInt8 × Nat))
    (h : NonzeroBytes t) : (text (embed w t)).length = t.size := by
  have hcount : (t.leaves.map Prod.fst).count 0 = 0 := by
    rw [List.count_eq_zero]
    intro hmem
    obtain ⟨e, he, hzero⟩ := List.mem_map.mp hmem
    exact h e he hzero
  rw [text_embed_length_add, hcount]
  rfl

/-- The text of a code tree has no zero byte. -/
theorem text_embed_ne_zero (w : CodeTree (UInt8 × Nat) → UInt16) (t : CodeTree (UInt8 × Nat))
    (h : NonzeroBytes t) : ∀ b ∈ text (embed w t), b ≠ 0 := by
  induction t with
  | leaf e =>
    have h0 := h e (by simp [CodeTree.leaves])
    simp only [embed, text, if_pos h0, List.mem_singleton]
    rintro b rfl
    exact h0
  | node l r ihl ihr =>
    simp only [embed, text]
    rw [if_neg (by decide)]
    intro b hb
    simp only [List.cons_append, List.mem_cons, List.mem_append] at hb
    rcases hb with rfl | hb | hb
    · decide
    · exact ihl h.left b hb
    · exact ihr h.right b hb

end DistHuffman.Link
