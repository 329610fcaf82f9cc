/-
  Link: where `Fault.assertion` comes from. `build_tree` is the only function of the codec that
  asserts anything, and it fails for an empty queue only. So `huffman_compress` ends there exactly
  on an empty block (`huffmanCompress_assertion_iff`), and `huffman_inflate` never does.
-/
import DistHuffman.Link.Text

namespace DistHuffman.Link

open DistHuffman.Lib DistHuffman.Codec

/-- The run does not end in the failed assertion. -/
def NoAssert {α : Type} (x : Except Fault α) : Prop := x ≠ .error .assertion

section Combinators

variable {α β : Type} {x y : Except Fault α}

theorem NoAssert.ok (a : α) : NoAssert (.ok a : Except Fault α) := by
  intro h
  cases h

theorem NoAssert.error {f : Fault} (h : f ≠ .assertion) : NoAssert (.error f : Except Fault α) :=
  fun h' => h (Except.error.inj h')

theorem NoAssert.bind {f : α → Except Fault β} (hx : NoAssert x) (hf : ∀ a, NoAssert (f a)) :
    NoAssert (x >>= f) := by
  cases x with
  | error e =>
    intro h
    exact hx (congrArg Except.error (Except.error.inj h))
  | ok a => exact hf a

theorem NoAssert.ite {c : Prop} [Decidable c] (hx : NoAssert x) (hy : NoAssert y) :
    NoAssert (if c then x else y) := by
  split
  · exact hx
  · exact hy

theorem NoAssert.map {f : α → β} (hx : NoAssert x) : NoAssert (x.map f) := by
  cases x with
  | error e =>
    intro h
    exact hx (congrArg Except.error (Except.error.inj h))
  | ok a => exact NoAssert.ok _

theorem NoAssert.foldlM {f : β → α → Except Fault β} (hf : ∀ b a, NoAssert (f b a)) (l : List α)
    (b : β) : NoAssert (l.foldlM f b) := by
  induction l generalizing b with
  | nil => exact NoAssert.ok b
  | cons a l ih =>
    rw [List.foldlM_cons]
    exact (hf b a).bind ih

end Combinators

/-! ## Buffers and the tree text -/

theorem load_noAssert (buff : List UInt8) (i : Nat) : NoAssert (load buff i) := by
  unfold load
  split
  · exact NoAssert.ok _
  · exact NoAssert.error (by decide)

theorem store_noAssert (buff : List UInt8) (i : Nat) (b : UInt8) : NoAssert (store buff i b) :=
  NoAssert.ite (NoAssert.ok _) (NoAssert.error (by decide))

theorem putByte_noAssert (out : List UInt8 × Nat) (b : UInt8) : NoAssert (putByte out b) :=
  (store_noAssert _ _ _).bind fun _ => NoAssert.ok _

theorem serializeTreeNode_noAssert (n : Node) (out : List UInt8 × Nat) :
    NoAssert (serializeTreeNode n out) := by
  induction n generalizing out with
  | null => exact putByte_noAssert _ _
  | mk l r w b ihl ihr =>
    unfold serializeTreeNode
    refine NoAssert.ite (putByte_noAssert _ _) ?_
    exact (putByte_noAssert _ _).bind fun o => (ihl o).bind fun o' => ihr o'

theorem serializeTree_noAssert (n : Node) (buff : List UInt8) (pos : Nat) :
    NoAssert (serializeTree n buff pos) :=
  (serializeTreeNode_noAssert _ _).bind fun _ => NoAssert.ok _

theorem deserializeTreeNode_noAssert (fuel : Nat) (h : Huffman) (s : List UInt8) :
    NoAssert (deserializeTreeNode fuel h s) := by
  induction fuel generalizing h s with
  | zero => exact NoAssert.error (by decide)
  | succ fuel ih =>
    cases s with
    | nil => exact NoAssert.error (by decide)
    | cons c s =>
      unfold deserializeTreeNode
      refine NoAssert.ite (NoAssert.ok _) (NoAssert.ite (NoAssert.ok _) ?_)
      exact (ih _ _).bind fun l => (ih _ _).bind fun r => NoAssert.ok _

theorem deserializeTree_noAssert (h : Huffman) (s : List UInt8) :
    NoAssert (deserializeTree h s) :=
  (deserializeTreeNode_noAssert _ _ _).bind fun _ => NoAssert.ok _

/-! ## Compression -/

theorem putBitsLoop_noAssert (n : Nat) (s : Bitstream) (b : UInt8) :
    NoAssert (putBitsLoop n s b) := by
  induction n generalizing s b with
  | zero => exact NoAssert.ok _
  | succ n ih =>
    unfold putBitsLoop bitstreamPutBit
    refine NoAssert.bind ?_ fun s' => ih s' _
    exact (load_noAssert _ _).bind fun _ => (store_noAssert _ _ _).bind fun _ => NoAssert.ok _

theorem reverseBits_noAssert (b n : UInt8) : NoAssert (reverseBits b n) :=
  NoAssert.ite (NoAssert.ok _) (NoAssert.error (by decide))

theorem compressData_noAssert (info : List EncodingInfo) (n : UInt16) (data out : List UInt8) :
    NoAssert (compressData info n data out) := by
  refine NoAssert.bind (NoAssert.foldlM ?_ _ _) fun _ => NoAssert.ok _
  intro s b
  exact (reverseBits_noAssert _ _).bind fun _ =>
    (putBitsLoop_noAssert _ _ _).bind fun _ => NoAssert.ok _

theorem huffmanCompress_assertion_iff {data : List UInt8} (hn : data.length < 65536)
    (out : List UInt8) : huffmanCompress data out = .error .assertion ↔ data = [] := by
  constructor
  · intro h
    by_contra hne
    have htree : NoAssert (buildTree (buildQueue {} data).1 (buildQueue {} data).2) := by
      rw [buildTree_refines hne hn]
      exact NoAssert.ok _
    revert h
    unfold huffmanCompress
    refine htree.bind fun t => ?_
    refine NoAssert.ite (@NoAssert.error _ .treePool (by decide)) ?_
    refine NoAssert.ite (@NoAssert.error _ .queuePool (by decide)) ?_
    refine (store_noAssert _ _ _).bind fun _ => ?_
    refine (serializeTree_noAssert _ _ _).bind fun _ => ?_
    refine (compressData_noAssert _ _ _ _).bind fun _ => ?_
    exact (store_noAssert _ _ _).bind fun _ => store_noAssert _ _ _
  · intro h
    rw [h]
    rfl

/-! ## Inflation -/

theorem bitstreamReadBit_noAssert (s : Bitstream) : NoAssert (bitstreamReadBit s) :=
  (load_noAssert _ _).bind fun _ => NoAssert.ok _

theorem deserializeNextChar_noAssert (n : Node) (s : Bitstream) (k : UInt8) :
    NoAssert (deserializeNextChar n s k) := by
  induction n generalizing s k with
  | null => exact NoAssert.error (by decide)
  | mk l r w b ihl ihr =>
    unfold deserializeNextChar
    refine (bitstreamReadBit_noAssert s).bind fun c => NoAssert.ite ?_ ?_
    · exact NoAssert.ite (NoAssert.ok _) (NoAssert.ite (NoAssert.ok _) (ihl _ _))
    · exact NoAssert.ite (NoAssert.ok _) (NoAssert.ite (NoAssert.ok _) (ihr _ _))

theorem inflateLoop_noAssert (tree : Node) (dataSize totalBits : UInt16) (fuel : Nat)
    (bitsRead : UInt16) (s : Bitstream) (out : List UInt8 × Nat) :
    NoAssert (inflateLoop tree dataSize totalBits fuel bitsRead s out) := by
  induction fuel generalizing bitsRead s out with
  | zero => exact NoAssert.error (by decide)
  | succ fuel ih =>
    unfold inflateLoop
    refine NoAssert.ite ?_ (NoAssert.ok _)
    exact (deserializeNextChar_noAssert _ _ _).bind fun c =>
      (putByte_noAssert _ _).bind fun o => ih _ _ _

theorem huffmanInflate_noAssert (data : List UInt8) (dataSize : UInt16) (out : List UInt8) :
    NoAssert (huffmanInflate data dataSize out) := by
  unfold huffmanInflate
  refine (load_noAssert _ _).bind fun _ => ?_
  refine (load_noAssert _ _).bind fun _ => (load_noAssert _ _).bind fun _ => ?_
  refine (deserializeTree_noAssert _ _).bind fun t => ?_
  refine NoAssert.ite (@NoAssert.error _ .treePool (by decide)) ?_
  refine NoAssert.ite (@NoAssert.error _ .nullNode (by decide)) ?_
  exact inflateLoop_noAssert _ _ _ _ _ _ _

end DistHuffman.Link
