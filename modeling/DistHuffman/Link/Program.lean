/-
  Link: `huffman_compress` and `huffman_inflate` with the pointers and the pools the program has,
  against the value program.

  * `compress_sim`, `inflate_sim`: the same result, or a fault in both. The pools may hold anything
    when the functions are entered, as memory on the stack does.
  * `pointers_roundtrip`, `compress_faults` and `inflate_on_pointers` are what follows for a block.
-/
import DistHuffman.Lib.Outcome
import DistHuffman.Link.Pointers

namespace DistHuffman.Heap

open DistHuffman.Lib
open DistHuffman.Link
open DistHuffman.Codec (Fault Node Huffman EncodingInfo Bitstream)

/-! ## `huffman_compress` and `huffman_inflate` -/

theorem codec_construct_size {data : List UInt8} (hne : data ≠ []) (hn : data.length < 65536)
    {h : Huffman} {t : Node}
    (hbuild : Codec.buildTree (Codec.buildQueue {} data).1 (Codec.buildQueue {} data).2 =
      .ok (h, t)) : Codec.treeGetSize t = h.treePtr := by
  rw [buildTree_refines hne hn] at hbuild
  cases hbuild
  rw [treeGetSize_embed]
  exact codeTree_size hne

/-- What `huffman_compress` does with the tree, on values. -/
def writeBlock (data out : List UInt8) (tree : Node) : Except Fault (List UInt8) := do
  let treeSz := Codec.treeGetSize tree
  let out ← Codec.store out 0 (UInt8.ofNat treeSz)
  let out ← Codec.serializeTree tree out 3
  let c ← Codec.compressData (Codec.buildEncodingTable tree 0 0) (Codec.treeCountLeaves tree) data
    (out.drop (3 + treeSz))
  let out ← Codec.store (out.take (3 + treeSz) ++ c.2) 1 (c.1 >>> 8).toUInt8
  Codec.store out 2 c.1.toUInt8

/-- The same on pointers. -/
def writeBlockAt (data out : List UInt8) (m : Memory) (tree : Option Nat) :
    Except Stop (List UInt8) := do
  let treeSz ← treeGetSize m (m.treeMemory.length + 1) tree
  let out ← lift (Codec.store out 0 (UInt8.ofNat treeSz))
  let text ← serializeTreeNode m (m.treeMemory.length + 1) tree (out, 3)
  let size ← treeCountLeaves m (m.treeMemory.length + 1) tree
  let table ← buildEncodingTable m size.toNat (m.treeMemory.length + 1) tree 0 0 []
  let c ← lift (Codec.compressData table size data (text.1.drop (3 + treeSz)))
  let out ← lift (Codec.store (text.1.take (3 + treeSz) ++ c.2) 1 (c.1 >>> 8).toUInt8)
  lift (Codec.store out 2 c.1.toUInt8)

theorem compress_eq (nodes : List NodeCell) (entries : List QueueCell) (data out : List UInt8) :
    huffmanCompress nodes entries data out =
      construct nodes entries data >>= fun t => writeBlockAt data out t.1 t.2 := by
  unfold huffmanCompress construct
  rw [bind_assoc]
  rfl

theorem writeBlockAt_holds {m : Memory} {i : Nat} {t : Node} {P : Nat → Prop}
    (ht : Holds P m.treeMemory (some i) t) (hsize : Codec.treeGetSize t < 65536)
    (data out : List UInt8) : writeBlockAt data out m (some i) = lift (writeBlock data out t) := by
  have hfuel : levels t < m.treeMemory.length + 1 := Nat.lt_succ_of_le ht.levels_le
  have hget := treeGetSize_holds ht (Nat.le_of_lt hfuel)
  have hcount := treeCountLeaves_holds ht (Nat.le_of_lt hfuel)
  have htable := buildEncodingTable_holds ht (Nat.le_of_lt hfuel) 0 0 []
    (show 0 + _ ≤ (Codec.treeCountLeaves t).toNat by rw [table_length hsize, Nat.zero_add])
  rw [ifPresent_some] at hget hcount htable
  unfold writeBlockAt writeBlock Codec.serializeTree
  rw [hget, run_bind, lift_bind]
  congr 1
  funext out
  rw [serializeTreeNode_holds ht hfuel, bind_assoc, lift_bind]
  congr 1
  funext text
  rw [hcount, run_bind, htable, run_bind, List.nil_append, pure_bind, lift_bind]
  congr 1
  funext c
  rw [lift_bind]

section Compress

variable {nodes : List NodeCell} {entries : List QueueCell} {data : List UInt8}

/-- `huffman_compress` on pointers, with pools of the sizes the source gives them: the assertion,
    the end of a pool, or the tree of the value program and what is done with it. -/
theorem compress_cases (hnodes : nodes.length = Codec.treeMaxSize)
    (hentries : entries.length = Codec.queueMaxSize) (hn : data.length < 65536)
    (out : List UInt8) :
    (data = [] ∧ huffmanCompress nodes entries data out = .error (.fault .assertion)) ∨
    data ≠ [] ∧ ∃ h t, Codec.buildTree (Codec.buildQueue {} data).1 (Codec.buildQueue {} data).2 =
        .ok (h, t) ∧
      (Outgrown Codec.treeMaxSize Codec.queueMaxSize h ∧
          Full (huffmanCompress nodes entries data out) ∨
        ¬ Outgrown Codec.treeMaxSize Codec.queueMaxSize h ∧
          huffmanCompress nodes entries data out = lift (writeBlock data out t)) := by
  rw [compress_eq]
  rcases construct_sim nodes entries data with ⟨hnil, hrun⟩ | ⟨h, t, hbuild, hsim⟩
  · left
    refine ⟨hnil, ?_⟩
    rw [hrun]
    rfl
  · have hne : data ≠ [] := by
      rintro rfl
      cases hbuild
    rw [hnodes, hentries] at hsim
    refine Or.inr ⟨hne, h, t, hbuild, ?_⟩
    rcases hsim with ⟨hin, m, i, hrun, -, ht⟩ | ⟨hout, hfull⟩
    · have hsize : Codec.treeGetSize t < 65536 := by
        rw [codec_construct_size hne hn hbuild]
        exact Nat.lt_of_le_of_lt (Nat.le_of_not_lt (not_or.mp hin).1) (by decide)
      refine Or.inr ⟨hin, ?_⟩
      rw [hrun, run_bind, writeBlockAt_holds ht hsize]
    · exact Or.inl ⟨hout, hfull.bind _⟩

end Compress

/-- What `huffman_inflate` does behind the header, on values. -/
def readBlock (treeSize : UInt8) (numBits : UInt16) (text : List UInt8) (dataSize : UInt16)
    (out : List UInt8) : Except Fault (List UInt8 × Nat) :=
  Codec.deserializeTreeNode text.length {} text >>= fun t =>
    if treeSize.toNat < t.1.treePtr then .error .treePool
    else if t.2.1 = .null then .error .nullNode
    else Codec.inflateData t.2.1 (text.drop (text.length - t.2.2.length)) dataSize numBits out

/-- The same on pointers. -/
def readBlockAt (nodes : Nat → List NodeCell) (treeSize : UInt8) (numBits : UInt16)
    (text : List UInt8) (dataSize : UInt16) (out : List UInt8) :
    Except Stop (List UInt8 × Nat) := do
  let t ← deserializeTreeNode text.length
    { treeMemory := nodes treeSize.toNat, queueMemory := [] } text
  let size ← treeCountLeaves t.1 (t.1.treeMemory.length + 1) t.2.1
  let _ ← buildEncodingTable t.1 size.toNat (t.1.treeMemory.length + 1) t.2.1 0 0 []
  inflateLoop t.1 t.2.1 dataSize numBits
    (8 * (text.drop (text.length - t.2.2.length)).length + 1) 0
    { buff := text.drop (text.length - t.2.2.length) } (out, 0)

section Inflate

variable (nodes : Nat → List NodeCell) (data : List UInt8) (dataSize : UInt16) (out : List UInt8)

theorem codec_inflate_eq :
    Codec.huffmanInflate data dataSize out = Codec.load data 0 >>= fun treeSize =>
      Codec.load data 1 >>= fun hi => Codec.load data 2 >>= fun lo =>
        readBlock treeSize ((hi.toUInt16 <<< 8) ||| lo.toUInt16) (data.drop 3) dataSize out := by
  unfold Codec.huffmanInflate Codec.deserializeTree readBlock
  simp only [bind_assoc, pure_bind, List.drop_drop]
  rfl

theorem inflate_eq :
    huffmanInflate nodes data dataSize out = lift (Codec.load data 0) >>= fun treeSize =>
      lift (Codec.load data 1) >>= fun hi => lift (Codec.load data 2) >>= fun lo =>
        readBlockAt nodes treeSize ((hi.toUInt16 <<< 8) ||| lo.toUInt16) (data.drop 3) dataSize
          out := rfl

/-- The two programs agree: the same result, or a fault in both. -/
def Agrees {α : Type} (x : Except Stop α) (y : Except Fault α) : Prop :=
  x = lift y ∨ (∃ f, x = .error (.fault f)) ∧ ∃ g, y = .error g

theorem Agrees.lift_bind {α β : Type} {y : Except Fault α} {f : α → Except Stop β}
    {g : α → Except Fault β} (h : ∀ a, Agrees (f a) (g a)) :
    Agrees (lift y >>= f) (y >>= g) := by
  cases y with
  | error e => exact Or.inl rfl
  | ok a => exact h a

theorem Agrees.ok_iff {α : Type} {x : Except Stop α} {y : Except Fault α} (h : Agrees x y) {a : α} :
    x = .ok a ↔ y = .ok a := by
  rcases h with rfl | ⟨⟨f, rfl⟩, g, rfl⟩
  · cases y with
    | error g => simp [lift_error]
    | ok b => simp [lift_ok]
  · simp

theorem Agrees.only_faults {α : Type} {x : Except Stop α} {y : Except Fault α} (h : Agrees x y) :
    Only (fun e => ∃ f, e = .fault f) x := by
  rcases h with rfl | ⟨⟨f, rfl⟩, -⟩
  · cases y with
    | error g => exact only_error ⟨g, rfl⟩
    | ok b => exact only_ok b
  · exact only_error ⟨f, rfl⟩

theorem readBlock_agrees {treeSize : UInt8}
    (hnodes : (nodes treeSize.toNat).length = treeSize.toNat) (numBits : UInt16)
    (text : List UInt8) :
    Agrees (readBlockAt nodes treeSize numBits text dataSize out)
      (readBlock treeSize numBits text dataSize out) := by
  unfold readBlockAt readBlock
  have hsim := deserialize_sim text.length (h := {})
    (m := { treeMemory := nodes treeSize.toNat, queueMemory := [] }) text rfl (Nat.zero_le _)
  generalize deserializeTreeNode text.length
    { treeMemory := nodes treeSize.toNat, queueMemory := [] } text = x at hsim ⊢
  generalize hy : Codec.deserializeTreeNode text.length {} text = y at hsim ⊢
  cases hsim with
  | failed => exact Or.inr ⟨⟨_, rfl⟩, ⟨_, rfl⟩⟩
  | full outgrown => exact Or.inr ⟨⟨_, rfl⟩, ⟨.treePool, if_pos (hnodes ▸ outgrown)⟩⟩
  | @done h' t rest m' p ptr length room le holds frame =>
    left
    have hpool : ¬ treeSize.toNat < h'.treePtr := Nat.not_lt.mpr (ptr ▸ hnodes ▸ room)
    show _ = lift (if treeSize.toNat < h'.treePtr then _ else _)
    rw [run_bind, if_neg hpool]
    cases p with
    | none => rw [if_pos (holds.eq_none_iff.mp rfl)]; rfl
    | some i =>
      have hnull : t ≠ .null := fun hnull => by cases holds.eq_none_iff.mpr hnull
      have hfuel : levels t ≤ m'.treeMemory.length + 1 := Nat.le_succ_of_le holds.levels_le
      have hsize : Codec.treeGetSize t < 65536 := by
        have hcount := codec_deserialize_size hy
        have hbyte := treeSize.toNat_lt
        have hzero : ({} : Huffman).treePtr = 0 := rfl
        omega
      have hcount := treeCountLeaves_holds holds hfuel
      have htable := buildEncodingTable_holds holds hfuel 0 0 []
        (show 0 + _ ≤ (Codec.treeCountLeaves t).toNat by rw [table_length hsize, Nat.zero_add])
      rw [ifPresent_some] at hcount htable
      rw [if_neg hnull, hcount, run_bind, htable, run_bind]
      exact inflateLoop_holds holds _ _ _ _ _ _

theorem inflate_sim (hnodes : ∀ k, (nodes k).length = k) :
    Agrees (huffmanInflate nodes data dataSize out)
      (Codec.huffmanInflate data dataSize out) := by
  rw [codec_inflate_eq, inflate_eq]
  exact .lift_bind fun treeSize => .lift_bind fun hi => .lift_bind fun lo =>
    readBlock_agrees nodes dataSize out (hnodes _) _ _

end Inflate

/-! ## The faults of a block -/

/-- The faults of writing a block: outside a buffer, or a shift by a negative count. -/
def WriteFault (f : Fault) : Prop := f = .bounds ∨ f = .shift

theorem load_only (buff : List UInt8) (i : Nat) : Only WriteFault (Codec.load buff i) := by
  unfold Codec.load
  cases buff[i]? with
  | none => exact only_error (Or.inl rfl)
  | some b => exact only_ok b

theorem store_only (buff : List UInt8) (i : Nat) (b : UInt8) :
    Only WriteFault (Codec.store buff i b) :=
  only_ite (only_ok _) (only_error (Or.inl rfl))

theorem serializeTreeNode_only (t : Node) (out : List UInt8 × Nat) :
    Only WriteFault (Codec.serializeTreeNode t out) := by
  have hput : ∀ (out : List UInt8 × Nat) b, Only WriteFault (Codec.putByte out b) := fun out b =>
    (store_only out.1 out.2 b).bind fun _ => only_ok _
  induction t generalizing out with
  | null => exact hput out 45
  | mk l r w b ihl ihr =>
    rw [Codec.serializeTreeNode]
    refine only_ite (hput out b) ?_
    exact (hput out 42).bind fun out => (ihl out).bind ihr

theorem putBitsLoop_only (n : Nat) (s : Bitstream) (byte : UInt8) :
    Only WriteFault (Codec.putBitsLoop n s byte) := by
  induction n generalizing s byte with
  | zero => exact only_ok s
  | succ n ih =>
    refine Only.bind ?_ fun s => ih s (byte >>> 1)
    exact (load_only _ _).bind fun b => (store_only _ _ _).bind fun _ => only_ok _

theorem compressStep_only (infoArr : List EncodingInfo) (size : UInt16) (s : UInt16 × Bitstream)
    (b : UInt8) : Only WriteFault (Codec.compressStep infoArr size s b) :=
  (only_ite (only_ok _) (only_error (show WriteFault .shift from Or.inr rfl))).bind fun _ =>
    (putBitsLoop_only _ _ _).bind fun _ => only_ok _

theorem writeBlock_only (data out : List UInt8) (t : Node) :
    Only WriteFault (writeBlock data out t) := by
  refine (store_only _ _ _).bind fun out => ?_
  refine ((serializeTreeNode_only t _).bind fun _ => only_ok _).bind fun out => ?_
  refine ((only_foldlM (compressStep_only _ _) data _).bind fun _ => only_ok _).bind fun c => ?_
  exact (store_only _ _ _).bind fun out => store_only _ _ _

theorem outgrown_iff {data : List UInt8} (hne : data ≠ []) (hn : data.length < 65536) {h : Huffman}
    {t : Node}
    (hbuild : Codec.buildTree (Codec.buildQueue {} data).1 (Codec.buildQueue {} data).2 =
      .ok (h, t)) :
    Outgrown Codec.treeMaxSize Codec.queueMaxSize h ↔ 30 < data.dedup.length := by
  rw [buildTree_refines hne hn] at hbuild
  cases hbuild
  unfold Outgrown
  simp only [pools, Codec.treeMaxSize, Codec.queueMaxSize, Codec.alphabetSize]
  omega

/-- **Where `huffman_compress` goes wrong, with its pointers and pools**: the assertion fails for an
    empty block and no other, a pool runs out for a block of more than thirty different bytes and
    no other, and whatever else goes wrong is a store outside the output buffer or the shift by a
    negative count. No `NULL` is followed, and every loop ends. -/
theorem compress_faults (nodes : List NodeCell) (entries : List QueueCell) (data out : List UInt8)
    (hnodes : nodes.length = Codec.treeMaxSize) (hentries : entries.length = Codec.queueMaxSize)
    (hn : data.length < 65536) :
    (huffmanCompress nodes entries data out = .error (.fault .assertion) ↔ data = []) ∧
    (Full (huffmanCompress nodes entries data out) ↔ 30 < data.dedup.length) ∧
    ∀ e, huffmanCompress nodes entries data out = .error e → data ≠ [] →
      data.dedup.length ≤ 30 → e = .fault .bounds ∨ e = .fault .shift := by
  rcases compress_cases hnodes hentries hn out with
    ⟨rfl, hrun⟩ | ⟨hne, h, t, hbuild, ⟨hout, hfull⟩ | ⟨hin, hrun⟩⟩
  · rw [hrun]
    refine ⟨⟨fun _ => rfl, fun _ => rfl⟩, ?_, fun e _ hne => absurd rfl hne⟩
    simp [Full]
  · have hmany := (outgrown_iff hne hn hbuild).mp hout
    refine ⟨⟨fun hassert => ?_, fun hnil => absurd hnil hne⟩, ⟨fun _ => hmany, fun _ => hfull⟩,
      fun e _ _ hfew => absurd hmany (Nat.not_lt.mpr hfew)⟩
    rw [hassert] at hfull
    exact absurd hfull (by simp [Full])
  · have hfew := mt (outgrown_iff hne hn hbuild).mpr hin
    have honly := writeBlock_only data out t
    rw [hrun]
    cases hwrite : writeBlock data out t with
    | ok block => simp [Full, lift_ok, hne, Nat.le_of_not_lt hfew]
    | error f =>
      rcases honly f hwrite with rfl | rfl
      · simp [Full, lift_error, hne, Nat.le_of_not_lt hfew]
      · simp [Full, lift_error, hne, Nat.le_of_not_lt hfew]

theorem compress_faults_AB :
    ¬ Full (huffmanCompress (List.replicate 117 ⟨none, none, 0, 0⟩)
      (List.replicate 59 ⟨none, none⟩) [65, 66] (List.replicate 8 0)) := fun hfull =>
  absurd ((compress_faults _ _ [65, 66] _ List.length_replicate List.length_replicate
    (by decide)).2.1.mp hfull) (by decide)

/-! ## What follows for a block -/

section Pools

variable {nodes : List NodeCell} {entries : List QueueCell} {data : List UInt8}

end Pools

/-- **`huffman_inflate` with pointers, on any bytes**: it gives what the value program gives, from
    whatever the pool held, and where that program ends in a fault it ends in one too; it never
    runs on without end. -/
theorem inflate_on_pointers (inner : Nat → List NodeCell) (data : List UInt8) (dataSize : UInt16)
    (out : List UInt8) (hinner : ∀ k, (inner k).length = k) :
    (∀ r, huffmanInflate inner data dataSize out = .ok r ↔
      Codec.huffmanInflate data dataSize out = .ok r) ∧
    ∀ e, huffmanInflate inner data dataSize out = .error e → ∃ f, e = .fault f := by
  have hagree := inflate_sim inner data dataSize out hinner
  exact ⟨fun r => hagree.ok_iff, hagree.only_faults⟩

theorem inflate_on_pointers_AB :
    huffmanInflate (List.replicate · ⟨some 9, none, 1, 1⟩) [3, 0, 2, 42, 65, 66, 2] 1 [9, 9, 9] =
      .ok ([65, 66, 9], 2) :=
  ((inflate_on_pointers _ _ 1 [9, 9, 9] fun _ => List.length_replicate).1 _).mpr (by decide +kernel)

end DistHuffman.Heap
