/-
  Link: the functions of `huffman.c` that walk a tree or read one from its text, with pointers.

  A tree in memory is no deeper than the memory is long (`Holds.levels_le`): two nodes on one path
  hold different trees, so they are different records. So every walk down a tree ends, and it reads
  what the value program has (`treeGetSize_holds` and the others). `deserialize_sim` is the
  recursion that builds a tree from its text: the subtrees lie behind their parent, and a record
  is written again after the left and after the right subtree are there.
-/
import DistHuffman.Link.Construct
import DistHuffman.Link.Walk
import Mathlib.Data.Fintype.Card

namespace DistHuffman.Heap

open DistHuffman.Lib
open DistHuffman.Codec (Fault Node Huffman EncodingInfo Bitstream)
open DistHuffman.Link (levels leafPaths)

theorem lift_ok {α : Type} (a : α) : lift (.ok a) = .ok a := rfl

theorem lift_error {α : Type} (f : Fault) : lift (.error f : Except Fault α) = .error (.fault f) :=
  rfl

theorem lift_bind {α β : Type} (x : Except Fault α) (f : α → Except Fault β) :
    lift (x >>= f) = lift x >>= fun a => lift (f a) := by
  cases x with
  | error e => rfl
  | ok a => rfl

/-! ## The depth of a tree in memory -/

section Depth

variable {P : Nat → Prop} {mem : List NodeCell} {p : Option Nat} {t u : Node}

theorem Holds.unique (h : Holds P mem p t) (h' : Holds P mem p u) : t = u := by
  induction t generalizing p u with
  | null =>
    cases u with
    | null => rfl
    | mk l r w b =>
      obtain ⟨i, hi, -⟩ := h'
      cases h.symm.trans hi
  | mk l r w b ihl ihr =>
    obtain ⟨i, rfl, -, pl, pr, hc, hl, hr⟩ := h
    cases u with
    | null => cases h'
    | mk l' r' w' b' =>
      obtain ⟨j, hj, -, pl', pr', hc', hl', hr'⟩ := h'
      cases hj
      have hcell := Option.some.inj (hc.symm.trans hc')
      cases hcell
      rw [ihl hl hl', ihr hr hr']

theorem Holds.exists_level (h : Holds P mem p t) {k : Nat} (hk : 1 ≤ k) (hkt : k ≤ levels t) :
    ∃ i u, Holds P mem (some i) u ∧ levels u = k := by
  induction t generalizing p with
  | null => exact absurd hkt (by simp only [levels]; omega)
  | mk l r w b ihl ihr =>
    by_cases htop : k = levels (.mk l r w b)
    · obtain ⟨i, rfl, -⟩ := id h
      exact ⟨i, _, h, htop.symm⟩
    · obtain ⟨i, -, -, pl, pr, -, hl, hr⟩ := h
      rw [levels] at hkt htop
      rcases Nat.le_total (levels l) (levels r) with hle | hle
      · rw [Nat.max_eq_right hle] at hkt htop
        exact ihr hr (by omega)
      · rw [Nat.max_eq_left hle] at hkt htop
        exact ihl hl (by omega)

/-- Trees of different depth are at different places, so there are not more depths than places. -/
theorem Holds.levels_le (h : Holds P mem p t) : levels t ≤ mem.length := by
  have hplace : ∀ k : Fin (levels t), ∃ i u, Holds P mem (some i) u ∧ levels u = k.val + 1 :=
    fun k => h.exists_level (Nat.succ_pos _) k.isLt
  choose place tree hheld hlevel using hplace
  have hlt : ∀ k, place k < mem.length := fun k => by
    obtain ⟨-, c, hc, -⟩ := (hheld k).cell
    exact lt_of_getElem? hc
  have hinj : Function.Injective fun k => (⟨place k, hlt k⟩ : Fin mem.length) := by
    intro j k hjk
    have hsame : place j = place k := congrArg Fin.val hjk
    have htree := (hheld j).unique (hsame ▸ hheld k)
    have hjl := hlevel j
    rw [htree, hlevel k] at hjl
    exact Fin.ext (Nat.succ.inj hjl).symm
  have hcard := Fintype.card_le_of_injective _ hinj
  rwa [Fintype.card_fin, Fintype.card_fin] at hcard

end Depth

/-! ## Reading a tree -/

section Reading

variable {P : Nat → Prop} {m : Memory} {p : Option Nat} {t : Node} {fuel : Nat}

/-- The record at a pointer to a node. -/
theorem Holds.node {i : Nat} {l r : Node} {w : UInt16} {b : UInt8}
    (h : Holds P m.treeMemory (some i) (.mk l r w b)) :
    ∃ pl pr, m.node (some i) = .ok ⟨pl, pr, w, b⟩ ∧ Holds P m.treeMemory pl l ∧
      Holds P m.treeMemory pr r := by
  obtain ⟨j, hj, -, pl, pr, hc, hl, hr⟩ := h
  cases hj
  exact ⟨pl, pr, node_eq hc, hl, hr⟩

theorem Holds.eq_none_iff (h : Holds P m.treeMemory p t) : p = none ↔ t = .null := by
  cases t with
  | null => exact ⟨fun _ => rfl, fun _ => h⟩
  | mk l r w b =>
    obtain ⟨i, rfl, -⟩ := h
    simp

theorem ifPresent_none {α : Type} (h : p = none) (absent : α) (call : Except Stop α) :
    ifPresent p absent call = .ok absent := if_pos h

theorem ifPresent_some {α : Type} (i : Nat) (absent : α) (call : Except Stop α) :
    ifPresent (some i) absent call = call := if_neg (Option.some_ne_none i)

theorem treeGetSize_holds (h : Holds P m.treeMemory p t) (hfuel : levels t ≤ fuel) :
    ifPresent p 0 (treeGetSize m fuel p) = .ok (Codec.treeGetSize t) := by
  induction t generalizing p fuel with
  | null => exact ifPresent_none h _ _
  | mk l r w b ihl ihr =>
    obtain ⟨i, rfl, -⟩ := id h
    obtain ⟨pl, pr, hn, hl, hr⟩ := h.node
    rw [levels] at hfuel
    obtain ⟨fuel, rfl⟩ : ∃ k, fuel = k + 1 := ⟨fuel - 1, by omega⟩
    rw [ifPresent_some, treeGetSize, hn, run_bind]
    dsimp only
    rw [ihl hl (by omega), run_bind, ihr hr (by omega)]
    rfl

theorem treeCountLeaves_holds (h : Holds P m.treeMemory p t) (hfuel : levels t ≤ fuel) :
    ifPresent p 0 (treeCountLeaves m fuel p) = .ok (Codec.treeCountLeaves t) := by
  induction t generalizing p fuel with
  | null => exact ifPresent_none h _ _
  | mk l r w b ihl ihr =>
    obtain ⟨i, rfl, -⟩ := id h
    obtain ⟨pl, pr, hn, hl, hr⟩ := h.node
    rw [levels] at hfuel
    obtain ⟨fuel, rfl⟩ : ∃ k, fuel = k + 1 := ⟨fuel - 1, by omega⟩
    rw [ifPresent_some, treeCountLeaves, hn, run_bind, Codec.treeCountLeaves]
    dsimp only
    by_cases hb : b ≠ 0
    · rw [if_pos hb, if_pos hb]
      rfl
    · rw [if_neg hb, if_neg hb, ihl hl (by omega), run_bind, ihr hr (by omega)]
      rfl

theorem serializeTreeNode_holds (h : Holds P m.treeMemory p t) (hfuel : levels t < fuel)
    (out : List UInt8 × Nat) :
    serializeTreeNode m fuel p out = lift (Codec.serializeTreeNode t out) := by
  induction t generalizing p fuel out with
  | null =>
    obtain ⟨fuel, rfl⟩ : ∃ k, fuel = k + 1 := ⟨fuel - 1, by omega⟩
    exact if_pos h
  | mk l r w b ihl ihr =>
    obtain ⟨i, rfl, -⟩ := id h
    obtain ⟨pl, pr, hn, hl, hr⟩ := h.node
    rw [levels] at hfuel
    obtain ⟨fuel, rfl⟩ : ∃ k, fuel = k + 1 := ⟨fuel - 1, by omega⟩
    rw [serializeTreeNode, if_neg (by simp), hn, run_bind, Codec.serializeTreeNode]
    dsimp only
    by_cases hb : b ≠ 0
    · rw [if_pos hb, if_pos hb]
    · rw [if_neg hb, if_neg hb, lift_bind]
      congr 1
      funext out
      rw [ihl hl (by omega), lift_bind]
      congr 1
      funext out
      rw [ihr hr (by omega)]

theorem buildEncodingTable_holds (h : Holds P m.treeMemory p t) (hfuel : levels t ≤ fuel)
    {size : Nat} (c n : UInt8) (arr : List EncodingInfo)
    (hroom : arr.length + (Codec.buildEncodingTable t c n).length ≤ size) :
    ifPresent p arr (buildEncodingTable m size fuel p c n arr) =
      .ok (arr ++ Codec.buildEncodingTable t c n) := by
  induction t generalizing p fuel c n arr with
  | null => rw [ifPresent_none h, Codec.buildEncodingTable, List.append_nil]
  | mk l r w b ihl ihr =>
    obtain ⟨i, rfl, -⟩ := id h
    obtain ⟨pl, pr, hn, hl, hr⟩ := h.node
    rw [levels] at hfuel
    obtain ⟨fuel, rfl⟩ : ∃ k, fuel = k + 1 := ⟨fuel - 1, by omega⟩
    rw [ifPresent_some, buildEncodingTable, hn, run_bind]
    rw [Codec.buildEncodingTable] at hroom ⊢
    dsimp only
    by_cases hb : b ≠ 0
    · rw [if_pos hb] at hroom
      rw [if_pos hb, if_pos hb, if_pos (show arr.length < size from hroom)]
      rfl
    · rw [if_neg hb, List.length_append] at hroom
      rw [if_neg hb, if_neg hb, ihl hl (by omega) _ _ _ (by omega), run_bind,
        ihr hr (by omega) _ _ _ (by rw [List.length_append]; omega), List.append_assoc]

end Reading

/-! ## Reading bits -/

section Bits

variable {P : Nat → Prop} {m : Memory}

theorem nextCharLoop_holds {i fuel : Nat} {t : Node} (h : Holds P m.treeMemory (some i) t)
    (hfuel : levels t ≤ fuel) (s : Bitstream) (numBits : UInt8) :
    nextCharLoop m fuel (some i) s numBits = lift (Codec.deserializeNextChar t s numBits) := by
  induction t generalizing i fuel s numBits with
  | null => cases h
  | mk l r w b ihl ihr =>
    obtain ⟨pl, pr, hn, hl, hr⟩ := h.node
    rw [levels] at hfuel
    obtain ⟨fuel, rfl⟩ : ∃ k, fuel = k + 1 := ⟨fuel - 1, by omega⟩
    -- the child that the bit chooses, whichever it is
    have hchild : ∀ {p : Option Nat} {u : Node} (s : Bitstream), Holds P m.treeMemory p u →
        (∀ {j : Nat}, Holds P m.treeMemory (some j) u →
          nextCharLoop m fuel (some j) s (numBits + 1) =
            lift (Codec.deserializeNextChar u s (numBits + 1))) →
        (if p = none then pure (63, s, numBits + 1) else do
          let c ← m.node p
          if c.byte ≠ 0 then return (c.byte, s, numBits + 1)
          else nextCharLoop m fuel p s (numBits + 1)) =
        lift (if u = .null then return (63, s, numBits + 1)
          else if u.byte ≠ 0 then return (u.byte, s, numBits + 1)
          else Codec.deserializeNextChar u s (numBits + 1)) := by
      intro p u s hu hwalk
      cases p with
      | none =>
        rw [if_pos rfl, if_pos (hu.eq_none_iff.mp rfl)]
        rfl
      | some j =>
        obtain ⟨-, c, hc, -, hbyte⟩ := hu.cell
        rw [if_neg (by simp), if_neg (fun hnull => by cases hu.eq_none_iff.mpr hnull), node_eq hc,
          run_bind, hbyte]
        by_cases hb : u.byte ≠ 0
        · rw [if_pos hb, if_pos hb]
          rfl
        · rw [if_neg hb, if_neg hb, hwalk hu]
    rw [nextCharLoop, Codec.deserializeNextChar, lift_bind]
    congr 1
    funext c
    rw [hn, run_bind]
    dsimp only
    by_cases hbit : c.1 = 0
    · rw [if_pos hbit, if_pos hbit]
      exact hchild c.2 hl fun hj => ihl hj (by omega) _ _
    · rw [if_neg hbit, if_neg hbit]
      exact hchild c.2 hr fun hj => ihr hj (by omega) _ _

theorem inflateLoop_holds {i : Nat} {t : Node} (h : Holds P m.treeMemory (some i) t)
    (dataSize totalBits : UInt16) (fuel : Nat) (bitsRead : UInt16) (s : Bitstream)
    (out : List UInt8 × Nat) :
    inflateLoop m (some i) dataSize totalBits fuel bitsRead s out =
      lift (Codec.inflateLoop t dataSize totalBits fuel bitsRead s out) := by
  induction fuel generalizing bitsRead s out with
  | zero => rfl
  | succ fuel ih =>
    rw [inflateLoop, Codec.inflateLoop]
    by_cases hguard : bitsRead < totalBits ∧ s.buffIndex < dataSize
    · rw [if_pos hguard, if_pos hguard, lift_bind,
        nextCharLoop_holds h (Nat.le_succ_of_le h.levels_le)]
      congr 1
      funext c
      rw [lift_bind]
      congr 1
      funext out
      exact ih _ _ _
    · rw [if_neg hguard, if_neg hguard]
      rfl

end Bits

/-! ## The text of a tree -/

theorem leafPaths_length_le (t : Node) : (leafPaths t).length ≤ Codec.treeGetSize t := by
  induction t with
  | null => exact Nat.le_refl 0
  | mk l r w b ihl ihr =>
    unfold leafPaths Codec.treeGetSize
    by_cases hb : b ≠ 0
    · rw [if_pos hb, List.length_singleton]
      exact Nat.succ_le_succ (Nat.zero_le _)
    · rw [if_neg hb, List.length_append, List.length_map, List.length_map]
      omega

/-- The encoding table has as many entries as `tree_count_leaves` says, if the count does not
    wrap. -/
theorem table_length {t : Node} (h : Codec.treeGetSize t < 65536) (c n : UInt8) :
    (Codec.buildEncodingTable t c n).length = (Codec.treeCountLeaves t).toNat := by
  have := leafPaths_length_le t
  rw [Link.buildEncodingTable_eq, List.length_map, Link.treeCountLeaves_eq,
    toNat_ofNat_word (by omega)]

section Text

variable {m : Memory} {h : Huffman} {fuel : Nat} {c : UInt8} {rest : List UInt8}

/-- The text of an internal node, on values. -/
theorem codec_deserialize_node :
    Codec.deserializeTreeNode (fuel + 1) h (42 :: rest) =
      Codec.deserializeTreeNode fuel (Codec.treeAlloc h 0).1 rest >>= fun l =>
        Codec.deserializeTreeNode fuel l.1 l.2.2 >>= fun r =>
          .ok (r.1, .mk l.2.1 r.2.1 0 0, r.2.2) := by
  rw [Codec.deserializeTreeNode, if_neg (by decide)]
  rfl

theorem codec_deserialize_leaf (hnull : c ≠ 45) (hleaf : c ≠ 42) :
    Codec.deserializeTreeNode (fuel + 1) h (c :: rest) =
      .ok ((Codec.treeAlloc h 0).1, .mk .null .null 0 c, rest) := by
  rw [Codec.deserializeTreeNode, if_neg hnull]
  exact if_pos hleaf

/-- The two calls inside the reading of an internal node, on values. -/
theorem codec_deserialize_calls {text : List UInt8} {h' : Huffman} {t : Node}
    (hrun : Codec.deserializeTreeNode (fuel + 1) h (42 :: rest) = .ok (h', t, text)) :
    ∃ hl l textL r, Codec.deserializeTreeNode fuel (Codec.treeAlloc h 0).1 rest =
        .ok (hl, l, textL) ∧ Codec.deserializeTreeNode fuel hl textL = .ok (h', r, text) ∧
      t = .mk l r 0 0 := by
  rw [codec_deserialize_node] at hrun
  obtain ⟨l, hleft, hrun⟩ := Link.of_bind_eq_ok hrun
  obtain ⟨r, hright, hrun⟩ := Link.of_bind_eq_ok hrun
  cases hrun
  exact ⟨l.1, l.2.1, l.2.2, r.2.1, hleft, hright, rfl⟩

/-- The value program takes a node from the pool for each node of the tree. -/
theorem codec_deserialize_size {text rest : List UInt8} {h' : Huffman} {t : Node}
    (hrun : Codec.deserializeTreeNode fuel h text = .ok (h', t, rest)) :
    h.treePtr + Codec.treeGetSize t = h'.treePtr := by
  induction fuel generalizing h text h' t rest with
  | zero => cases hrun
  | succ fuel ih =>
    cases text with
    | nil => cases hrun
    | cons c text =>
      by_cases hnull : c = 45
      · rw [Codec.deserializeTreeNode, if_pos hnull] at hrun
        cases hrun
        rfl
      · by_cases hleaf : c = 42
        · rw [hleaf] at hrun
          obtain ⟨hl, l, textL, r, hleft, hright, rfl⟩ := codec_deserialize_calls hrun
          have h0 : (Codec.treeAlloc h 0).1.treePtr = h.treePtr + 1 := rfl
          have h1 := ih hleft
          have h2 := ih hright
          rw [Codec.treeGetSize]
          omega
        · rw [codec_deserialize_leaf hnull hleaf] at hrun
          cases hrun
          rfl

/-- What `deserialize_tree_node` does from a memory with the pool pointer of `h`: what the value
    program does, if there is room for its nodes, and else a fault. The new nodes lie behind the
    old ones, which stay as they are. -/
inductive Deserialized (m : Memory) (h : Huffman) :
    Except Stop (Memory × Option Nat × List UInt8) →
    Except Fault (Huffman × Node × List UInt8) → Prop
  | done {h' : Huffman} {t : Node} {rest : List UInt8} {m' : Memory} {p : Option Nat}
      (ptr : m'.treePtr = h'.treePtr) (length : m'.treeMemory.length = m.treeMemory.length)
      (room : m'.treePtr ≤ m.treeMemory.length) (le : m.treePtr ≤ m'.treePtr)
      (holds : Holds (fun i => m.treePtr ≤ i ∧ i < m'.treePtr) m'.treeMemory p t)
      (frame : ∀ i < m.treePtr, m'.treeMemory[i]? = m.treeMemory[i]?) :
      Deserialized m h (.ok (m', p, rest)) (.ok (h', t, rest))
  | full {h' : Huffman} {t : Node} {rest : List UInt8} {f : Fault}
      (outgrown : m.treeMemory.length < h'.treePtr) :
      Deserialized m h (.error (.fault f)) (.ok (h', t, rest))
  | failed {f g : Fault} : Deserialized m h (.error (.fault f)) (.error g)

/-- Once there is no room, the value program may go on, but not give nodes back. -/
theorem deserialized_full {f : Fault} {y : Except Fault (Huffman × Node × List UInt8)}
    (hy : ∀ h' t rest, y = .ok (h', t, rest) → m.treeMemory.length < h'.treePtr) :
    Deserialized m h (.error (.fault f)) y := by
  cases y with
  | error g => exact .failed
  | ok r => exact .full (hy r.1 r.2.1 r.2.2 rfl)

theorem deserialize_leaf (hptr : m.treePtr = h.treePtr) (hnull : c ≠ 45) (hleaf : c ≠ 42) :
    Deserialized m h (deserializeTreeNode (fuel + 1) m (c :: rest))
      (Codec.deserializeTreeNode (fuel + 1) h (c :: rest)) := by
  rw [codec_deserialize_leaf hnull hleaf, deserializeTreeNode, if_neg hnull, if_pos hleaf]
  by_cases hroom : m.treePtr < m.treeMemory.length
  · have hcell := List.getElem?_set_self (a := (⟨none, none, 0, 0⟩ : NodeCell)) hroom
    rw [treeAlloc_eq hroom, run_bind, grown_setNode hcell, run_bind, List.set_set]
    refine .done (congrArg (· + 1) hptr) List.length_set hroom (Nat.le_succ _) ?_ ?_
    · exact ⟨m.treePtr, rfl, ⟨Nat.le_refl _, Nat.lt_succ_self _⟩, none, none,
        List.getElem?_set_self hroom, rfl, rfl⟩
    · intro i hi
      exact getElem?_set_off (Nat.ne_of_gt hi) _
  · rw [treeAlloc_full (Nat.le_of_not_lt hroom)]
    refine .full ?_
    have hout : (Codec.treeAlloc h 0).1.treePtr = h.treePtr + 1 := rfl
    omega

/-- The reading of a right subtree, once the left one lies behind the node it is linked to. -/
theorem deserialize_right {m2 : Memory} {hl : Huffman} {l : Node} {p : Option Nat}
    {textL : List UInt8} (hlen : m2.treeMemory.length = m.treeMemory.length)
    (ptr : m2.treePtr = hl.treePtr) (room : m2.treePtr ≤ m.treeMemory.length)
    (hlt : m.treePtr < m2.treePtr)
    (holds : Holds (fun i => m.treePtr < i ∧ i < m2.treePtr) m2.treeMemory p l)
    (frame : ∀ i < m.treePtr, m2.treeMemory[i]? = m.treeMemory[i]?)
    (ih : ∀ (m : Memory) (h : Huffman) (text : List UInt8), m.treePtr = h.treePtr →
      m.treePtr ≤ m.treeMemory.length →
      Deserialized m h (deserializeTreeNode fuel m text) (Codec.deserializeTreeNode fuel h text)) :
    Deserialized m h
      (deserializeTreeNode fuel
          { m2 with treeMemory := m2.treeMemory.set m.treePtr ⟨p, none, 0, 0⟩ } textL >>= fun r =>
        r.1.setNode (some m.treePtr) (fun d => { d with right := r.2.1 }) >>= fun m' =>
          .ok (m', some m.treePtr, r.2.2))
      (Codec.deserializeTreeNode fuel hl textL >>= fun r =>
        .ok (r.1, .mk l r.2.1 0 0, r.2.2)) := by
  have hlen3 : (m2.treeMemory.set m.treePtr ⟨p, none, 0, 0⟩).length = m.treeMemory.length :=
    List.length_set.trans hlen
  have hr := ih { m2 with treeMemory := m2.treeMemory.set m.treePtr ⟨p, none, 0, 0⟩ } hl textL ptr
    (hlen3 ▸ room)
  generalize deserializeTreeNode fuel
    { m2 with treeMemory := m2.treeMemory.set m.treePtr ⟨p, none, 0, 0⟩ } textL = x at hr ⊢
  generalize Codec.deserializeTreeNode fuel hl textL = y at hr ⊢
  cases hr with
  | failed => exact .failed
  | full outgrown => exact .full (hlen3 ▸ outgrown)
  | @done hr r textR m4 q ptr4 length4 room4 le4 holds4 frame4 =>
    have hcell : m4.treeMemory[m.treePtr]? = some ⟨p, none, 0, 0⟩ :=
      (frame4 _ hlt).trans (List.getElem?_set_self (hlen ▸ Nat.lt_of_lt_of_le hlt room))
    -- a record of the left subtree, or from before, is as it was when the left call ended
    have hold : ∀ i < m2.treePtr, i ≠ m.treePtr → ∀ c : NodeCell,
        (m4.treeMemory.set m.treePtr c)[i]? = m2.treeMemory[i]? := fun i hi hne c =>
      (getElem?_set_off hne.symm c).trans ((frame4 i hi).trans (getElem?_set_off hne.symm _))
    rw [run_bind, setNode_eq hcell]
    refine .done ptr4 (List.length_set.trans (length4.trans hlen3)) (hlen3 ▸ room4)
      (Nat.le_trans (Nat.le_of_lt hlt) le4) ?_ ?_
    · refine ⟨m.treePtr, rfl, ⟨Nat.le_refl _, Nat.lt_of_lt_of_le hlt le4⟩, p, q,
        List.getElem?_set_self (lt_of_getElem? hcell), ?_, ?_⟩
      · exact holds.congr
          (fun i hi => ⟨Nat.le_of_lt hi.1, Nat.lt_of_lt_of_le hi.2 le4⟩)
          (fun i hi => hold i hi.2 (Nat.ne_of_gt hi.1) _)
      · exact holds4.congr
          (fun i hi => ⟨Nat.le_trans (Nat.le_of_lt hlt) hi.1, hi.2⟩)
          (fun i hi => getElem?_set_off (Nat.ne_of_lt (Nat.lt_of_lt_of_le hlt hi.1)) _)
    · intro i hi
      exact (hold i (Nat.lt_trans hi hlt) (Nat.ne_of_lt hi) _).trans (frame i hi)

/-- An internal node, given what the two calls inside do. -/
theorem deserialize_node (hptr : m.treePtr = h.treePtr)
    (ih : ∀ (m : Memory) (h : Huffman) (text : List UInt8), m.treePtr = h.treePtr →
      m.treePtr ≤ m.treeMemory.length →
      Deserialized m h (deserializeTreeNode fuel m text) (Codec.deserializeTreeNode fuel h text)) :
    Deserialized m h (deserializeTreeNode (fuel + 1) m (42 :: rest))
      (Codec.deserializeTreeNode (fuel + 1) h (42 :: rest)) := by
  have hnode : (Codec.treeAlloc h 0).1.treePtr = h.treePtr + 1 := rfl
  rw [deserializeTreeNode, if_neg (by decide), if_neg (by decide)]
  by_cases hroom : m.treePtr < m.treeMemory.length
  · have hcell := List.getElem?_set_self (a := (⟨none, none, 0, 0⟩ : NodeCell)) hroom
    rw [treeAlloc_eq hroom, run_bind, grown_setNode hcell, run_bind, List.set_set]
    rw [codec_deserialize_node]
    have hlen : (grown m (m.treeMemory.set m.treePtr ⟨none, none, 0, 0⟩)).treeMemory.length =
      m.treeMemory.length := List.length_set
    have hl := ih (grown m (m.treeMemory.set m.treePtr ⟨none, none, 0, 0⟩))
      (Codec.treeAlloc h 0).1 rest (congrArg (· + 1) hptr) (hlen ▸ hroom)
    generalize deserializeTreeNode fuel (grown m (m.treeMemory.set m.treePtr ⟨none, none, 0, 0⟩))
      rest = x at hl ⊢
    generalize Codec.deserializeTreeNode fuel (Codec.treeAlloc h 0).1 rest = y at hl ⊢
    cases hl with
    | failed => exact .failed
    | @full hl l textL f outgrown =>
      refine deserialized_full fun h' t text hrun => ?_
      obtain ⟨_, hleft, hrun⟩ := Link.of_bind_eq_ok hrun
      cases hleft
      obtain ⟨r, hright, hrun⟩ := Link.of_bind_eq_ok hrun
      cases hrun
      have hle := Nat.le_of_add_right_le (Nat.le_of_eq (codec_deserialize_size hright))
      exact Nat.lt_of_lt_of_le (hlen ▸ outgrown) hle
    | @done hl l textL m2 p ptr length room le holds frame =>
      have hk := (frame m.treePtr (Nat.lt_succ_self _)).trans hcell
      have hout : ∀ i < m.treePtr, m2.treeMemory[i]? = m.treeMemory[i]? := fun i hi =>
        (frame i (Nat.lt_succ_of_lt hi)).trans (getElem?_set_off (Nat.ne_of_gt hi) _)
      rw [run_bind, setNode_eq hk, run_bind]
      exact deserialize_right (length.trans hlen) ptr (hlen ▸ room) le holds hout ih
  · rw [treeAlloc_full (Nat.le_of_not_lt hroom)]
    refine deserialized_full fun h' t text hrun => ?_
    obtain ⟨hl, l, textL, r, hleft, hright, -⟩ := codec_deserialize_calls hrun
    have h1 := codec_deserialize_size hleft
    have h2 := codec_deserialize_size hright
    omega

/-- **`deserialize_tree_node` on pointers does what the value program does**, as long as its pool
    has room for the nodes, and never runs on without end. -/
theorem deserialize_sim (fuel : Nat) {m : Memory} {h : Huffman} (text : List UInt8)
    (hptr : m.treePtr = h.treePtr) (hle : m.treePtr ≤ m.treeMemory.length) :
    Deserialized m h (deserializeTreeNode fuel m text)
      (Codec.deserializeTreeNode fuel h text) := by
  induction fuel generalizing m h text with
  | zero => exact .failed
  | succ fuel ih =>
    cases text with
    | nil => exact .failed
    | cons c rest =>
      by_cases hnull : c = 45
      · rw [deserializeTreeNode, if_pos hnull, Codec.deserializeTreeNode, if_pos hnull]
        exact .done hptr rfl hle (Nat.le_refl _) rfl fun _ _ => rfl
      · by_cases hleaf : c = 42
        · subst hleaf
          exact deserialize_node hptr fun m h text => ih text
        · exact deserialize_leaf hptr hnull hleaf

end Text

end DistHuffman.Heap
