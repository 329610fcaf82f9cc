/-
  `huffman.c` with its pointers. `tree_memory` and `queue_memory` are arrays of records, a
  `node_t *` or `queue_t *` is `none` (`NULL`) or an index into its array, and a field is read and
  written through the pointer. An access at `NULL` or outside the array is a fault, and so is an
  allocation past the end of a pool, at the allocation itself.

  A walk over a queue, or down a tree, that takes more steps than its pool has records has met a
  record twice and never ends; `Stop.endless` stands for that, and the number of records is the
  fuel.

  Buffers, bit streams and the encoding table's entries are those of `Codec.Format`. The encoding
  table is an array of `tree_count_leaves` entries here, and a write behind its end is a fault.
-/
import DistHuffman.Lib.Chain
import DistHuffman.Codec.Format

namespace DistHuffman.Heap

open DistHuffman.Lib
open DistHuffman.Codec (Fault EncodingInfo Bitstream load store putByte bitstreamReadBit
  compressData)

/-- Why a run has no result. -/
inductive Stop where
  | fault (f : Fault)
  | endless
  deriving DecidableEq, Repr

/-- A run of a function that has no pointers. -/
def lift {α : Type} (x : Except Fault α) : Except Stop α := x.mapError .fault

/-- `node_t` -/
structure NodeCell where
  left : Option Nat
  right : Option Nat
  weight : UInt16
  byte : UInt8
  deriving DecidableEq, Repr

/-- `queue_t` -/
structure QueueCell where
  next : Option Nat
  el : Option Nat
  deriving DecidableEq, Repr

/-- `huffman_t` and the two arrays it points into. -/
structure Memory where
  treeMemory : List NodeCell
  treePtr : Nat := 0
  allocatedTreeSize : UInt16 := 0
  queueMemory : List QueueCell
  queuePtr : Nat := 0
  allocatedQueueSize : UInt16 := 0
  deriving DecidableEq, Repr

namespace Memory

def node (m : Memory) (p : Option Nat) : Except Stop NodeCell :=
  fetch (.fault .nullNode) (.fault .treePool) m.treeMemory p

def entry (m : Memory) (p : Option Nat) : Except Stop QueueCell :=
  fetch (.fault .nullNode) (.fault .queuePool) m.queueMemory p

def setNode (m : Memory) (p : Option Nat) (f : NodeCell → NodeCell) : Except Stop Memory := do
  let mem ← amend (.fault .nullNode) (.fault .treePool) m.treeMemory f p
  return { m with treeMemory := mem }

def setEntry (m : Memory) (p : Option Nat) (f : QueueCell → QueueCell) : Except Stop Memory := do
  let mem ← amend (.fault .nullNode) (.fault .queuePool) m.queueMemory f p
  return { m with queueMemory := mem }

end Memory

/-! ## Pools and the queue -/

def treeAlloc (m : Memory) (weight : UInt16) : Except Stop (Memory × Option Nat) := do
  let n := some m.treePtr
  let m := { m with treePtr := m.treePtr + 1 }
  let m ← m.setNode n fun _ => ⟨none, none, weight, 0⟩
  return ({ m with allocatedTreeSize := m.allocatedTreeSize + 1 }, n)

def queueAlloc (m : Memory) (el : Option Nat) : Except Stop (Memory × Option Nat) := do
  let n := some m.queuePtr
  let m := { m with queuePtr := m.queuePtr + 1 }
  let m ← m.setEntry n fun _ => ⟨none, el⟩
  return ({ m with allocatedQueueSize := m.allocatedQueueSize + 1 }, n)

/-- `curr->el->weight > el->weight` -/
def heavier (m : Memory) (curr el : Option Nat) : Except Stop Bool := do
  let c ← m.entry curr
  let a ← m.node c.el
  let b ← m.node el
  return a.weight > b.weight

/-- The loop of `queue_add_element`. -/
def addLoop : Nat → Memory → Option Nat → Option Nat → Option Nat → Except Stop Memory
  | 0, _, _, _, _ => .error .endless
  | fuel + 1, m, new, curr, el => do
      let c ← m.entry curr
      if c.next = none then m.setEntry curr fun c => { c with next := new }
      else if ← heavier m c.next el then do
        let m ← m.setEntry new fun n => { n with next := c.next }
        m.setEntry curr fun c => { c with next := new }
      else addLoop fuel m new c.next el

def queueAddElement (m : Memory) (head el : Option Nat) : Except Stop (Memory × Option Nat) := do
  let a ← queueAlloc m el
  if head = none then return a
  if ← heavier a.1 head el then do
    let m ← a.1.setEntry a.2 fun n => { n with next := head }
    return (m, a.2)
  else do
    let m ← addLoop a.1.queueMemory.length a.1 a.2 head el
    return (m, head)

/-- The loop of `queue_remove_element`, with `curr = head->next` as the source has it. -/
def removeLoop (head el : Option Nat) :
    Nat → Memory → Option Nat → Option Nat → Except Stop (Memory × Option Nat)
  | 0, _, _, _ => .error .endless
  | fuel + 1, m, prev, curr =>
      if curr = none then .ok (m, head)
      else do
        let c ← m.entry curr
        if el = c.el then
          if prev = none then return (m, curr)
          else do
            let m ← m.setEntry prev fun p => { p with next := c.next }
            return (m, head)
        else do
          let h ← m.entry head
          removeLoop head el fuel m curr h.next

/-- `queue_remove_element`, for as many rounds as `fuel` says. -/
def queueRemoveElement (fuel : Nat) (m : Memory) (head el : Option Nat) :
    Except Stop (Memory × Option Nat) := removeLoop head el fuel m none head

/-- `queue_pop2`: the rest of the queue, `*a` and `*b`. -/
def queuePop2 (m : Memory) (head : Option Nat) :
    Except Stop (Option Nat × Option Nat × Option Nat) := do
  let c ← m.entry head
  if c.next = none then return (none, c.el, none)
  else do
    let d ← m.entry c.next
    return (d.next, c.el, d.el)

/-- The loop of `queue_size`. -/
def sizeLoop (m : Memory) : Nat → Option Nat → UInt16 → Except Stop UInt16
  | 0, _, _ => .error .endless
  | fuel + 1, curr, size =>
      if curr = none then .ok size
      else do
        let c ← m.entry curr
        sizeLoop m fuel c.next (size + 1)

def queueSize (m : Memory) (head : Option Nat) : Except Stop UInt16 :=
  sizeLoop m (m.queueMemory.length + 1) head 0

/-! ## Construction -/

/-- The inner loop of `build_queue`: the memory with `byte` counted, or `none` if it was not
    found. -/
def countLoop (byte : UInt8) : Nat → Memory → Option Nat → Except Stop (Option Memory)
  | 0, _, _ => .error .endless
  | fuel + 1, m, curr =>
      if curr = none then .ok none
      else do
        let c ← m.entry curr
        let n ← m.node c.el
        if n.byte = byte then do
          let m ← m.setNode c.el fun n => { n with weight := n.weight + 1 }
          return some m
        else countLoop byte fuel m c.next

/-- One round of the loop over the data. -/
def buildQueueStep (s : Memory × Option Nat) (byte : UInt8) :
    Except Stop (Memory × Option Nat) := do
  let found ← countLoop byte (s.1.queueMemory.length + 1) s.1 s.2
  if let some m := found then return (m, s.2)
  else do
    let a ← treeAlloc s.1 1
    let m ← a.1.setNode a.2 fun n => { n with byte := byte }
    queueAddElement m s.2 a.2

def buildQueue (m : Memory) (data : List UInt8) : Except Stop (Memory × Option Nat) :=
  data.foldlM buildQueueStep (m, none)

/-- The loop of `build_tree`. Each round allocates a node, so that there are not more rounds than
    records in the pool. -/
def buildTreeLoop : Nat → Memory → Option Nat → Except Stop (Memory × Option Nat)
  | 0, _, _ => .error .endless
  | fuel + 1, m, head => do
      let size ← queueSize m head
      if size ≥ 2 then do
        let q ← queuePop2 m head
        let a ← m.node q.2.1
        let b ← m.node q.2.2
        let n ← treeAlloc m (a.weight + b.weight)
        let m ← n.1.setNode n.2 fun c => { c with left := q.2.1 }
        let m ← m.setNode n.2 fun c => { c with right := q.2.2 }
        let m ← m.setNode n.2 fun c => { c with byte := 0 }
        let q ← queueAddElement m q.1 n.2
        buildTreeLoop fuel q.1 q.2
      else return (m, head)

def buildTree (m : Memory) (head : Option Nat) : Except Stop (Memory × Option Nat) := do
  let r ← buildTreeLoop (m.treeMemory.length + 1) m head
  if r.2 = none then throw (.fault .assertion)
  let c ← r.1.entry r.2
  return (r.1, c.el)

/-! ## Reading a tree -/

/-- A call under `if (p)`, with the value that stays where there is none. -/
def ifPresent {α : Type} (p : Option Nat) (absent : α) (call : Except Stop α) : Except Stop α :=
  if p = none then .ok absent else call

def treeGetSize (m : Memory) : Nat → Option Nat → Except Stop Nat
  | 0, _ => .error .endless
  | fuel + 1, tree => do
      let n ← m.node tree
      let l ← ifPresent n.left 0 (treeGetSize m fuel n.left)
      let r ← ifPresent n.right 0 (treeGetSize m fuel n.right)
      return l + r + 1

def treeCountLeaves (m : Memory) : Nat → Option Nat → Except Stop UInt16
  | 0, _ => .error .endless
  | fuel + 1, tree => do
      let n ← m.node tree
      if n.byte ≠ 0 then return 1
      else do
        let l ← ifPresent n.left 0 (treeCountLeaves m fuel n.left)
        let r ← ifPresent n.right 0 (treeCountLeaves m fuel n.right)
        return l + r

def serializeTreeNode (m : Memory) :
    Nat → Option Nat → List UInt8 × Nat → Except Stop (List UInt8 × Nat)
  | 0, _, _ => .error .endless
  | fuel + 1, tree, out =>
      if tree = none then lift (putByte out 45)
      else do
        let n ← m.node tree
        if n.byte ≠ 0 then lift (putByte out n.byte)
        else do
          let out ← lift (putByte out 42)
          let out ← serializeTreeNode m fuel n.left out
          serializeTreeNode m fuel n.right out

/-- `build_encoding_table` into an array of `size` entries, of which `arr` are written. -/
def buildEncodingTable (m : Memory) (size : Nat) :
    Nat → Option Nat → UInt8 → UInt8 → List EncodingInfo → Except Stop (List EncodingInfo)
  | 0, _, _, _, _ => .error .endless
  | fuel + 1, tree, encodedByte, numBits, arr => do
      let n ← m.node tree
      if n.byte ≠ 0 then
        if arr.length < size then return arr ++ [⟨n.byte, encodedByte, numBits⟩]
        else throw (.fault .bounds)
      else do
        let arr ← ifPresent n.left arr
          (buildEncodingTable m size fuel n.left ((encodedByte <<< 1) ||| 0) (numBits + 1) arr)
        ifPresent n.right arr
          (buildEncodingTable m size fuel n.right ((encodedByte <<< 1) ||| 1) (numBits + 1) arr)

/-! ## Compression -/

/-- `huffman_compress(data, data_size, out_data)`, where `nodes` and `entries` are what the two
    pools on the stack hold before. -/
def huffmanCompress (nodes : List NodeCell) (entries : List QueueCell) (data out : List UInt8) :
    Except Stop (List UInt8) := do
  let q ← buildQueue { treeMemory := nodes, queueMemory := entries } data
  let t ← buildTree q.1 q.2
  let m := t.1
  let tree := t.2
  let depth := m.treeMemory.length + 1
  let treeSz ← treeGetSize m depth tree
  let out ← lift (store out 0 (UInt8.ofNat treeSz))
  let text ← serializeTreeNode m depth tree (out, 3)
  let out := text.1
  let encodingTableSize ← treeCountLeaves m depth tree
  let encodingTable ← buildEncodingTable m encodingTableSize.toNat depth tree 0 0 []
  let c ← lift (compressData encodingTable encodingTableSize data (out.drop (3 + treeSz)))
  let numBits := c.1
  let out := out.take (3 + treeSz) ++ c.2
  let out ← lift (store out 1 (numBits >>> 8).toUInt8)
  lift (store out 2 numBits.toUInt8)

/-! ## Inflation -/

/-- The recursion reads a byte of the text in every call, so `fuel` is the length of the text. -/
def deserializeTreeNode :
    Nat → Memory → List UInt8 → Except Stop (Memory × Option Nat × List UInt8)
  | fuel + 1, m, c :: rest =>
      if c = 45 then .ok (m, none, rest)
      else if c ≠ 42 then do
        let n ← treeAlloc m 0
        let m ← n.1.setNode n.2 fun d => { d with byte := c }
        return (m, n.2, rest)
      else do
        let n ← treeAlloc m 0
        let m ← n.1.setNode n.2 fun d => { d with byte := 0 }
        let l ← deserializeTreeNode fuel m rest
        let m ← l.1.setNode n.2 fun d => { d with left := l.2.1 }
        let r ← deserializeTreeNode fuel m l.2.2
        let m ← r.1.setNode n.2 fun d => { d with right := r.2.1 }
        return (m, n.2, r.2.2)
  | _, _, _ => .error (.fault .bounds)

/-- The loop of `deserialize_next_char`. -/
def nextCharLoop (m : Memory) :
    Nat → Option Nat → Bitstream → UInt8 → Except Stop (UInt8 × Bitstream × UInt8)
  | 0, _, _, _ => .error .endless
  | fuel + 1, curr, s, numBits => do
      let b ← lift (bitstreamReadBit s)
      let n ← m.node curr
      let next := if b.1 = 0 then n.left else n.right
      if next = none then return (63, b.2, numBits + 1)
      else do
        let c ← m.node next
        if c.byte ≠ 0 then return (c.byte, b.2, numBits + 1)
        else nextCharLoop m fuel next b.2 (numBits + 1)

/-- The loop of `inflate_data`; every round reads a bit. -/
def inflateLoop (m : Memory) (tree : Option Nat) (dataSize totalBits : UInt16) :
    Nat → UInt16 → Bitstream → List UInt8 × Nat → Except Stop (List UInt8 × Nat)
  | 0, _, _, _ => .error (.fault .bounds)
  | fuel + 1, bitsRead, s, out =>
      if bitsRead < totalBits ∧ s.buffIndex < dataSize then do
        let c ← nextCharLoop m (m.treeMemory.length + 1) tree s 0
        let out ← lift (putByte out c.1)
        inflateLoop m tree dataSize totalBits fuel (bitsRead + c.2.2.toUInt16) c.2.1 out
      else .ok out

/-- `huffman_inflate(data, data_size, out_data)`, where `nodes k` is what a pool of `k` records on
    the stack holds before. The encoding table is built, and not read. -/
def huffmanInflate (nodes : Nat → List NodeCell) (data : List UInt8) (dataSize : UInt16)
    (out : List UInt8) : Except Stop (List UInt8 × Nat) := do
  let treeSize ← lift (load data 0)
  let hi ← lift (load data 1)
  let lo ← lift (load data 2)
  let numBits := (hi.toUInt16 <<< 8) ||| lo.toUInt16
  let text := data.drop 3
  let t ← deserializeTreeNode text.length
    { treeMemory := nodes treeSize.toNat, queueMemory := [] } text
  let m := t.1
  let depth := m.treeMemory.length + 1
  let encodingTableSize ← treeCountLeaves m depth t.2.1
  let _ ← buildEncodingTable m encodingTableSize.toNat depth t.2.1 0 0 []
  let payload := text.drop (text.length - t.2.2.length)
  inflateLoop m t.2.1 dataSize numBits (8 * payload.length + 1) 0 { buff := payload } (out, 0)

end DistHuffman.Heap
