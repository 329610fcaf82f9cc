/-
  The data model of `huffman.c` and the construction of the code tree: `tree_alloc`,
  `queue_alloc`, `queue_add_element`, `build_queue`, `build_tree`.

  A `node_t *` is a `Node`: `null`, or the four fields of the record it points at. A queue is
  the list of the nodes its entries point at, head first. No node is shared between two places
  that are both written (only `build_queue` writes a node again, through the one queue entry that
  points at it), so values stand in for the pointers.

  The two pools are the pointers `tree_ptr` and `queue_ptr`, counted from the start of
  `tree_memory` and `queue_memory`. Allocation only moves them forward, so a caller that owns a
  pool of a fixed size tests the pointer once, after the last allocation (`huffmanCompress`,
  `huffmanInflate`).
-/
import Mathlib.Data.List.Dedup

namespace DistHuffman.Codec

/-- What ends a run outside the defined behaviour of the program. `assertion` is the
    `assert(head != NULL)` of `build_tree`; the others are accesses that leave their object, a
    field of `NULL` and a negative shift count. -/
inductive Fault where
  | assertion
  | treePool
  | queuePool
  | nullNode
  | bounds
  | shift
  deriving DecidableEq, Repr

/-- A `node_t *`. -/
inductive Node where
  | null
  | mk (left right : Node) (weight : UInt16) (byte : UInt8)
  deriving DecidableEq, Repr

/-- `n->weight`; queue entries are never `NULL`. -/
def Node.weight : Node → UInt16
  | null => 0
  | mk _ _ w _ => w

/-- `n->byte`; the callers test for `NULL` first. -/
def Node.byte : Node → UInt8
  | null => 0
  | mk _ _ _ b => b

/-- `huffman_t`: the pool pointers, as offsets, and the two allocation counters. -/
structure Huffman where
  treePtr : Nat := 0
  allocatedTreeSize : UInt16 := 0
  queuePtr : Nat := 0
  allocatedQueueSize : UInt16 := 0
  deriving DecidableEq, Repr

/-- `a-zA-Z?.,;[CR][LF][Space]`, the input alphabet that `ALPHABET_SIZE` counts. -/
def alphabet : List UInt8 :=
  (List.range 26).map (fun i => UInt8.ofNat (97 + i)) ++
    (List.range 26).map (fun i => UInt8.ofNat (65 + i)) ++ [63, 46, 44, 59, 13, 10, 32]

def alphabetSize : Nat := 26 + 26 + 7

def treeMaxSize : Nat := alphabetSize * 2 - 1

def queueMaxSize : Nat := alphabetSize

example : alphabet.length = alphabetSize ∧ alphabet.Nodup := by decide

/-! ## Pools and the queue -/

def treeAlloc (h : Huffman) (weight : UInt16) : Huffman × Node :=
  ({ h with treePtr := h.treePtr + 1, allocatedTreeSize := h.allocatedTreeSize + 1 },
    .mk .null .null weight 0)

/-- `queue_alloc`, less the record it fills in: the entry's fields are the list cell. -/
def queueAlloc (h : Huffman) : Huffman :=
  { h with queuePtr := h.queuePtr + 1, allocatedQueueSize := h.allocatedQueueSize + 1 }

/-- The walk of `queue_add_element`: in front of the first entry that is heavier than `el`, and
    at the end when there is none. -/
def queueInsert : List Node → Node → List Node
  | [], el => [el]
  | curr :: rest, el =>
      if curr.weight > el.weight then el :: curr :: rest else curr :: queueInsert rest el

def queueAddElement (h : Huffman) (head : List Node) (el : Node) : Huffman × List Node :=
  (queueAlloc h, queueInsert head el)

/-! ## Construction -/

/-- The inner loop of `build_queue`: count `byte` in the first entry that carries it. `none` when
    the loop ends with `found == 0`. -/
def queueCount (byte : UInt8) : List Node → Option (List Node)
  | [] => none
  | .mk l r w b :: rest =>
      if b = byte then some (.mk l r (w + 1) b :: rest)
      else (queueCount byte rest).map (Node.mk l r w b :: ·)
  | .null :: rest => (queueCount byte rest).map (Node.null :: ·)

/-- One round of the loop over the data. -/
def buildQueueStep (s : Huffman × List Node) (byte : UInt8) : Huffman × List Node :=
  match queueCount byte s.2 with
  | some head => (s.1, head)
  | none =>
      let a := treeAlloc s.1 1
      queueAddElement a.1 s.2 (.mk .null .null a.2.weight byte)

def buildQueue (h : Huffman) (data : List UInt8) : Huffman × List Node :=
  data.foldl buildQueueStep (h, [])

/-- `queue_size` counts in a `uint16_t`. -/
def queueSize (head : List Node) : UInt16 := UInt16.ofNat head.length

/-- The loop of `build_tree`. Each round takes two entries and adds one, so `head.length` rounds
    are enough. -/
def buildTreeLoop : Nat → Huffman → List Node → Huffman × List Node
  | fuel + 1, h, a :: b :: rest =>
      if queueSize (a :: b :: rest) ≥ 2 then
        let n := treeAlloc h (a.weight + b.weight)
        let q := queueAddElement n.1 rest (.mk a b n.2.weight 0)
        buildTreeLoop fuel q.1 q.2
      else (h, a :: b :: rest)
  | _, h, head => (h, head)

def buildTree (h : Huffman) (head : List Node) : Except Fault (Huffman × Node) :=
  match buildTreeLoop head.length h head with
  | (_, []) => .error .assertion
  | (h, root :: _) => .ok (h, root)

/-- Number of nodes; `tree_get_size` is only called on a tree that is there. -/
def treeGetSize : Node → Nat
  | .null => 0
  | .mk l r _ _ => treeGetSize l + treeGetSize r + 1

def treeCountLeaves : Node → UInt16
  | .null => 0
  | .mk l r _ b => if b ≠ 0 then 1 else treeCountLeaves l + treeCountLeaves r

end DistHuffman.Codec
