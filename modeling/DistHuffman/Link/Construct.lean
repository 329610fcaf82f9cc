/-
  Link: `build_queue` and `build_tree` with pointers against the same functions on values.

  A state of the one stands for a state of the other if the queue in memory carries the queued
  trees and the counters agree (`Queued`). Every round keeps that, or is stopped by an allocation
  in a pool without room; the value program has then taken more from that pool than there is
  (`Outgrown`), and never gives anything back. So with pools of any size and any contents

  * `buildQueue_sim`, `buildTree_sim`: the run ends with the tree of the value program, or with a
    pool fault, and the latter exactly if the value program takes more than the pools have.
-/
import DistHuffman.Link.Pools

namespace DistHuffman.Heap

open DistHuffman.Lib
open DistHuffman.Codec (Fault Node Huffman)

/-- More was taken from a pool than it has. -/
def Outgrown (nodes entries : Nat) (h : Huffman) : Prop :=
  nodes < h.treePtr ∨ entries < h.queuePtr

/-- The run was stopped by an allocation. -/
def Full {α : Type} (x : Except Stop α) : Prop :=
  x = .error (.fault .treePool) ∨ x = .error (.fault .queuePool)

theorem Full.bind {α β : Type} {x : Except Stop α} (h : Full x) (f : α → Except Stop β) :
    Full (x >>= f) := by
  rcases h with rfl | rfl
  · exact Or.inl rfl
  · exact Or.inr rfl

/-- The memory and the queue at `s.2` stand for the counters and the queue of `v`. -/
structure Queued (nodes entries : Nat) (s : Memory × Option Nat) (v : Huffman × List Node)
    (is : List Nat) (xs : List (Nat × Node)) : Prop where
  tree : s.1.treePtr = v.1.treePtr
  treeCount : s.1.allocatedTreeSize = v.1.allocatedTreeSize
  queue : s.1.queuePtr = v.1.queuePtr
  queueCount : s.1.allocatedQueueSize = v.1.allocatedQueueSize
  nodes_eq : s.1.treeMemory.length = nodes
  entries_eq : s.1.queueMemory.length = entries
  tree_le : s.1.treePtr ≤ nodes
  queue_le : s.1.queuePtr ≤ entries
  chain : Chain QueueCell.next Carries s.1.queueMemory s.2 is xs
  nodup : is.Nodup
  below : ∀ i ∈ is, i < s.1.queuePtr
  held : ∀ x ∈ xs, Holds (· < s.1.treePtr) s.1.treeMemory (some x.1) x.2
  value : xs.map Prod.snd = v.2

section Steps

variable {nodes entries : Nat} {m : Memory} {head : Option Nat} {h : Huffman} {q : List Node}
  {is : List Nat} {xs : List (Nat × Node)}

theorem Queued.not_outgrown {s : Memory × Option Nat} {v : Huffman × List Node}
    (hq : Queued nodes entries s v is xs) : ¬ Outgrown nodes entries v.1 := by
  have h1 := hq.tree_le
  have h2 := hq.queue_le
  rw [hq.tree] at h1
  rw [hq.queue] at h2
  rintro (hn | he)
  · omega
  · omega

/-- A new record in `tree_memory`, whatever is written there, leaves the queue as it is. -/
theorem Queued.grow (hq : Queued nodes entries (m, head) (h, q) is xs) (hroom : m.treePtr < nodes)
    (w : UInt16) (c : NodeCell) :
    Queued nodes entries (grown m (m.treeMemory.set m.treePtr c), head)
      ((Codec.treeAlloc h w).1, q) is xs where
  tree := congrArg (· + 1) hq.tree
  treeCount := congrArg (· + 1) hq.treeCount
  queue := hq.queue
  queueCount := hq.queueCount
  nodes_eq := List.length_set.trans hq.nodes_eq
  entries_eq := hq.entries_eq
  tree_le := hroom
  queue_le := hq.queue_le
  chain := hq.chain
  nodup := hq.nodup
  below := hq.below
  held := fun x hx => (hq.held x hx).congr (fun _ hi => Nat.lt_succ_of_lt hi)
    fun _ hi => getElem?_set_off (Nat.ne_of_gt hi) c
  value := hq.value

/-- `queue_add_element` with the tree at `e.1`. -/
theorem add_sim {e : Nat × Node} (hq : Queued nodes entries (m, head) (h, q) is xs)
    (he : Holds (· < m.treePtr) m.treeMemory (some e.1) e.2) :
    (∃ s is', queueAddElement m head (some e.1) = .ok s ∧ s.1.treeMemory = m.treeMemory ∧
      Queued nodes entries s (Codec.queueAddElement h q e.2) is' (insertTies key e xs)) ∨
    Full (queueAddElement m head (some e.1)) ∧
      Outgrown nodes entries (Codec.queueAddElement h q e.2).1 := by
  by_cases hroom : m.queuePtr < m.queueMemory.length
  · obtain ⟨mem, head', is', hrun, hchain, hperm, hlen, -⟩ :=
      queueAddElement_spec hq.chain hq.nodup hq.below hroom hq.held he
    refine Or.inl ⟨(added m mem, head'), is', hrun, rfl, ?_⟩
    have hinsert : (insertTies key e xs).map Prod.snd = Codec.queueInsert q e.2 := by
      rw [Link.queueInsert_eq, show q = xs.map Prod.snd from hq.value.symm]
      exact (insertTies_map Prod.snd e xs fun _ _ => Iff.rfl).symm
    exact {
      tree := hq.tree
      treeCount := hq.treeCount
      queue := congrArg (· + 1) hq.queue
      queueCount := congrArg (· + 1) hq.queueCount
      nodes_eq := hq.nodes_eq
      entries_eq := hlen.trans hq.entries_eq
      tree_le := hq.tree_le
      queue_le := by
        rw [← hq.entries_eq]
        exact hroom
      chain := hchain
      nodup := by
        rw [hperm.nodup_iff, List.nodup_cons]
        exact ⟨fun hmem => absurd (hq.below _ hmem) (Nat.lt_irrefl _), hq.nodup⟩
      below := by
        intro i hi
        rcases List.mem_cons.mp (hperm.mem_iff.mp hi) with rfl | hi
        · exact Nat.lt_succ_self _
        · exact Nat.lt_succ_of_lt (hq.below i hi)
      held := by
        intro x hx
        rcases mem_insertTies.mp hx with rfl | hx
        · exact he
        · exact hq.held x hx
      value := hinsert }
  · refine Or.inr ⟨Or.inr (queueAddElement_full (Nat.le_of_not_lt hroom) _ _), Or.inr ?_⟩
    have hfull := Nat.le_of_not_lt hroom
    have hlen := hq.entries_eq
    have hptr := hq.queue
    dsimp only at hlen hptr
    show entries < h.queuePtr + 1
    omega

/-- An allocation in a full `tree_memory`. -/
theorem treeAlloc_sim (hq : Queued nodes entries (m, head) (h, q) is xs) (w : UInt16) :
    (m.treePtr < nodes ∧ treeAlloc m w =
      .ok (grown m (m.treeMemory.set m.treePtr ⟨none, none, w, 0⟩), some m.treePtr)) ∨
    (treeAlloc m w = .error (.fault .treePool) ∧ nodes < h.treePtr + 1) := by
  have hlen := hq.nodes_eq
  have hptr := hq.tree
  dsimp only at hlen hptr
  by_cases hroom : m.treePtr < m.treeMemory.length
  · exact Or.inl ⟨hlen ▸ hroom, treeAlloc_eq hroom w⟩
  · exact Or.inr ⟨treeAlloc_full (Nat.le_of_not_lt hroom) w, by omega⟩

end Steps

/-! ## `build_queue` -/

/-- While the queue is built, it carries records without children, each one once. -/
def Counting (nodes entries : Nat) (s : Memory × Option Nat) (v : Huffman × List Node) : Prop :=
  ∃ is xs, Queued nodes entries s v is xs ∧ (∀ x ∈ xs, LeafAt s.1.treeMemory x) ∧
    (xs.map Prod.fst).Nodup

theorem buildQueueStep_found {v : Huffman × List Node} {byte : UInt8} {q : List Node}
    (h : Codec.queueCount byte v.2 = some q) : Codec.buildQueueStep v byte = (v.1, q) := by
  simp only [Codec.buildQueueStep, h]

theorem buildQueueStep_new {v : Huffman × List Node} {byte : UInt8}
    (h : Codec.queueCount byte v.2 = none) : Codec.buildQueueStep v byte =
      Codec.queueAddElement (Codec.treeAlloc v.1 1).1 v.2 (.mk .null .null 1 byte) := by
  simp only [Codec.buildQueueStep, h]
  rfl

variable {nodes entries : Nat}

theorem Queued.place_lt {s : Memory × Option Nat} {v : Huffman × List Node} {is : List Nat}
    {xs : List (Nat × Node)} (hq : Queued nodes entries s v is xs) {i : Nat}
    (hi : i ∈ xs.map Prod.fst) : i < s.1.treePtr := by
  obtain ⟨x, hx, rfl⟩ := List.mem_map.mp hi
  exact (hq.held x hx).cell.1

/-- The records of the queue written again, without children, where they are. -/
theorem Queued.recount {s : Memory × Option Nat} {v : Huffman × List Node} {is : List Nat}
    {xs xs' : List (Nat × Node)} (hq : Queued nodes entries s v is xs) {i : Nat} {c : NodeCell}
    (hfst : xs'.map Prod.fst = xs.map Prod.fst)
    (hleaf : ∀ x ∈ xs', LeafAt (s.1.treeMemory.set i c) x) :
    Queued nodes entries ({ s.1 with treeMemory := s.1.treeMemory.set i c }, s.2)
      (v.1, xs'.map Prod.snd) is xs' :=
  { hq with
    nodes_eq := List.length_set.trans hq.nodes_eq
    chain := same_places hq.chain hfst
    held := fun x hx =>
      (hleaf x hx).holds (hq.place_lt (hfst ▸ List.mem_map_of_mem hx))
    value := rfl }

/-- The round of a byte that has no record yet: a record, then an entry. -/
theorem newByte_sim {s : Memory × Option Nat} {v : Huffman × List Node} {is : List Nat}
    {xs : List (Nat × Node)} (hq : Queued nodes entries s v is xs)
    (hleaf : ∀ x ∈ xs, LeafAt s.1.treeMemory x) (hnd : (xs.map Prod.fst).Nodup) {byte : UInt8}
    (hrun : countLoop byte (s.1.queueMemory.length + 1) s.1 s.2 = .ok none)
    (hnone : Codec.queueCount byte v.2 = none) :
    (∃ s', buildQueueStep s byte = .ok s' ∧
      Counting nodes entries s' (Codec.buildQueueStep v byte)) ∨
    Full (buildQueueStep s byte) ∧ Outgrown nodes entries (Codec.buildQueueStep v byte).1 := by
  unfold buildQueueStep
  rw [hrun, run_bind, buildQueueStep_new hnone]
  dsimp only
  rcases treeAlloc_sim hq 1 with ⟨hroom, halloc⟩ | ⟨halloc, hfull⟩
  · have hlt : s.1.treePtr < s.1.treeMemory.length := hq.nodes_eq.symm ▸ hroom
    have hcell := List.getElem?_set_self (a := (⟨none, none, 1, 0⟩ : NodeCell)) hlt
    have hgrow := hq.grow hroom 1 ⟨none, none, 1, byte⟩
    have hel : LeafAt (s.1.treeMemory.set s.1.treePtr ⟨none, none, 1, byte⟩)
        (s.1.treePtr, .mk .null .null 1 byte) := ⟨1, byte, rfl, List.getElem?_set_self hlt⟩
    rw [halloc, run_bind, grown_setNode hcell, run_bind, List.set_set]
    rcases add_sim hgrow (hel.holds (Nat.lt_succ_self _)) with
      ⟨s', is', hadd, htree, hq'⟩ | ⟨hadd, hout⟩
    · refine Or.inl ⟨s', hadd, is', _, hq', ?_, ?_⟩
      · intro x hx
        rw [htree]
        rcases mem_insertTies.mp hx with rfl | hx
        · exact hel
        · have hlow := hq.place_lt (List.mem_map_of_mem hx)
          exact (hleaf x hx).congr (getElem?_set_off (Nat.ne_of_gt hlow) _)
      · rw [((insertTies_perm key _ xs).map Prod.fst).nodup_iff, List.map_cons, List.nodup_cons]
        exact ⟨fun hmem => absurd (hq.place_lt hmem) (Nat.lt_irrefl _), hnd⟩
    · exact Or.inr ⟨hadd, hout⟩
  · rw [halloc]
    exact Or.inr ⟨Or.inl rfl, Or.inl hfull⟩

theorem buildQueueStep_sim {s : Memory × Option Nat} {v : Huffman × List Node}
    (h : Counting nodes entries s v) (byte : UInt8) :
    (∃ s', buildQueueStep s byte = .ok s' ∧
      Counting nodes entries s' (Codec.buildQueueStep v byte)) ∨
    Full (buildQueueStep s byte) ∧ Outgrown nodes entries (Codec.buildQueueStep v byte).1 := by
  obtain ⟨is, xs, hq, hleaf, hnd⟩ := h
  have hfuel : is.length < s.1.queueMemory.length + 1 :=
    Nat.lt_succ_of_le (hq.chain.length_le hq.nodup)
  rcases countLoop_spec byte hq.chain hleaf hnd hfuel with
    ⟨hnone, hrun⟩ | ⟨xs', i, c, -, hrun, hcount, hfst, hleaf'⟩
  · exact newByte_sim hq hleaf hnd hrun (hq.value ▸ hnone)
  · -- a byte that is queued: its record is written again
    rw [hq.value] at hcount
    unfold buildQueueStep
    rw [hrun, run_bind, buildQueueStep_found hcount]
    exact Or.inl ⟨_, rfl, is, xs', hq.recount hfst hleaf', hleaf', hfst ▸ hnd⟩

theorem outgrown_buildQueueStep {v : Huffman × List Node} (h : Outgrown nodes entries v.1)
    (byte : UInt8) : Outgrown nodes entries (Codec.buildQueueStep v byte).1 := by
  cases hc : Codec.queueCount byte v.2 with
  | some q =>
    rw [buildQueueStep_found hc]
    exact h
  | none =>
    rw [buildQueueStep_new hc]
    exact h.imp Nat.lt_succ_of_lt Nat.lt_succ_of_lt

theorem buildQueue_sim {s : Memory × Option Nat} {v : Huffman × List Node}
    (h : Counting nodes entries s v) (data : List UInt8) :
    (∃ s', data.foldlM buildQueueStep s = .ok s' ∧
      Counting nodes entries s' (data.foldl Codec.buildQueueStep v)) ∨
    Full (data.foldlM buildQueueStep s) ∧
      Outgrown nodes entries (data.foldl Codec.buildQueueStep v).1 := by
  induction data generalizing s v with
  | nil => exact Or.inl ⟨s, rfl, h⟩
  | cons b data ih =>
    rw [List.foldlM_cons, List.foldl_cons]
    rcases buildQueueStep_sim h b with ⟨s', hstep, h'⟩ | ⟨hfull, hout⟩
    · rw [hstep, run_bind]
      exact ih h'
    · refine Or.inr ⟨hfull.bind _, ?_⟩
      exact List.foldlRecOn (motive := fun u => Outgrown nodes entries u.1) data
        Codec.buildQueueStep hout fun u hu c _ => outgrown_buildQueueStep hu c

/-! ## `build_tree` -/

theorem buildTreeLoop_stop {q : List Node} (hsize : ¬ Codec.queueSize q ≥ 2) (steps : Nat)
    (h : Huffman) : Codec.buildTreeLoop steps h q = (h, q) := by
  cases steps with
  | zero => rfl
  | succ steps =>
    cases q with
    | nil => rfl
    | cons a q =>
      cases q with
      | nil => rfl
      | cons b q => rw [Codec.buildTreeLoop, if_neg hsize]

/-- One round of the loop on values. -/
def mergeFirst (h : Huffman) (a b : Node) (q : List Node) : Huffman × List Node :=
  Codec.queueAddElement (Codec.treeAlloc h (a.weight + b.weight)).1 q
    (.mk a b (a.weight + b.weight) 0)

theorem mergeFirst_length (h : Huffman) (a b : Node) (q : List Node) :
    (mergeFirst h a b q).2.length = q.length + 1 := by
  unfold mergeFirst Codec.queueAddElement
  rw [Link.queueInsert_eq, insertTies_length]

theorem buildTreeLoop_round {a b : Node} {q : List Node}
    (hsize : Codec.queueSize (a :: b :: q) ≥ 2) (steps : Nat) (h : Huffman) :
    Codec.buildTreeLoop (steps + 1) h (a :: b :: q) =
      Codec.buildTreeLoop steps (mergeFirst h a b q).1 (mergeFirst h a b q).2 := by
  rw [Codec.buildTreeLoop, if_pos hsize]
  rfl

theorem outgrown_buildTreeLoop {h : Huffman} (hout : Outgrown nodes entries h) (steps : Nat)
    (q : List Node) : Outgrown nodes entries (Codec.buildTreeLoop steps h q).1 := by
  induction steps generalizing h q with
  | zero => exact hout
  | succ steps ih =>
    by_cases hsize : Codec.queueSize q ≥ 2
    · cases q with
      | nil => exact hout
      | cons a q =>
        cases q with
        | nil => exact hout
        | cons b q =>
          rw [buildTreeLoop_round hsize]
          exact ih (hout.imp Nat.lt_succ_of_lt Nat.lt_succ_of_lt) _
    · rw [buildTreeLoop_stop hsize]
      exact hout

theorem two_le_of_size {n : Nat} (h : UInt16.ofNat n ≥ 2) : 2 ≤ n := by
  have hle := UInt16.le_iff_toNat_le.mp h
  rw [UInt16.toNat_ofNat'] at hle
  exact Nat.le_trans hle (Nat.mod_le _ _)

theorem exists_cons_cons {α : Type} {l : List α} (h : 2 ≤ l.length) :
    ∃ a b r, l = a :: b :: r := by
  obtain ⟨a, r, rfl⟩ := List.exists_cons_of_length_pos (Nat.lt_of_lt_of_le Nat.zero_lt_two h)
  obtain ⟨b, r, rfl⟩ := List.exists_cons_of_length_pos (Nat.le_of_succ_le_succ h)
  exact ⟨a, b, r, rfl⟩

/-- The queue behind its first two entries. -/
theorem Queued.drop_two {m : Memory} {p rest : Option Nat} {h : Huffman} {a b : Node}
    {q : List Node} {i j : Nat} {is : List Nat} {x y : Nat × Node} {xs : List (Nat × Node)}
    (hq : Queued nodes entries (m, p) (h, a :: b :: q) (i :: j :: is) (x :: y :: xs))
    (hrest : Chain QueueCell.next Carries m.queueMemory rest is xs) :
    Queued nodes entries (m, rest) (h, q) is xs := by
  have hvalue := hq.value
  simp only [List.map_cons, List.cons.injEq] at hvalue
  exact { hq with
    chain := hrest
    nodup := (List.nodup_cons.mp (List.nodup_cons.mp hq.nodup).2).2
    below := fun k hk => hq.below k (List.mem_cons_of_mem _ (List.mem_cons_of_mem _ hk))
    held := fun z hz => hq.held z (List.mem_cons_of_mem _ (List.mem_cons_of_mem _ hz))
    value := hvalue.2.2 }

/-- One round of the loop. -/
theorem merge_sim {m : Memory} {p : Option Nat} {h : Huffman} {a b : Node} {q : List Node}
    {i j : Nat} {is : List Nat} {x y : Nat × Node} {xs : List (Nat × Node)} (fuel : Nat)
    (hq : Queued nodes entries (m, p) (h, a :: b :: q) (i :: j :: is) (x :: y :: xs))
    (hsize : UInt16.ofNat (x :: y :: xs).length ≥ 2) :
    (∃ s is' xs', buildTreeLoop (fuel + 1) m p = buildTreeLoop fuel s.1 s.2 ∧
      s.1.treePtr = m.treePtr + 1 ∧ Queued nodes entries s (mergeFirst h a b q) is' xs') ∨
    Full (buildTreeLoop (fuel + 1) m p) ∧ Outgrown nodes entries (mergeFirst h a b q).1 := by
  have hvalue := hq.value
  simp only [List.map_cons, List.cons.injEq] at hvalue
  obtain ⟨hxa, hyb, -⟩ := hvalue
  obtain ⟨rest, hpop, hrest⟩ := queuePop2_spec hq.chain
  have hx := hq.held x List.mem_cons_self
  have hy := hq.held y (List.mem_cons_of_mem _ List.mem_cons_self)
  obtain ⟨-, c, hc, hcw, -⟩ := hx.cell
  obtain ⟨-, d, hd, hdw, -⟩ := hy.cell
  rw [hxa] at hx hcw
  rw [hyb] at hy hdw
  have hdrop := hq.drop_two hrest
  rw [buildTreeLoop, queueSize_spec hq.chain hq.nodup, run_bind, if_pos hsize, hpop, run_bind]
  dsimp only
  rw [node_eq hc, run_bind, node_eq hd, run_bind, hcw, hdw]
  rcases treeAlloc_sim hq (a.weight + b.weight) with ⟨hroom, halloc⟩ | ⟨halloc, hfull⟩
  · have hlt : m.treePtr < m.treeMemory.length := hq.nodes_eq.symm ▸ hroom
    -- the three fields of the new record
    have hset : ∀ c : NodeCell, (m.treeMemory.set m.treePtr c)[m.treePtr]? = some c := fun c =>
      List.getElem?_set_self hlt
    rw [halloc, run_bind, grown_setNode (hset _), run_bind, List.set_set, grown_setNode (hset _),
      run_bind, List.set_set, grown_setNode (hset _), run_bind, List.set_set]
    have hoff : ∀ k, k < m.treePtr → (m.treeMemory.set m.treePtr
        ⟨some x.1, some y.1, a.weight + b.weight, 0⟩)[k]? = m.treeMemory[k]? := fun k hk =>
      getElem?_set_off (Nat.ne_of_gt hk) _
    have hel : Holds (· < m.treePtr + 1) (m.treeMemory.set m.treePtr
        ⟨some x.1, some y.1, a.weight + b.weight, 0⟩) (some m.treePtr)
        (.mk a b (a.weight + b.weight) 0) :=
      ⟨m.treePtr, rfl, Nat.lt_succ_self _, _, _, hset _,
        hx.congr (fun _ hk => Nat.lt_succ_of_lt hk) hoff,
        hy.congr (fun _ hk => Nat.lt_succ_of_lt hk) hoff⟩
    have hgrow := hdrop.grow hroom (a.weight + b.weight)
      ⟨some x.1, some y.1, a.weight + b.weight, 0⟩
    rcases add_sim (e := (m.treePtr, .mk a b (a.weight + b.weight) 0)) hgrow hel with
      ⟨s, is', hadd, -, hq'⟩ | ⟨hadd, hout⟩
    · refine Or.inl ⟨s, is', _, ?_, ?_, hq'⟩
      · rw [hadd, run_bind]
      · exact hq'.tree.trans (congrArg (· + 1) hq.tree.symm)
    · exact Or.inr ⟨hadd.bind _, hout⟩
  · rw [halloc]
    exact Or.inr ⟨Or.inl rfl, Or.inl hfull⟩

theorem buildTreeLoop_sim {fuel steps : Nat} {s : Memory × Option Nat} {v : Huffman × List Node}
    {is : List Nat} {xs : List (Nat × Node)} (hq : Queued nodes entries s v is xs)
    (hfuel : nodes < s.1.treePtr + fuel) (hsteps : v.2.length ≤ steps) :
    (∃ s' is' xs', buildTreeLoop fuel s.1 s.2 = .ok s' ∧
      Queued nodes entries s' (Codec.buildTreeLoop steps v.1 v.2) is' xs') ∨
    Full (buildTreeLoop fuel s.1 s.2) ∧
      Outgrown nodes entries (Codec.buildTreeLoop steps v.1 v.2).1 := by
  -- the induction is on the fuel: a round takes a record, so enough of it is left
  induction fuel generalizing steps s v is xs with
  | zero => exact absurd hq.tree_le (Nat.not_le.mpr hfuel)
  | succ fuel ih =>
    obtain ⟨m, p⟩ := s
    obtain ⟨h, q⟩ := v
    have hlen : xs.length = q.length := by rw [← List.length_map (f := Prod.snd), hq.value]
    by_cases hsize : UInt16.ofNat xs.length ≥ 2
    · have htwo := two_le_of_size hsize
      have hislen := hq.chain.length_eq
      obtain ⟨x, y, xs, rfl⟩ := exists_cons_cons htwo
      obtain ⟨a, b, q, rfl⟩ := exists_cons_cons (hlen ▸ htwo)
      obtain ⟨i, j, is, rfl⟩ := exists_cons_cons (hislen ▸ htwo)
      obtain ⟨steps, rfl⟩ : ∃ k, steps = k + 1 :=
        ⟨steps - 1, by simp only [List.length_cons] at hsteps; omega⟩
      have hsize' : Codec.queueSize (a :: b :: q) ≥ 2 := by
        rw [Codec.queueSize, ← hlen]
        exact hsize
      rw [buildTreeLoop_round hsize']
      rcases merge_sim fuel hq hsize with ⟨s, is', xs', hrun, hptr, hq'⟩ | ⟨hfull, hout⟩
      · rw [hrun]
        refine ih hq' (by dsimp only at hfuel; omega) ?_
        rw [mergeFirst_length]
        exact Nat.le_of_succ_le_succ hsteps
      · exact Or.inr ⟨hfull, outgrown_buildTreeLoop hout _ _⟩
    · have hsize' : ¬ Codec.queueSize q ≥ 2 := by
        rw [Codec.queueSize, ← hlen]
        exact hsize
      refine Or.inl ⟨(m, p), is, xs, ?_, ?_⟩
      · rw [buildTreeLoop, queueSize_spec hq.chain hq.nodup, run_bind, if_neg hsize]
        rfl
      · rw [buildTreeLoop_stop hsize']
        exact hq

theorem buildTreeLoop_ne_nil {q : List Node} (hne : q ≠ []) (steps : Nat) (h : Huffman) :
    (Codec.buildTreeLoop steps h q).2 ≠ [] := by
  induction steps generalizing h q with
  | zero => exact hne
  | succ steps ih =>
    by_cases hsize : Codec.queueSize q ≥ 2
    · obtain ⟨a, b, q, rfl⟩ := exists_cons_cons (two_le_of_size hsize)
      rw [buildTreeLoop_round hsize]
      refine ih (fun hnil => ?_) _
      have := mergeFirst_length h a b q
      rw [hnil] at this
      cases this
    · rw [buildTreeLoop_stop hsize]
      exact hne

theorem buildTree_of_cons {h h' : Huffman} {t : Node} {q rest : List Node}
    (hloop : Codec.buildTreeLoop q.length h q = (h', t :: rest)) :
    Codec.buildTree h q = .ok (h', t) := by
  unfold Codec.buildTree
  rw [hloop]

/-- `build_tree` on a queue in memory: the failed assertion on an empty one, the tree of the value
    program where the pools have room, a pool fault where they have not. -/
theorem buildTree_sim {s : Memory × Option Nat} {v : Huffman × List Node} {is : List Nat}
    {xs : List (Nat × Node)} (hq : Queued nodes entries s v is xs) :
    (v.2 = [] ∧ buildTree s.1 s.2 = .error (.fault .assertion)) ∨
    ∃ h t, Codec.buildTree v.1 v.2 = .ok (h, t) ∧
      (¬ Outgrown nodes entries h ∧ (∃ m i, buildTree s.1 s.2 = .ok (m, some i) ∧
        m.treeMemory.length = nodes ∧ Holds (· < m.treePtr) m.treeMemory (some i) t) ∨
      Outgrown nodes entries h ∧ Full (buildTree s.1 s.2)) := by
  have hfuel : nodes < s.1.treePtr + (s.1.treeMemory.length + 1) := by
    have := hq.nodes_eq
    omega
  have hsim := buildTreeLoop_sim hq hfuel (Nat.le_refl v.2.length)
  unfold buildTree
  by_cases hempty : v.2 = []
  · left
    have hsize : ¬ Codec.queueSize v.2 ≥ 2 := by
      rw [hempty]
      decide
    rw [buildTreeLoop_stop hsize] at hsim
    rcases hsim with ⟨s', is', xs', hrun, hq'⟩ | ⟨-, hout⟩
    · have hnil : xs' = [] := List.map_eq_nil_iff.mp (hq'.value.trans hempty)
      have hchain := hq'.chain
      have hlen := hchain.length_eq
      rw [hnil, List.length_nil, List.length_eq_zero_iff] at hlen
      rw [hlen] at hchain
      refine ⟨hempty, ?_⟩
      rw [hrun, run_bind, if_pos hchain.1]
      rfl
    · exact absurd hout hq.not_outgrown
  · right
    obtain ⟨t, rest, hcons⟩ := List.exists_cons_of_ne_nil
      (buildTreeLoop_ne_nil hempty v.2.length v.1)
    refine ⟨(Codec.buildTreeLoop v.2.length v.1 v.2).1, t,
      buildTree_of_cons (Prod.ext rfl hcons), ?_⟩
    rcases hsim with ⟨s', is', xs', hrun, hq'⟩ | ⟨hfull, hout⟩
    · refine Or.inl ⟨hq'.not_outgrown, ?_⟩
      have hvalue := hq'.value
      rw [hcons] at hvalue
      obtain ⟨x, xs, rfl, hxt, -⟩ := List.map_eq_cons_iff.mp hvalue
      obtain ⟨i, is, rfl⟩ : ∃ i is, is' = i :: is := by
        refine List.exists_cons_of_length_pos ?_
        rw [hq'.chain.length_eq]
        exact Nat.succ_pos _
      obtain ⟨hp, c, hc, hx, -⟩ := chain_cons.mp hq'.chain
      refine ⟨s'.1, x.1, ?_, hq'.nodes_eq, ?_⟩
      · rw [hrun, run_bind, if_neg (by rw [hp]; simp), hp, entry_eq hc, run_bind, hx]
        rfl
      · rw [← hxt]
        exact hq'.held x List.mem_cons_self
    · exact Or.inr ⟨hout, hfull.bind _⟩

/-! ## Both -/

/-- `build_queue` and then `build_tree`, as `huffman_compress` calls them. -/
def construct (nodes : List NodeCell) (entries : List QueueCell) (data : List UInt8) :
    Except Stop (Memory × Option Nat) := do
  let q ← buildQueue { treeMemory := nodes, queueMemory := entries } data
  buildTree q.1 q.2

theorem buildQueueStep_ne_nil (v : Huffman × List Node) (byte : UInt8) :
    (Codec.buildQueueStep v byte).2 ≠ [] := by
  cases hc : Codec.queueCount byte v.2 with
  | some q =>
    rw [buildQueueStep_found hc]
    rintro rfl
    cases hv : v.2 with
    | nil => rw [hv] at hc; cases hc
    | cons n q =>
      rw [hv] at hc
      cases n with
      | null => simp [Codec.queueCount] at hc
      | mk l r w b =>
        rw [Codec.queueCount] at hc
        split at hc
        · cases hc
        · simp at hc
  | none =>
    rw [buildQueueStep_new hc]
    intro hnil
    have hlen := congrArg List.length hnil
    rw [Codec.queueAddElement, Link.queueInsert_eq, insertTies_length] at hlen
    cases hlen

theorem buildQueue_ne_nil {data : List UInt8} (h : data ≠ []) :
    (Codec.buildQueue {} data).2 ≠ [] := by
  obtain ⟨front, b, rfl⟩ := List.eq_nil_or_concat' data |>.resolve_left h
  unfold Codec.buildQueue
  rw [List.foldl_append]
  exact buildQueueStep_ne_nil _ b

theorem counting_init (nodes : List NodeCell) (entries : List QueueCell) :
    Counting nodes.length entries.length ({ treeMemory := nodes, queueMemory := entries }, none)
      ({}, []) := by
  refine ⟨[], [], ?_, by simp, List.nodup_nil⟩
  exact {
    tree := rfl
    treeCount := rfl
    queue := rfl
    queueCount := rfl
    nodes_eq := rfl
    entries_eq := rfl
    tree_le := Nat.zero_le _
    queue_le := Nat.zero_le _
    chain := Chain.nil
    nodup := List.nodup_nil
    below := by simp
    held := by simp
    value := rfl }

/-- The tree of a block, with pools of any size and any contents: the failed assertion for an empty
    block, else the tree of the value program, or a pool fault if that program takes more nodes or
    entries than there are. -/
theorem construct_sim (nodes : List NodeCell) (entries : List QueueCell) (data : List UInt8) :
    (data = [] ∧ construct nodes entries data = .error (.fault .assertion)) ∨
    ∃ h t, Codec.buildTree (Codec.buildQueue {} data).1 (Codec.buildQueue {} data).2 = .ok (h, t) ∧
      (¬ Outgrown nodes.length entries.length h ∧
        (∃ m i, construct nodes entries data = .ok (m, some i) ∧
          m.treeMemory.length = nodes.length ∧ Holds (· < m.treePtr) m.treeMemory (some i) t) ∨
      Outgrown nodes.length entries.length h ∧ Full (construct nodes entries data)) := by
  unfold construct buildQueue
  rcases buildQueue_sim (counting_init nodes entries) data with
    ⟨s, hrun, is, xs, hq, -, -⟩ | ⟨hfull, hout⟩
  · rw [hrun, run_bind]
    rcases buildTree_sim hq with ⟨hempty, htree⟩ | hsim
    · refine Or.inl ⟨?_, htree⟩
      by_contra hne
      exact buildQueue_ne_nil hne hempty
    · exact Or.inr hsim
  · right
    have hne : (Codec.buildQueue {} data).2 ≠ [] := by
      refine buildQueue_ne_nil ?_
      rintro rfl
      exact hout.elim (Nat.not_lt_zero _) (Nat.not_lt_zero _)
    obtain ⟨t, rest, hcons⟩ := List.exists_cons_of_ne_nil (buildTreeLoop_ne_nil hne
      (Codec.buildQueue {} data).2.length (Codec.buildQueue {} data).1)
    exact ⟨_, t, buildTree_of_cons (Prod.ext rfl hcons),
      Or.inr ⟨outgrown_buildTreeLoop hout _ _, hfull.bind _⟩⟩

end DistHuffman.Heap
