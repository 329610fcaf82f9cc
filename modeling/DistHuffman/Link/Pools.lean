/-
  Link: the pools of `huffman.c`. `Holds` says which tree a pointer into `tree_memory` stands for,
  and a queue of such pointers is a `Chain` in `queue_memory`.

  `queueAddElement_spec` is the surgery on the queue: the new entry is linked in behind the entries
  that are not heavier, and no record outside the queue changes. `sizeLoop_spec`, `queuePop2_spec`
  and `countLoop_spec` are the other walks over a queue.
-/
import DistHuffman.Codec.Heap
import DistHuffman.Link.Build

namespace DistHuffman.Heap

open DistHuffman.Lib
open DistHuffman.Codec (Fault Node Huffman)

theorem run_bind {α β : Type} (a : α) (f : α → Except Stop β) : (Except.ok a >>= f) = f a := rfl

/-! ## Records -/

section Records

variable {m : Memory} {i : Nat}

theorem node_eq {c : NodeCell} (h : m.treeMemory[i]? = some c) : m.node (some i) = .ok c :=
  fetch_eq h

theorem entry_eq {c : QueueCell} (h : m.queueMemory[i]? = some c) : m.entry (some i) = .ok c :=
  fetch_eq h

theorem setNode_eq {c : NodeCell} (h : m.treeMemory[i]? = some c) (f : NodeCell → NodeCell) :
    m.setNode (some i) f = .ok { m with treeMemory := m.treeMemory.set i (f c) } := by
  unfold Memory.setNode
  rw [amend_eq h]
  rfl

theorem setEntry_eq {c : QueueCell} (h : m.queueMemory[i]? = some c) (f : QueueCell → QueueCell) :
    m.setEntry (some i) f = .ok { m with queueMemory := m.queueMemory.set i (f c) } := by
  unfold Memory.setEntry
  rw [amend_eq h]
  rfl

theorem exists_cell {γ : Type} {mem : List γ} (h : i < mem.length) : ∃ c, mem[i]? = some c :=
  ⟨mem[i], List.getElem?_eq_getElem h⟩

/-- The memory after `tree_alloc`, where `mem` are the tree records then. -/
def grown (m : Memory) (mem : List NodeCell) : Memory :=
  { m with
    treeMemory := mem
    treePtr := m.treePtr + 1
    allocatedTreeSize := m.allocatedTreeSize + 1 }

/-- The same for `queue_alloc` and the queue records. -/
def added (m : Memory) (mem : List QueueCell) : Memory :=
  { m with
    queueMemory := mem
    queuePtr := m.queuePtr + 1
    allocatedQueueSize := m.allocatedQueueSize + 1 }

theorem grown_setNode {mem : List NodeCell} {c : NodeCell} (h : mem[i]? = some c)
    (f : NodeCell → NodeCell) :
    (grown m mem).setNode (some i) f = .ok (grown m (mem.set i (f c))) :=
  setNode_eq (m := grown m mem) h f

theorem added_setEntry {mem : List QueueCell} {c : QueueCell} (h : mem[i]? = some c)
    (f : QueueCell → QueueCell) :
    (added m mem).setEntry (some i) f = .ok (added m (mem.set i (f c))) :=
  setEntry_eq (m := added m mem) h f

theorem treeAlloc_eq (h : m.treePtr < m.treeMemory.length) (weight : UInt16) :
    treeAlloc m weight =
      .ok (grown m (m.treeMemory.set m.treePtr ⟨none, none, weight, 0⟩), some m.treePtr) := by
  obtain ⟨c, hc⟩ := exists_cell h
  unfold treeAlloc
  dsimp only
  rw [setNode_eq (m := { m with treePtr := m.treePtr + 1 }) hc]
  rfl

theorem treeAlloc_full (h : m.treeMemory.length ≤ m.treePtr) (weight : UInt16) :
    treeAlloc m weight = .error (.fault .treePool) := by
  unfold treeAlloc Memory.setNode
  dsimp only
  rw [amend_outside h]
  rfl

theorem queueAlloc_eq (h : m.queuePtr < m.queueMemory.length) (el : Option Nat) :
    queueAlloc m el = .ok (added m (m.queueMemory.set m.queuePtr ⟨none, el⟩), some m.queuePtr) := by
  obtain ⟨c, hc⟩ := exists_cell h
  unfold queueAlloc
  dsimp only
  rw [setEntry_eq (m := { m with queuePtr := m.queuePtr + 1 }) hc]
  rfl

theorem queueAlloc_full (h : m.queueMemory.length ≤ m.queuePtr) (el : Option Nat) :
    queueAlloc m el = .error (.fault .queuePool) := by
  unfold queueAlloc Memory.setEntry
  dsimp only
  rw [amend_outside h]
  rfl

end Records

/-! ## Trees in memory -/

/-- `p` points at the tree `t`, whose nodes all lie at places with `P`. -/
def Holds (P : Nat → Prop) (mem : List NodeCell) : Option Nat → Node → Prop
  | p, .null => p = none
  | p, .mk l r w b => ∃ i, p = some i ∧ P i ∧ ∃ pl pr, mem[i]? = some ⟨pl, pr, w, b⟩ ∧
      Holds P mem pl l ∧ Holds P mem pr r

variable {P Q : Nat → Prop} {mem mem' : List NodeCell} {p : Option Nat} {t : Node}

theorem Holds.congr (h : Holds P mem p t) (hP : ∀ i, P i → Q i)
    (hmem : ∀ i, P i → mem'[i]? = mem[i]?) : Holds Q mem' p t := by
  induction t generalizing p with
  | null => exact h
  | mk l r w b ihl ihr =>
    obtain ⟨i, hp, hi, pl, pr, hc, hl, hr⟩ := h
    refine ⟨i, hp, hP i hi, pl, pr, ?_, ihl hl, ihr hr⟩
    rw [hmem i hi, hc]

/-- A pointer that is not `NULL` points at a record with the fields of the tree. -/
theorem Holds.cell {i : Nat} (h : Holds P mem (some i) t) :
    P i ∧ ∃ c, mem[i]? = some c ∧ c.weight = t.weight ∧ c.byte = t.byte := by
  cases t with
  | null => cases h
  | mk l r w b =>
    obtain ⟨j, hj, hP, pl, pr, hc, -, -⟩ := h
    cases hj
    exact ⟨hP, _, hc, rfl, rfl⟩

/-! ## The queue -/

/-- An entry of the queue and what it points at: the place of a node and the tree there. -/
def Carries (c : QueueCell) (x : Nat × Node) : Prop := c.el = some x.1

/-- The chain only knows where the nodes are, not what they hold. -/
theorem same_places {mem : List QueueCell} {p : Option Nat} {is : List Nat}
    {xs xs' : List (Nat × Node)} (h : Chain QueueCell.next Carries mem p is xs)
    (hfst : xs'.map Prod.fst = xs.map Prod.fst) : Chain QueueCell.next Carries mem p is xs' := by
  induction is generalizing p xs xs' with
  | nil =>
    rw [h.2] at hfst
    exact ⟨h.1, List.map_eq_nil_iff.mp hfst⟩
  | cons i is ih =>
    obtain ⟨hp, c, x, ys, hc, hx, rfl, hrest⟩ := h
    obtain ⟨x', ys', rfl, hx', hys⟩ := List.map_eq_cons_iff.mp hfst
    exact chain_cons.mpr ⟨hp, c, hc, hx.trans (congrArg some hx'.symm), ih hrest hys⟩

/-- The weight of a queued tree. -/
def key (x : Nat × Node) : UInt16 := x.2.weight

theorem heavier_eq {m : Memory} {i : Nat} {c : QueueCell} {x e : Nat × Node}
    (hc : m.queueMemory[i]? = some c) (hx : Carries c x)
    (hxt : Holds P m.treeMemory (some x.1) x.2) (het : Holds Q m.treeMemory (some e.1) e.2) :
    heavier m (some i) (some e.1) = .ok (decide (key e < key x)) := by
  obtain ⟨-, a, ha, haw, -⟩ := hxt.cell
  obtain ⟨-, b, hb, hbw, -⟩ := het.cell
  unfold heavier
  rw [entry_eq hc, run_bind, hx, node_eq ha, run_bind, node_eq hb, run_bind, haw, hbw]
  rfl

/-- The entries `is'` of a queue are those of `is` and `new`, and no other has been written. -/
structure Entered (mem mem' : List QueueCell) (new : Nat) (is is' : List Nat) : Prop where
  perm : is'.Perm (new :: is)
  length : mem'.length = mem.length
  frame : ∀ j, j ∉ new :: is → mem'[j]? = mem[j]?

section Add

variable {m : Memory} {new curr : Nat} {c : QueueCell} {e : Nat × Node}

/-- The end of the queue: the new entry goes there. -/
theorem addLoop_last (hc : m.queueMemory[curr]? = some c) (hnext : c.next = none) (fuel : Nat) :
    addLoop (fuel + 1) m (some new) (some curr) (some e.1) =
      .ok { m with queueMemory := m.queueMemory.set curr { c with next := some new } } := by
  rw [addLoop, entry_eq hc, run_bind, if_pos hnext, setEntry_eq hc]

section Compare

variable {j : Nat} {d : QueueCell} {y : Nat × Node} (hc : m.queueMemory[curr]? = some c)
  (hnext : c.next = some j) (hd : m.queueMemory[j]? = some d) (hy : Carries d y)
  (hyt : Holds P m.treeMemory (some y.1) y.2) (het : Holds Q m.treeMemory (some e.1) e.2)

include hc hnext hd hy hyt het in
/-- A heavier entry: the new one goes in front of it. -/
theorem addLoop_before (hlt : key e < key y) (hne : curr ≠ new)
    (hnew : m.queueMemory[new]? = some ⟨none, some e.1⟩) (fuel : Nat) :
    addLoop (fuel + 1) m (some new) (some curr) (some e.1) =
      .ok { m with queueMemory :=
        (m.queueMemory.set new ⟨some j, some e.1⟩).set curr { c with next := some new } } := by
  have hc' : (m.queueMemory.set new ⟨some j, some e.1⟩)[curr]? = some c := by
    rw [getElem?_set_off (Ne.symm hne), hc]
  rw [addLoop, entry_eq hc, run_bind, if_neg (by simp [hnext]), hnext, heavier_eq hd hy hyt het,
    run_bind, if_pos (decide_eq_true hlt), setEntry_eq hnew, run_bind, setEntry_eq hc']

include hc hnext hd hy hyt het in
theorem addLoop_past (hlt : ¬ key e < key y) (fuel : Nat) :
    addLoop (fuel + 1) m (some new) (some curr) (some e.1) =
      addLoop fuel m (some new) (some j) (some e.1) := by
  rw [addLoop, entry_eq hc, run_bind, if_neg (by simp [hnext]), hnext, heavier_eq hd hy hyt het,
    run_bind, if_neg (by simpa using hlt)]

end Compare

theorem nodup_two {is : List Nat} (h : (new :: curr :: is).Nodup) :
    curr ≠ new ∧ curr ∉ is ∧ new ∉ is := by
  obtain ⟨hnew, hrest⟩ := List.nodup_cons.mp h
  exact ⟨fun heq => hnew (heq ▸ List.mem_cons_self), (List.nodup_cons.mp hrest).1,
    fun hmem => hnew (List.mem_cons_of_mem _ hmem)⟩

/-- The loop of `queue_add_element` on a queue that begins at `curr`: the new entry goes behind
    `curr`, in its place among the rest. -/
theorem addLoop_spec (fuel : Nat) {is : List Nat} {x : Nat × Node} {xs : List (Nat × Node)}
    (hchain : Chain QueueCell.next Carries m.queueMemory (some curr) (curr :: is) (x :: xs))
    (hnd : (new :: curr :: is).Nodup) (hnew : m.queueMemory[new]? = some ⟨none, some e.1⟩)
    (hnodes : ∀ y ∈ xs, Holds P m.treeMemory (some y.1) y.2)
    (hel : Holds Q m.treeMemory (some e.1) e.2) (hfuel : is.length < fuel) :
    ∃ mem is', addLoop fuel m (some new) (some curr) (some e.1) =
        .ok { m with queueMemory := mem } ∧
      Chain QueueCell.next Carries mem (some curr) (curr :: is') (x :: insertTies key e xs) ∧
      Entered m.queueMemory mem new (curr :: is) (curr :: is') := by
  obtain ⟨fuel, rfl⟩ : ∃ k, fuel = k + 1 := ⟨fuel - 1, by omega⟩
  induction is generalizing fuel curr x xs with
  | nil =>
    obtain ⟨hcn, -, -⟩ := nodup_two hnd
    obtain ⟨-, c, hc, hcarry, hnext, rfl⟩ := chain_cons.mp hchain
    have hlast : Chain QueueCell.next Carries m.queueMemory (some new) [new] [e] :=
      chain_cons.mpr ⟨rfl, _, hnew, rfl, Chain.nil⟩
    refine ⟨_, [new], addLoop_last hc hnext fuel, ?_, .swap _ _ _, List.length_set, fun j hj => ?_⟩
    · exact hlast.link (by simpa using hcn) hc rfl hcarry
    · exact getElem?_set_off (fun heq => hj (by simp [heq])) _
  | cons j is ih =>
    obtain ⟨hcn, hcj, hnj⟩ := nodup_two hnd
    obtain ⟨-, c, hc, hcarry, hrest⟩ := chain_cons.mp hchain
    obtain ⟨hnext, d, y, ys, hd, hy, rfl, htail⟩ := hrest
    have hyt := hnodes y List.mem_cons_self
    have hfrom : Chain QueueCell.next Carries m.queueMemory (some j) (j :: is) (y :: ys) :=
      chain_cons.mpr ⟨rfl, d, hd, hy, htail⟩
    by_cases hlt : key e < key y
    · refine ⟨_, new :: j :: is, addLoop_before hc hnext hd hy hyt hel hlt hcn hnew fuel, ?_,
        .swap _ _ _, by rw [List.length_set, List.length_set], fun k hk => ?_⟩
      · have hc' : (m.queueMemory.set new ⟨some j, some e.1⟩)[curr]? = some c := by
          rw [getElem?_set_off (Ne.symm hcn), hc]
        rw [insertTies, if_pos hlt]
        refine Chain.link (hfrom.link hnj hnew rfl rfl) ?_ hc' rfl hcarry
        simpa [hcn] using hcj
      · rw [getElem?_set_off (fun heq => hk (by simp [heq])),
          getElem?_set_off (fun heq => hk (by simp [heq]))]
    · obtain ⟨fuel, rfl⟩ : ∃ k, fuel = k + 1 := ⟨fuel - 1, by simp at hfuel; omega⟩
      have hnd' : (new :: j :: is).Nodup :=
        List.nodup_cons.mpr ⟨hnj, (List.nodup_cons.mp (List.nodup_cons.mp hnd).2).2⟩
      obtain ⟨mem, is', hrun, hch, hperm, hlen, hframe⟩ := ih hfrom hnd'
        (fun z hz => hnodes z (List.mem_cons_of_mem _ hz)) fuel (Nat.lt_of_succ_lt_succ hfuel)
      refine ⟨mem, j :: is', (addLoop_past hc hnext hd hy hyt hel hlt _).trans hrun, ?_,
        (hperm.cons curr).trans (.swap new curr _), hlen, fun k hk => hframe k fun hmem => hk ?_⟩
      · rw [insertTies, if_neg hlt]
        refine chain_cons.mpr ⟨rfl, c, ?_, hcarry, hnext ▸ hch⟩
        rw [hframe curr (by simpa [hcn] using hcj), hc]
      · exact (List.mem_cons.mp hmem).elim (fun h => h ▸ List.mem_cons_self) fun h =>
          List.mem_cons_of_mem _ (List.mem_cons_of_mem _ h)

end Add

/-- `queue_add_element` with room in the pool. -/
theorem queueAddElement_spec {m : Memory} {head : Option Nat} {is : List Nat} {e : Nat × Node}
    {xs : List (Nat × Node)}
    (hchain : Chain QueueCell.next Carries m.queueMemory head is xs) (hnd : is.Nodup)
    (hbelow : ∀ i ∈ is, i < m.queuePtr) (hroom : m.queuePtr < m.queueMemory.length)
    (hnodes : ∀ y ∈ xs, Holds P m.treeMemory (some y.1) y.2)
    (hel : Holds Q m.treeMemory (some e.1) e.2) :
    ∃ mem head' is', queueAddElement m head (some e.1) = .ok (added m mem, head') ∧
      Chain QueueCell.next Carries mem head' is' (insertTies key e xs) ∧
      Entered m.queueMemory mem m.queuePtr is is' := by
  obtain ⟨c0, hc0⟩ := exists_cell hroom
  have hfresh : m.queuePtr ∉ is := fun h => absurd (hbelow _ h) (Nat.lt_irrefl _)
  have hnew := getElem?_set_at hc0 (⟨none, some e.1⟩ : QueueCell)
  have hold := hchain.set_off hfresh (⟨none, some e.1⟩ : QueueCell)
  have hoff : ∀ j, j ∉ m.queuePtr :: is →
      (m.queueMemory.set m.queuePtr ⟨none, some e.1⟩)[j]? = m.queueMemory[j]? := fun j hj =>
    getElem?_set_off (fun heq => hj (by simp [heq])) _
  unfold queueAddElement
  rw [queueAlloc_eq hroom, run_bind]
  cases head with
  | none =>
    obtain ⟨rfl, rfl⟩ := hchain.of_none
    refine ⟨_, some m.queuePtr, [m.queuePtr], rfl, ?_, .refl _, List.length_set, hoff⟩
    exact chain_cons.mpr ⟨rfl, _, hnew, rfl, Chain.nil⟩
  | some i =>
    obtain ⟨c, x, is, xs, rfl, rfl, hc, hx, htail⟩ := hold.of_some
    have hheavy := heavier_eq (m := added m (m.queueMemory.set m.queuePtr ⟨none, some e.1⟩)) hc hx
      (hnodes x List.mem_cons_self) hel
    rw [if_neg (by simp), hheavy, run_bind]
    by_cases hlt : key e < key x
    · refine ⟨(m.queueMemory.set m.queuePtr ⟨none, some e.1⟩).set m.queuePtr ⟨some i, some e.1⟩,
        some m.queuePtr, m.queuePtr :: i :: is, ?_, ?_, .refl _, ?_, fun j hj => ?_⟩
      · rw [if_pos (decide_eq_true hlt), added_setEntry hnew]
        rfl
      · rw [insertTies, if_pos hlt]
        exact hold.link hfresh hnew rfl rfl
      · rw [List.length_set, List.length_set]
      · rw [getElem?_set_off (fun heq => hj (by simp [heq])), hoff j hj]
    · have hlen : (i :: is).length ≤ m.queuePtr := length_le_of_nodup_lt hnd hbelow
      rw [List.length_cons] at hlen
      obtain ⟨mem, is', hrun, hch, hperm, hlen', hframe⟩ := addLoop_spec
        (m := added m (m.queueMemory.set m.queuePtr ⟨none, some e.1⟩))
        (m.queueMemory.set m.queuePtr ⟨none, some e.1⟩).length
        hold (List.nodup_cons.mpr ⟨hfresh, hnd⟩) hnew
        (fun y hy => hnodes y (List.mem_cons_of_mem _ hy)) hel (by rw [List.length_set]; omega)
      refine ⟨mem, some i, i :: is', ?_, ?_, hperm, hlen'.trans List.length_set, fun j hj => ?_⟩
      · rw [if_neg (by simpa using hlt)]
        exact congrArg (· >>= fun m => .ok (m, some i)) hrun
      · rw [insertTies, if_neg hlt]
        exact hch
      · exact (hframe j hj).trans (hoff j hj)

theorem queueAddElement_full {m : Memory} (h : m.queueMemory.length ≤ m.queuePtr)
    (head el : Option Nat) : queueAddElement m head el = .error (.fault .queuePool) := by
  unfold queueAddElement
  rw [queueAlloc_full h]
  rfl

/-! ## Other walks over a queue -/

theorem sizeLoop_spec {m : Memory} {p : Option Nat} {is : List Nat} {xs : List (Nat × Node)}
    (h : Chain QueueCell.next Carries m.queueMemory p is xs) {fuel : Nat} (hfuel : is.length < fuel)
    (size : UInt16) : sizeLoop m fuel p size = .ok (size + UInt16.ofNat is.length) := by
  induction is generalizing p xs fuel size with
  | nil =>
    obtain ⟨fuel, rfl⟩ : ∃ k, fuel = k + 1 := ⟨fuel - 1, by omega⟩
    rw [sizeLoop, if_pos h.1, List.length_nil]
    exact congrArg Except.ok (UInt16.add_zero size).symm
  | cons i is ih =>
    obtain ⟨fuel, rfl⟩ : ∃ k, fuel = k + 1 := ⟨fuel - 1, by omega⟩
    obtain ⟨rfl, c, x, ys, hc, -, -, hrest⟩ := h
    rw [sizeLoop, if_neg (by simp), entry_eq hc, run_bind,
      ih hrest (by rw [List.length_cons] at hfuel; omega), List.length_cons, UInt16.ofNat_add,
      UInt16.add_comm (UInt16.ofNat is.length), UInt16.add_assoc]
    rfl

theorem queueSize_spec {m : Memory} {p : Option Nat} {is : List Nat} {xs : List (Nat × Node)}
    (h : Chain QueueCell.next Carries m.queueMemory p is xs) (hnd : is.Nodup) :
    queueSize m p = .ok (UInt16.ofNat xs.length) := by
  unfold queueSize
  rw [sizeLoop_spec h (Nat.lt_succ_of_le (h.length_le hnd)), h.length_eq, UInt16.zero_add]

theorem queuePop2_spec {m : Memory} {p : Option Nat} {i j : Nat} {is : List Nat} {x y : Nat × Node}
    {xs : List (Nat × Node)}
    (h : Chain QueueCell.next Carries m.queueMemory p (i :: j :: is) (x :: y :: xs)) :
    ∃ rest, queuePop2 m p = .ok (rest, some x.1, some y.1) ∧
      Chain QueueCell.next Carries m.queueMemory rest is xs := by
  obtain ⟨rfl, c, hc, hx, htail⟩ := chain_cons.mp h
  obtain ⟨hnext, d, hd, hy, hrest⟩ := chain_cons.mp htail
  refine ⟨d.next, ?_, hrest⟩
  unfold queuePop2
  rw [entry_eq hc, run_bind, if_neg (by simp [hnext]), hnext, entry_eq hd, run_bind, hx, hy]
  rfl

/-! ## `queue_remove_element` -/

section Remove

variable {m : Memory} {i j k : Nat} {c d : QueueCell}

/-- The head is compared first, and given back when it is what is to go. -/
theorem queueRemove_head (hc : m.queueMemory[i]? = some c) (hj : c.el = some j) (fuel : Nat) :
    queueRemoveElement (fuel + 1) m (some i) (some j) = .ok (m, some i) := by
  unfold queueRemoveElement
  rw [removeLoop, if_neg (by simp), entry_eq hc, run_bind, if_pos hj.symm]
  rfl

/-- Any other element: the loop goes on at the second entry. -/
theorem queueRemove_next (hc : m.queueMemory[i]? = some c) (hj : some j ≠ c.el) (fuel : Nat) :
    queueRemoveElement (fuel + 1) m (some i) (some j) =
      removeLoop (some i) (some j) fuel m (some i) c.next := by
  unfold queueRemoveElement
  rw [removeLoop, if_neg (by simp), entry_eq hc, run_bind, if_neg hj, run_bind]

/-- And there it stays, if the second entry is not the one either. -/
theorem removeLoop_endless (hc : m.queueMemory[i]? = some c) (hnext : c.next = some k)
    (hd : m.queueMemory[k]? = some d) (hj : some j ≠ d.el) (fuel : Nat) (prev : Option Nat) :
    removeLoop (some i) (some j) fuel m prev (some k) = .error .endless := by
  induction fuel generalizing prev with
  | zero => rfl
  | succ fuel ih =>
    rw [removeLoop, if_neg (by simp), entry_eq hd, run_bind, if_neg hj, entry_eq hc, run_bind,
      hnext, ih]

/-- The second entry is unlinked. -/
theorem removeLoop_second (hc : m.queueMemory[i]? = some c) (hd : m.queueMemory[k]? = some d)
    (hj : d.el = some j) (fuel : Nat) :
    removeLoop (some i) (some j) (fuel + 1) m (some i) (some k) =
      .ok ({ m with queueMemory := m.queueMemory.set i { c with next := d.next } }, some i) := by
  rw [removeLoop, if_neg (by simp), entry_eq hd, run_bind, if_pos hj.symm, if_neg (by simp),
    setEntry_eq hc]
  rfl

/-- A queue that still begins with the entry of `j` has not lost it. -/
theorem head_stays (hc : m.queueMemory[i]? = some c) (hj : c.el = some j) {is : List Nat}
    {xs : List (Nat × Node)} :
    ¬ Chain QueueCell.next Carries m.queueMemory (some i) is (xs.filter (·.1 ≠ j)) := by
  intro hchain
  obtain ⟨c', y, -, ys, -, hys, hc', hy, -⟩ := hchain.of_some
  have hmem : y ∈ xs.filter (·.1 ≠ j) := hys ▸ List.mem_cons_self
  cases hc.symm.trans hc'
  have hyj : y.1 = j := Option.some.inj (hy.symm.trans hj)
  simp [hyj] at hmem

theorem filter_second {x y : Nat × Node} {ys : List (Nat × Node)} (hx : x.1 ≠ j) (hy : y.1 = j)
    (hnd : ((y :: ys).map Prod.fst).Nodup) : (x :: y :: ys).filter (·.1 ≠ j) = x :: ys := by
  rw [List.map_cons, List.nodup_cons, hy] at hnd
  rw [List.filter_cons_of_pos (by simpa using hx), List.filter_cons_of_neg (by simpa using hy),
    List.filter_eq_self.mpr]
  intro z hz
  have hzj : z.1 ≠ j := fun heq => hnd.1 (heq ▸ List.mem_map_of_mem hz)
  simpa using hzj

/-- What comes of it for an element of the queue: the first one is where it stops, the second one is
    unlinked, and for any other the loop does not end. -/
theorem queueRemove_cases {is : List Nat} {xs : List (Nat × Node)}
    (h : Chain QueueCell.next Carries m.queueMemory (some i) is xs) (hnd : is.Nodup)
    (hfst : (xs.map Prod.fst).Nodup) (hj : j ∈ xs.map Prod.fst) :
    ((xs.map Prod.fst)[0]? = some j ∧ ∃ c, m.queueMemory[i]? = some c ∧ c.el = some j) ∨
    ((xs.map Prod.fst)[1]? = some j ∧ ∃ m' is',
      queueRemoveElement 2 m (some i) (some j) = .ok (m', some i) ∧
        Chain QueueCell.next Carries m'.queueMemory (some i) is' (xs.filter (·.1 ≠ j))) ∨
    (j ∉ (xs.take 2).map Prod.fst ∧
      ∀ fuel, queueRemoveElement fuel m (some i) (some j) = .error .endless) := by
  obtain ⟨c, x, is, xs, rfl, rfl, hc, hx, hrest⟩ := h.of_some
  by_cases hxj : x.1 = j
  · exact Or.inl ⟨congrArg some hxj, c, hc, hx.trans (congrArg some hxj)⟩
  right
  obtain ⟨y, ys, rfl⟩ : ∃ y ys, xs = y :: ys := by
    cases xs with
    | nil => exact absurd (List.mem_singleton.mp hj).symm hxj
    | cons y ys => exact ⟨y, ys, rfl⟩
  obtain ⟨k, is', rfl⟩ : ∃ k is', is = k :: is' := by
    cases is with
    | nil => cases hrest.2
    | cons k is' => exact ⟨k, is', rfl⟩
  obtain ⟨hk, d, hd, hy, htail⟩ := chain_cons.mp hrest
  have hother : ∀ z : Nat × Node, z.1 ≠ j → some j ≠ some z.1 := fun z hz heq =>
    hz (Option.some.inj heq).symm
  have hnext := queueRemove_next hc (hx ▸ hother x hxj)
  rw [hk] at hnext
  by_cases hyj : y.1 = j
  · left
    refine ⟨congrArg some hyj, _, i :: is',
      (hnext 1).trans (removeLoop_second hc hd (hy.trans (congrArg some hyj)) 0), ?_⟩
    rw [filter_second hxj hyj (List.nodup_cons.mp hfst).2]
    have hi := fun hmem => (List.nodup_cons.mp hnd).1 (List.mem_cons_of_mem k hmem)
    exact htail.link hi hc rfl hx
  · right
    refine ⟨fun hmem => ?_, fun fuel => ?_⟩
    · rcases List.mem_cons.mp hmem with hfirst | hsecond
      · exact hxj hfirst.symm
      · exact hyj (List.mem_singleton.mp hsecond).symm
    · cases fuel with
      | zero => rfl
      | succ fuel =>
        exact (hnext fuel).trans (removeLoop_endless hc hk hd (hy ▸ hother y hyj) fuel _)

theorem mem_take_two {l : List Nat} {n : Nat} (hn : n < 2) (h : l[n]? = some j) :
    j ∈ l.take 2 :=
  List.mem_of_getElem? ((List.getElem?_take_of_lt hn).trans h)

/-- **`queue_remove_element`** steps from every entry to `head->next`, so of the elements of a
    queue it ends for the first two, and takes only the second one out. -/
theorem queueRemove_iff (m : Memory) (head : Option Nat) (is : List Nat) (xs : List (Nat × Node))
    (j : Nat) (h : Chain QueueCell.next Carries m.queueMemory head is xs) (hnd : is.Nodup)
    (hfst : (xs.map Prod.fst).Nodup) (hj : j ∈ xs.map Prod.fst) :
    ((∃ fuel r, queueRemoveElement fuel m head (some j) = .ok r) ↔
      j ∈ (xs.take 2).map Prod.fst) ∧
    ((∃ fuel m' head' is', queueRemoveElement fuel m head (some j) = .ok (m', head') ∧
        Chain QueueCell.next Carries m'.queueMemory head' is' (xs.filter (·.1 ≠ j))) ↔
      (xs.map Prod.fst)[1]? = some j) := by
  cases head with
  | none =>
    obtain ⟨-, rfl⟩ := h.of_none
    cases hj
  | some i =>
    rw [List.map_take]
    rcases queueRemove_cases h hnd hfst hj with
      ⟨hfirst, c, hc, hel⟩ | ⟨hsecond, m', is', hrun, hchain⟩ | ⟨hno, hendless⟩
    · refine ⟨iff_of_true ⟨1, _, queueRemove_head hc hel 0⟩ (mem_take_two (by decide) hfirst),
        iff_of_false ?_ fun hsecond => ?_⟩
      · rintro ⟨fuel, m', head', is', hrun, hchain⟩
        cases fuel with
        | zero => cases hrun
        | succ fuel =>
          cases (queueRemove_head hc hel fuel).symm.trans hrun
          exact head_stays hc hel hchain
      · have hlt := List.length_pos_of_mem hj
        exact absurd ((List.getElem?_inj hlt hfst).mp (hfirst.trans hsecond.symm)) (by decide)
    · exact ⟨iff_of_true ⟨2, _, hrun⟩ (mem_take_two (by decide) hsecond),
        iff_of_true ⟨2, m', some i, is', hrun, hchain⟩ hsecond⟩
    · rw [List.map_take] at hno
      refine ⟨iff_of_false ?_ hno, iff_of_false ?_ fun hsecond => ?_⟩
      · rintro ⟨fuel, r, hrun⟩
        cases (hendless fuel).symm.trans hrun
      · rintro ⟨fuel, m', head', is', hrun, -⟩
        cases (hendless fuel).symm.trans hrun
      · exact hno (mem_take_two (by decide) hsecond)

/-- The queue of two bytes, and its second entry. -/
theorem queueRemove_second :
    ∃ fuel r, queueRemoveElement fuel
      { treeMemory := [], queueMemory := [⟨some 1, some 0⟩, ⟨none, some 1⟩] } (some 0) (some 1) =
        .ok r := by
  refine (queueRemove_iff _ _ [0, 1] [(0, .null), (1, .null)] 1 ?_ (by decide) (by decide)
    (by decide)).1.mpr (by decide)
  exact chain_cons.mpr ⟨rfl, _, rfl, rfl, chain_cons.mpr ⟨rfl, _, rfl, rfl, .nil⟩⟩

end Remove

/-- A queued byte: a record without children. -/
def LeafAt (mem : List NodeCell) (x : Nat × Node) : Prop :=
  ∃ w b, x.2 = .mk .null .null w b ∧ mem[x.1]? = some ⟨none, none, w, b⟩

theorem LeafAt.holds {x : Nat × Node} (h : LeafAt mem x) (hP : P x.1) :
    Holds P mem (some x.1) x.2 := by
  obtain ⟨w, b, ht, hc⟩ := h
  rw [ht]
  exact ⟨x.1, rfl, hP, none, none, hc, rfl, rfl⟩

theorem LeafAt.congr {x : Nat × Node} (h : LeafAt mem x) (hmem : mem'[x.1]? = mem[x.1]?) :
    LeafAt mem' x := by
  obtain ⟨w, b, ht, hc⟩ := h
  exact ⟨w, b, ht, hmem.trans hc⟩

/-- The loop of `build_queue` over the queue: a byte that is there is counted in its record, and in
    no other. -/
theorem countLoop_spec {m : Memory} {p : Option Nat} {is : List Nat} {xs : List (Nat × Node)}
    (byte : UInt8) (h : Chain QueueCell.next Carries m.queueMemory p is xs)
    (hleaf : ∀ x ∈ xs, LeafAt m.treeMemory x) (hnd : (xs.map Prod.fst).Nodup) {fuel : Nat}
    (hfuel : is.length < fuel) :
    (Codec.queueCount byte (xs.map Prod.snd) = none ∧ countLoop byte fuel m p = .ok none) ∨
    ∃ (xs' : List (Nat × Node)) (i : Nat) (c : NodeCell), i ∈ xs.map Prod.fst ∧
      countLoop byte fuel m p =
        .ok (some { m with treeMemory := m.treeMemory.set i c }) ∧
      Codec.queueCount byte (xs.map Prod.snd) = some (xs'.map Prod.snd) ∧
      xs'.map Prod.fst = xs.map Prod.fst ∧ ∀ x ∈ xs', LeafAt (m.treeMemory.set i c) x := by
  induction is generalizing p xs fuel with
  | nil =>
    obtain ⟨fuel, rfl⟩ : ∃ k, fuel = k + 1 := ⟨fuel - 1, by omega⟩
    obtain ⟨rfl, rfl⟩ := h
    exact Or.inl ⟨rfl, rfl⟩
  | cons i is ih =>
    obtain ⟨fuel, rfl⟩ : ∃ k, fuel = k + 1 := ⟨fuel - 1, by omega⟩
    rw [List.length_cons] at hfuel
    obtain ⟨rfl, c, x, ys, hc, hx, rfl, hrest⟩ := h
    obtain ⟨w, b, ht, hn⟩ := hleaf x List.mem_cons_self
    rw [List.map_cons, List.nodup_cons] at hnd
    rw [countLoop, if_neg (by simp), entry_eq hc, run_bind, hx, node_eq hn, run_bind, List.map_cons,
      List.map_cons, ht, Codec.queueCount]
    dsimp only
    by_cases hb : b = byte
    · refine Or.inr ⟨(x.1, .mk .null .null (w + 1) b) :: ys, x.1, ⟨none, none, w + 1, b⟩,
        List.mem_cons_self, ?_, ?_, rfl, ?_⟩
      · rw [if_pos hb, setNode_eq hn]
        rfl
      · rw [if_pos hb]
        rfl
      · intro y hy
        rcases List.mem_cons.mp hy with rfl | hy
        · exact ⟨w + 1, b, rfl, getElem?_set_at hn _⟩
        · refine (hleaf y (List.mem_cons_of_mem _ hy)).congr (getElem?_set_off ?_ _)
          intro heq
          exact hnd.1 (heq ▸ List.mem_map_of_mem hy)
    · rw [if_neg hb, if_neg hb]
      rcases ih hrest (fun y hy => hleaf y (List.mem_cons_of_mem _ hy)) hnd.2
          (Nat.lt_of_succ_lt_succ hfuel) with
        ⟨hnone, hrun⟩ | ⟨xs', j, d, hj, hrun, hcount, hfst, hl⟩
      · exact Or.inl ⟨by rw [hnone]; rfl, hrun⟩
      · refine Or.inr ⟨x :: xs', j, d, List.mem_cons_of_mem _ hj, hrun, ?_, ?_, ?_⟩
        · rw [hcount, List.map_cons, ht]
          rfl
        · rw [List.map_cons, hfst]
        · intro y hy
          rcases List.mem_cons.mp hy with rfl | hy
          · refine (hleaf y List.mem_cons_self).congr (getElem?_set_off ?_ _)
            rintro rfl
            exact hnd.1 hj
          · exact hl y hy

end DistHuffman.Heap
