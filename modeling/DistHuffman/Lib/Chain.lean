/-
  Linked cells in an array. A pointer is `none` or the index of a cell; `fetch` and `amend` are the
  two accesses, and leave with an error at `none` and outside the array.

  `Chain next val mem p is xs` says that the cells `is`, one after the other, are what a walk from
  `p` along `next` meets, down to the end of the list, and that they carry the values `xs`.

  * `Chain.congr`: a chain only depends on its own cells.
  * `Chain.link`: a cell that is made to point at a chain is in front of it.
  * `Chain.length_le`: a chain without repetitions is no longer than the array.
-/
import Mathlib.Data.List.Nodup
import Mathlib.Data.Finset.Card

namespace DistHuffman.Lib

section Access

variable {ε γ : Type}

/-- `*p` -/
def fetch (null outside : ε) (mem : List γ) : Option Nat → Except ε γ
  | none => .error null
  | some i => (mem[i]?).elim (.error outside) .ok

/-- `*p = f(*p)` -/
def amend (null outside : ε) (mem : List γ) (f : γ → γ) : Option Nat → Except ε (List γ)
  | none => .error null
  | some i => (mem[i]?).elim (.error outside) fun c => .ok (mem.set i (f c))

variable {null outside : ε} {mem : List γ} {i : Nat} {c : γ}

theorem fetch_eq (h : mem[i]? = some c) : fetch null outside mem (some i) = .ok c := by
  rw [fetch, h]
  rfl

theorem amend_eq (h : mem[i]? = some c) (f : γ → γ) :
    amend null outside mem f (some i) = .ok (mem.set i (f c)) := by
  rw [amend, h]
  rfl

theorem amend_outside (h : mem.length ≤ i) (f : γ → γ) :
    amend null outside mem f (some i) = .error outside := by
  rw [amend, List.getElem?_eq_none h]
  rfl

theorem lt_of_getElem? (h : mem[i]? = some c) : i < mem.length :=
  (List.getElem?_eq_some_iff.mp h).1

theorem getElem?_set_at (h : mem[i]? = some c) (c' : γ) : (mem.set i c')[i]? = some c' := by
  rw [List.getElem?_set_self (lt_of_getElem? h)]

theorem getElem?_set_off {j : Nat} (h : i ≠ j) (c' : γ) : (mem.set i c')[j]? = mem[j]? :=
  List.getElem?_set_ne h

end Access

section Chains

variable {γ α : Type} (next : γ → Option Nat) (val : γ → α → Prop)

def Chain (mem : List γ) : Option Nat → List Nat → List α → Prop
  | p, [], xs => p = none ∧ xs = []
  | p, i :: is, xs => p = some i ∧ ∃ c x ys, mem[i]? = some c ∧ val c x ∧ xs = x :: ys ∧
      Chain mem (next c) is ys

variable {next val} {mem : List γ} {p : Option Nat} {is : List Nat} {xs : List α}

theorem Chain.nil : Chain next val mem none [] [] := ⟨rfl, rfl⟩

theorem chain_cons {i : Nat} {x : α} :
    Chain next val mem p (i :: is) (x :: xs) ↔
      p = some i ∧ ∃ c, mem[i]? = some c ∧ val c x ∧ Chain next val mem (next c) is xs := by
  constructor
  · rintro ⟨hp, c, y, ys, hc, hval, heq, hrest⟩
    cases heq
    exact ⟨hp, c, hc, hval, hrest⟩
  · rintro ⟨hp, c, hc, hval, hrest⟩
    exact ⟨hp, c, x, xs, hc, hval, rfl, hrest⟩

/-- The end of a chain is where the pointer is `none`. -/
theorem Chain.of_none (h : Chain next val mem none is xs) : is = [] ∧ xs = [] := by
  cases is with
  | nil => exact ⟨rfl, h.2⟩
  | cons i is => exact absurd h.1 (by simp)

theorem Chain.of_some {i : Nat} (h : Chain next val mem (some i) is xs) :
    ∃ c x is' xs', is = i :: is' ∧ xs = x :: xs' ∧ mem[i]? = some c ∧ val c x ∧
      Chain next val mem (next c) is' xs' := by
  cases is with
  | nil => exact absurd h.1 (by simp)
  | cons j is =>
    obtain ⟨hp, c, x, ys, hc, hval, rfl, hrest⟩ := h
    cases hp
    exact ⟨c, x, is, ys, rfl, rfl, hc, hval, hrest⟩

theorem Chain.length_eq (h : Chain next val mem p is xs) : is.length = xs.length := by
  induction is generalizing p xs with
  | nil =>
    rw [h.2]
    rfl
  | cons i is ih =>
    obtain ⟨-, c, x, ys, -, -, rfl, hrest⟩ := h
    rw [List.length_cons, List.length_cons, ih hrest]

/-- Another memory that has the same cells, and another relation of cells and values. -/
theorem Chain.congr {val' : γ → α → Prop} {mem' : List γ} (h : Chain next val mem p is xs)
    (hmem : ∀ i ∈ is, mem'[i]? = mem[i]?)
    (hval : ∀ c x, x ∈ xs → val c x → val' c x) : Chain next val' mem' p is xs := by
  induction is generalizing p xs with
  | nil => exact h
  | cons i is ih =>
    obtain ⟨hp, c, x, ys, hc, hv, rfl, hrest⟩ := h
    refine ⟨hp, c, x, ys, ?_, hval c x List.mem_cons_self hv, rfl, ?_⟩
    · rw [hmem i List.mem_cons_self, hc]
    · exact ih hrest (fun j hj => hmem j (List.mem_cons_of_mem _ hj))
        fun c y hy => hval c y (List.mem_cons_of_mem _ hy)

theorem Chain.set_off {i : Nat} (h : Chain next val mem p is xs) (hi : i ∉ is) (c : γ) :
    Chain next val (mem.set i c) p is xs := by
  refine h.congr (fun j hj => getElem?_set_off ?_ c) fun _ _ _ hv => hv
  rintro rfl
  exact hi hj

/-- A chain behind a cell that is written so that it points at it. -/
theorem Chain.link {i : Nat} {c c' : γ} {x : α} (h : Chain next val mem p is xs) (hi : i ∉ is)
    (hc : mem[i]? = some c) (hnext : next c' = p) (hval : val c' x) :
    Chain next val (mem.set i c') (some i) (i :: is) (x :: xs) := by
  refine chain_cons.mpr ⟨rfl, c', getElem?_set_at hc c', hval, ?_⟩
  rw [hnext]
  exact h.set_off hi c'

theorem Chain.lt_length (h : Chain next val mem p is xs) : ∀ i ∈ is, i < mem.length := by
  induction is generalizing p xs with
  | nil => simp
  | cons i is ih =>
    obtain ⟨-, c, x, ys, hc, -, -, hrest⟩ := h
    intro j hj
    rcases List.mem_cons.mp hj with rfl | hj
    · exact lt_of_getElem? hc
    · exact ih hrest j hj

/-- Different indices below `n` are at most `n`. -/
theorem length_le_of_nodup_lt {n : Nat} {is : List Nat} (hnd : is.Nodup) (h : ∀ i ∈ is, i < n) :
    is.length ≤ n := by
  rw [← List.toFinset_card_of_nodup hnd, ← Finset.card_range n]
  refine Finset.card_le_card fun i hi => Finset.mem_range.mpr (h i ?_)
  exact List.mem_toFinset.mp hi

theorem Chain.length_le (h : Chain next val mem p is xs) (hnd : is.Nodup) :
    is.length ≤ mem.length := length_le_of_nodup_lt hnd h.lt_length

end Chains

end DistHuffman.Lib
