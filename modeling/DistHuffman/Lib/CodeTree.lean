/-
  Binary code trees over an arbitrary symbol type: the leaves with their paths (`false` left,
  `true` right), and the path of a symbol.

  * `size_eq`: a tree has one node less than twice its leaves.
  * `path_length_le`, `exists_path_height`: the height is the length of the longest path.
  * `codeOf_eq`: when the symbols of the leaves are distinct, looking a symbol up gives its path.
-/
import Mathlib.Data.List.Nodup
import Mathlib.Data.List.Perm.Basic

namespace DistHuffman.Lib

/-- A binary tree whose leaves carry the symbols. -/
inductive CodeTree (α : Type) where
  | leaf (a : α)
  | node (l r : CodeTree α)
  deriving DecidableEq, Repr

namespace CodeTree

variable {α β : Type}

/-- The symbols, from left to right. -/
def leaves : CodeTree α → List α
  | leaf a => [a]
  | node l r => l.leaves ++ r.leaves

/-- Number of nodes, leaves included. -/
def size : CodeTree α → Nat
  | leaf _ => 1
  | node l r => l.size + r.size + 1

def height : CodeTree α → Nat
  | leaf _ => 0
  | node l r => max l.height r.height + 1

/-- The leaves with their paths. -/
def paths : CodeTree α → List (α × List Bool)
  | leaf a => [(a, [])]
  | node l r =>
      l.paths.map (fun e => (e.1, false :: e.2)) ++ r.paths.map (fun e => (e.1, true :: e.2))

/-- Rename the symbols. -/
def map (f : α → β) : CodeTree α → CodeTree β
  | leaf a => leaf (f a)
  | node l r => node (l.map f) (r.map f)

theorem leaves_map (f : α → β) (t : CodeTree α) : (t.map f).leaves = t.leaves.map f := by
  induction t with
  | leaf a => rfl
  | node l r ihl ihr => simp only [map, leaves, ihl, ihr, List.map_append]

theorem leaves_ne_nil (t : CodeTree α) : t.leaves ≠ [] := by
  induction t with
  | leaf a => simp [leaves]
  | node l r ihl ihr => simp [leaves, ihl]

theorem size_eq (t : CodeTree α) : t.size + 1 = 2 * t.leaves.length := by
  induction t with
  | leaf a => rfl
  | node l r ihl ihr =>
    simp only [size, leaves, List.length_append]
    omega

theorem height_lt_leaves (t : CodeTree α) : t.height < t.leaves.length := by
  induction t with
  | leaf a => simp [height, leaves]
  | node l r ihl ihr =>
    simp only [height, leaves, List.length_append]
    omega

theorem paths_map_fst (t : CodeTree α) : t.paths.map Prod.fst = t.leaves := by
  induction t with
  | leaf a => rfl
  | node l r ihl ihr =>
    simp only [paths, leaves, List.map_append, List.map_map, ← ihl, ← ihr]
    rfl

theorem paths_map (f : α → β) (t : CodeTree α) :
    (t.map f).paths = t.paths.map fun e => (f e.1, e.2) := by
  induction t with
  | leaf a => rfl
  | node l r ihl ihr =>
    simp only [map, paths, ihl, ihr, List.map_append, List.map_map]
    rfl

theorem paths_length (t : CodeTree α) : t.paths.length = t.leaves.length := by
  rw [← paths_map_fst, List.length_map]

theorem path_length_le {t : CodeTree α} {a : α} {p : List Bool} (h : (a, p) ∈ t.paths) :
    p.length ≤ t.height := by
  induction t generalizing p with
  | leaf b =>
    simp only [paths, List.mem_singleton, Prod.mk.injEq] at h
    simp [h.2]
  | node l r ihl ihr =>
    simp only [paths, List.mem_append, List.mem_map, Prod.mk.injEq] at h
    rcases h with ⟨e, he, rfl, rfl⟩ | ⟨e, he, rfl, rfl⟩
    · have := ihl he
      simp only [List.length_cons, height]
      omega
    · have := ihr he
      simp only [List.length_cons, height]
      omega

/-- Some leaf lies as deep as the tree is high. -/
theorem exists_path_height (t : CodeTree α) : ∃ e ∈ t.paths, e.2.length = t.height := by
  induction t with
  | leaf a => exact ⟨(a, []), by simp [paths], rfl⟩
  | node l r ihl ihr =>
    obtain ⟨e, he, hel⟩ := ihl
    obtain ⟨e', he', hel'⟩ := ihr
    simp only [paths, height, List.mem_append, List.mem_map]
    by_cases h : l.height ≤ r.height
    · refine ⟨(e'.1, true :: e'.2), Or.inr ⟨e', he', rfl⟩, ?_⟩
      simp only [List.length_cons]
      omega
    · refine ⟨(e.1, false :: e.2), Or.inl ⟨e, he, rfl⟩, ?_⟩
      simp only [List.length_cons]
      omega

/-- The deepest leaves come in pairs. -/
theorem exists_two_paths_height (t : CodeTree α) (h : 0 < t.height) :
    ∃ e ∈ t.paths, ∃ e' ∈ t.paths, e.2 ≠ e'.2 ∧ e.2.length = t.height ∧
      e'.2.length = t.height := by
  induction t with
  | leaf a => exact absurd h (Nat.lt_irrefl 0)
  | node l r ihl ihr =>
    simp only [paths, height, List.mem_append, List.mem_map]
    by_cases hflat : l.height = 0 ∧ r.height = 0
    · -- two leaves, one on either side
      obtain ⟨e, he, hel⟩ := l.exists_path_height
      obtain ⟨e', he', hel'⟩ := r.exists_path_height
      refine ⟨(e.1, false :: e.2), Or.inl ⟨e, he, rfl⟩, (e'.1, true :: e'.2),
        Or.inr ⟨e', he', rfl⟩, by simp, ?_, ?_⟩ <;>
      · simp only [List.length_cons]
        omega
    by_cases hle : l.height ≤ r.height
    · obtain ⟨e, he, e', he', hne, hel, hel'⟩ := ihr (by omega)
      refine ⟨(e.1, true :: e.2), Or.inr ⟨e, he, rfl⟩, (e'.1, true :: e'.2),
        Or.inr ⟨e', he', rfl⟩, by simpa using hne, ?_, ?_⟩ <;>
      · simp only [List.length_cons]
        omega
    · obtain ⟨e, he, e', he', hne, hel, hel'⟩ := ihl (by omega)
      refine ⟨(e.1, false :: e.2), Or.inl ⟨e, he, rfl⟩, (e'.1, false :: e'.2),
        Or.inl ⟨e', he', rfl⟩, by simpa using hne, ?_, ?_⟩ <;>
      · simp only [List.length_cons]
        omega

/-- Below a branching root every path is non-empty. -/
theorem path_ne_nil {l r : CodeTree α} {a : α} {p : List Bool} (h : (a, p) ∈ (node l r).paths) :
    p ≠ [] := by
  simp only [paths, List.mem_append, List.mem_map, Prod.mk.injEq] at h
  rcases h with ⟨e, -, -, rfl⟩ | ⟨e, -, -, rfl⟩ <;> simp

section Lookup

variable [DecidableEq α]

/-- The path of the first leaf with symbol `a`; empty when there is none. -/
def codeOf (t : CodeTree α) (a : α) : List Bool :=
  match t.paths.find? (·.1 == a) with
  | some e => e.2
  | none => []

theorem codeOf_mem {t : CodeTree α} {a : α} (h : a ∈ t.leaves) : (a, t.codeOf a) ∈ t.paths := by
  rw [← paths_map_fst] at h
  obtain ⟨e, he, rfl⟩ := List.mem_map.mp h
  unfold codeOf
  cases hf : t.paths.find? (·.1 == e.1) with
  | none =>
    have := List.find?_eq_none.mp hf e he
    simp at this
  | some e' =>
    have h1 := List.mem_of_find?_eq_some hf
    have h2 := List.find?_some hf
    simp only [beq_iff_eq] at h2
    rw [← h2]
    exact h1

/-- Distinct symbols have one path each. -/
theorem find?_paths {t : CodeTree α} (hnd : t.leaves.Nodup) {a : α} {p : List Bool}
    (h : (a, p) ∈ t.paths) : t.paths.find? (·.1 == a) = some (a, p) := by
  rw [← paths_map_fst] at hnd
  cases hf : t.paths.find? (·.1 == a) with
  | none =>
    have := List.find?_eq_none.mp hf _ h
    simp at this
  | some e =>
    have hfound := List.find?_some hf
    simp only [beq_iff_eq] at hfound
    rw [List.inj_on_of_nodup_map hnd (List.mem_of_find?_eq_some hf) h hfound]

/-- So a leaf's path is what looking it up gives. -/
theorem codeOf_eq {t : CodeTree α} (hnd : t.leaves.Nodup) {a : α} {p : List Bool}
    (h : (a, p) ∈ t.paths) : t.codeOf a = p := by
  rw [codeOf, find?_paths hnd h]

end Lookup

end CodeTree

end DistHuffman.Lib
