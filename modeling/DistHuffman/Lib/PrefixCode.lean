/-
  The paths of a code tree are a complete prefix code: no path begins another
  (`paths_incomparable`), and the shares `2 ^ -length` of the paths add up to 1 (`kraft_sum`).
-/
import DistHuffman.Lib.CodeTree
import Mathlib.Algebra.BigOperators.Ring.List
import Mathlib.Algebra.Field.Rat
import Mathlib.Tactic.Ring

namespace DistHuffman.Lib

/-- Neither of two bit strings begins the other. -/
def Incomparable (p q : List Bool) : Prop := ¬ p <+: q ∧ ¬ q <+: p

theorem incomparable_cons (b : Bool) {p q : List Bool} (h : Incomparable p q) :
    Incomparable (b :: p) (b :: q) := by
  refine ⟨fun hpq => h.1 ?_, fun hqp => h.2 ?_⟩
  · exact (List.cons_prefix_cons.mp hpq).2
  · exact (List.cons_prefix_cons.mp hqp).2

theorem incomparable_of_ne {b c : Bool} (h : b ≠ c) (p q : List Bool) :
    Incomparable (b :: p) (c :: q) := by
  refine ⟨fun hpq => h ?_, fun hqp => h ?_⟩
  · exact (List.cons_prefix_cons.mp hpq).1
  · exact (List.cons_prefix_cons.mp hqp).1.symm

namespace CodeTree

variable {α : Type}

theorem paths_incomparable (t : CodeTree α) :
    t.paths.Pairwise fun e e' => Incomparable e.2 e'.2 := by
  induction t with
  | leaf a => exact List.pairwise_singleton _ _
  | node l r ihl ihr =>
    rw [paths, List.pairwise_append, List.pairwise_map, List.pairwise_map]
    refine ⟨ihl.imp fun h => incomparable_cons false h, ihr.imp fun h => incomparable_cons true h,
      fun e he e' he' => ?_⟩
    -- paths to different sides differ in their first bit
    obtain ⟨x, -, rfl⟩ := List.mem_map.mp he
    obtain ⟨y, -, rfl⟩ := List.mem_map.mp he'
    exact incomparable_of_ne Bool.false_ne_true x.2 y.2

/-- Below a bit the shares are half as large. -/
theorem kraft_sum_cons (b : Bool) (es : List (α × List Bool)) :
    ((es.map fun e => (e.1, b :: e.2)).map fun e => (1 / 2 : ℚ) ^ e.2.length).sum =
      1 / 2 * (es.map fun e => (1 / 2 : ℚ) ^ e.2.length).sum := by
  rw [List.map_map, ← List.sum_map_mul_left]
  congr 1
  refine List.map_congr_left fun e _ => ?_
  rw [Function.comp_apply, List.length_cons, pow_succ']

theorem kraft_sum (t : CodeTree α) : (t.paths.map fun e => (1 / 2 : ℚ) ^ e.2.length).sum = 1 := by
  induction t with
  | leaf a => simp [paths]
  | node l r ihl ihr =>
    rw [paths, List.map_append, List.sum_append, kraft_sum_cons, kraft_sum_cons, ihl, ihr]
    ring

theorem leaves_length_le (t : CodeTree α) : t.leaves.length ≤ 2 ^ t.height := by
  induction t with
  | leaf a => exact Nat.le_refl 1
  | node l r ihl ihr =>
    have hl : 2 ^ l.height ≤ 2 ^ max l.height r.height :=
      Nat.pow_le_pow_right (by decide) (Nat.le_max_left _ _)
    have hr : 2 ^ r.height ≤ 2 ^ max l.height r.height :=
      Nat.pow_le_pow_right (by decide) (Nat.le_max_right _ _)
    rw [leaves, List.length_append, height, Nat.pow_succ]
    omega

end CodeTree

end DistHuffman.Lib
