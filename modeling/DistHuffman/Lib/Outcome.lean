/-
  Runs that may end in an error: which errors they can end in.

  `Only P x` says that `x` ends in no error outside `P`. A sequence, a choice and a fold of such
  runs is one again. A sequence that ends with a result takes its two parts to one each.
-/
import Mathlib.Logic.Basic

namespace DistHuffman.Lib

variable {ε α β : Type} {P : ε → Prop}

/-- The run ends in no error but those of `P`. -/
def Only (P : ε → Prop) (x : Except ε α) : Prop := ∀ e, x = .error e → P e

theorem only_ok (a : α) : Only P (.ok a) := by
  intro e h
  cases h

theorem only_error {e : ε} (h : P e) : Only P (.error e : Except ε α) := by
  intro e' he
  cases he
  exact h

theorem Only.bind {x : Except ε α} {f : α → Except ε β} (hx : Only P x)
    (hf : ∀ a, Only P (f a)) : Only P (x >>= f) := by
  cases x with
  | error e => exact only_error (hx e rfl)
  | ok a => exact hf a

theorem only_ite {p : Prop} [Decidable p] {x y : Except ε α} (hx : Only P x) (hy : Only P y) :
    Only P (if p then x else y) := by
  by_cases h : p
  · rwa [if_pos h]
  · rwa [if_neg h]

theorem only_foldlM {f : β → α → Except ε β} (hf : ∀ b a, Only P (f b a)) (l : List α) (b : β) :
    Only P (l.foldlM f b) := by
  induction l generalizing b with
  | nil => exact only_ok b
  | cons a l ih =>
    rw [List.foldlM_cons]
    exact (hf b a).bind ih

end DistHuffman.Lib
