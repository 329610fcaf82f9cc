/-
  Writing a run of values into a buffer. `overlay buff pos xs` replaces the entries from `pos` on
  by `xs`, the rest of the buffer staying as it is. Writes that follow one another are one write
  (`overlay_overlay`), and a write is read back (`drop_overlay`).
-/
import Mathlib.Data.List.Basic

namespace DistHuffman.Lib

variable {α : Type}

/-- `buff` with `xs` in the places from `pos` on. -/
def overlay (buff : List α) (pos : Nat) (xs : List α) : List α :=
  buff.take pos ++ xs ++ buff.drop (pos + xs.length)

theorem overlay_nil (buff : List α) (pos : Nat) : overlay buff pos [] = buff := by
  simp [overlay]

theorem overlay_length {buff : List α} {pos : Nat} {xs : List α}
    (h : pos + xs.length ≤ buff.length) : (overlay buff pos xs).length = buff.length := by
  simp only [overlay, List.length_append, List.length_take, List.length_drop]
  omega

theorem overlay_singleton {buff : List α} {pos : Nat} (x : α) (h : pos < buff.length) :
    overlay buff pos [x] = buff.set pos x := by
  rw [List.set_eq_take_append_cons_drop, if_pos h, overlay, List.length_singleton,
    List.append_assoc, List.singleton_append]

theorem drop_overlay {buff : List α} {pos : Nat} {xs : List α} (h : pos ≤ buff.length) :
    (overlay buff pos xs).drop pos = xs ++ buff.drop (pos + xs.length) := by
  rw [overlay, List.append_assoc, List.drop_left' (by simp [h])]

theorem drop_overlay_length {buff : List α} {pos : Nat} {xs : List α} (h : pos ≤ buff.length) :
    (overlay buff pos xs).drop (pos + xs.length) = buff.drop (pos + xs.length) := by
  rw [← List.drop_drop, drop_overlay h, List.drop_left]

theorem take_overlay_length {buff : List α} {pos : Nat} {xs : List α} (h : pos ≤ buff.length) :
    (overlay buff pos xs).take (pos + xs.length) = buff.take pos ++ xs := by
  rw [overlay, List.take_left' (by simp [h])]

/-- Two writes, the second where the first ended. -/
theorem overlay_overlay {buff : List α} {pos : Nat} (xs ys : List α) (h : pos ≤ buff.length) :
    overlay (overlay buff pos xs) (pos + xs.length) ys = overlay buff pos (xs ++ ys) := by
  rw [overlay, take_overlay_length h, ← List.drop_drop, drop_overlay_length h, List.drop_drop,
    overlay, List.length_append, Nat.add_assoc, List.append_assoc (buff.take pos) xs ys]

/-- A list that stays the same when a value is pushed in at its head repeats that value. -/
theorem take_cons_eq_iff {x : α} {l : List α} : (x :: l).take l.length = l ↔ ∀ b ∈ l, b = x := by
  induction l generalizing x with
  | nil => simp
  | cons y l ih =>
    rw [List.length_cons, List.take_succ_cons, List.cons_eq_cons, List.forall_mem_cons, ih]
    constructor
    · intro h
      exact ⟨h.1.symm, fun b hb => (h.2 b hb).trans h.1.symm⟩
    · intro h
      exact ⟨h.1.symm, fun b hb => (h.2 b hb).trans h.1.symm⟩

end DistHuffman.Lib
