/-
  Greedy merging of a queue. `insertTies key x` puts `x` behind every leading entry whose key is
  not larger; `mergeLoop` takes the first two entries, merges them and inserts the result, until
  one entry is left or the fuel ends. The queue is not assumed to be sorted.

  * `insertTies_pairwise`: a sorted queue stays sorted.
  * `mergeLoop_length`: enough fuel leaves exactly one entry of a non-empty queue.
  * `mergeLoop_flatMap_perm`: a list that `merge` appends is rearranged, never lost or copied.
  * `mergeLoop_map`: a map that respects keys and merging commutes with the loop.
-/
import Mathlib.Data.List.Perm.Basic

namespace DistHuffman.Lib

variable {α β γ κ : Type} [LT κ] [DecidableLT κ]

/-- `x` in front of the first entry with a larger key, at the end when there is none. -/
def insertTies (key : α → κ) (x : α) : List α → List α
  | [] => [x]
  | y :: ys => if key x < key y then x :: y :: ys else y :: insertTies key x ys

theorem insertTies_perm (key : α → κ) (x : α) (l : List α) :
    (insertTies key x l).Perm (x :: l) := by
  induction l with
  | nil => exact List.Perm.refl _
  | cons y ys ih =>
    unfold insertTies
    split
    · exact List.Perm.refl _
    · exact (List.Perm.cons y ih).trans (List.Perm.swap x y ys)

theorem insertTies_of_forall_not_lt {key : α → κ} {x : α} {l : List α}
    (h : ∀ y ∈ l, ¬ key x < key y) : insertTies key x l = l ++ [x] := by
  induction l with
  | nil => rfl
  | cons y ys ih =>
    rw [insertTies, if_neg (h y List.mem_cons_self), ih fun z hz => h z (List.mem_cons_of_mem _ hz),
      List.cons_append]

/-- Where the new entry goes. -/
theorem insertTies_eq (key : α → κ) (x : α) (l : List α) :
    insertTies key x l = l.takeWhile (fun y => ¬ key x < key y) ++
      x :: l.dropWhile (fun y => ¬ key x < key y) := by
  induction l with
  | nil => rfl
  | cons y ys ih =>
    unfold insertTies
    by_cases h : key x < key y
    · simp [h]
    · simp [h, ih]

theorem insertTies_length (key : α → κ) (x : α) (l : List α) :
    (insertTies key x l).length = l.length + 1 := by
  rw [(insertTies_perm key x l).length_eq, List.length_cons]

theorem mem_insertTies {key : α → κ} {x y : α} {l : List α} :
    y ∈ insertTies key x l ↔ y = x ∨ y ∈ l := by
  rw [(insertTies_perm key x l).mem_iff, List.mem_cons]

/-- Insertion keeps a queue sorted. -/
theorem insertTies_pairwise {key : α → Nat} {x : α} {l : List α}
    (h : l.Pairwise fun a b => key a ≤ key b) :
    (insertTies key x l).Pairwise fun a b => key a ≤ key b := by
  induction l with
  | nil => exact List.pairwise_singleton _ _
  | cons y ys ih =>
    obtain ⟨hy, hys⟩ := List.pairwise_cons.mp h
    unfold insertTies
    split
    · next hlt =>
      refine List.pairwise_cons.mpr ⟨?_, h⟩
      intro z hz
      rcases List.mem_cons.mp hz with hz | hz
      · rw [hz]
        exact Nat.le_of_lt hlt
      · exact Nat.le_trans (Nat.le_of_lt hlt) (hy z hz)
    · next hle =>
      refine List.pairwise_cons.mpr ⟨?_, ih hys⟩
      intro z hz
      rcases mem_insertTies.mp hz with hz | hz
      · rw [hz]
        exact Nat.le_of_not_lt hle
      · exact hy z hz

/-- A map that keeps the order of the keys involved commutes with insertion. -/
theorem insertTies_map {key : α → κ} {κ' : Type} [LT κ'] [DecidableLT κ'] {key' : β → κ'}
    (f : α → β) (x : α) (l : List α)
    (hk : ∀ y ∈ l, key' (f x) < key' (f y) ↔ key x < key y) :
    insertTies key' (f x) (l.map f) = (insertTies key x l).map f := by
  induction l with
  | nil => rfl
  | cons y ys ih =>
    have hy := hk y (List.mem_cons_self ..)
    have ih' := ih fun z hz => hk z (List.mem_cons_of_mem _ hz)
    simp only [List.map_cons, insertTies, hy]
    split
    · rfl
    · rw [ih', List.map_cons]

/-- Merge the first two entries and insert the result, at most `fuel` times. -/
def mergeLoop (key : α → κ) (merge : α → α → α) : Nat → List α → List α
  | fuel + 1, a :: b :: rest => mergeLoop key merge fuel (insertTies key (merge a b) rest)
  | _, q => q

variable (key : α → κ) (merge : α → α → α)

/-- Every round takes one entry off the length, down to one. -/
theorem mergeLoop_length (fuel : Nat) (q : List α) (hq : q ≠ []) (hf : q.length ≤ fuel + 1) :
    (mergeLoop key merge fuel q).length = 1 := by
  induction fuel generalizing q with
  | zero =>
    have := List.length_pos_iff.mpr hq
    simp only [mergeLoop]
    omega
  | succ fuel ih =>
    match q, hq with
    | [a], _ => rfl
    | a :: b :: rest, _ =>
      simp only [List.length_cons] at hf
      refine ih _ ?_ ?_
      · rw [← List.length_pos_iff, insertTies_length]
        omega
      · rw [insertTies_length]
        omega

/-- With enough fuel a non-empty queue ends as a single entry. -/
theorem mergeLoop_eq_singleton (fuel : Nat) (q : List α) (hq : q ≠ []) (hf : q.length ≤ fuel + 1) :
    ∃ a, mergeLoop key merge fuel q = [a] :=
  List.length_eq_one_iff.mp (mergeLoop_length key merge fuel q hq hf)

theorem mergeLoop_flatMap_perm (f : α → List γ) (hm : ∀ a b, f (merge a b) = f a ++ f b)
    (fuel : Nat) (q : List α) :
    ((mergeLoop key merge fuel q).flatMap f).Perm (q.flatMap f) := by
  induction fuel generalizing q with
  | zero => exact List.Perm.refl _
  | succ fuel ih =>
    match q with
    | [] => exact List.Perm.refl _
    | [a] => exact List.Perm.refl _
    | a :: b :: rest =>
      refine (ih _).trans ?_
      refine ((insertTies_perm key (merge a b) rest).flatMap_right f).trans ?_
      simp only [List.flatMap_cons, hm, List.append_assoc]
      exact List.Perm.refl _

/-- Simulation. `I` is an invariant of the entries under which `f` respects the keys. -/
theorem mergeLoop_map {κ' : Type} [LT κ'] [DecidableLT κ'] {key : α → κ} {merge : α → α → α}
    {key' : β → κ'} {merge' : β → β → β} (f : α → β) (I : List α → Prop)
    (hstep : ∀ a b rest, I (a :: b :: rest) → I (insertTies key (merge a b) rest))
    (hmerge : ∀ a b rest, I (a :: b :: rest) → merge' (f a) (f b) = f (merge a b))
    (hkey : ∀ a b rest, I (a :: b :: rest) →
      ∀ y ∈ rest, key' (f (merge a b)) < key' (f y) ↔ key (merge a b) < key y)
    (fuel : Nat) (q : List α) (hq : I q) :
    mergeLoop key' merge' fuel (q.map f) = (mergeLoop key merge fuel q).map f := by
  induction fuel generalizing q with
  | zero => rfl
  | succ fuel ih =>
    match q with
    | [] => rfl
    | [a] => rfl
    | a :: b :: rest =>
      simp only [List.map_cons, mergeLoop]
      rw [hmerge a b rest hq, insertTies_map f _ _ (hkey a b rest hq)]
      exact ih _ (hstep a b rest hq)

end DistHuffman.Lib
