/-
  Link: the order of the queue that `build_queue` returns. A new byte goes behind the leading
  entries that still have weight 1, and entries never move afterwards. The bytes of these leading
  entries are `waiting` (`waiting_eq`): met once, and met before any byte that was waiting at the
  time came a second time. So which of two bytes is ahead is settled when the second of them is
  first met (`counts_pairwise_ahead`), whatever their numbers of occurrences become, and the queue
  is sorted exactly when these numbers happen to agree with that order.
-/
import DistHuffman.Link.Shape
import Mathlib.Data.List.Pairwise
import Mathlib.Data.List.TakeWhile

namespace DistHuffman.Link

open DistHuffman.Lib DistHuffman.Codec

/-- Bytes met so far, and those that wait. Meeting a waiting byte again ends its waiting and that
    of the bytes behind it. -/
def waitStep (s : List UInt8 × List UInt8) (b : UInt8) : List UInt8 × List UInt8 :=
  (s.1 ++ [b], if b ∈ s.1 then s.2.takeWhile (· ≠ b) else s.2 ++ [b])

def waiting (data : List UInt8) : List UInt8 := (data.foldl waitStep ([], [])).2

theorem foldl_waitStep_fst (data : List UInt8) : (data.foldl waitStep ([], [])).1 = data := by
  induction data using List.reverseRecOn with
  | nil => rfl
  | append_singleton data b ih =>
    rw [List.foldl_append, List.foldl_cons, List.foldl_nil, waitStep, ih]

theorem waiting_append_singleton (data : List UInt8) (b : UInt8) :
    waiting (data ++ [b]) =
      if b ∈ data then (waiting data).takeWhile (· ≠ b) else waiting data ++ [b] := by
  unfold waiting
  rw [List.foldl_append, List.foldl_cons, List.foldl_nil, waitStep, foldl_waitStep_fst]

/-- The bytes in front of the first `y`. -/
def metBefore (data : List UInt8) (y : UInt8) : List UInt8 := data.takeWhile (· ≠ y)

/-- For every two bytes, `x` met first: if `x` still waits when `y` is met, then `y` does not occur
    less often, and otherwise not more often. -/
def CountsInOrder (data : List UInt8) : Prop :=
  ∀ y ∈ data, ∀ x ∈ metBefore data y,
    if x ∈ waiting (metBefore data y) then data.count x ≤ data.count y
    else data.count y ≤ data.count x

instance (data : List UInt8) : Decidable (CountsInOrder data) :=
  @List.decidableBAll _ _ (fun y => List.decidableBAll _ (metBefore data y)) data

/-! ## Bytes met before another -/

theorem metBefore_append_of_mem {data : List UInt8} {y : UInt8} (h : y ∈ data) (ys : List UInt8) :
    metBefore (data ++ ys) y = metBefore data y := by
  unfold metBefore
  induction data with
  | nil => cases h
  | cons c data ih =>
    by_cases hc : c = y
    · simp [hc]
    · have hy : y ∈ data := (List.mem_cons.mp h).resolve_left fun h' => hc h'.symm
      simpa [hc] using ih hy

theorem metBefore_of_not_mem {data : List UInt8} {y : UInt8} (h : y ∉ data) :
    metBefore data y = data := by
  unfold metBefore
  rw [List.takeWhile_eq_self_iff]
  intro x hx
  simp only [ne_eq, decide_not, Bool.not_eq_eq_eq_not, Bool.not_true, decide_eq_false_iff_not]
  intro hxy
  exact h (hxy ▸ hx)

theorem metBefore_append_self {data : List UInt8} {y : UInt8} (h : y ∉ data) :
    metBefore (data ++ [y]) y = data := by
  have hd := metBefore_of_not_mem h
  unfold metBefore at hd ⊢
  rw [List.takeWhile_append, hd, if_pos rfl]
  simp

theorem mem_of_mem_metBefore {data : List UInt8} {x y : UInt8} (h : x ∈ metBefore data y) :
    x ∈ data ∧ x ≠ y :=
  ⟨(List.takeWhile_sublist _).subset h, by simpa using List.mem_takeWhile_imp h⟩

/-- One of two bytes is met first. -/
theorem mem_metBefore_iff {data : List UInt8} {x y : UInt8} (hne : x ≠ y) (hx : x ∈ data)
    (hy : y ∈ data) : x ∈ metBefore data y ↔ y ∉ metBefore data x := by
  unfold metBefore
  induction data with
  | nil => cases hx
  | cons c data ih =>
    by_cases hcx : c = x
    · subst hcx
      simp [hne]
    · by_cases hcy : c = y
      · subst hcy
        simp [hcx]
      · have hx' : x ∈ data := (List.mem_cons.mp hx).resolve_left fun h => hcx h.symm
        have hy' : y ∈ data := (List.mem_cons.mp hy).resolve_left fun h => hcy h.symm
        simpa [hcx, hcy, Ne.symm hcx, Ne.symm hcy] using ih hx' hy'

/-! ## Leading entries -/

theorem one_le_of_mem_counts {data : List UInt8} {e : UInt8 × Nat} (he : e ∈ counts data) :
    1 ≤ e.2 := by
  rw [snd_of_mem_counts data e he]
  refine List.count_pos_iff.mpr ((mem_counts_map_fst data e.1).mp ?_)
  exact List.mem_map.mpr ⟨e, he, rfl⟩

/-- The entries of weight 1 at the head of the queue. -/
def leading (q : List (UInt8 × Nat)) : List (UInt8 × Nat) := q.takeWhile fun e => ¬ 1 < e.2

/-- Counting `b` cuts the leading entries at `b`. -/
theorem leading_countUp (b : UInt8) (q : List (UInt8 × Nat)) (h1 : ∀ e ∈ q, 1 ≤ e.2) :
    (leading (q.map (countUp b))).map Prod.fst =
      ((leading q).map Prod.fst).takeWhile (· ≠ b) := by
  unfold leading
  induction q with
  | nil => rfl
  | cons e q ih =>
    have he := h1 e List.mem_cons_self
    have ih := ih fun e' he' => h1 e' (List.mem_cons_of_mem _ he')
    rw [List.map_cons]
    by_cases hb : e.1 = b
    · have hup : 1 < (countUp b e).2 := by
        simp only [countUp, if_pos hb]
        omega
      rw [List.takeWhile_cons_of_neg (by simpa using hup)]
      by_cases hone : 1 < e.2
      · rw [List.takeWhile_cons_of_neg (by simpa using hone)]
        rfl
      · rw [List.takeWhile_cons_of_pos (by simpa using hone), List.map_cons,
          List.takeWhile_cons_of_neg (by simpa using hb)]
        rfl
    · rw [show countUp b e = e from if_neg hb]
      by_cases hone : 1 < e.2
      · rw [List.takeWhile_cons_of_neg (by simpa using hone),
          List.takeWhile_cons_of_neg (by simpa using hone)]
        rfl
      · rw [List.takeWhile_cons_of_pos (by simpa using hone),
          List.takeWhile_cons_of_pos (by simpa using hone), List.map_cons, List.map_cons,
          List.takeWhile_cons_of_pos (by simpa using hb), ih]

/-- A new byte goes right behind the leading entries. -/
theorem countStep_of_not_mem {q : List (UInt8 × Nat)} {b : UInt8} (h : b ∉ q.map Prod.fst) :
    countStep q b = leading q ++ (b, 1) :: q.dropWhile fun e => ¬ 1 < e.2 := by
  rw [countStep, if_neg h, insertTies_eq]
  rfl

theorem leading_append_drop (q : List (UInt8 × Nat)) :
    leading q ++ q.dropWhile (fun e => ¬ 1 < e.2) = q := List.takeWhile_append_dropWhile

theorem leading_countStep {q : List (UInt8 × Nat)} {b : UInt8} (h : b ∉ q.map Prod.fst) :
    leading (countStep q b) = leading q ++ [(b, 1)] := by
  have hdrop : leading (q.dropWhile fun e => ¬ 1 < e.2) = [] := by
    rw [leading, List.takeWhile_eq_nil_iff]
    intro hl
    exact List.dropWhile_get_zero_not _ q hl
  have hlead : ∀ e ∈ leading q, decide (¬ 1 < e.2) = true := fun e he =>
    List.mem_takeWhile_imp (p := fun e : UInt8 × Nat => decide (¬ 1 < e.2)) he
  rw [countStep_of_not_mem h, leading, List.takeWhile_append_of_pos hlead,
    List.takeWhile_cons_of_pos rfl]
  exact congrArg (leading q ++ (b, 1) :: ·) hdrop

theorem waiting_eq (data : List UInt8) : waiting data = (leading (counts data)).map Prod.fst := by
  induction data using List.reverseRecOn with
  | nil => rfl
  | append_singleton data b ih =>
    rw [waiting_append_singleton, counts_append_singleton, ih]
    by_cases hb : b ∈ data
    · rw [if_pos hb, countStep, if_pos ((mem_counts_map_fst data b).mpr hb),
        leading_countUp b _ fun e he => one_le_of_mem_counts he]
    · rw [if_neg hb, leading_countStep fun h => hb ((mem_counts_map_fst data b).mp h),
        List.map_append]
      rfl

/-! ## Who is ahead -/

/-- `x` is ahead of `y` in the queue. -/
def Ahead (data : List UInt8) (x y : UInt8) : Prop :=
  if x ∈ metBefore data y then x ∈ waiting (metBefore data y)
  else y ∉ waiting (metBefore data x)

theorem ahead_append {data : List UInt8} {x y : UInt8} (hx : x ∈ data) (hy : y ∈ data)
    (ys : List UInt8) : Ahead (data ++ ys) x y ↔ Ahead data x y := by
  unfold Ahead
  rw [metBefore_append_of_mem hx, metBefore_append_of_mem hy]

theorem ahead_iff {data : List UInt8} {x y : UInt8} (hne : x ≠ y) (hx : x ∈ data)
    (hy : y ∈ data) : Ahead data x y ↔ ¬ Ahead data y x := by
  have hxy := mem_metBefore_iff hne hx hy
  unfold Ahead
  by_cases hm : x ∈ metBefore data y
  · rw [if_pos hm, if_neg (hxy.mp hm), not_not]
  · rw [if_neg hm, if_pos (not_not.mp fun h => hm (hxy.mpr h))]

theorem counts_pairwise_ahead (data : List UInt8) :
    ((counts data).map Prod.fst).Pairwise (Ahead data) := by
  induction data using List.reverseRecOn with
  | nil => exact List.Pairwise.nil
  | append_singleton data b ih =>
    have hmem := mem_counts_map_fst data
    have hold : ((counts data).map Prod.fst).Pairwise (Ahead (data ++ [b])) := by
      refine ih.imp_of_mem ?_
      intro x y hx hy hxy
      exact (ahead_append ((hmem x).mp hx) ((hmem y).mp hy) _).mpr hxy
    rw [counts_append_singleton]
    by_cases hb : b ∈ data
    · have hfst : Prod.fst ∘ countUp b = Prod.fst := funext (countUp_fst b)
      rw [countStep, if_pos ((hmem b).mpr hb), List.map_map, hfst]
      exact hold
    · -- `b` stands between the leading entries and the rest
      have hb' : b ∉ (counts data).map Prod.fst := fun h => hb ((hmem b).mp h)
      have hnd := counts_nodup data
      rw [← leading_append_drop (counts data), List.map_append] at hold hnd hmem
      rw [countStep_of_not_mem hb', List.map_append, List.map_cons]
      obtain ⟨hF, hB, hFB⟩ := List.pairwise_append.mp hold
      refine List.pairwise_append.mpr ⟨hF, List.pairwise_cons.mpr ⟨?_, hB⟩, ?_⟩
      · intro y hy
        have hyd : y ∈ data := (hmem y).mp (List.mem_append_right _ hy)
        have hnot : b ∉ metBefore (data ++ [b]) y := by
          rw [metBefore_append_of_mem hyd]
          exact fun h => hb (mem_of_mem_metBefore h).1
        rw [Ahead, if_neg hnot, metBefore_append_self hb, waiting_eq]
        exact fun h => (List.disjoint_of_nodup_append hnd) h hy
      · intro x hx y hy
        rcases List.mem_cons.mp hy with hy | hy
        · have hxd : x ∈ data := (hmem x).mp (List.mem_append_left _ hx)
          rw [hy, Ahead, metBefore_append_self hb, if_pos hxd, waiting_eq]
          exact hx
        · exact hFB x hx y hy

/-! ## Sorted queues -/

/-- In a list whose order is given by an asymmetric relation, pairwise is for all related pairs. -/
theorem pairwise_iff_of_asymm {α : Type} {R S : α → α → Prop} {l : List α} (hnd : l.Nodup)
    (hR : l.Pairwise R) (hasymm : ∀ x ∈ l, ∀ y ∈ l, x ≠ y → R x y → ¬ R y x) :
    l.Pairwise S ↔ ∀ x ∈ l, ∀ y ∈ l, x ≠ y → R x y → S x y := by
  constructor
  · intro hS x hx y hy hne hxy
    have hboth : l.Pairwise fun a b => R a b ∧ S a b ∨ R b a ∧ S b a :=
      (hR.and hS).imp Or.inl
    have hsymm : Std.Symm fun a b => R a b ∧ S a b ∨ R b a ∧ S b a := ⟨fun _ _ h => h.symm⟩
    rcases hboth.forall hx hy hne with h | h
    · exact h.2
    · exact absurd h.1 (hasymm x hx y hy hne hxy)
  · intro h
    exact (hR.and hnd).imp_of_mem fun ha hb hab => h _ ha _ hb hab.2 hab.1

theorem counts_sorted_iff (data : List UInt8) :
    (counts data).Pairwise (fun a b => a.2 ≤ b.2) ↔ CountsInOrder data := by
  have hmem := mem_counts_map_fst data
  have hkeys : (counts data).Pairwise (fun a b => a.2 ≤ b.2) ↔
      ((counts data).map Prod.fst).Pairwise fun x y => data.count x ≤ data.count y := by
    rw [List.pairwise_map]
    refine List.Pairwise.iff_of_mem ?_
    intro a b ha hb
    rw [snd_of_mem_counts data a ha, snd_of_mem_counts data b hb]
  rw [hkeys, pairwise_iff_of_asymm (counts_nodup data) (counts_pairwise_ahead data)
    fun x hx y hy hne => (ahead_iff hne ((hmem x).mp hx) ((hmem y).mp hy)).mp]
  constructor
  · intro h y hy x hx
    obtain ⟨hxd, hne⟩ := mem_of_mem_metBefore hx
    have hyx := (mem_metBefore_iff hne hxd hy).mp hx
    split
    · next hw =>
      refine h x ((hmem x).mpr hxd) y ((hmem y).mpr hy) hne ?_
      rwa [Ahead, if_pos hx]
    · next hw =>
      refine h y ((hmem y).mpr hy) x ((hmem x).mpr hxd) hne.symm ?_
      rwa [Ahead, if_neg hyx]
  · intro h x hx y hy hne hxy
    have hx' := (hmem x).mp hx
    have hy' := (hmem y).mp hy
    by_cases hm : x ∈ metBefore data y
    · rw [Ahead, if_pos hm] at hxy
      have := h y hy' x hm
      rwa [if_pos hxy] at this
    · rw [Ahead, if_neg hm] at hxy
      have hyx : y ∈ metBefore data x := (mem_metBefore_iff hne.symm hy' hx').mpr hm
      have := h x hx' y hyx
      rwa [if_neg hxy] at this

/-- `hn` is the range of `data_size`. -/
theorem build_queue_sorted_iff (data : List UInt8) (hn : data.length ≤ 65535) :
    (buildQueue {} data).2.Pairwise (fun a b => a.weight ≤ b.weight) ↔ CountsInOrder data := by
  rw [buildQueue_refines (by omega), ← counts_sorted_iff, List.pairwise_map]
  refine List.Pairwise.iff_of_mem ?_
  intro a b ha hb
  have hsum := counts_sum data
  have ha' := snd_le_sum ha
  have hb' := snd_le_sum hb
  rw [leafNode, leafNode, Node.weight, Node.weight, UInt16.le_iff_toNat_le,
    toNat_ofNat_word (by omega), toNat_ofNat_word (by omega)]

theorem build_queue_sorted_ABB :
    (buildQueue {} [65, 66, 66]).2.Pairwise fun a b => a.weight ≤ b.weight :=
  (build_queue_sorted_iff [65, 66, 66] (by decide)).mpr (by decide +kernel)

theorem build_queue_unsorted_ABA :
    ¬ (buildQueue {} [65, 66, 65]).2.Pairwise fun a b => a.weight ≤ b.weight := by
  decide +kernel

end DistHuffman.Link
