/-
  Greedy merging of a sorted queue gives a tree of least cost.

  The cost of a tree is the sum over its leaves of weight times depth (`pathCost`); a node adds the
  weight below it (`pathCost_node`). A competitor enters only through its list of (weight, depth)
  pairs. Among these the two lightest weights may be moved to two deepest leaves without raising
  the sum (`exists_exchange`), and two deepest leaves of a tree can be folded into one, a level
  higher (`exists_fold`). With both, induction along `mergeLoop` compares the tree it builds with
  every tree over the same weights (`pathCost_mergeLoop_le`).
-/
import DistHuffman.Lib.CodeTree
import DistHuffman.Lib.Merge
import Mathlib.Algebra.BigOperators.Group.List.Basic
import Mathlib.Algebra.Order.Ring.Nat

namespace DistHuffman.Lib

variable {α β : Type}

namespace CodeTree

/-- Sum of the weights of the leaves. -/
def total (w : α → Nat) (t : CodeTree α) : Nat := (t.leaves.map w).sum

theorem total_node (w : α → Nat) (l r : CodeTree α) :
    (node l r).total w = l.total w + r.total w := by
  simp [total, leaves]

/-- Weights and depths of the leaves, from left to right. -/
def levels (w : α → Nat) (t : CodeTree α) : List (Nat × Nat) :=
  t.paths.map fun e => (w e.1, e.2.length)

/-- Depths of the leaves, from left to right. -/
def depths (t : CodeTree α) : List Nat := t.paths.map fun e => e.2.length

theorem levels_map_fst (w : α → Nat) (t : CodeTree α) :
    (t.levels w).map Prod.fst = t.leaves.map w := by
  rw [levels, List.map_map, ← paths_map_fst, List.map_map]
  rfl

theorem levels_map_snd (w : α → Nat) (t : CodeTree α) : (t.levels w).map Prod.snd = t.depths := by
  rw [levels, List.map_map]
  rfl

theorem levels_node (w : α → Nat) (l r : CodeTree α) :
    (node l r).levels w = (l.levels w ++ r.levels w).map fun e => (e.1, e.2 + 1) := by
  simp only [levels, paths, List.map_append, List.map_map]
  rfl

theorem depths_node (l r : CodeTree α) :
    (node l r).depths = (l.depths ++ r.depths).map (· + 1) := by
  simp only [depths, paths, List.map_append, List.map_map]
  rfl

theorem depths_length (t : CodeTree α) : t.depths.length = t.leaves.length := by
  rw [depths, List.length_map, paths_length]

theorem depth_le_height {t : CodeTree α} {d : Nat} (h : d ∈ t.depths) : d ≤ t.height := by
  obtain ⟨e, he, hd⟩ := List.mem_map.mp h
  rw [← hd]
  exact path_length_le he

end CodeTree

/-- Sum of weight times depth. -/
def pathSum (P : List (Nat × Nat)) : Nat := (P.map fun e => e.1 * e.2).sum

theorem pathSum_cons (e : Nat × Nat) (P : List (Nat × Nat)) :
    pathSum (e :: P) = e.1 * e.2 + pathSum P := by
  simp [pathSum]

theorem pathSum_perm {P Q : List (Nat × Nat)} (h : P.Perm Q) : pathSum P = pathSum Q :=
  (h.map _).sum_eq

/-- Everything one level deeper costs the weight once more. -/
theorem pathSum_succ (P : List (Nat × Nat)) :
    pathSum (P.map fun e => (e.1, e.2 + 1)) = pathSum P + (P.map Prod.fst).sum := by
  induction P with
  | nil => rfl
  | cons e P ih =>
    simp only [List.map_cons, pathSum_cons, List.sum_cons, ih, Nat.mul_add_one]
    omega

namespace CodeTree

/-- Weighted path length. -/
def pathCost (w : α → Nat) (t : CodeTree α) : Nat := pathSum (t.levels w)

theorem pathCost_leaf (w : α → Nat) (a : α) : (leaf a).pathCost w = 0 := by
  simp [pathCost, levels, paths, pathSum]

theorem pathCost_node (w : α → Nat) (l r : CodeTree α) :
    (node l r).pathCost w = l.pathCost w + r.pathCost w + (l.total w + r.total w) := by
  rw [pathCost, levels_node, pathSum_succ, List.map_append, levels_map_fst, levels_map_fst,
    List.sum_append]
  simp only [pathSum, pathCost, total, List.map_append, List.sum_append]

/-! ## Folding two deepest leaves -/

/-- `m + 1` is the height, two leaves lie that deep, the others have the depths `rest`, and some
    tree has these and one leaf of depth `m`. -/
def Folds (t : CodeTree α) (m : Nat) (rest : List Nat) : Prop :=
  t.height = m + 1 ∧ t.depths.Perm ((m + 1) :: (m + 1) :: rest) ∧
    ∃ s : CodeTree α, s.depths.Perm (m :: rest)

theorem Folds.swap {l r : CodeTree α} {m : Nat} {rest : List Nat} (h : (node r l).Folds m rest) :
    (node l r).Folds m rest := by
  obtain ⟨hm, hp, hs⟩ := h
  refine ⟨?_, ?_, hs⟩
  · simp only [height] at hm ⊢
    rw [Nat.max_comm, hm]
  · rw [depths_node] at hp ⊢
    exact ((List.perm_append_comm).map _).trans hp

/-- The fold happens in the higher subtree. -/
theorem Folds.left {l r : CodeTree α} {m : Nat} {rest : List Nat} (h : l.Folds m rest)
    (hr : r.height ≤ l.height) :
    (node l r).Folds (m + 1) (rest.map (· + 1) ++ r.depths.map (· + 1)) := by
  obtain ⟨hm, hp, s, hs⟩ := h
  refine ⟨?_, ?_, node s r, ?_⟩
  · simp only [height]
    omega
  · rw [depths_node, List.map_append]
    exact (hp.map (· + 1)).append_right _
  · rw [depths_node, List.map_append]
    exact (hs.map (· + 1)).append_right _

theorem exists_fold (l r : CodeTree α) : ∃ m rest, (node l r).Folds m rest := by
  -- by induction on the size: the deepest pair is in the higher of the two subtrees
  induction hn : (node l r).size using Nat.strongRecOn generalizing l r with
  | _ n ih =>
    have hsub : ∀ l' r' : CodeTree α, r'.height ≤ l'.height → l'.size < n →
        ∃ m rest, (node l' r').Folds m rest := by
      intro l' r' hh hlt
      cases l' with
      | leaf a =>
        cases r' with
        | leaf b => exact ⟨0, [], rfl, List.Perm.refl _, leaf a, List.Perm.refl _⟩
        | node x y => simp [height] at hh
      | node x y =>
        obtain ⟨m, rest, hf⟩ := ih _ hlt x y rfl
        exact ⟨_, _, hf.left hh⟩
    simp only [size] at hn
    by_cases hh : r.height ≤ l.height
    · exact hsub l r hh (by omega)
    · obtain ⟨m, rest, hf⟩ := hsub r l (by omega) (by omega)
      exact ⟨m, rest, hf.swap⟩

end CodeTree

/-! ## Exchange -/

/-- A lightest weight and a largest depth can be paired off: what is left can be paired so that
    the sum does not grow. -/
theorem exists_exchange {P : List (Nat × Nat)} {a m : Nat} {W D : List Nat}
    (hW : (P.map Prod.fst).Perm (a :: W)) (hD : (P.map Prod.snd).Perm (m :: D))
    (ha : ∀ w ∈ W, a ≤ w) (hm : ∀ d ∈ D, d ≤ m) :
    ∃ Q : List (Nat × Nat), (Q.map Prod.fst).Perm W ∧ (Q.map Prod.snd).Perm D ∧
      pathSum Q + a * m ≤ pathSum P := by
  have hmem : a ∈ P.map Prod.fst := hW.mem_iff.mpr List.mem_cons_self
  obtain ⟨e, he, rfl⟩ := List.mem_map.mp hmem
  have hP := List.perm_cons_erase he
  have hW' : ((P.erase e).map Prod.fst).Perm W := ((hP.map Prod.fst).symm.trans hW).cons_inv
  have hD' := (hP.map Prod.snd).symm.trans hD
  rw [List.map_cons] at hD'
  by_cases hem : e.2 = m
  · rw [hem] at hD'
    refine ⟨P.erase e, hW', hD'.cons_inv, ?_⟩
    rw [pathSum_perm hP, pathSum_cons, hem]
    omega
  · -- `f` holds the largest depth; it takes the depth of `e`
    have hmem' : m ∈ (P.erase e).map Prod.snd := by
      have : m ∈ e.2 :: (P.erase e).map Prod.snd := hD'.mem_iff.mpr List.mem_cons_self
      exact (List.mem_cons.mp this).resolve_left fun h => hem h.symm
    obtain ⟨f, hf, rfl⟩ := List.mem_map.mp hmem'
    have hR := List.perm_cons_erase hf
    have hfst := (hR.map Prod.fst).symm.trans hW'
    have hsnd := ((List.Perm.swap _ _ _).trans
      (((hR.map Prod.snd).symm.cons e.2).trans hD')).cons_inv
    refine ⟨(f.1, e.2) :: (P.erase e).erase f, hfst, hsnd, ?_⟩
    have hw : e.1 ≤ f.1 := ha _ (hfst.mem_iff.mp List.mem_cons_self)
    have hd : e.2 ≤ f.2 := hm _ (hsnd.mem_iff.mp List.mem_cons_self)
    have hx : e.1 * f.2 + f.1 * e.2 ≤ e.1 * e.2 + f.1 * f.2 := mul_add_mul_le_mul_add_mul hw hd
    rw [pathSum_perm hP, pathSum_cons e, pathSum_perm hR, pathSum_cons f, pathSum_cons]
    simp only
    omega

/-- The two lightest weights against two largest depths. -/
theorem exists_exchange_pair {P : List (Nat × Nat)} {a b m : Nat} {W D : List Nat}
    (hW : (P.map Prod.fst).Perm (a :: b :: W)) (hD : (P.map Prod.snd).Perm (m :: m :: D))
    (hab : a ≤ b) (hb : ∀ w ∈ W, b ≤ w) (hm : ∀ d ∈ D, d ≤ m) :
    ∃ Q : List (Nat × Nat), (Q.map Prod.fst).Perm W ∧ (Q.map Prod.snd).Perm D ∧
      pathSum Q + (a + b) * m ≤ pathSum P := by
  obtain ⟨Q, hQW, hQD, hQ⟩ := exists_exchange hW hD
    (by
      intro w hw
      rcases List.mem_cons.mp hw with hw | hw
      · rw [hw]
        exact hab
      · exact Nat.le_trans hab (hb w hw))
    (by
      intro d hd
      rcases List.mem_cons.mp hd with hd | hd
      · exact Nat.le_of_eq hd
      · exact hm d hd)
  obtain ⟨R, hRW, hRD, hR⟩ := exists_exchange hQW hQD hb hm
  refine ⟨R, hRW, hRD, ?_⟩
  rw [Nat.add_mul]
  omega

/-- Of a tree with at least two leaves, whose depths are paired with weights, two deepest leaves
    can be folded into one with the two lightest weights together, and that saves their sum. -/
theorem exists_folded_pairing {x y : CodeTree β} {P : List (Nat × Nat)} {a b : Nat} {W : List Nat}
    (hW : (P.map Prod.fst).Perm (a :: b :: W))
    (hD : (P.map Prod.snd).Perm (CodeTree.node x y).depths) (hab : a ≤ b)
    (hb : ∀ w ∈ W, b ≤ w) :
    ∃ (s : CodeTree β) (Q : List (Nat × Nat)), (Q.map Prod.fst).Perm ((a + b) :: W) ∧
      (Q.map Prod.snd).Perm s.depths ∧ pathSum Q + (a + b) ≤ pathSum P := by
  obtain ⟨m, D, hm, hpair, s, hfold⟩ := CodeTree.exists_fold x y
  have hDm : ∀ d ∈ D, d ≤ m + 1 := by
    intro d hd
    rw [← hm]
    refine CodeTree.depth_le_height (hpair.mem_iff.mpr ?_)
    exact List.mem_cons_of_mem _ (List.mem_cons_of_mem _ hd)
  obtain ⟨Q, hQW, hQD, hQ⟩ := exists_exchange_pair hW (hD.trans hpair) hab hb hDm
  refine ⟨s, (a + b, m) :: Q, hQW.cons _, (hQD.cons m).trans hfold.symm, ?_⟩
  have hmul : (a + b) * (m + 1) = (a + b) * m + (a + b) := Nat.mul_add_one _ _
  rw [pathSum_cons]
  simp only
  omega

/-! ## Optimality -/

/-- Every pairing of the queue's weights with the depths of some tree costs at least what merging
    adds to the cost of the queue. -/
theorem pathCost_mergeLoop_le_pathSum (w : α → Nat) (fuel : Nat) (q : List (CodeTree α))
    (r : CodeTree α) (hs : q.Pairwise fun a b => a.total w ≤ b.total w)
    (hr : mergeLoop (CodeTree.total w) .node fuel q = [r]) (t : CodeTree β)
    (P : List (Nat × Nat)) (hW : (P.map Prod.fst).Perm (q.map (CodeTree.total w)))
    (hD : (P.map Prod.snd).Perm t.depths) :
    r.pathCost w ≤ (q.map (CodeTree.pathCost w)).sum + pathSum P := by
  induction fuel generalizing q t P with
  | zero =>
    have hq : q = [r] := hr
    simp [hq]
  | succ fuel ih =>
    rcases q with _ | ⟨a, _ | ⟨b, rest⟩⟩
    · cases hr
    · have hq : [a] = [r] := hr
      simp [hq]
    · obtain ⟨ha, hbs⟩ := List.pairwise_cons.mp hs
      obtain ⟨hb, hrest⟩ := List.pairwise_cons.mp hbs
      -- the competitor has at least two leaves, so it has a deepest pair
      have hlen : t.leaves.length = rest.length + 2 := by
        rw [← CodeTree.depths_length, ← hD.length_eq, List.length_map, ← List.length_map Prod.fst,
          hW.length_eq, List.length_map, List.length_cons, List.length_cons]
      cases t with
      | leaf x => simp [CodeTree.leaves] at hlen
      | node x y =>
        obtain ⟨s, Q, hQW, hQD, hQ⟩ := exists_folded_pairing hW hD (ha b List.mem_cons_self)
          (by
            intro v hv
            obtain ⟨c, hc, rfl⟩ := List.mem_map.mp hv
            exact hb c hc)
        have hins := insertTies_perm (CodeTree.total w) (.node a b) rest
        have hweights : (Q.map Prod.fst).Perm
            ((insertTies (CodeTree.total w) (.node a b) rest).map (CodeTree.total w)) := by
          refine List.Perm.trans ?_ (hins.map (CodeTree.total w)).symm
          rw [List.map_cons, CodeTree.total_node]
          exact hQW
        have hstep := ih _ (insertTies_pairwise hrest) hr s Q hweights hQD
        rw [(hins.map (CodeTree.pathCost w)).sum_eq, List.map_cons, List.sum_cons,
          CodeTree.pathCost_node] at hstep
        rw [List.map_cons, List.map_cons, List.sum_cons, List.sum_cons]
        omega

/-- Merging sorted leaves gives a tree of least cost among the trees with the same weights. -/
theorem pathCost_mergeLoop_le (w : α → Nat) (fuel : Nat) (es : List α) (r : CodeTree α)
    (hs : es.Pairwise fun a b => w a ≤ w b)
    (hr : mergeLoop (CodeTree.total w) .node fuel (es.map .leaf) = [r]) (v : β → Nat)
    (t : CodeTree β) (ht : (t.leaves.map v).Perm (es.map w)) : r.pathCost w ≤ t.pathCost v := by
  have htotal : (es.map CodeTree.leaf).map (CodeTree.total w) = es.map w := by
    rw [List.map_map]
    exact List.map_congr_left fun e _ => by simp [CodeTree.total, CodeTree.leaves]
  have hcost : (es.map CodeTree.leaf).map (CodeTree.pathCost w) = es.map fun _ => 0 := by
    rw [List.map_map]
    exact List.map_congr_left fun e _ => CodeTree.pathCost_leaf w e
  have h := pathCost_mergeLoop_le_pathSum w fuel (es.map .leaf) r
    (by
      rw [List.pairwise_map]
      simpa [CodeTree.total, CodeTree.leaves] using hs)
    hr t (t.levels v)
    (by
      rw [CodeTree.levels_map_fst, htotal]
      exact ht)
    (by rw [CodeTree.levels_map_snd])
  rw [hcost] at h
  simpa [CodeTree.pathCost] using h

end DistHuffman.Lib
