/-
  Greedy merging of a queue that need not be sorted: the cost of the tree, against the number of
  entries. `pathCost_mergeLoop_le_log`: at most `2 ^ t` entries cost at most `t + 1` times their
  weight.

  The argument is amortised. Every entry of the queue holds `2 ^ level` of `2 ^ t` shares. Two
  entries of one level make one of the next; when the levels differ the smaller share is left over
  and goes to a heavier entry further back. What has been paid is covered by weight times level and
  by the weight of the entries merged so far (`Solvent`).

  A heavier entry is there because merged entries are in order: each is at least as heavy as
  everything in front of it and not heavier than its successor (`Settled`). So behind a merged entry
  the weights rise up to the first fresh one. If no fresh one follows, no level below is left, and
  the shares do not all add up to `2 ^ t`: the lowest can be raised for nothing.
-/
import DistHuffman.Lib.Optimal

namespace DistHuffman.Lib

variable {α : Type}

/-- A queue entry: its weight, whether it is the result of a merge, and the level of its share. -/
structure Account where
  weight : Nat
  merged : Bool
  level : Nat

namespace Account

/-- One level higher. -/
def raise (x : Account) : Account := { x with level := x.level + 1 }

@[simp] theorem raise_weight (x : Account) : x.raise.weight = x.weight := rfl

@[simp] theorem raise_merged (x : Account) : x.raise.merged = x.merged := rfl

@[simp] theorem raise_level (x : Account) : x.raise.level = x.level + 1 := rfl

/-- Shares in a queue. -/
def units (q : List Account) : Nat := (q.map fun x => 2 ^ x.level).sum

/-- Weight times level. -/
def worth (q : List Account) : Nat := (q.map fun x => x.weight * x.level).sum

/-- Weight of the entries that have not been merged. -/
def fresh (q : List Account) : Nat := (q.map fun x => if x.merged then 0 else x.weight).sum

/-- `y` stands behind `x`: if merged it is not lighter; if fresh it has its first share only, or
    what is in front of it is merged and not on a lower level. -/
def Behind (x y : Account) : Prop :=
  (y.merged = true → x.weight ≤ y.weight) ∧
    (y.merged = false → y.level = 0 ∨ x.merged = true ∧ y.level ≤ x.level)

/-- The order in a queue. -/
def Settled : List Account → Prop
  | [] => True
  | x :: rest =>
      (∀ y ∈ rest, Behind x y) ∧ (x.merged = true → 1 ≤ x.level) ∧
        (x.merged = true → ∀ y ∈ rest.head?, x.weight ≤ y.weight) ∧ Settled rest

/-- After `paid` has been spent on the merges so far, of a queue of weight `total`. -/
structure Solvent (t total paid : Nat) (q : List Account) : Prop where
  settled : Settled q
  units_le : units q ≤ 2 ^ t
  covered : paid + fresh q ≤ total + worth q

/-- What stands behind an entry still does when the entry is raised. -/
theorem Behind.raise_left {x y : Account} (h : Behind x y) : Behind x.raise y := by
  refine ⟨h.1, fun hm => ?_⟩
  rcases h.2 hm with h0 | ⟨hx, hle⟩
  · exact Or.inl h0
  · exact Or.inr ⟨hx, Nat.le_succ_of_le hle⟩

/-- Same weights, and the same entries merged. -/
def SameQueue (q q' : List Account) : Prop :=
  q'.map (fun x => (x.weight, x.merged)) = q.map fun x => (x.weight, x.merged)

theorem units_cons (x : Account) (q : List Account) : units (x :: q) = 2 ^ x.level + units q := by
  simp [units]

theorem worth_cons (x : Account) (q : List Account) :
    worth (x :: q) = x.weight * x.level + worth q := by
  simp [worth]

theorem fresh_cons (x : Account) (q : List Account) :
    fresh (x :: q) = (if x.merged then 0 else x.weight) + fresh q := by
  simp [fresh]

namespace SameQueue

variable {q q' : List Account}

theorem refl (q : List Account) : SameQueue q q := rfl

theorem cons {x x' : Account} (hw : x'.weight = x.weight) (hm : x'.merged = x.merged)
    (h : SameQueue q q') : SameQueue (x :: q) (x' :: q') := by
  unfold SameQueue at *
  rw [List.map_cons, List.map_cons, h, hw, hm]

theorem weights (h : SameQueue q q') :
    q'.map Account.weight = q.map Account.weight := by
  have := congrArg (List.map Prod.fst) h
  rwa [List.map_map, List.map_map] at this

theorem fresh_eq (h : SameQueue q q') : fresh q' = fresh q := by
  have := congrArg (fun l : List (Nat × Bool) => (l.map fun p => if p.2 then 0 else p.1).sum) h
  simp only [List.map_map] at this
  exact this

/-- Every entry of one queue has its counterpart in the other. -/
theorem exists_mem (h : SameQueue q q') {y : Account} (hy : y ∈ q') :
    ∃ x ∈ q, x.weight = y.weight ∧ x.merged = y.merged := by
  have hmem : (y.weight, y.merged) ∈ q.map fun x => (x.weight, x.merged) := by
    rw [← h]
    exact List.mem_map.mpr ⟨y, hy, rfl⟩
  obtain ⟨x, hx, hxy⟩ := List.mem_map.mp hmem
  exact ⟨x, hx, (Prod.mk.inj hxy).1, (Prod.mk.inj hxy).2⟩

theorem exists_head (h : SameQueue q q') {y : Account} (hy : y ∈ q'.head?) :
    ∃ x ∈ q.head?, x.weight = y.weight := by
  cases q' with
  | nil => cases hy
  | cons y' ys =>
    cases q with
    | nil => cases h
    | cons x xs =>
      have hxy : (y'.weight, y'.merged) = (x.weight, x.merged) := (List.cons.inj h).1
      obtain rfl : y' = y := by simpa using hy
      exact ⟨x, rfl, (Prod.mk.inj hxy).1.symm⟩

end SameQueue

/-- A queue of fresh entries with one share each. -/
theorem settled_of_fresh {q : List Account} (h : ∀ x ∈ q, x.merged = false ∧ x.level = 0) :
    Settled q := by
  induction q with
  | nil => trivial
  | cons x xs ih =>
    have hx : ¬ x.merged = true := by
      rw [(h x List.mem_cons_self).1]
      exact Bool.false_ne_true
    refine ⟨fun y hy => ?_, fun hm => absurd hm hx, fun hm => absurd hm hx,
      ih fun y hy => h y (List.mem_cons_of_mem _ hy)⟩
    obtain ⟨hm, h0⟩ := h y (List.mem_cons_of_mem _ hy)
    refine ⟨fun hm' => ?_, fun _ => Or.inl h0⟩
    rw [hm] at hm'
    cases hm'

/-! ## A share for a heavier entry -/

/-- A share of level `s`, left over behind an entry of weight `b`, raises a heavier entry by a
    level, unless everything behind is merged and on a higher level. -/
theorem exists_gift {s : Nat} (rest : List Account) {b : Nat} (hq : Settled rest)
    (hhead : ∀ y ∈ rest.head?, b ≤ y.weight)
    (hlow : ∀ z ∈ rest, z.merged = false → z.level ≤ s) :
    (∀ y ∈ rest, y.merged = true ∧ s < y.level) ∨
    ∃ rest', SameQueue rest rest' ∧ Settled rest' ∧
      (∀ z ∈ rest', z.merged = false → z.level ≤ s + 1) ∧
      units rest' ≤ units rest + 2 ^ s ∧ worth rest + b ≤ worth rest' := by
  induction rest generalizing b with
  | nil => exact Or.inl fun y hy => absurd hy List.not_mem_nil
  | cons x xs ih =>
    obtain ⟨hbehind, hpos, hnext, hxs⟩ := hq
    have hbx : b ≤ x.weight := hhead x rfl
    by_cases hskip : x.merged = true ∧ s < x.level
    · -- look further back
      rcases ih hxs (fun y hy => Nat.le_trans hbx (hnext hskip.1 y hy))
        (fun z hz => hlow z (List.mem_cons_of_mem _ hz)) with hall | ⟨xs', hsame, hset, hz', hu, hw⟩
      · left
        intro y hy
        rcases List.mem_cons.mp hy with hy | hy
        · rw [hy]
          exact hskip
        · exact hall y hy
      · refine Or.inr ⟨x :: xs', hsame.cons rfl rfl, ⟨?_, hpos, ?_, hset⟩, ?_, ?_, ?_⟩
        · intro y hy
          obtain ⟨y₀, hy₀, hyw, hym⟩ := hsame.exists_mem hy
          refine ⟨fun hm => ?_, fun hm => Or.inr ⟨hskip.1, ?_⟩⟩
          · rw [← hyw]
            exact (hbehind y₀ hy₀).1 (hym.trans hm)
          · exact Nat.le_trans (hz' y hy hm) hskip.2
        · intro hm y hy
          obtain ⟨y₀, hy₀, hyw⟩ := hsame.exists_head hy
          rw [← hyw]
          exact hnext hm y₀ hy₀
        · intro z hz hm
          rcases List.mem_cons.mp hz with hz | hz
          · rw [hz, hskip.1] at hm
            cases hm
          · exact hz' z hz hm
        · rw [units_cons, units_cons]
          omega
        · rw [worth_cons, worth_cons]
          omega
    · -- `x` takes the share
      have hlevel : x.level ≤ s := by
        by_cases hm : x.merged = true
        · exact Nat.le_of_not_lt fun hlt => hskip ⟨hm, hlt⟩
        · exact hlow x List.mem_cons_self (Bool.eq_false_iff.mpr hm)
      refine Or.inr ⟨x.raise :: xs, (SameQueue.refl xs).cons rfl rfl,
        ⟨?_, fun _ => Nat.le_add_left _ _, hnext, hxs⟩, ?_, ?_, ?_⟩
      · exact fun y hy => (hbehind y hy).raise_left
      · intro z hz hm
        rcases List.mem_cons.mp hz with hz | hz
        · rw [hz, raise_level]
          exact Nat.succ_le_succ hlevel
        · exact Nat.le_succ_of_le (hlow z (List.mem_cons_of_mem _ hz) hm)
      · have hpow : 2 ^ x.level ≤ 2 ^ s := Nat.pow_le_pow_right (by decide) hlevel
        rw [units_cons, units_cons, raise_level, Nat.pow_succ]
        omega
      · rw [worth_cons, worth_cons, raise_weight, raise_level, Nat.mul_succ]
        omega

/-- If every other share is of a higher level, the lowest one can be raised. -/
theorem units_raise {s l t : Nat} {rest : List Account} (hsl : s < l)
    (hhigh : ∀ y ∈ rest, s < y.level) (h : 2 ^ s + 2 ^ l + units rest ≤ 2 ^ t) :
    2 ^ (s + 1) + 2 ^ l + units rest ≤ 2 ^ t := by
  have hdvd : ∀ q : List Account, (∀ y ∈ q, s < y.level) → 2 ^ (s + 1) ∣ units q := by
    intro q hq
    induction q with
    | nil => exact Nat.dvd_zero _
    | cons x xs ih =>
      rw [units_cons]
      exact Nat.dvd_add (Nat.pow_dvd_pow 2 (hq x List.mem_cons_self))
        (ih fun y hy => hq y (List.mem_cons_of_mem _ hy))
  have hpos : 0 < 2 ^ s := Nat.two_pow_pos s
  have hlt : 2 ^ l ≤ 2 ^ t := Nat.le_trans (Nat.le_add_left _ _) (Nat.le_of_add_right_le h)
  have hst : s + 1 ≤ t := Nat.le_trans hsl ((Nat.pow_le_pow_iff_right (by decide)).mp hlt)
  refine Nat.le_of_lt_add_of_dvd ?_ ?_ (Nat.pow_dvd_pow 2 hst)
  · rw [Nat.add_assoc, Nat.add_comm]
    refine Nat.add_lt_add_right ?_ _
    omega
  · exact Nat.dvd_add (Nat.dvd_add (Nat.dvd_refl _) (Nat.pow_dvd_pow 2 hsl)) (hdvd rest hhigh)

/-! ## One merge -/

theorem mem_head?_insertTies {n y : Account} {q : List Account}
    (h : y ∈ (insertTies Account.weight n q).head?) : y = n ∨ y ∈ q.head? := by
  cases q with
  | nil => exact Or.inl (by simpa [insertTies, eq_comm] using h)
  | cons x xs =>
    unfold insertTies at h
    split at h
    · exact Or.inl (by simpa [eq_comm] using h)
    · exact Or.inr h

theorem settled_insertTies {n : Account} {q : List Account} (hq : Settled q)
    (hn : n.merged = true) (hpos : 1 ≤ n.level)
    (hlow : ∀ z ∈ q, z.merged = false → z.level ≤ n.level) :
    Settled (insertTies Account.weight n q) := by
  induction q with
  | nil =>
    refine ⟨fun y hy => absurd hy List.not_mem_nil, fun _ => hpos, ?_, trivial⟩
    intro _ y hy
    simp at hy
  | cons x xs ih =>
    have hxs := ih hq.2.2.2 fun z hz => hlow z (List.mem_cons_of_mem _ hz)
    obtain ⟨hbehind, hxpos, hnext, -⟩ := id hq
    unfold insertTies
    split
    · next hlt =>
      refine ⟨?_, fun _ => hpos, ?_, hq⟩
      · intro y hy
        refine ⟨fun hm => ?_, fun hm => Or.inr ⟨hn, hlow y hy hm⟩⟩
        rcases List.mem_cons.mp hy with hy | hy
        · rw [hy]
          exact Nat.le_of_lt hlt
        · exact Nat.le_trans (Nat.le_of_lt hlt) ((hbehind y hy).1 hm)
      · intro _ y hy
        obtain rfl : x = y := by simpa using hy
        exact Nat.le_of_lt hlt
    · next hle =>
      have hxn : x.weight ≤ n.weight := Nat.le_of_not_lt hle
      refine ⟨?_, hxpos, ?_, hxs⟩
      · intro y hy
        rcases mem_insertTies.mp hy with hy | hy
        · rw [hy]
          refine ⟨fun _ => hxn, fun hm => ?_⟩
          rw [hn] at hm
          cases hm
        · exact hbehind y hy
      · intro hm y hy
        rcases mem_head?_insertTies hy with hy | hy
        · rw [hy]
          exact hxn
        · exact hnext hm y hy

variable {t total paid : Nat} {a b : Account} {rest : List Account}

/-- The queue after a merge to level `l`, when the shares behind have become those of `rest'`. -/
theorem exists_merged {l : Nat} {rest' : List Account} (hl : 1 ≤ l) (hsame : SameQueue rest rest')
    (hset : Settled rest') (hlow : ∀ z ∈ rest', z.merged = false → z.level ≤ l)
    (hunits : 2 ^ l + units rest' ≤ 2 ^ t)
    (hcov : paid + (a.weight + b.weight) + fresh rest ≤
      total + ((a.weight + b.weight) * l + worth rest')) :
    ∃ q, q.map Account.weight = insertTies id (a.weight + b.weight) (rest.map Account.weight) ∧
      Solvent t total (paid + (a.weight + b.weight)) q := by
  have hperm := insertTies_perm Account.weight ⟨a.weight + b.weight, true, l⟩ rest'
  refine ⟨insertTies Account.weight ⟨a.weight + b.weight, true, l⟩ rest', ?_, ?_, ?_, ?_⟩
  · rw [← hsame.weights]
    exact (insertTies_map Account.weight _ rest' fun _ _ => Iff.rfl).symm
  · exact settled_insertTies hset rfl hl hlow
  · rw [units, (hperm.map _).sum_eq]
    rw [← units, units_cons]
    exact hunits
  · rw [fresh, (hperm.map _).sum_eq, worth, (hperm.map _).sum_eq, ← fresh, ← worth, fresh_cons,
      worth_cons, hsame.fresh_eq]
    simpa using hcov

/-- Shares that nobody holds may raise the first entry. -/
theorem Solvent.raise_first (h : Solvent t total paid (a :: b :: rest))
    (hunits : 2 ^ (a.level + 1) + 2 ^ b.level + units rest ≤ 2 ^ t) :
    Solvent t total paid (a.raise :: b :: rest) := by
  obtain ⟨⟨hbehind, hpos, hnext, hset⟩, -, hcov⟩ := h
  refine ⟨⟨?_, fun _ => Nat.le_add_left _ _, hnext, hset⟩, ?_, ?_⟩
  · exact fun y hy => (hbehind y hy).raise_left
  · rw [units_cons, units_cons, raise_level, ← Nat.add_assoc]
    exact hunits
  · rw [worth_cons, fresh_cons] at hcov ⊢
    rw [raise_merged, raise_weight, raise_level, Nat.mul_succ]
    omega

/-- The same for a second entry that is merged. -/
theorem Solvent.raise_second (h : Solvent t total paid (a :: b :: rest)) (hb : b.merged = true)
    (hunits : 2 ^ (b.level + 1) + 2 ^ a.level + units rest ≤ 2 ^ t) :
    Solvent t total paid (a :: b.raise :: rest) := by
  obtain ⟨⟨hbehind, hpos, hnext, hbehind', hpos', hnext', hset⟩, -, hcov⟩ := h
  refine ⟨⟨?_, hpos, ?_, ?_, fun _ => Nat.le_add_left _ _, hnext', hset⟩, ?_, ?_⟩
  · intro y hy
    rcases List.mem_cons.mp hy with hy | hy
    · rw [hy]
      refine ⟨fun _ => (hbehind b List.mem_cons_self).1 hb, fun hm => ?_⟩
      rw [raise_merged, hb] at hm
      cases hm
    · exact hbehind y (List.mem_cons_of_mem _ hy)
  · intro hm y hy
    obtain rfl : b.raise = y := by simpa using hy
    exact hnext hm b rfl
  · exact fun y hy => (hbehind' y hy).raise_left
  · rw [units_cons, units_cons, raise_level, ← Nat.add_assoc, Nat.add_comm (2 ^ a.level)]
    exact hunits
  · rw [worth_cons, worth_cons, fresh_cons, fresh_cons] at hcov ⊢
    rw [raise_merged, raise_weight, raise_level, Nat.mul_succ]
    omega

/-- A fresh entry behind the first two is on a level that both have. -/
theorem Settled.level_le (h : Settled (a :: b :: rest)) {z : Account} (hz : z ∈ rest)
    (hm : z.merged = false) : z.level ≤ a.level ∧ z.level ≤ b.level := by
  obtain ⟨hbehind, -, -, hbehind', -⟩ := h
  constructor
  · rcases (hbehind z (List.mem_cons_of_mem _ hz)).2 hm with h0 | ⟨-, hle⟩
    · rw [h0]
      exact Nat.zero_le _
    · exact hle
  · rcases (hbehind' z hz).2 hm with h0 | ⟨-, hle⟩
    · rw [h0]
      exact Nat.zero_le _
    · exact hle

/-- Of two entries at the front of which one is merged, the first is not the heavier. -/
theorem Settled.weight_le (h : Settled (a :: b :: rest))
    (hm : a.merged = true ∨ b.merged = true) : a.weight ≤ b.weight := by
  obtain ⟨hbehind, -, hnext, -⟩ := h
  rcases hm with hm | hm
  · exact hnext hm b rfl
  · exact (hbehind b List.mem_cons_self).1 hm

/-- The first entry on the lower level. Its share goes to a heavier entry behind a merged second
    one; if there is none to take it, the first entry is raised. -/
theorem Solvent.merge_or_raise_first (h : Solvent t total paid (a :: b :: rest))
    (hlt : a.level < b.level) :
    (∃ q, q.map Account.weight = insertTies id (a.weight + b.weight) (rest.map Account.weight) ∧
      Solvent t total (paid + (a.weight + b.weight)) q) ∨
    Solvent t total paid (a.raise :: b :: rest) := by
  obtain ⟨hset, hunits, hcov⟩ := id h
  rw [units_cons, units_cons] at hunits
  rw [worth_cons, worth_cons, fresh_cons, fresh_cons] at hcov
  have hrest : Settled rest := hset.2.2.2.2.2.2
  have hgain : a.weight * a.level + a.weight ≤ a.weight * b.level := by
    rw [← Nat.mul_succ]
    exact Nat.mul_le_mul_left _ hlt
  by_cases hb : b.merged = true
  · rcases exists_gift rest hrest (hset.2.2.2.2.2.1 hb) (fun z hz hm => (hset.level_le hz hm).1)
      with hall | ⟨rest', hsame, hset', hlow, hu, hw⟩
    · refine Or.inr (h.raise_first ?_)
      exact units_raise hlt (fun y hy => (hall y hy).2) (by omega)
    · refine Or.inl (exists_merged (Nat.one_le_of_lt hlt) hsame hset'
        (fun z hz hm => Nat.le_trans (hlow z hz hm) hlt) (by omega) ?_)
      rw [Nat.add_mul]
      omega
  · refine Or.inl (exists_merged (Nat.one_le_of_lt hlt) (SameQueue.refl rest) hrest
      (fun z hz hm => (hset.level_le hz hm).2) (Nat.le_of_add_left_le hunits) ?_)
    rw [if_neg hb] at hcov
    rw [Nat.add_mul]
    omega

/-- The second entry on the lower level. A share is only needed if both entries are merged. -/
theorem Solvent.merge_or_raise_second (h : Solvent t total paid (a :: b :: rest))
    (hlt : b.level < a.level) :
    (∃ q, q.map Account.weight = insertTies id (a.weight + b.weight) (rest.map Account.weight) ∧
      Solvent t total (paid + (a.weight + b.weight)) q) ∨
    Solvent t total paid (a :: b.raise :: rest) := by
  obtain ⟨hset, hunits, hcov⟩ := id h
  rw [units_cons, units_cons] at hunits
  rw [worth_cons, worth_cons, fresh_cons, fresh_cons] at hcov
  have hrest : Settled rest := hset.2.2.2.2.2.2
  have hgain : b.weight * b.level + b.weight ≤ b.weight * a.level := by
    rw [← Nat.mul_succ]
    exact Nat.mul_le_mul_left _ hlt
  by_cases hboth : a.merged = true ∧ b.merged = true
  · have hab := hset.weight_le (Or.inl hboth.1)
    rcases exists_gift rest hrest (hset.2.2.2.2.2.1 hboth.2)
      (fun z hz hm => (hset.level_le hz hm).2) with hall | ⟨rest', hsame, hset', hlow, hu, hw⟩
    · refine Or.inr (h.raise_second hboth.2 ?_)
      exact units_raise hlt (fun y hy => (hall y hy).2) (by omega)
    · refine Or.inl (exists_merged (Nat.one_le_of_lt hlt) hsame hset'
        (fun z hz hm => Nat.le_trans (hlow z hz hm) hlt) (by omega) ?_)
      rw [Nat.add_mul]
      omega
  · -- the fresh one pays for itself, and the other weighs no more than the second
    refine Or.inl (exists_merged (Nat.one_le_of_lt hlt) (SameQueue.refl rest) hrest
      (fun z hz hm => (hset.level_le hz hm).1) ?_ ?_)
    · rw [Nat.add_left_comm] at hunits
      exact Nat.le_of_add_left_le hunits
    rw [Nat.add_mul]
    by_cases ha : a.merged = true
    · have hab := hset.weight_le (Or.inl ha)
      rw [if_pos ha, if_neg fun hb => hboth ⟨ha, hb⟩] at hcov
      omega
    · rw [if_neg ha] at hcov
      omega

/-- One round of merging keeps the account. -/
theorem Solvent.merge (d : Nat) (hd : (a.level - b.level) + (b.level - a.level) = d)
    (h : Solvent t total paid (a :: b :: rest)) :
    ∃ q, q.map Account.weight = insertTies id (a.weight + b.weight) (rest.map Account.weight) ∧
      Solvent t total (paid + (a.weight + b.weight)) q := by
  -- on the distance between the two levels
  induction d generalizing a b with
  | zero =>
    have heq : a.level = b.level := by omega
    obtain ⟨hset, hunits, hcov⟩ := id h
    rw [units_cons, units_cons] at hunits
    rw [worth_cons, worth_cons, fresh_cons, fresh_cons] at hcov
    refine exists_merged (l := b.level + 1) (Nat.le_add_left _ _) (SameQueue.refl rest)
      hset.2.2.2.2.2.2 (fun z hz hm => Nat.le_succ_of_le (hset.level_le hz hm).2) ?_ ?_
    · rw [heq] at hunits
      rw [Nat.pow_succ]
      omega
    · rw [heq] at hcov
      rw [Nat.mul_succ, Nat.add_mul]
      omega
  | succ d ih =>
    rcases Nat.lt_or_ge a.level b.level with hlt | hge
    · rcases h.merge_or_raise_first hlt with hq | hraised
      · exact hq
      · exact @ih a.raise b (by rw [raise_level]; omega) hraised
    · rcases h.merge_or_raise_second (by omega) with hq | hraised
      · exact hq
      · exact @ih a b.raise (by rw [raise_level]; omega) hraised

end Account

/-! ## Whole runs -/

open Account

theorem solvent_mergeLoop {w : α → Nat} {t total : Nat} (fuel : Nat) {q : List (CodeTree α)}
    {A : List Account} (hA : A.map Account.weight = q.map (CodeTree.total w))
    (h : Solvent t total (q.map (CodeTree.pathCost w)).sum A) :
    ∃ B : List Account,
      B.map Account.weight = (mergeLoop (CodeTree.total w) .node fuel q).map (CodeTree.total w) ∧
      Solvent t total
        ((mergeLoop (CodeTree.total w) .node fuel q).map (CodeTree.pathCost w)).sum B := by
  induction fuel generalizing q A with
  | zero => exact ⟨A, hA, h⟩
  | succ fuel ih =>
    rcases q with _ | ⟨x, _ | ⟨y, rest⟩⟩
    · exact ⟨A, hA, h⟩
    · exact ⟨A, hA, h⟩
    · obtain ⟨a, A, rfl⟩ := List.exists_cons_of_ne_nil (l := A) (by rintro rfl; cases hA)
      obtain ⟨b, A, rfl⟩ := List.exists_cons_of_ne_nil (l := A) (by rintro rfl; simp at hA)
      simp only [List.map_cons, List.cons.injEq] at hA
      obtain ⟨hx, hy, hrest⟩ := hA
      obtain ⟨B, hB, hsol⟩ := Solvent.merge _ rfl h
      rw [hx, hy, hrest] at hB
      rw [hx, hy] at hsol
      have hins := insertTies_perm (CodeTree.total w) (.node x y) rest
      refine @ih (insertTies (CodeTree.total w) (.node x y) rest) B ?_ ?_
      · rw [hB, ← CodeTree.total_node]
        exact insertTies_map (CodeTree.total w) (CodeTree.node x y) rest fun _ _ => Iff.rfl
      · rw [(hins.map (CodeTree.pathCost w)).sum_eq, List.map_cons, List.sum_cons,
          CodeTree.pathCost_node]
        simp only [List.map_cons, List.sum_cons] at hsol
        rw [show x.pathCost w + y.pathCost w + (x.total w + y.total w) +
            (rest.map (CodeTree.pathCost w)).sum =
          x.pathCost w + (y.pathCost w + (rest.map (CodeTree.pathCost w)).sum) +
            (x.total w + y.total w) by omega]
        exact hsol

/-- At most `2 ^ t` leaves, merged in any order, cost at most `t + 1` times their weight. -/
theorem pathCost_mergeLoop_le_log {w : α → Nat} {t : Nat} {es : List α} {r : CodeTree α}
    (hlen : es.length ≤ 2 ^ t)
    (hr : mergeLoop (CodeTree.total w) .node es.length (es.map .leaf) = [r]) :
    r.pathCost w ≤ (t + 1) * (es.map w).sum := by
  have hstart : Solvent t (es.map w).sum 0 (es.map fun e => ⟨w e, false, 0⟩) := by
    refine ⟨?_, ?_, ?_⟩
    · exact settled_of_fresh fun x hx => by
        obtain ⟨e, -, rfl⟩ := List.mem_map.mp hx
        exact ⟨rfl, rfl⟩
    · rw [units, List.map_map]
      simpa [Function.comp_def] using hlen
    · rw [fresh, List.map_map]
      simp [Function.comp_def]
  have hweights : (es.map fun e => (⟨w e, false, 0⟩ : Account)).map Account.weight =
      (es.map CodeTree.leaf).map (CodeTree.total w) := by
    simp [Function.comp_def, CodeTree.total, CodeTree.leaves]
  have hcosts : ((es.map CodeTree.leaf).map (CodeTree.pathCost w)).sum = 0 := by
    rw [List.map_map, show CodeTree.pathCost w ∘ CodeTree.leaf = fun _ => 0 from
      funext fun e => CodeTree.pathCost_leaf w e]
    simp
  obtain ⟨B, hB, hsol⟩ := solvent_mergeLoop es.length hweights (by rw [hcosts]; exact hstart)
  rw [hr] at hB hsol
  obtain ⟨x, rfl⟩ : ∃ x, B = [x] := by
    refine List.length_eq_one_iff.mp ?_
    simpa using congrArg List.length hB
  obtain ⟨-, hunits, hcov⟩ := hsol
  have hlevel : x.level ≤ t := by
    simp only [units, List.map_singleton, List.sum_singleton] at hunits
    exact (Nat.pow_le_pow_iff_right (by decide)).mp hunits
  have htotal : x.weight = (es.map w).sum := by
    have hperm := mergeLoop_flatMap_perm (CodeTree.total w) CodeTree.node CodeTree.leaves
      (fun _ _ => rfl) es.length (es.map CodeTree.leaf)
    rw [hr] at hperm
    have hxr : x.weight = r.total w := by simpa using hB
    rw [hxr, CodeTree.total]
    refine (List.Perm.map w ?_).sum_eq
    simpa [List.flatMap_map, CodeTree.leaves] using hperm
  simp only [List.map_singleton, List.sum_singleton, worth, htotal] at hcov
  have hle : (es.map w).sum * x.level ≤ (es.map w).sum * t := Nat.mul_le_mul_left _ hlevel
  rw [Nat.add_mul, Nat.one_mul, Nat.mul_comm t]
  omega

end DistHuffman.Lib
