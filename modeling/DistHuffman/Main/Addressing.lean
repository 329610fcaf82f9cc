/-
  Addresses on the bus. `autoAddress` is `auto_address` of the worker: give up the slave address,
  probe from the last `workerID` on until nobody answers, and answer there. `scanI2c` is `scan_i2c`
  of the controller, which counts the workers from the base address up to the first gap.

  `i2c_start_timeout` is taken as the bus defines it: it returns 0 exactly if another device
  answers, and the devices are the workers and the FRAM. One run of `auto_address` at a time, so a
  worker that probes sees the others at rest.

  The first part is about presses of button A alone. `scan_overruns_iff` says when the scan runs
  over the end of the controller's table, and `scan_stops_at_gap` what is left of the first part
  when boards lose their power in between.
-/
import DistHuffman.Main.Memory
import DistHuffman.Slave.Isr
import Mathlib.Data.List.FinRange
import Mathlib.Data.Fintype.Card

namespace DistHuffman.Main

open DistHuffman.Lib DistHuffman.Slave

def i2cSlaveBaseId : UInt8 := 0x20

def i2cRead : UInt8 := 1

/-- A worker as far as its address goes: `workerID` and the registers `TWAR` and `TWCR`. -/
structure Station where
  workerID : UInt8
  twar : UInt8
  twcr : UInt8
  deriving DecidableEq

def i2cSlaveInit (st : Station) (address : UInt8) : Station :=
  { st with twar := address <<< 1, twcr := twie ||| twea ||| twint ||| twen }

def i2cSlaveStop (st : Station) : Station := { st with twcr := st.twcr &&& ~~~(twea ||| twen) }

/-- Address matching is on. -/
def Station.listens (st : Station) : Bool := (st.twcr &&& (twea ||| twen)) == (twea ||| twen)

/-- The slave address in `TWAR`. -/
def Station.address (st : Station) : UInt8 := st.twar >>> 1

/-- Bit 0 of an address byte is the direction. -/
def Station.answers (st : Station) (address : UInt8) : Bool :=
  st.listens && (address &&& 0xFE) == (st.twar &&& 0xFE)

section Boards

variable {n : Nat}

/-- `i2c_start_timeout` called by worker `me`, or by the controller. -/
def i2cStartTimeout (s : Fin n → Station) (me : Option (Fin n)) (address : UInt8) : UInt8 :=
  if (address &&& (0xFE : UInt8)) == mb85rcDefaultAddress <<< 1 ||
      (List.finRange n).any fun j => some j != me && (s j).answers address
  then 0 else 1

/-- The loop of `auto_address`. The bus does not change meanwhile, so 256 failures in a row repeat
    for ever. -/
def addressLoop (start : UInt8 → UInt8) : Nat → UInt8 → Option UInt8
  | 0, _ => none
  | fuel + 1, workerID =>
      if start ((workerID <<< 1) ||| i2cRead) = 0 then addressLoop start fuel (workerID + 1)
      else some workerID

def autoAddress (s : Fin n → Station) (i : Fin n) : Option (Fin n → Station) := do
  let s := Function.update s i (i2cSlaveStop (s i))
  let workerID ← addressLoop (i2cStartTimeout s (some i)) 256 (s i).workerID
  return Function.update s i (i2cSlaveInit { s i with workerID := workerID } workerID)

/-- The loop of `scan_i2c`: `count` and the entries of `workers` filled so far. -/
def scanLoop (start : UInt8 → UInt8) :
    Nat → UInt8 × List UInt8 → UInt8 → Option (UInt8 × List UInt8)
  | 0, _, _ => none
  | fuel + 1, found, workerID =>
      if start ((workerID <<< 1) ||| i2cRead) = 0 then
        scanLoop start fuel (found.1 + 1, found.2 ++ [workerID]) (workerID + 1)
      else some found

def scanI2c (s : Fin n → Station) : Option (UInt8 × List UInt8) :=
  scanLoop (i2cStartTimeout s none) 256 (0, []) i2cSlaveBaseId

/-- The addresses at which workers answer, in the order of the boards. -/
def claimed (s : Fin n → Station) : List UInt8 :=
  ((List.finRange n).filter fun i => (s i).listens).map fun i => (s i).address

/-! ## The two loops -/

/-- `0x20 + k` -/
def idAt (k : Nat) : UInt8 := i2cSlaveBaseId + UInt8.ofNat k

theorem idAt_succ (k : Nat) : idAt k + 1 = idAt (k + 1) := by
  rw [idAt, idAt, UInt8.ofNat_add, UInt8.add_assoc]
  rfl

theorem addressLoop_eq {start : UInt8 → UInt8} {fuel k m : Nat} (hm : m < fuel)
    (hbusy : ∀ j, k ≤ j → j < k + m → start ((idAt j <<< 1) ||| i2cRead) = 0)
    (hfree : start ((idAt (k + m) <<< 1) ||| i2cRead) ≠ 0) :
    addressLoop start fuel (idAt k) = some (idAt (k + m)) := by
  induction m generalizing fuel k with
  | zero =>
    obtain ⟨fuel, rfl⟩ : ∃ f, fuel = f + 1 := ⟨fuel - 1, by omega⟩
    exact if_neg hfree
  | succ m ih =>
    obtain ⟨fuel, rfl⟩ : ∃ f, fuel = f + 1 := ⟨fuel - 1, by omega⟩
    rw [addressLoop, if_pos (hbusy k (Nat.le_refl k) (by omega)), idAt_succ,
      ih (by omega) (fun j hj hj' => hbusy j (by omega) (by omega))
        (by rwa [Nat.add_assoc, Nat.add_comm 1 m]), Nat.add_assoc, Nat.add_comm 1 m]

theorem scanLoop_eq {start : UInt8 → UInt8} {fuel k m : Nat} (hm : m < fuel)
    (hbusy : ∀ j, k ≤ j → j < k + m → start ((idAt j <<< 1) ||| i2cRead) = 0)
    (hfree : start ((idAt (k + m) <<< 1) ||| i2cRead) ≠ 0) (found : UInt8 × List UInt8) :
    scanLoop start fuel found (idAt k) =
      some (found.1 + UInt8.ofNat m, found.2 ++ (List.range' k m).map idAt) := by
  induction m generalizing fuel k found with
  | zero =>
    obtain ⟨fuel, rfl⟩ : ∃ f, fuel = f + 1 := ⟨fuel - 1, by omega⟩
    refine (if_neg hfree).trans ?_
    simp
  | succ m ih =>
    obtain ⟨fuel, rfl⟩ : ∃ f, fuel = f + 1 := ⟨fuel - 1, by omega⟩
    rw [scanLoop, if_pos (hbusy k (Nat.le_refl k) (by omega)), idAt_succ,
      ih (by omega) (fun j hj hj' => hbusy j (by omega) (by omega))
        (by rwa [Nat.add_assoc, Nat.add_comm 1 m])]
    rw [List.range'_succ, List.map_cons, List.append_assoc, List.singleton_append, UInt8.add_assoc,
      Nat.add_comm m 1, UInt8.ofNat_add]
    rfl

/-! ## Assigned addresses -/

/-- A worker that was never addressed. -/
def Fresh (st : Station) : Prop := st.workerID = i2cSlaveBaseId ∧ st.twcr = 0

/-- The worker at address `0x20 + k`. -/
def stationAt (k : Nat) : Station := ⟨idAt k, idAt k <<< 1, twie ||| twea ||| twint ||| twen⟩

/-- The boards in `order` have the addresses from the base on, and the others are fresh. -/
structure Assigned (s : Fin n → Station) (order : List (Fin n)) : Prop where
  nodup : order.Nodup
  at_index : ∀ k (h : k < order.length), s order[k] = stationAt k
  fresh : ∀ i, i ∉ order → Fresh (s i)

theorem Assigned.length_le {s : Fin n → Station} {order : List (Fin n)} (h : Assigned s order) :
    order.length ≤ n := by
  have := h.nodup.length_le_card
  rwa [Fintype.card_fin] at this

/-- Below 0x2B the address bytes differ, and none is the FRAM's. -/
theorem address_byte_facts : ∀ k ≤ 10,
    (((idAt k <<< 1) ||| i2cRead) &&& (0xFE : UInt8)) ≠ mb85rcDefaultAddress <<< 1 ∧
      ∀ j ≤ 10, (((idAt k <<< 1) ||| i2cRead) &&& (0xFE : UInt8)) =
        ((idAt j <<< 1) &&& (0xFE : UInt8)) → k = j := by
  decide +kernel

theorem answers_self : ∀ k ≤ 10, (stationAt k).answers ((idAt k <<< 1) ||| i2cRead) = true := by
  decide +kernel

theorem not_answers_of_fresh {st : Station} (h : Fresh st) (address : UInt8) :
    st.answers address = false := by
  have hl : st.listens = false := by
    rw [Station.listens, h.2]
    decide
  rw [Station.answers, hl, Bool.false_and]

section Probe

variable {s : Fin n → Station} {order : List (Fin n)} {me : Option (Fin n)}

/-- Address `0x20 + k` is taken by the board at place `k`. -/
theorem start_taken (h : Assigned s order) (hn : n ≤ 10) {k : Nat} (hk : k < order.length)
    (hme : some order[k] ≠ me) : i2cStartTimeout s me ((idAt k <<< 1) ||| i2cRead) = 0 := by
  have hlen := h.length_le
  refine if_pos ?_
  rw [Bool.or_eq_true]
  right
  rw [List.any_eq_true]
  refine ⟨order[k], List.mem_finRange _, ?_⟩
  rw [h.at_index k hk, answers_self k (by omega), Bool.and_true]
  simpa using hme

/-- Address `0x20 + k` is free for a prober when no other board has place `k`. -/
theorem start_free {k : Nat} (hk : k ≤ 10)
    (hothers : ∀ j, some j ≠ me →
      Fresh (s j) ∨ ∃ k' ≤ 10, s j = stationAt k' ∧ k ≠ k') :
    i2cStartTimeout s me ((idAt k <<< 1) ||| i2cRead) ≠ 0 := by
  obtain ⟨hfram, hdiff⟩ := address_byte_facts k hk
  unfold i2cStartTimeout
  rw [if_neg]
  · decide
  · rw [Bool.or_eq_true, List.any_eq_true]
    intro hbusy
    rcases hbusy with hbusy | ⟨j, -, hj⟩
    · exact hfram (by simpa using hbusy)
    · rw [Bool.and_eq_true] at hj
      rcases hothers j (by simpa using hj.1) with hf | ⟨k', hk', hs, hne⟩
      · rw [not_answers_of_fresh hf] at hj
        exact absurd hj.2 (by decide)
      · rw [hs, Station.answers, Bool.and_eq_true, beq_iff_eq] at hj
        exact hne (hdiff k' hk' hj.2.2)

end Probe

/-! ## Presses of button A -/

theorem Assigned.cases {s : Fin n → Station} {order : List (Fin n)} (h : Assigned s order)
    (j : Fin n) :
    (j ∉ order ∧ Fresh (s j)) ∨ ∃ k, ∃ hk : k < order.length, order[k] = j ∧ s j = stationAt k := by
  by_cases hj : j ∈ order
  · obtain ⟨k, hk, hkj⟩ := List.getElem_of_mem hj
    refine Or.inr ⟨k, hk, hkj, ?_⟩
    rw [← hkj, h.at_index k hk]
  · exact Or.inl ⟨hj, h.fresh j hj⟩

/-- Whoever probes from the base on finds the first free address behind the assigned ones. -/
theorem Assigned.probe {s : Fin n → Station} {order : List (Fin n)} (h : Assigned s order)
    (hn : n ≤ 10) {me : Option (Fin n)} (hme : ∀ i ∈ order, some i ≠ me) :
    (∀ j, 0 ≤ j → j < 0 + order.length →
      i2cStartTimeout s me ((idAt j <<< 1) ||| i2cRead) = 0) ∧
      i2cStartTimeout s me ((idAt (0 + order.length) <<< 1) ||| i2cRead) ≠ 0 := by
  have hlen := h.length_le
  constructor
  · intro j _ hj
    have hj' : j < order.length := by omega
    exact start_taken h hn hj' (hme _ (List.getElem_mem hj'))
  · refine start_free (by omega) ?_
    intro j _
    rcases h.cases j with ⟨-, hf⟩ | ⟨k', hk', -, hs⟩
    · exact Or.inl hf
    · exact Or.inr ⟨k', by omega, hs, by omega⟩

end Boards

section Overrun

variable {n : Nat}

/-- The number of entries of `workers` in `processData`. -/
def workersSize : Nat := 10

/-- The scan stores an address behind the end of `workers`; it does so too if it never ends. -/
def ScanOverruns (s : Fin n → Station) : Prop :=
  ∀ found, scanI2c s = some found → workersSize < found.2.length

theorem scanLoop_taken {start : UInt8 → UInt8} {k m : Nat}
    (hbusy : ∀ j, k ≤ j → j < k + m → start ((idAt j <<< 1) ||| i2cRead) = 0) (fuel : Nat)
    (found : UInt8 × List UInt8) :
    ∃ count, scanLoop start (fuel + m) found (idAt k) =
      scanLoop start fuel (count, found.2 ++ (List.range' k m).map idAt) (idAt (k + m)) := by
  induction m generalizing k found with
  | zero => exact ⟨found.1, by simp⟩
  | succ m ih =>
    obtain ⟨count, hrest⟩ := ih (k := k + 1)
      (fun j hj hj' => hbusy j (by omega) (by omega)) (found.1 + 1, found.2 ++ [idAt k])
    refine ⟨count, ?_⟩
    rw [← Nat.add_assoc, scanLoop, if_pos (hbusy k (Nat.le_refl k) (by omega)), idAt_succ, hrest,
      List.range'_succ, List.map_cons, List.append_assoc, List.singleton_append,
      Nat.add_assoc k 1 m, Nat.add_comm 1 m]

theorem length_le_of_scanLoop {start : UInt8 → UInt8} {fuel : Nat} {found r : UInt8 × List UInt8}
    {workerID : UInt8} (h : scanLoop start fuel found workerID = some r) :
    found.2.length ≤ r.2.length := by
  induction fuel generalizing found workerID with
  | zero => cases h
  | succ fuel ih =>
    rw [scanLoop] at h
    split_ifs at h
    · have hle := ih h
      rw [List.length_append] at hle
      exact Nat.le_trans (Nat.le_add_right _ _) hle
    · cases h
      exact Nat.le_refl _

theorem start_eq_zero_iff (s : Fin n → Station) (me : Option (Fin n)) {k : Nat} (hk : k ≤ 10) :
    i2cStartTimeout s me ((idAt k <<< 1) ||| i2cRead) = 0 ↔
      ∃ j, some j ≠ me ∧ (s j).answers ((idAt k <<< 1) ||| i2cRead) = true := by
  have hfram : ∀ k ≤ 10, ((((idAt k <<< 1) ||| i2cRead) &&& (0xFE : UInt8)) ==
      mb85rcDefaultAddress <<< 1) = false := by decide
  unfold i2cStartTimeout
  rw [hfram k hk, Bool.false_or]
  simp

/-- A board answers at `0x20 + k`. -/
def TakenAt (s : Fin n → Station) (k : Nat) : Prop :=
  ∃ j, (s j).answers ((idAt k <<< 1) ||| i2cRead) = true

theorem start_controller_iff (s : Fin n → Station) {k : Nat} (hk : k ≤ 10) :
    i2cStartTimeout s none ((idAt k <<< 1) ||| i2cRead) = 0 ↔ TakenAt s k := by
  rw [start_eq_zero_iff s none hk]
  exact ⟨fun ⟨j, _, hj⟩ => ⟨j, hj⟩, fun ⟨j, hj⟩ => ⟨j, Option.some_ne_none j, hj⟩⟩

/-- The scan ends at the first address where nobody answers. -/
theorem scanI2c_gap {s : Fin n → Station} {m : Nat} (hm : m ≤ 10)
    (hbusy : ∀ k < m, TakenAt s k) (hfree : ¬ TakenAt s m) :
    scanI2c s = some (UInt8.ofNat m, (List.range m).map idAt) := by
  have hloop := @scanLoop_eq (i2cStartTimeout s none) 256 0 m (by omega)
    (fun j _ hj => (start_controller_iff s (by omega)).mpr (hbusy j (by omega)))
    (by rwa [Nat.zero_add, Ne, start_controller_iff s hm]) (0, [])
  rw [scanI2c, show i2cSlaveBaseId = idAt 0 by decide, hloop, UInt8.zero_add, List.nil_append,
    ← List.range_eq_range']

/-- The least number without a property, below one that has not got it. -/
theorem exists_first_gap {P : Nat → Prop} {b : Nat} (hb : ¬ P b) :
    ∃ m ≤ b, (∀ k < m, P k) ∧ ¬ P m := by
  classical
  have hsome : ∃ m, ¬ P m := ⟨b, hb⟩
  exact ⟨Nat.find hsome, Nat.find_min' hsome hb,
    fun k hk => not_not.mp (Nat.find_min hsome hk), Nat.find_spec hsome⟩

/-- **The scan runs over the end of `workers` exactly if eleven boards answer in a row** from the
    base address on, whatever else is on the bus. -/
theorem scan_overruns_iff (s : Fin n → Station) :
    ScanOverruns s ↔ ∀ k ≤ workersSize, ∃ j, (s j).answers ((idAt k <<< 1) ||| i2cRead) = true := by
  constructor
  · intro hover k hk
    by_contra hfree
    -- the first address without an answer ends the scan, with at most ten entries
    obtain ⟨m, hmk, hbusy, hgap⟩ := exists_first_gap (P := TakenAt s) hfree
    have hm : m ≤ workersSize := Nat.le_trans hmk hk
    have hlong := hover _ (scanI2c_gap hm hbusy hgap)
    rw [List.length_map, List.length_range] at hlong
    exact Nat.not_lt.mpr hm hlong
  · intro hall found hscan
    have hbusy : ∀ j, 0 ≤ j → j < 0 + 11 →
        i2cStartTimeout s none ((idAt j <<< 1) ||| i2cRead) = 0 := fun j _ hj => by
      have hle : j ≤ workersSize := Nat.le_of_lt_succ (by rwa [Nat.zero_add] at hj)
      exact (start_controller_iff s hle).mpr (hall j hle)
    obtain ⟨count, htaken⟩ := scanLoop_taken hbusy 245 (0, [])
    rw [scanI2c, show i2cSlaveBaseId = idAt 0 by decide, htaken] at hscan
    exact length_le_of_scanLoop hscan

end Overrun

/-! ## Boards that lose power -/

/-- What happens to a board: its button A is pressed, or it loses its power and is started again. -/
inductive Happening (n : Nat) where
  | press (i : Fin n)
  | powerCycle (i : Fin n)

/-- A board after its reset. -/
def resetStation : Station := ⟨i2cSlaveBaseId, 0xFE, 0⟩

def Happening.on {n : Nat} (s : Fin n → Station) : Happening n → Option (Fin n → Station)
  | .press i => autoAddress s i
  | .powerCycle i => some (Function.update s i resetStation)

/-- Every board is fresh or has an address that no other board has; there may be gaps. -/
structure Scattered {n : Nat} (s : Fin n → Station) : Prop where
  place : ∀ i, Fresh (s i) ∨ ∃ k ≤ 10, s i = stationAt k
  apart : ∀ i j k, s i = stationAt k → s j = stationAt k → i = j

section Scattering

variable {n : Nat} {s : Fin n → Station}

theorem Fresh.ne_stationAt {st : Station} (h : Fresh st) (k : Nat) : st ≠ stationAt k := by
  rintro rfl
  have htwcr : twie ||| twea ||| twint ||| twen = 0 := h.2
  exact absurd htwcr (by decide)

theorem answers_stationAt : ∀ k ≤ 10, ∀ k' ≤ 10,
    (stationAt k').answers ((idAt k <<< 1) ||| i2cRead) = true → k' = k := by
  decide +kernel

theorem listens_stationAt : ∀ k ≤ 10,
    (stationAt k).listens = true ∧ (stationAt k).address = idAt k := by
  decide +kernel

theorem idAt_inj : ∀ j ≤ 10, ∀ k ≤ 10, idAt j = idAt k → j = k := by
  decide +kernel

theorem Scattered.answers_iff (h : Scattered s) {k : Nat} (hk : k ≤ 10) (j : Fin n) :
    (s j).answers ((idAt k <<< 1) ||| i2cRead) = true ↔ s j = stationAt k := by
  constructor
  · intro hans
    rcases h.place j with hf | ⟨k', hk', hs⟩
    · rw [not_answers_of_fresh hf] at hans
      cases hans
    · rw [hs] at hans ⊢
      rw [answers_stationAt k hk k' hk' hans]
  · intro hs
    rw [hs]
    exact answers_self k hk

theorem Scattered.takenAt_iff (h : Scattered s) {k : Nat} (hk : k ≤ 10) :
    TakenAt s k ↔ ∃ j, s j = stationAt k :=
  exists_congr fun j => h.answers_iff hk j

/-- There are fewer boards than addresses to try. -/
theorem Scattered.exists_free (h : Scattered s) (hn : n ≤ 10) : ∃ m ≤ n, ¬ TakenAt s m := by
  by_contra hno
  have hall : ∀ k : Fin (n + 1), ∃ j, s j = stationAt k := by
    intro k
    have hk : k.val ≤ n := Nat.le_of_lt_succ k.isLt
    by_contra hfree
    exact hno ⟨k, hk, fun ht => hfree ((h.takenAt_iff (Nat.le_trans hk hn)).mp ht)⟩
  choose f hf using hall
  have hinj : Function.Injective f := by
    intro k k' hkk
    have hs := hf k
    rw [hkk, hf k'] at hs
    have hid : idAt k' = idAt k := congrArg Station.workerID hs
    exact Fin.ext (idAt_inj _ (by omega) _ (by omega) hid).symm
  have hcard := Fintype.card_le_of_injective f hinj
  rw [Fintype.card_fin, Fintype.card_fin] at hcard
  omega

theorem Scattered.update (h : Scattered s) {i : Fin n} {st : Station}
    (hst : Fresh st ∨ ∃ k ≤ 10, st = stationAt k ∧ ∀ j ≠ i, s j ≠ stationAt k) :
    Scattered (Function.update s i st) := by
  -- another board at the place of `i` has a place that `st` leaves free
  have hother : ∀ j k, j ≠ i → s j = stationAt k → st ≠ stationAt k := by
    intro j k hji hj heq
    rcases hst with hf | ⟨k', hk', rfl, hfree⟩
    · exact hf.ne_stationAt k heq
    · exact hfree j hji (hj.trans heq.symm)
  constructor
  · intro j
    by_cases hji : j = i
    · rw [hji, Function.update_self]
      exact hst.imp id fun ⟨k, hk, heq, _⟩ => ⟨k, hk, heq⟩
    · rw [Function.update_of_ne hji]
      exact h.place j
  · intro j j' k hj hj'
    by_cases hji : j = i <;> by_cases hji' : j' = i
    · rw [hji, hji']
    · rw [hji, Function.update_self] at hj
      rw [Function.update_of_ne hji'] at hj'
      exact absurd hj (hother j' k hji' hj')
    · rw [hji', Function.update_self] at hj'
      rw [Function.update_of_ne hji] at hj
      exact absurd hj' (hother j k hji hj)
    · rw [Function.update_of_ne hji] at hj
      rw [Function.update_of_ne hji'] at hj'
      exact h.apart j j' k hj hj'

/-- What board `i` finds at `0x20 + k` while it does not answer itself. -/
theorem Scattered.start_iff (h : Scattered s) (i : Fin n) (st : Station) {k : Nat} (hk : k ≤ 10) :
    i2cStartTimeout (Function.update s i st) (some i) ((idAt k <<< 1) ||| i2cRead) = 0 ↔
      ∃ j ≠ i, s j = stationAt k := by
  rw [start_eq_zero_iff _ _ hk]
  refine exists_congr fun j => ?_
  rw [Ne, Option.some.injEq]
  refine and_congr_right fun hji => ?_
  rw [Function.update_of_ne hji, h.answers_iff hk]

/-- A board without an address takes the first one that is free. -/
theorem Scattered.press_fresh (h : Scattered s) {i : Fin n} (hi : Fresh (s i)) {m : Nat}
    (hm : m ≤ 10) (hbusy : ∀ k < m, TakenAt s k) (hfree : ¬ TakenAt s m) :
    autoAddress s i = some (Function.update s i (stationAt m)) := by
  have hstop : i2cSlaveStop (s i) = s i := by
    rw [i2cSlaveStop, hi.2, UInt8.zero_and, ← hi.2]
  have hstart : ∀ k ≤ 10, i2cStartTimeout s (some i) ((idAt k <<< 1) ||| i2cRead) = 0 ↔
      TakenAt s k := by
    intro k hk
    have hiff := h.start_iff i (s i) hk
    rw [Function.update_eq_self] at hiff
    rw [hiff, h.takenAt_iff hk]
    refine exists_congr fun j => and_iff_right_of_imp ?_
    rintro hj rfl
    exact hi.ne_stationAt k hj
  have hloop := @addressLoop_eq (i2cStartTimeout s (some i)) 256 0 m (by omega)
    (fun j _ hj => (hstart j (by omega)).mpr (hbusy j (by omega)))
    (by rwa [Nat.zero_add, Ne, hstart m hm])
  unfold autoAddress
  simp only [hstop, Function.update_eq_self]
  rw [hi.1, show i2cSlaveBaseId = idAt 0 by decide, hloop, Nat.zero_add]
  rfl

/-- A board with an address finds it free and keeps it, also with gaps below. -/
theorem Scattered.press_again (h : Scattered s) {i : Fin n} {k : Nat} (hk : k ≤ 10)
    (hi : s i = stationAt k) : autoAddress s i = some s := by
  have hfree : i2cStartTimeout (Function.update s i (i2cSlaveStop (s i))) (some i)
      ((idAt (k + 0) <<< 1) ||| i2cRead) ≠ 0 := by
    rw [Nat.add_zero, Ne, h.start_iff i _ hk]
    rintro ⟨j, hji, hj⟩
    exact hji (h.apart j i k hj hi)
  have hloop := @addressLoop_eq _ 256 k 0 (by decide) (fun j hj hj' => absurd hj' (by omega)) hfree
  unfold autoAddress
  simp only [Function.update_self, Function.update_idem]
  rw [show (i2cSlaveStop (s i)).workerID = idAt k by rw [hi]; rfl, hloop]
  refine congrArg some ?_
  rw [hi]
  exact (congrArg (Function.update s i) hi.symm).trans (Function.update_eq_self i s)

theorem Scattered.exists_gap (h : Scattered s) (hn : n ≤ 10) :
    ∃ m ≤ n, (∀ k < m, TakenAt s k) ∧ ¬ TakenAt s m := by
  obtain ⟨b, hb, hfree⟩ := h.exists_free hn
  obtain ⟨m, hm, hgap⟩ := exists_first_gap hfree
  exact ⟨m, Nat.le_trans hm hb, hgap⟩

theorem scattered_step (h : Scattered s) (hn : n ≤ 10) (e : Happening n) :
    ∃ s', e.on s = some s' ∧ Scattered s' := by
  cases e with
  | powerCycle i => exact ⟨_, rfl, h.update (Or.inl ⟨rfl, rfl⟩)⟩
  | press i =>
    rcases h.place i with hi | ⟨k, hk, hi⟩
    · obtain ⟨m, hm, hbusy, hfree⟩ := h.exists_gap hn
      have hm10 := Nat.le_trans hm hn
      refine ⟨_, h.press_fresh hi hm10 hbusy hfree, h.update (Or.inr ⟨m, hm10, rfl, ?_⟩)⟩
      intro j _ hj
      exact hfree ((h.takenAt_iff hm10).mpr ⟨j, hj⟩)
    · exact ⟨s, h.press_again hk hi, h⟩

theorem scattered_run (h : Scattered s) (hn : n ≤ 10) (happened : List (Happening n)) :
    ∃ s', happened.foldlM Happening.on s = some s' ∧ Scattered s' := by
  induction happened generalizing s with
  | nil => exact ⟨s, rfl, h⟩
  | cons e happened ih =>
    obtain ⟨s1, hstep, h1⟩ := scattered_step h hn e
    obtain ⟨s2, hrest, h2⟩ := ih h1
    refine ⟨s2, ?_, h2⟩
    rw [List.foldlM_cons, hstep]
    exact hrest

theorem Scattered.place_of_listens (h : Scattered s) {i : Fin n} (hon : (s i).listens = true) :
    ∃ k ≤ 10, s i = stationAt k := by
  refine (h.place i).resolve_left fun hf => ?_
  rw [Station.listens, hf.2] at hon
  exact absurd hon (by decide)

theorem Scattered.mem_claimed (h : Scattered s) {k : Nat} (hk : k ≤ 10) :
    idAt k ∈ claimed s ↔ TakenAt s k := by
  rw [h.takenAt_iff hk, claimed, List.mem_map]
  refine exists_congr fun i => ?_
  rw [List.mem_filter, and_iff_right (List.mem_finRange i)]
  constructor
  · rintro ⟨hon, haddr⟩
    obtain ⟨k', hk', hs⟩ := h.place_of_listens hon
    rw [hs, (listens_stationAt k' hk').2] at haddr
    rw [hs, idAt_inj k' hk' k hk haddr]
  · intro hs
    rw [hs]
    exact listens_stationAt k hk

theorem Scattered.claimed_nodup (h : Scattered s) : (claimed s).Nodup := by
  refine List.Nodup.map_on ?_ ((List.nodup_finRange n).filter _)
  intro i hi j hj haddr
  obtain ⟨k, hk, hsi⟩ := h.place_of_listens (List.mem_filter.mp hi).2
  obtain ⟨k', hk', hsj⟩ := h.place_of_listens (List.mem_filter.mp hj).2
  rw [hsi, hsj, (listens_stationAt k hk).2, (listens_stationAt k' hk').2] at haddr
  rw [idAt_inj k hk k' hk' haddr] at hsi
  exact h.apart i j k' hsi hsj

/-- **After any presses of button A and any losses of power, no address is claimed twice and the
    controller finds the boards below the first gap only.** The next board without an address that
    is pressed closes the gap. -/
theorem scan_stops_at_gap (hn : n ≤ 10) (h0 : ∀ i, Fresh (s i)) (happened : List (Happening n)) :
    ∃ s' m, happened.foldlM Happening.on s = some s' ∧ m ≤ n ∧ (claimed s').Nodup ∧
      (∀ k < m, idAt k ∈ claimed s') ∧ idAt m ∉ claimed s' ∧
      scanI2c s' = some (UInt8.ofNat m, (List.range m).map idAt) ∧
      ∀ i, Fresh (s' i) → autoAddress s' i = some (Function.update s' i (stationAt m)) := by
  have hstart : Scattered s :=
    ⟨fun i => Or.inl (h0 i), fun i _ k hi => absurd hi ((h0 i).ne_stationAt k)⟩
  obtain ⟨s', hrun, h⟩ := scattered_run hstart hn happened
  obtain ⟨m, hm, hbusy, hfree⟩ := h.exists_gap hn
  have hm10 := Nat.le_trans hm hn
  refine ⟨s', m, hrun, hm, h.claimed_nodup, ?_, ?_, scanI2c_gap hm10 hbusy hfree, ?_⟩
  · intro k hk
    exact (h.mem_claimed (by omega)).mpr (hbusy k hk)
  · rwa [h.mem_claimed hm10]
  · intro i hi
    exact h.press_fresh hi hm10 hbusy hfree

/-- Three boards, pressed one after the other, and the second one loses its power. -/
def secondLost : List (Happening 3) := [.press 0, .press 1, .press 2, .powerCycle 1]

theorem scan_stops_at_second :
    ∃ s' m, secondLost.foldlM Happening.on (fun _ => resetStation) = some s' ∧
      (claimed s').Nodup ∧ idAt m ∉ claimed s' ∧
      scanI2c s' = some (UInt8.ofNat m, (List.range m).map idAt) := by
  obtain ⟨s', m, hrun, -, hnd, -, hfree, hscan, -⟩ :=
    scan_stops_at_gap (s := fun _ => resetStation) (by decide) (fun _ => ⟨rfl, rfl⟩) secondLost
  exact ⟨s', m, hrun, hnd, hfree, hscan⟩

/-- The third board still answers at 0x22, and the controller works with the first one alone. -/
example : (secondLost.foldlM Happening.on fun _ => resetStation).map
    (fun s => (claimed s, scanI2c s)) = some ([0x20, 0x22], some (1, [0x20])) := by
  decide +kernel

end Scattering

end DistHuffman.Main
