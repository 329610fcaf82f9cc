/-
  What `output_datastream` reads of a file, and whether it ends. `address` is a 16-bit variable that
  goes on by 8, so it keeps its residue modulo 8, and it passes the end of the file only if some
  address with that residue does. If the end is above the highest one, 65528 plus the residue, the
  loop starts again from the bottom of the FRAM and never ends (`outputReads_never`). Otherwise it
  reads the bytes of the file one after the other (`outputReads_all`).
-/
import DistHuffman.Main.Files

namespace DistHuffman.Main

/-- `size` of the read at `address`. -/
def readSize (f : File) (address : UInt16) : UInt16 :=
  if f.end_ - address > 8 then 8 else f.end_ - address

/-- The calls of `i2c_readReg` in the loop of `output_datastream`: address and size. -/
def outputReads (f : File) : Nat → UInt16 → Option (List (UInt16 × UInt16))
  | 0, _ => none
  | fuel + 1, address =>
      if address < f.end_ then
        (outputReads f fuel (address + 8)).map ((address, readSize f address) :: ·)
      else some []

/-- The addresses that are read, in order. -/
def addressesRead (reads : List (UInt16 × UInt16)) : List Nat :=
  reads.flatMap fun r => List.range' r.1.toNat r.2.toNat

/-- The loop ends, and if the file has a length, every byte of it was read once and no other. -/
def EndsReading (f : File) : Prop :=
  ∃ fuel reads, outputReads f fuel f.start = some reads ∧
    (f.start.toNat ≤ f.end_.toNat →
      addressesRead reads = List.range' f.start.toNat (f.end_.toNat - f.start.toNat))

variable {f : File}

theorem outputReads_more {address : UInt16} (h : address < f.end_) (fuel : Nat) :
    outputReads f (fuel + 1) address =
      (outputReads f fuel (address + 8)).map ((address, readSize f address) :: ·) := if_pos h

theorem outputReads_done {address : UInt16} (h : ¬ address < f.end_) (fuel : Nat) :
    outputReads f (fuel + 1) address = some [] := if_neg h

/-- The text that is printed for one read. -/
def piece (fram : Fram) (f : File) (r : UInt16 × UInt16) : List UInt8 :=
  cString (if r.1 + 8 = f.start ∧ (fram.read r.1 r.2.toNat).headD 0 = 42
    then (fram.read r.1 r.2.toNat).drop 1 else fram.read r.1 r.2.toNat)

/-- The loop prints a piece for each of its reads. -/
theorem outputLoop_eq (fram : Fram) (f : File) (fuel : Nat) (address : UInt16) :
    outputLoop fram f fuel address =
      (outputReads f fuel address).map (List.map (piece fram f)) := by
  induction fuel generalizing address with
  | zero => rfl
  | succ fuel ih =>
    unfold outputLoop
    by_cases hlt : address < f.end_
    · rw [if_pos hlt, outputReads_more hlt]
      dsimp only
      rw [ih]
      cases outputReads f fuel (address + 8) with
      | none => rfl
      | some reads => rfl
    · rw [if_neg hlt, outputReads_done hlt]
      rfl

/-! ## Addresses -/

theorem toNat_add_eight (address : UInt16) : (address + 8).toNat = (address.toNat + 8) % 65536 :=
  UInt16.toNat_add address 8

/-- All addresses of the loop have one residue, so none is above 65528 plus that. -/
theorem outputReads_never {address : UInt16} (h : 65528 + address.toNat % 8 < f.end_.toNat)
    (fuel : Nat) : outputReads f fuel address = none := by
  induction fuel generalizing address with
  | zero => rfl
  | succ fuel ih =>
    have hword := address.toNat_lt
    have hlt : address < f.end_ := UInt16.lt_iff_toNat_lt.mpr (by omega)
    have hnext : 65528 + (address + 8).toNat % 8 < f.end_.toNat := by
      rw [toNat_add_eight]
      omega
    rw [outputReads_more hlt, ih hnext]
    rfl

theorem toNat_readSize {address : UInt16} (h : address.toNat < f.end_.toNat) :
    (readSize f address).toNat = min 8 (f.end_.toNat - address.toNat) := by
  have hsub : (f.end_ - address).toNat = f.end_.toNat - address.toNat :=
    UInt16.toNat_sub_of_le _ _ (UInt16.le_iff_toNat_le.mpr (Nat.le_of_lt h))
  unfold readSize
  by_cases hlong : f.end_ - address > 8
  · have : 8 < f.end_.toNat - address.toNat := by
      rw [← hsub]
      exact UInt16.lt_iff_toNat_lt.mp hlong
    rw [if_pos hlong, Nat.min_eq_left (Nat.le_of_lt this)]
    rfl
  · have : ¬ 8 < f.end_.toNat - address.toNat := by
      rw [← hsub]
      exact fun hlt => hlong (UInt16.lt_iff_toNat_lt.mpr hlt)
    rw [if_neg hlong, hsub, Nat.min_eq_right (by omega)]

/-- The next eight numbers, or the last ones. -/
theorem range'_eight (a e : Nat) :
    List.range' a (min 8 (e - a)) ++ List.range' (a + 8) (e - (a + 8)) = List.range' a (e - a) := by
  by_cases hlong : 8 ≤ e - a
  · rw [Nat.min_eq_left hlong, List.range'_append_1, show 8 + (e - (a + 8)) = e - a by omega]
  · rw [Nat.min_eq_right (by omega), show e - (a + 8) = 0 by omega, List.range'_zero,
      List.append_nil]

/-- Below the highest address of its residue the loop reads on to the end of the file. -/
theorem outputReads_all {fuel : Nat} {address : UInt16}
    (hend : f.end_.toNat ≤ 65528 + address.toNat % 8)
    (hfuel : f.end_.toNat ≤ address.toNat + 8 * fuel) :
    ∃ reads, outputReads f (fuel + 1) address = some reads ∧
      addressesRead reads = List.range' address.toNat (f.end_.toNat - address.toNat) := by
  induction fuel generalizing address with
  | zero =>
    have hge : ¬ address < f.end_ := fun h => by
      have := UInt16.lt_iff_toNat_lt.mp h
      omega
    exact ⟨[], outputReads_done hge 0, by rw [show f.end_.toNat - address.toNat = 0 by omega]; rfl⟩
  | succ fuel ih =>
    by_cases hlt : address < f.end_
    · have hnat := UInt16.lt_iff_toNat_lt.mp hlt
      -- two addresses of one residue differ by at least 8, so there is no wrap here
      have hnext : (address + 8).toNat = address.toNat + 8 := by
        rw [toNat_add_eight]
        omega
      obtain ⟨reads, hreads, haddr⟩ := @ih (address + 8) (by omega) (by omega)
      refine ⟨(address, readSize f address) :: reads, ?_, ?_⟩
      · rw [outputReads_more hlt, hreads]
        rfl
      · have hcons : addressesRead ((address, readSize f address) :: reads) =
            List.range' address.toNat (readSize f address).toNat ++ addressesRead reads := rfl
        rw [hcons, haddr, toNat_readSize hnat, hnext, range'_eight]
    · have hge : ¬ address.toNat < f.end_.toNat := fun h => hlt (UInt16.lt_iff_toNat_lt.mpr h)
      refine ⟨[], outputReads_done hlt (fuel + 1), ?_⟩
      rw [show f.end_.toNat - address.toNat = 0 by omega]
      rfl

/-- When the loop ends, and then after reading each byte of the file once: exactly if the end is not
    above the highest address that the start can reach. The same condition decides whether
    `outputDatastream`, with its bound on the rounds, has a result. -/
theorem output_ends_iff (f : File) :
    (EndsReading f ↔ f.end_.toNat ≤ 65528 + f.start.toNat % 8) ∧
    ∀ fram, (∃ printed, outputDatastream fram f = some printed) ↔
      f.end_.toNat ≤ 65528 + f.start.toNat % 8 := by
  have hword := f.end_.toNat_lt
  constructor
  · constructor
    · intro h
      obtain ⟨fuel, reads, hreads, -⟩ := h
      by_contra hhigh
      rw [outputReads_never (by omega)] at hreads
      cases hreads
    · intro hend
      obtain ⟨reads, hreads, haddr⟩ := @outputReads_all f 8192 f.start hend (by omega)
      exact ⟨8193, reads, hreads, fun _ => haddr⟩
  · intro fram
    unfold outputDatastream
    rw [outputLoop_eq]
    constructor
    · intro h
      obtain ⟨printed, hprinted⟩ := h
      by_contra hhigh
      rw [outputReads_never (by omega)] at hprinted
      cases hprinted
    · intro hend
      obtain ⟨reads, hreads, -⟩ := @outputReads_all f 8192 f.start hend (by omega)
      rw [hreads]
      exact ⟨_, rfl⟩

/-- A FRAM whose first bytes say that the input file goes from 8 to 65535. -/
def fullFram : Fram := fun a => [8, 0, 255, 255].getD a.toNat 0

/-- `initialize_fs` takes the extent over, and printing the file never ends. -/
theorem output_never_ends :
    (initializeFs fullFram).input = ⟨8, 65535⟩ ∧
      (∀ fuel, outputLoop fullFram ⟨8, 65535⟩ fuel 8 = none) ∧ ¬ EndsReading ⟨8, 65535⟩ := by
  have hnever : ∀ fuel, outputReads ⟨8, 65535⟩ fuel 8 = none := fun fuel =>
    outputReads_never (by decide) fuel
  refine ⟨congrArg₂ File.mk (by decide) (by decide), fun fuel => ?_, fun h => ?_⟩
  · rw [outputLoop_eq, hnever]
    rfl
  · obtain ⟨fuel, reads, hreads, -⟩ := h
    rw [hnever] at hreads
    cases hreads

end DistHuffman.Main
