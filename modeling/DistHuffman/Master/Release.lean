/-
  Whether the transfers of `i2c_master.c` give the bus back.

  `wire` is the bus as the controller sees it: every action is recorded, and the status register
  `TWSR` after action number `k` is `twsr k`, whatever it is. The waits for `TWINT` are taken to
  end. Only a transfer that comes to its end issues `i2c_stop`; each `return 1` on the way leaves
  the bus taken. `bus_released_iff` says for each of the four transfers on which answers that
  happens.
-/
import DistHuffman.Master.Transfer

namespace DistHuffman.Master

/-- What the controller does on the bus. -/
inductive Action where
  | start
  | send (b : UInt8)
  | receive (ack : Bool)
  | stop
  deriving DecidableEq, Repr

section Model

variable (twsr twdr : Nat → UInt8)

/-- `TWSR & 0xF8` after the action that follows the actions `s`. -/
def status (s : List Action) : UInt8 := twsr s.length &&& 0xF8

/-- `i2c_start` is `i2c_start_timeout` without a timeout: START, and the address if that went well.
    `TW_START` is 0x08, `TW_MT_SLA_ACK` 0x18, `TW_MR_SLA_ACK` 0x40, `TW_MT_DATA_ACK` 0x28. -/
def wire : Bus (List Action) where
  start address s :=
    if status twsr s ≠ 0x08 then (1, .start :: s)
    else
      (if status twsr (.start :: s) ≠ 0x18 ∧ status twsr (.start :: s) ≠ 0x40 then 1 else 0,
        .send address :: .start :: s)
  write b s := (if status twsr s ≠ 0x28 then 1 else 0, .send b :: s)
  readAck s := (twdr s.length, .receive true :: s)
  readNack s := (twdr s.length, .receive false :: s)
  stop s := .stop :: s

/-- A START condition went out: `TW_START` or `TW_REP_START`. -/
def Transmitted (st : UInt8) : Prop := st = 0x08 ∨ st = 0x10

/-- One of the actions put a START condition on the bus. -/
def StartSent : List Action → Prop
  | [] => False
  | a :: s => a = .start ∧ Transmitted (status twsr s) ∨ StartSent s

/-- A START condition on the bus is followed by `i2c_stop` as the last action. -/
def Released (s : List Action) : Prop := StartSent twsr s → s.head? = some .stop

/-- START as action `k` went out as `TW_START`, and the address behind it was acknowledged. -/
def Addressed (k : Nat) : Prop :=
  twsr k &&& 0xF8 = 0x08 ∧ (twsr (k + 1) &&& 0xF8 = 0x18 ∨ twsr (k + 1) &&& 0xF8 = 0x40)

/-- The `n` bytes that are sent as the actions from `k` on are acknowledged. -/
def DataAcked (k n : Nat) : Prop := ∀ i < n, twsr (k + i) &&& 0xF8 = 0x28

end Model

variable {twsr twdr : Nat → UInt8}

theorem startSent_cons {a : Action} (h : a ≠ .start) (s : List Action) :
    StartSent twsr (a :: s) ↔ StartSent twsr s := by
  simp only [StartSent, h, false_and, false_or]

theorem released_stop (s : List Action) : Released twsr (.stop :: s) := fun _ => rfl

/-- A bus that was taken and not given back. -/
theorem not_released {s : List Action} (hstart : StartSent twsr s) (hlast : s.head? ≠ some .stop) :
    ¬ Released twsr s := fun h => hlast (h hstart)

/-! ## Parts of a transfer -/

theorem start_refused {s : List Action} (h : status twsr s ≠ 0x08) (address : UInt8) :
    (wire twsr twdr).start address s = (1, .start :: s) := if_pos h

theorem start_addressed {s : List Action} (h : Addressed twsr s.length) (address : UInt8) :
    (wire twsr twdr).start address s = (0, .send address :: .start :: s) := by
  have hack : ¬ (status twsr (.start :: s) ≠ 0x18 ∧ status twsr (.start :: s) ≠ 0x40) := by
    intro hnack
    exact h.2.elim hnack.1 hnack.2
  refine (if_neg (not_not.mpr h.1)).trans ?_
  rw [if_neg hack]

/-- A START that fails is the end of the transfer, with START or the address as its last action. -/
theorem start_failed {s : List Action} (h : ¬ Addressed twsr s.length) (address : UInt8) :
    ∃ s', (wire twsr twdr).start address s = (1, s') ∧ s'.head? ≠ some .stop ∧
      (StartSent twsr s' ↔ Transmitted (status twsr s) ∨ StartSent twsr s) := by
  have hsent : StartSent twsr (.start :: s) ↔ Transmitted (status twsr s) ∨ StartSent twsr s := by
    simp only [StartSent, true_and]
  by_cases hstart : status twsr s = 0x08
  · have hnack : status twsr (.start :: s) ≠ 0x18 ∧ status twsr (.start :: s) ≠ 0x40 :=
      not_or.mp fun hack => h ⟨hstart, hack⟩
    refine ⟨.send address :: .start :: s, ?_, by simp, ?_⟩
    · refine (if_neg (not_not.mpr hstart)).trans ?_
      rw [if_pos hnack]
    · rw [startSent_cons (by simp), hsent]
  · exact ⟨.start :: s, start_refused hstart address, by simp, hsent⟩

/-- An addressed device has seen the START condition. -/
theorem startSent_addressed {s : List Action} (h : Addressed twsr s.length) (address : UInt8) :
    StartSent twsr (.send address :: .start :: s) :=
  (startSent_cons (by simp) _).mpr (Or.inl ⟨rfl, Or.inl h.1⟩)

theorem dataAcked_succ (k n : Nat) :
    DataAcked twsr k (n + 1) ↔ twsr k &&& 0xF8 = 0x28 ∧ DataAcked twsr (k + 1) n := by
  unfold DataAcked
  rw [Nat.forall_lt_succ_left]
  refine and_congr_right fun _ => forall₂_congr fun i _ => ?_
  rw [show k + (i + 1) = k + 1 + i by omega]

theorem writeLoop_cons (b : UInt8) (data : List UInt8) (s : List Action) :
    writeLoop (wire twsr twdr) (b :: data) s =
      if status twsr s = 0x28 then writeLoop (wire twsr twdr) data (.send b :: s)
      else (1, .send b :: s) := by
  by_cases h : status twsr s = 0x28
  · simp [writeLoop, wire, h]
  · simp [writeLoop, wire, h]

/-- The data loop returns 0 exactly if every byte is acknowledged. Otherwise the byte that was not
    is the last action. -/
theorem writeLoop_wire (data : List UInt8) (s : List Action) :
    ((writeLoop (wire twsr twdr) data s).1 = 0 ↔ DataAcked twsr s.length data.length) ∧
      (StartSent twsr (writeLoop (wire twsr twdr) data s).2 ↔ StartSent twsr s) ∧
      ((writeLoop (wire twsr twdr) data s).1 ≠ 0 →
        (writeLoop (wire twsr twdr) data s).2.head? ≠ some .stop) := by
  induction data generalizing s with
  | nil =>
    refine ⟨⟨fun _ i hi => absurd hi (Nat.not_lt_zero i), fun _ => rfl⟩, Iff.rfl, fun h => ?_⟩
    exact absurd rfl h
  | cons b data ih =>
    rw [writeLoop_cons, List.length_cons, dataAcked_succ]
    by_cases hack : status twsr s = 0x28
    · obtain ⟨hzero, hsent, hlast⟩ := ih (.send b :: s)
      rw [if_pos hack]
      refine ⟨?_, hsent.trans (startSent_cons (by simp) s), hlast⟩
      exact hzero.trans ⟨fun h => ⟨hack, h⟩, fun h => h.2⟩
    · rw [if_neg hack]
      refine ⟨⟨fun h => ?_, fun h => absurd h.1 hack⟩, startSent_cons (by simp) s, fun _ => by simp⟩
      cases h

/-- Data behind an addressed device, and `i2c_stop` if all of it was acknowledged. -/
theorem released_data_iff {s : List Action} (hsent : StartSent twsr s) (data : List UInt8) :
    Released twsr
        (if (writeLoop (wire twsr twdr) data s).1 ≠ 0 then
          ((1 : UInt8), (writeLoop (wire twsr twdr) data s).2)
        else (0, (wire twsr twdr).stop (writeLoop (wire twsr twdr) data s).2)).2 ↔
      DataAcked twsr s.length data.length := by
  obtain ⟨hzero, hkept, hlast⟩ := @writeLoop_wire twsr twdr data s
  by_cases hdone : (writeLoop (wire twsr twdr) data s).1 = 0
  · rw [if_neg (not_not.mpr hdone)]
    exact ⟨fun _ => hzero.mp hdone, fun _ => released_stop _⟩
  · rw [if_pos hdone]
    refine ⟨fun h => ?_, fun h => absurd (hzero.mpr h) hdone⟩
    exact absurd h (not_released (hkept.mpr hsent) (hlast hdone))

/-- After the first START of a transfer failed, the bus is free only if none went out. -/
theorem first_start_failed (h : ¬ Addressed twsr 0) (address : UInt8) :
    ∃ s, (wire twsr twdr).start address [] = (1, s) ∧
      (Released twsr s ↔ ¬ Transmitted (twsr 0 &&& 0xF8)) := by
  obtain ⟨s, hstart, hlast, hsent⟩ := @start_failed twsr twdr [] h address
  refine ⟨s, hstart, fun hfree htrans => ?_, fun htrans hs => ?_⟩
  · exact hlast (hfree (hsent.mpr (Or.inl htrans)))
  · exact absurd (hsent.mp hs) (not_or.mpr ⟨htrans, id⟩)

/-! ## The transfers -/

/-- Behind an addressed device only the rest `P` of the transfer matters. -/
theorem addressed_free_iff (h : Addressed twsr 0) (P : Prop) :
    ¬ Transmitted (twsr 0 &&& 0xF8) ∨ Addressed twsr 0 ∧ P ↔ P := by
  refine ⟨fun hfree => ?_, fun hP => Or.inr ⟨h, hP⟩⟩
  exact (hfree.resolve_left (not_not.mpr (Or.inl h.1))).2

theorem not_addressed_free_iff (h : ¬ Addressed twsr 0) (P : Prop) :
    ¬ Transmitted (twsr 0 &&& 0xF8) ∨ Addressed twsr 0 ∧ P ↔ ¬ Transmitted (twsr 0 &&& 0xF8) :=
  ⟨fun hfree => hfree.resolve_right fun hP => h hP.1, Or.inl⟩

theorem released_transmit_iff (address : UInt8) (data : List UInt8) :
    Released twsr (i2cTransmit (wire twsr twdr) address data []).2 ↔
      ¬ Transmitted (twsr 0 &&& 0xF8) ∨ Addressed twsr 0 ∧ DataAcked twsr 2 data.length := by
  unfold i2cTransmit
  by_cases h : Addressed twsr ([] : List Action).length
  · rw [start_addressed h, addressed_free_iff h]
    exact released_data_iff (startSent_addressed h _) data
  · obtain ⟨s, hstart, hfree⟩ := @first_start_failed twsr twdr h (address ||| 0)
    rw [hstart, not_addressed_free_iff h]
    exact hfree

theorem released_receive_iff (address : UInt8) (length : UInt16) :
    Released twsr (i2cReceive (wire twsr twdr) address length []).2.2 ↔
      ¬ Transmitted (twsr 0 &&& 0xF8) ∨ Addressed twsr 0 := by
  unfold i2cReceive
  by_cases h : Addressed twsr ([] : List Action).length
  · rw [start_addressed h]
    exact ⟨fun _ => Or.inr h, fun _ => released_stop _⟩
  · obtain ⟨s, hstart, hfree⟩ := @first_start_failed twsr twdr h (address ||| 1)
    rw [hstart]
    exact hfree.trans ⟨Or.inl, fun hd => hd.resolve_right h⟩

theorem released_writeReg_iff (devaddr : UInt8) (offsetAddr : UInt16) (data : List UInt8) :
    Released twsr (i2cWriteReg (wire twsr twdr) devaddr offsetAddr data []).2 ↔
      ¬ Transmitted (twsr 0 &&& 0xF8) ∨ Addressed twsr 0 ∧ DataAcked twsr 4 data.length := by
  unfold i2cWriteReg i2cWriteStart
  by_cases h : Addressed twsr ([] : List Action).length
  · rw [start_addressed h]
    -- the two address bytes are sent whatever the answers are
    have hsent : StartSent twsr [.send offsetAddr.toUInt8, .send (offsetAddr >>> 8).toUInt8,
        .send ((devaddr <<< 1) ||| 0), .start] := by
      rw [startSent_cons (by simp), startSent_cons (by simp)]
      exact startSent_addressed h _
    rw [addressed_free_iff h]
    exact released_data_iff hsent data
  · obtain ⟨s, hstart, hfree⟩ := @first_start_failed twsr twdr h ((devaddr <<< 1) ||| 0)
    rw [hstart, not_addressed_free_iff h]
    exact hfree

theorem released_readReg_iff (devaddr : UInt8) (offsetAddr length : UInt16) :
    Released twsr (i2cReadReg (wire twsr twdr) devaddr offsetAddr length []).2.2 ↔
      ¬ Transmitted (twsr 0 &&& 0xF8) ∨ Addressed twsr 0 ∧ Addressed twsr 4 := by
  unfold i2cReadReg
  by_cases h : Addressed twsr ([] : List Action).length
  · -- the second START comes behind START, address and the two address bytes
    let s : List Action := [.send offsetAddr.toUInt8, .send (offsetAddr >>> 8).toUInt8,
      .send (devaddr <<< 1), .start]
    have hsent : StartSent twsr s := by
      rw [startSent_cons (by simp), startSent_cons (by simp)]
      exact startSent_addressed h _
    rw [start_addressed h, addressed_free_iff h]
    dsimp only
    rw [if_neg (by decide), show ((wire twsr twdr).write offsetAddr.toUInt8
      ((wire twsr twdr).write (offsetAddr >>> 8).toUInt8 [.send (devaddr <<< 1), .start]).2).2 = s
      from rfl]
    by_cases h4 : Addressed twsr s.length
    · rw [start_addressed h4]
      exact ⟨fun _ => h4, fun _ => released_stop _⟩
    · obtain ⟨s', hstart, hlast, hkept⟩ := @start_failed twsr twdr s h4 ((devaddr <<< 1) ||| 1)
      rw [hstart]
      refine ⟨fun hfree => ?_, fun hagain => absurd hagain h4⟩
      exact absurd hfree (not_released (hkept.mpr (Or.inr hsent)) hlast)
  · obtain ⟨s, hstart, hfree⟩ := @first_start_failed twsr twdr h (devaddr <<< 1)
    rw [hstart, not_addressed_free_iff h]
    dsimp only
    rw [if_pos (by decide)]
    exact hfree

/-- When the bus is free again after a transfer, for every sequence of answers: no START condition
    went out, or every answer that the transfer looks at was the one it hopes for. `i2c_writeReg`
    and `i2c_readReg` do not look at the answers to the two address bytes, actions 2 and 3. -/
theorem bus_released_iff (twsr twdr : Nat → UInt8) (address : UInt8) (offsetAddr length : UInt16)
    (data : List UInt8) :
    (Released twsr (i2cWriteReg (wire twsr twdr) address offsetAddr data []).2 ↔
      ¬ Transmitted (twsr 0 &&& 0xF8) ∨ Addressed twsr 0 ∧ DataAcked twsr 4 data.length) ∧
    (Released twsr (i2cReadReg (wire twsr twdr) address offsetAddr length []).2.2 ↔
      ¬ Transmitted (twsr 0 &&& 0xF8) ∨ Addressed twsr 0 ∧ Addressed twsr 4) ∧
    (Released twsr (i2cTransmit (wire twsr twdr) address data []).2 ↔
      ¬ Transmitted (twsr 0 &&& 0xF8) ∨ Addressed twsr 0 ∧ DataAcked twsr 2 data.length) ∧
    (Released twsr (i2cReceive (wire twsr twdr) address length []).2.2 ↔
      ¬ Transmitted (twsr 0 &&& 0xF8) ∨ Addressed twsr 0) :=
  ⟨released_writeReg_iff address offsetAddr data, released_readReg_iff address offsetAddr length,
    released_transmit_iff address data, released_receive_iff address length⟩

/-- START goes out and the address is not acknowledged (`TW_MT_SLA_NACK`, 0x20). -/
def absentDevice (k : Nat) : UInt8 := if k = 0 then 0x08 else 0x20

/-- One byte for address 0x50 when no device is there: START and the address, and no `i2c_stop`. The
    other three transfers end in the same way. -/
theorem bus_kept_when_absent :
    i2cWriteReg (wire absentDevice fun _ => 0) 0x50 8 [65] [] = (1, [.send 0xA0, .start]) ∧
      ¬ Released absentDevice (i2cWriteReg (wire absentDevice fun _ => 0) 0x50 8 [65] []).2 ∧
      ¬ Released absentDevice (i2cReadReg (wire absentDevice fun _ => 0) 0x50 8 1 []).2.2 ∧
      ¬ Released absentDevice (i2cTransmit (wire absentDevice fun _ => 0) 0x50 [65] []).2 ∧
      ¬ Released absentDevice (i2cReceive (wire absentDevice fun _ => 0) 0x50 1 []).2.2 := by
  have hsent : ¬ ¬ Transmitted (absentDevice 0 &&& 0xF8) := not_not.mpr (Or.inl rfl)
  have hnack : ¬ Addressed absentDevice 0 := by
    unfold Addressed
    decide
  refine ⟨rfl, ?_, ?_, ?_, ?_⟩
  · rw [released_writeReg_iff]
    exact not_or.mpr ⟨hsent, fun h => hnack h.1⟩
  · rw [released_readReg_iff]
    exact not_or.mpr ⟨hsent, fun h => hnack h.1⟩
  · rw [released_transmit_iff]
    exact not_or.mpr ⟨hsent, fun h => hnack h.1⟩
  · rw [released_receive_iff]
    exact not_or.mpr ⟨hsent, hnack⟩

end DistHuffman.Master
