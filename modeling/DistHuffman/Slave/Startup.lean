/-
  A worker that has just been switched on. `in_buffer` is not initialised and so it is all zeros,
  and the handler runs a job on it with the first byte that arrives, before anything is stored. The
  zeros are a DECODE job: a tree text of one leaf, for which a pool of no node is set up.

  `Access` is what the controller does on the bus: `scan_i2c` only sends the address, everything
  else is a register access. `fresh_survives_iff` says which of it a new worker survives.
-/
import DistHuffman.Slave.Transfer

namespace DistHuffman.Slave

open DistHuffman.Lib DistHuffman.Codec DistHuffman.Link DistHuffman.Master

/-- What the controller does on the bus. -/
inductive Access
  | probe (workerID : UInt8)
  | readReg (devaddr : UInt8) (offset length : UInt16)
  | writeReg (devaddr : UInt8) (offset : UInt16) (data : List UInt8)

/-- The worker after an access, whatever that returns. A probe is an address for reading. -/
def Access.run : Access → Except Fault Worker → Except Fault Worker
  | probe workerID, s => (workerBus.start ((workerID <<< 1) ||| 1) s).2
  | readReg devaddr offset length, s => (i2cReadReg workerBus devaddr offset length s).2.2
  | writeReg devaddr offset data, s => (i2cWriteReg workerBus devaddr offset data s).2

/-- The device whose registers are accessed. -/
def Access.device : Access → Option UInt8
  | probe _ => none
  | readReg devaddr _ _ => some devaddr
  | writeReg devaddr _ _ => some devaddr

/-- The access is to a register of the worker at `twar`. -/
def Access.Hits (twar : UInt8) (x : Access) : Prop :=
  ∃ devaddr, x.device = some devaddr ∧ (devaddr <<< 1) &&& 0xFE = twar &&& 0xFE

def accesses (l : List Access) (s : Except Fault Worker) : Except Fault Worker :=
  l.foldl (fun s x => x.run s) s

theorem accesses_cons (x : Access) (l : List Access) (s : Except Fault Worker) :
    accesses (x :: l) s = accesses l (x.run s) := rfl

/-! ## Registers of other boards -/

theorem start_other {w : Worker} {address : UInt8} (h : address &&& 0xFE ≠ w.twar &&& 0xFE) :
    workerBus.start address (.ok w) = (1, .ok w) := if_neg h

theorem run_other {w : Worker} {x : Access} {devaddr : UInt8} (hx : x.device = some devaddr)
    (h : (devaddr <<< 1) &&& 0xFE ≠ w.twar &&& 0xFE) : x.run (.ok w) = .ok w := by
  have hnack : (1 : UInt8) ||| 0 ≠ 0 := by decide
  cases x with
  | probe workerID => cases hx
  | readReg a offset length =>
    cases hx
    rw [Access.run, i2cReadReg, start_other h]
    dsimp only
    rw [if_pos hnack]
  | writeReg a offset data =>
    cases hx
    rw [Access.run, i2cWriteReg, i2cWriteStart, UInt8.or_zero, start_other h]
    rfl

/-- An address for reading changes no buffer. -/
theorem run_probe (w : Worker) (workerID : UInt8) :
    ∃ w', (Access.probe workerID).run (.ok w) = .ok w' ∧ w'.inBuffer = w.inBuffer ∧
      w'.twar = w.twar := by
  have hread : ((workerID <<< 1) ||| 1) &&& 1 ≠ 0 := by
    revert workerID
    refine forall_byte ?_
    decide +kernel
  by_cases hown : ((workerID <<< 1) ||| 1) &&& 0xFE = w.twar &&& 0xFE
  · refine ⟨{ w with
      twdr := (workerID <<< 1) ||| 1
      twcr := w.twcr ||| (twea ||| twen ||| twie) }, ?_, rfl, rfl⟩
    simp only [Access.run, workerBus, if_pos hown, if_neg hread]
    rfl
  · refine ⟨w, ?_, rfl, rfl⟩
    rw [Access.run, start_other hown]

/-! ## Its own registers -/

theorem shift_even (a : UInt8) : (a <<< 1) &&& (0xFE : UInt8) = a <<< 1 := by
  revert a
  refine forall_byte ?_
  decide +kernel

/-- There is one address byte of a worker for writing. -/
theorem eq_own_address {a twar : UInt8} (h : (a <<< 1) &&& 0xFE = twar &&& 0xFE) :
    a <<< 1 = (twar >>> 1) <<< 1 := by
  rw [← shift_even a, h, ← (own_address twar).1, shift_even]

section Stuck

variable {w : Worker} {f : Fault} (hjob : processJob w.inBuffer = .error f)

include hjob in
/-- The first byte after the address runs the job that is in `in_buffer`. -/
theorem write_addressed (b : UInt8) : workerBus.write b (.ok (addressed w)) = (0, .error f) := by
  have h := isr_data { addressed w with twdr := b }
  rw [(receive_address { addressed w with twdr := b } rfl).1] at h
  refine congrArg (Prod.mk 0) (h.trans ?_)
  rw [show (addressed w).inBuffer = w.inBuffer from rfl, hjob]
  rfl

include hjob in
theorem readReg_stuck {a : UInt8} (hown : (a <<< 1) &&& 0xFE = w.twar &&& 0xFE)
    (offset length : UInt16) :
    i2cReadReg workerBus a offset length (.ok w) = (1, [], .error f) := by
  have hack : ¬ ((0 : UInt8) ||| 0 ≠ 0) := by decide
  have hnack : (1 : UInt8) ≠ 0 := by decide
  rw [i2cReadReg, eq_own_address hown, start_write]
  dsimp only
  rw [if_neg hack, write_addressed hjob]
  exact if_pos hnack

include hjob in
theorem writeReg_stuck {a : UInt8} (hown : (a <<< 1) &&& 0xFE = w.twar &&& 0xFE) (offset : UInt16)
    (data : List UInt8) : i2cWriteReg workerBus a offset data (.ok w) = (0, .error f) := by
  have hack : ¬ ((0 : UInt8) ≠ 0) := by decide
  have hstart : i2cWriteStart workerBus a offset (.ok w) = (0, .error f) := by
    rw [i2cWriteStart, UInt8.or_zero, eq_own_address hown, start_write]
    dsimp only
    rw [if_neg hack, write_addressed hjob]
    rfl
  rw [i2cWriteReg, hstart]
  dsimp only
  rw [if_neg hack, writeLoop_error]
  exact if_neg hack

include hjob in
theorem run_hits {x : Access} (h : x.Hits w.twar) : x.run (.ok w) = .error f := by
  obtain ⟨devaddr, hx, hown⟩ := h
  cases x with
  | probe workerID => cases hx
  | readReg a offset length =>
    cases hx
    rw [Access.run, readReg_stuck hjob hown]
  | writeReg a offset data =>
    cases hx
    rw [Access.run, writeReg_stuck hjob hown]

end Stuck

/-! ## A worker that is lost -/

theorem readReg_lost (a : UInt8) (offset length : UInt16) (f : Fault) :
    i2cReadReg workerBus a offset length (.error f) = (1, [], .error f) := by
  have hnack : (1 : UInt8) ||| 0 ≠ 0 := by decide
  exact if_pos hnack

theorem writeReg_lost (a : UInt8) (offset : UInt16) (data : List UInt8) (f : Fault) :
    i2cWriteReg workerBus a offset data (.error f) = (1, .error f) := rfl

theorem run_lost (x : Access) (f : Fault) : x.run (.error f) = .error f := by
  cases x with
  | probe workerID => rfl
  | readReg a offset length => rw [Access.run, readReg_lost]
  | writeReg a offset data => rw [Access.run, writeReg_lost]

theorem accesses_lost (l : List Access) (f : Fault) : accesses l (.error f) = .error f := by
  induction l with
  | nil => rfl
  | cons x l ih => rw [accesses_cons, run_lost, ih]

/-- A worker with a job that fails in `in_buffer` lasts until the first access to its registers. -/
theorem accesses_stuck {l : List Access} {w : Worker} {f : Fault}
    (hjob : processJob w.inBuffer = .error f) :
    ((∃ x ∈ l, x.Hits w.twar) → accesses l (.ok w) = .error f) ∧
      ((∀ x ∈ l, ¬ x.Hits w.twar) →
        ∃ w', accesses l (.ok w) = .ok w' ∧ w'.inBuffer = w.inBuffer ∧ w'.twar = w.twar) := by
  induction l generalizing w with
  | nil => exact ⟨by simp, fun _ => ⟨w, rfl, rfl, rfl⟩⟩
  | cons x l ih =>
    rw [accesses_cons]
    by_cases hx : x.Hits w.twar
    · rw [run_hits hjob hx, accesses_lost]
      exact ⟨fun _ => rfl, fun hno => absurd hx (hno x List.mem_cons_self)⟩
    · obtain ⟨w1, hrun, hin, htwar⟩ :
          ∃ w1, x.run (.ok w) = .ok w1 ∧ w1.inBuffer = w.inBuffer ∧ w1.twar = w.twar := by
        cases hdev : x.device with
        | none =>
          cases x with
          | probe workerID => exact run_probe w workerID
          | readReg => cases hdev
          | writeReg => cases hdev
        | some a => exact ⟨w, run_other hdev fun hown => hx ⟨a, hdev, hown⟩, rfl, rfl⟩
      obtain ⟨hlost, hkept⟩ := ih (w := w1) (by rw [hin, hjob])
      rw [htwar] at hlost hkept
      rw [hrun]
      constructor
      · intro hsome
        obtain ⟨y, hy, hhits⟩ := hsome
        rcases List.mem_cons.mp hy with rfl | hy
        · exact absurd hhits hx
        · exact hlost ⟨y, hy, hhits⟩
      · intro hno
        obtain ⟨w', hw', hin', htwar'⟩ := hkept fun y hy => hno y (List.mem_cons_of_mem x hy)
        exact ⟨w', hw', hin'.trans hin, htwar'⟩

/-- `in_buffer` as the C runtime sets it up. -/
def clearedBuffer : Buffer := fun _ => 0

theorem runCodec_cleared : runCodec clearedBuffer = .error .treePool := by decide +kernel

theorem processJob_cleared : processJob clearedBuffer = .error .treePool := by
  unfold processJob
  rw [runCodec_cleared]
  rfl

/-- **A worker does not survive the first access to its registers after it was switched on**, be it
    a status poll or a job, and it survives everything else: the addresses sent by `scan_i2c` and
    the traffic with other devices. The codec writes a node into a pool of none. -/
theorem fresh_survives_iff (w : Worker) (hfresh : w.inBuffer = clearedBuffer) (l : List Access) :
    ((∃ w', accesses l (.ok w) = .ok w') ↔ ∀ x ∈ l, ¬ x.Hits w.twar) ∧
      (accesses l (.ok w) = .error .treePool ↔ ∃ x ∈ l, x.Hits w.twar) := by
  have hjob : processJob w.inBuffer = .error .treePool := by rw [hfresh, processJob_cleared]
  obtain ⟨hlost, hkept⟩ := accesses_stuck (l := l) hjob
  by_cases hhit : ∃ x ∈ l, x.Hits w.twar
  · rw [hlost hhit]
    refine ⟨iff_of_false ?_ ?_, iff_of_true rfl hhit⟩
    · rintro ⟨w', hw'⟩
      cases hw'
    · intro hno
      obtain ⟨x, hx, hhits⟩ := hhit
      exact hno x hx hhits
  · have hno : ∀ x ∈ l, ¬ x.Hits w.twar := fun x hx hhits => hhit ⟨x, hx, hhits⟩
    obtain ⟨w', hw', -⟩ := hkept hno
    rw [hw']
    refine ⟨iff_of_true ⟨w', rfl⟩ hno, iff_of_false ?_ hhit⟩
    intro h
    cases h

/-- A worker at the first address, as it comes up. -/
def freshWorker : Worker where
  bufferAddress := 0
  inBuffer := clearedBuffer
  outBuffer := clearedBuffer
  twdr := 0xFF
  twar := (0x20 : UInt8) <<< 1
  twcr := twie ||| twea ||| twint ||| twen

/-- The start of `processData`: the scan finds the worker, and the first poll is its end. -/
theorem fresh_survives_scan_only :
    (∃ w', accesses [.probe 0x20, .probe 0x21] (.ok freshWorker) = .ok w') ∧
      accesses [.probe 0x20, .probe 0x21, .readReg 0x20 0 2] (.ok freshWorker) =
        .error .treePool := by
  constructor
  · refine (fresh_survives_iff freshWorker rfl _).1.mpr ?_
    rintro x hx ⟨devaddr, hdev, -⟩
    rcases List.mem_pair.mp hx with rfl | rfl <;> cases hdev
  · refine (fresh_survives_iff freshWorker rfl _).2.mpr ⟨.readReg 0x20 0 2, by simp, 0x20, rfl, rfl⟩

end DistHuffman.Slave
