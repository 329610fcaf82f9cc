/-
  The loop of `processData` over the wire: the transfers of the controller go through the interrupt
  handler of the worker they are addressed to (`workerBus`), and what they return is ignored, as in
  the source. A worker processes a job inside its handler, so a poll is a function of the state.

  `in_buffer` of the controller is kept from one poll to the next: a transfer that fails leaves it
  as it was. A transfer that leaves a buffer of 256 bytes ends the run with `Fault.bounds`; one such
  is the read of no byte from the FRAM, which is one of 65536.

  Addresses are those that `scan_i2c` has found, one board at each. Transfers with the FRAM succeed.
  A worker whose handler has left its defined behaviour is lost. It is taken not to acknowledge its
  address from then on, so that the controller's transfers with it fail and do not hang.

  * `poll_refines`: the controller does what it does in `DistHuffman.Main.System`, for the answer
    that is in `in_buffer` at the end of the poll.
  * `lost_board_answers_again`: for a board that is lost this is the answer of the poll before.
-/
import DistHuffman.Main.System
import DistHuffman.Slave.Startup

namespace DistHuffman.Main

open DistHuffman.Lib DistHuffman.Master
open DistHuffman.Slave (Buffer Worker workerBus processJob)
open DistHuffman.Codec (Fault)

/-- Controller and workers. -/
structure Wire where
  ctl : Ctl
  inBuffer : Buffer
  address : Nat → UInt8
  workers : Nat → Except Fault Worker

/-- The bytes of a transfer in a buffer, from `offset` on. -/
def intoBuffer (b : Buffer) (offset : Nat) (bytes : List UInt8) : Except Fault Buffer :=
  if offset + bytes.length ≤ 256 then .ok (Slave.stored b (UInt8.ofNat offset) bytes)
  else .error .bounds

/-- How many bytes `i2c_readReg` moves: `length - 1` is computed in 16 bits. -/
def bytesMoved (length : UInt16) : Nat := (length - 1).toNat + 1

namespace Wire

/-- `i2c_readReg(workers[i], 0, in_buffer, 2)` -/
def readHeader (s : Wire) (i : Nat) : Except Fault Wire := do
  let r := i2cReadReg workerBus (s.address i) 0 2 (s.workers i)
  let inBuffer ← intoBuffer s.inBuffer 0 r.2.1
  return { s with inBuffer := inBuffer, workers := Function.update s.workers i r.2.2 }

/-- The reply of the worker, if it has data to send. -/
def takeReply (s : Wire) (i : Nat) : Except Fault Wire :=
  if HasReply s.inBuffer then do
    let r := i2cReadReg workerBus (s.address i) 2 (s.inBuffer 1).toUInt16 (s.workers i)
    let inBuffer ← intoBuffer s.inBuffer 2 r.2.1
    -- the record goes to the FRAM from `in_buffer`, header and size included
    if 2 + (s.inBuffer 1).toNat ≤ 256 then
      return { s with
        ctl := collect s.ctl inBuffer
        inBuffer := inBuffer
        workers := Function.update s.workers i r.2.2 }
    else throw .bounds
  else .ok s

/-- The next job, if it is ready to receive one. The payload is read to `&out_buffer[2]`. -/
def giveJob (s : Wire) (i : Nat) : Except Fault Wire :=
  if IsReady s.inBuffer then
    let d := dispatch s.ctl
    if 2 + bytesMoved d.2.size.toUInt16 ≤ 256 then
      let r := i2cWriteReg workerBus (s.address i) 0 d.2.message (s.workers i)
      .ok { s with ctl := d.1, workers := Function.update s.workers i r.2 }
    else .error .bounds
  else .ok s

/-- The body of the loop over the workers. -/
def poll (s : Wire) (i : Nat) : Except Fault Wire := do
  let s ← s.readHeader i
  let s ← s.takeReply i
  s.giveJob i

/-- The loop over `n` workers. -/
def pass (n : Nat) (s : Wire) : Except Fault Wire := (List.range n).foldlM poll s

/-- The loop over the blocks, up to `k` rounds of it. -/
def passes (n : Nat) : Nat → Wire → Except Fault Wire
  | 0, s => .ok s
  | k + 1, s => if s.ctl.block < s.ctl.blockCount then s.pass n >>= passes n k else .ok s

end Wire

/-! ## Transfers -/

section Transfers

/-- A board that works after some traffic worked before, and its address is the same. -/
def Keeps (s s' : Except Fault Worker) : Prop :=
  ∀ w', s' = .ok w' → ∃ w, s = .ok w ∧ w'.twar = w.twar

theorem Keeps.refl (s : Except Fault Worker) : Keeps s s := fun w h => ⟨w, h, rfl⟩

theorem Keeps.trans {s s' s'' : Except Fault Worker} (h : Keeps s s') (h' : Keeps s' s'') :
    Keeps s s'' := by
  intro w'' hw''
  obtain ⟨w', hw', htwar'⟩ := h' w'' hw''
  obtain ⟨w, hw, htwar⟩ := h w' hw'
  exact ⟨w, hw, htwar'.trans htwar⟩

theorem transmit_twar (w : Worker) : (Slave.transmit w).twar = w.twar := by
  unfold Slave.transmit
  dsimp only
  split_ifs <;> rfl

theorem isr_twar {w w' : Worker} {twsr : UInt8} (h : Slave.isr w twsr = .ok w') :
    w'.twar = w.twar := by
  unfold Slave.isr at h
  split_ifs at h
  · cases h
    rfl
  · obtain ⟨out, -, hout⟩ := Link.of_bind_eq_ok h
    cases hout
    exact Slave.receive_twar w
  · cases h
    exact transmit_twar w
  · cases h
    rfl

theorem keeps_bind (f : Worker → Worker) (hf : ∀ w, (f w).twar = w.twar) (twsr : UInt8)
    (s : Except Fault Worker) : Keeps s (s >>= fun w => Slave.isr (f w) twsr) := by
  intro w' hw'
  obtain ⟨w, hw, hrun⟩ := Link.of_bind_eq_ok hw'
  exact ⟨w, hw, (isr_twar hrun).trans (hf w)⟩

theorem keeps_start (a : UInt8) (s : Except Fault Worker) : Keeps s (workerBus.start a s).2 := by
  cases s with
  | error f => exact Keeps.refl _
  | ok w =>
    intro w' hw'
    refine ⟨w, rfl, ?_⟩
    unfold workerBus at hw'
    dsimp only at hw'
    by_cases hown : a &&& 0xFE = w.twar &&& 0xFE
    · rw [if_pos hown] at hw'
      exact isr_twar (w := { w with twdr := a }) hw'
    · rw [if_neg hown] at hw'
      cases hw'
      rfl

theorem keeps_write (b : UInt8) (s : Except Fault Worker) : Keeps s (workerBus.write b s).2 :=
  keeps_bind (fun w => { w with twdr := b }) (fun _ => rfl) _ s

theorem keeps_readAck (s : Except Fault Worker) : Keeps s (workerBus.readAck s).2 :=
  keeps_bind id (fun _ => rfl) _ s

theorem keeps_writeLoop (data : List UInt8) (s : Except Fault Worker) :
    Keeps s (writeLoop workerBus data s).2 := by
  induction data generalizing s with
  | nil => exact Keeps.refl s
  | cons b data ih => exact (keeps_write b s).trans (ih _)

theorem keeps_readLoop (n : Nat) (s : Except Fault Worker) :
    Keeps s (readLoop workerBus n s).2 := by
  induction n generalizing s with
  | zero => exact Keeps.refl s
  | succ n ih => exact (keeps_readAck s).trans (ih _)

theorem keeps_readReg (a : UInt8) (offset n : UInt16) (s : Except Fault Worker) :
    Keeps s (i2cReadReg workerBus a offset n s).2.2 := by
  have haddr := (keeps_start (a <<< 1) s).trans ((keeps_write (offset >>> 8).toUInt8 _).trans
    (keeps_write offset.toUInt8 _))
  unfold i2cReadReg
  dsimp only
  split_ifs
  · exact keeps_start _ _
  · exact haddr.trans (keeps_start _ _)
  · exact haddr.trans ((keeps_start _ _).trans (keeps_readLoop _ _))

theorem keeps_writeReg (a : UInt8) (offset : UInt16) (data : List UInt8)
    (s : Except Fault Worker) : Keeps s (i2cWriteReg workerBus a offset data s).2 := by
  have hstart : Keeps s (i2cWriteStart workerBus a offset s).2 := by
    unfold i2cWriteStart
    dsimp only
    split_ifs
    · exact keeps_start _ _
    · exact (keeps_start _ _).trans ((keeps_write _ _).trans (keeps_write _ _))
  unfold i2cWriteReg
  dsimp only
  split_ifs
  · exact hstart
  · exact hstart.trans (keeps_writeLoop _ _)
  · exact hstart.trans (keeps_writeLoop _ _)

/-- What a read does: the worker is lost and no byte arrives, or its address byte and then the reply
    to what is left in `in_buffer`, from the second byte on. -/
theorem readReg_cases (w : Worker) {offset n : UInt16} (hoff : offset.toNat < 256)
    (hn : (n - 1).toNat ≤ 254) :
    (∃ f, i2cReadReg workerBus (w.twar >>> 1) offset n (.ok w) = (1, [], .error f)) ∨
    ∃ w' out, i2cReadReg workerBus (w.twar >>> 1) offset n (.ok w) =
        (0, (w.twar ||| 1) :: (List.range (n - 1).toNat).map (fun i => out (1 + UInt8.ofNat i)),
          .ok w') ∧
      w'.inBuffer = Function.update w.inBuffer 0 offset.toUInt8 ∧
      processJob w'.inBuffer = .ok out := by
  cases hjob : processJob w.inBuffer with
  | error f => exact Or.inl ⟨f, Slave.readReg_stuck hjob (Slave.own_address w.twar).1 offset n⟩
  | ok out =>
    cases hjob' : processJob (Function.update w.inBuffer 0 offset.toUInt8) with
    | error f =>
      left
      refine ⟨f, ?_⟩
      have hnack : (1 : UInt8) ≠ 0 := by decide
      unfold i2cReadReg
      rw [Slave.start_write]
      dsimp only
      rw [if_neg (by decide), Slave.high_byte hoff, Slave.write_zero_addressed, hjob, Link.ok_bind,
        Slave.write_opened, hjob']
      exact if_pos hnack
    | ok out' =>
      right
      obtain ⟨w', hrun, hin⟩ := (Slave.i2cReadReg_ok_iff
        (fun b _ => b = Function.update w.inBuffer 0 offset.toUInt8) w _ hoff hn).mpr
        ⟨out, out', hjob, hjob', rfl, rfl⟩
      exact ⟨w', out', hrun, hin, by rw [hin, hjob']⟩

end Transfers

/-! ## One poll -/

/-- Bytes in front of a transfer stay. -/
theorem stored_front {xs : List UInt8} {a i : UInt8} (h : a.toNat + xs.length ≤ 256)
    (hi : i.toNat < a.toNat) (b : Buffer) : Slave.stored b a xs i = b i := by
  induction xs generalizing a b with
  | nil => rfl
  | cons x xs ih =>
    have hne : i ≠ a := by
      rintro rfl
      exact Nat.lt_irrefl _ hi
    rw [List.length_cons] at h
    rw [Slave.stored]
    cases xs with
    | nil => exact Function.update_of_ne hne x b
    | cons y ys =>
      rw [List.length_cons] at h ih
      have ha := Slave.toNat_succ (a := a) (by omega)
      rw [ih (by omega) (by omega), Function.update_of_ne hne]

theorem intoBuffer_eq_ok {b b' : Buffer} {offset : Nat} {bytes : List UInt8}
    (h : intoBuffer b offset bytes = .ok b') :
    offset + bytes.length ≤ 256 ∧ b' = Slave.stored b (UInt8.ofNat offset) bytes := by
  unfold intoBuffer at h
  by_cases hroom : offset + bytes.length ≤ 256
  · rw [if_pos hroom] at h
    exact ⟨hroom, (Except.ok.inj h).symm⟩
  · rw [if_neg hroom] at h
    cases h

/-- What is done to board `i` leaves the others alone. -/
structure Framed (i : Nat) (s s' : Wire) : Prop where
  address : s'.address = s.address
  others : ∀ j, j ≠ i → s'.workers j = s.workers j
  keeps : Keeps (s.workers i) (s'.workers i)

theorem Framed.refl (i : Nat) (s : Wire) : Framed i s s := ⟨rfl, fun _ _ => rfl, Keeps.refl _⟩

theorem Framed.trans {i : Nat} {s s' s'' : Wire} (h : Framed i s s') (h' : Framed i s' s'') :
    Framed i s s'' where
  address := h'.address.trans h.address
  others := fun j hj => (h'.others j hj).trans (h.others j hj)
  keeps := h.keeps.trans h'.keeps

namespace Wire

variable {s s' : Wire} {i : Nat}

/-- A board after a transfer. -/
theorem framed_update {r : Except Fault Worker} (hkeeps : Keeps (s.workers i) r) {c : Ctl}
    {b : Buffer} :
    Framed i s { s with ctl := c, inBuffer := b, workers := Function.update s.workers i r } where
  address := rfl
  others := fun j hj => Function.update_of_ne hj r s.workers
  keeps := by
    show Keeps (s.workers i) (Function.update s.workers i r i)
    rwa [Function.update_self]

theorem readHeader_spec (h : s.readHeader i = .ok s') :
    s'.ctl = s.ctl ∧ Framed i s s' ∧
      s'.inBuffer = Slave.stored s.inBuffer 0
        (i2cReadReg workerBus (s.address i) 0 2 (s.workers i)).2.1 ∧
      s'.workers i = (i2cReadReg workerBus (s.address i) 0 2 (s.workers i)).2.2 := by
  obtain ⟨b, hb, hs'⟩ := Link.of_bind_eq_ok h
  cases hs'
  exact ⟨rfl, framed_update (keeps_readReg _ _ _ _), (intoBuffer_eq_ok hb).2,
    Function.update_self ..⟩

theorem takeReply_spec (h : s.takeReply i = .ok s') :
    s'.ctl = (if HasReply s.inBuffer then collect s.ctl s'.inBuffer else s.ctl) ∧ Framed i s s' ∧
      s'.inBuffer 0 = s.inBuffer 0 ∧ s'.inBuffer 1 = s.inBuffer 1 := by
  unfold takeReply at h
  by_cases hreply : HasReply s.inBuffer
  · rw [if_pos hreply] at h
    obtain ⟨b, hb, hs'⟩ := Link.of_bind_eq_ok h
    obtain ⟨hroom, hstored⟩ := intoBuffer_eq_ok hb
    have hfront : ∀ k : UInt8, k.toNat < 2 → b k = s.inBuffer k := fun k hk => by
      rw [hstored]
      exact stored_front (a := UInt8.ofNat 2) hroom hk s.inBuffer
    split_ifs at hs'
    cases hs'
    rw [if_pos hreply]
    exact ⟨rfl, framed_update (keeps_readReg _ _ _ _), hfront 0 (by decide), hfront 1 (by decide)⟩
  · rw [if_neg hreply] at h
    cases h
    exact ⟨(if_neg hreply).symm, Framed.refl i s, rfl, rfl⟩

theorem giveJob_spec (h : s.giveJob i = .ok s') :
    s'.ctl = (if IsReady s.inBuffer then (dispatch s.ctl).1 else s.ctl) ∧ Framed i s s' ∧
      s'.inBuffer = s.inBuffer := by
  unfold giveJob at h
  by_cases hready : IsReady s.inBuffer
  · rw [if_pos hready] at h
    dsimp only at h
    split_ifs at h
    cases h
    exact ⟨(if_pos hready).symm, framed_update (keeps_writeReg _ _ _ _), rfl⟩
  · rw [if_neg hready] at h
    cases h
    exact ⟨(if_neg hready).symm, Framed.refl i s, rfl⟩

/-- A poll is its three parts. -/
theorem poll_eq_ok (h : s.poll i = .ok s') :
    ∃ s1 s2, s.readHeader i = .ok s1 ∧ s1.takeReply i = .ok s2 ∧ s2.giveJob i = .ok s' := by
  obtain ⟨s1, h1, h⟩ := Link.of_bind_eq_ok h
  obtain ⟨s2, h2, h3⟩ := Link.of_bind_eq_ok h
  exact ⟨s1, s2, h1, h2, h3⟩

theorem poll_framed (h : s.poll i = .ok s') : Framed i s s' := by
  obtain ⟨s1, s2, h1, h2, h3⟩ := poll_eq_ok h
  exact (readHeader_spec h1).2.1.trans ((takeReply_spec h2).2.1.trans (giveJob_spec h3).2.1)

/-- The controller after a poll in which the worker has answered `out`. -/
theorem poll_ctl (h : s.poll i = .ok s') :
    s'.ctl = (if IsReady s'.inBuffer then
        (dispatch (if HasReply s'.inBuffer then collect s.ctl s'.inBuffer else s.ctl)).1
      else if HasReply s'.inBuffer then collect s.ctl s'.inBuffer else s.ctl) := by
  obtain ⟨s1, s2, h1, h2, h3⟩ := poll_eq_ok h
  obtain ⟨hctl1, -, -⟩ := readHeader_spec h1
  obtain ⟨hctl2, -, -, hsize⟩ := takeReply_spec h2
  obtain ⟨hctl3, -, hbuffer⟩ := giveJob_spec h3
  have hreply : HasReply s1.inBuffer ↔ HasReply s2.inBuffer := by
    unfold HasReply
    rw [hsize]
  rw [hctl3, hctl2, hctl1, hbuffer]
  simp only [hreply]

/-- Transfers with a board that is lost change neither the boards nor `in_buffer`. -/
theorem poll_lost {f : Fault} (hlost : s.workers i = .error f) (h : s.poll i = .ok s') :
    s'.workers = s.workers ∧ s'.inBuffer = s.inBuffer := by
  obtain ⟨s1, s2, h1, h2, h3⟩ := poll_eq_ok h
  have hone : s1 = s := by
    unfold readHeader at h1
    rw [hlost, Slave.readReg_lost] at h1
    obtain ⟨b, hb, hs1⟩ := Link.of_bind_eq_ok h1
    rw [(intoBuffer_eq_ok hb).2, ← hlost] at hs1
    cases hs1
    rw [Function.update_eq_self]
    rfl
  have htwo : s2.workers = s.workers ∧ s2.inBuffer = s.inBuffer := by
    rw [hone] at h2
    unfold takeReply at h2
    by_cases hreply : HasReply s.inBuffer
    · rw [if_pos hreply, hlost, Slave.readReg_lost] at h2
      obtain ⟨b, hb, hs2⟩ := Link.of_bind_eq_ok h2
      rw [(intoBuffer_eq_ok hb).2, ← hlost] at hs2
      split_ifs at hs2
      cases hs2
      exact ⟨Function.update_eq_self i s.workers, rfl⟩
    · rw [if_neg hreply] at h2
      cases h2
      exact ⟨rfl, rfl⟩
  unfold giveJob at h3
  by_cases hready : IsReady s2.inBuffer
  · rw [if_pos hready] at h3
    dsimp only at h3
    split_ifs at h3
    have hlost2 : s2.workers i = .error f := by rw [htwo.1, hlost]
    rw [hlost2, Slave.writeReg_lost, ← hlost2] at h3
    cases h3
    exact ⟨(Function.update_eq_self i s2.workers).trans htwo.1, htwo.2⟩
  · rw [if_neg hready] at h3
    cases h3
    exact htwo

/-- The board answers at the address that the controller has for it. -/
def Addressed (s : Wire) (i : Nat) : Prop := ∀ w, s.workers i = .ok w → w.twar >>> 1 = s.address i

theorem Addressed.framed {j : Nat} (h : s.Addressed j) (hf : Framed i s s') : s'.Addressed j := by
  intro w' hw'
  rw [hf.address]
  by_cases hj : j = i
  · subst hj
    obtain ⟨w, hw, htwar⟩ := hf.keeps w' hw'
    rw [htwar, h w hw]
  · rw [hf.others j hj] at hw'
    exact h w' hw'

/-- The header that arrives from a board is its address byte. -/
theorem readHeader_live (haddr : s.Addressed i) (h : s.readHeader i = .ok s') {w' : Worker}
    (hw' : s'.workers i = .ok w') : s'.inBuffer 0 = w'.twar ||| 1 := by
  obtain ⟨-, hframed, hbuffer, hworker⟩ := readHeader_spec h
  obtain ⟨w, hw, htwar⟩ := hframed.keeps w' hw'
  rw [hw, ← haddr w hw] at hbuffer hworker
  rcases readReg_cases w (show (0 : UInt16).toNat < 256 by decide)
      (show ((2 : UInt16) - 1).toNat ≤ 254 by decide) with ⟨f, hrun⟩ | ⟨w1, out, hrun, -⟩
  · rw [hrun, hw'] at hworker
    cases hworker
  · rw [hrun] at hbuffer
    rw [hbuffer, Slave.stored_zero_apply (Nat.le_of_ble_eq_true rfl), htwar]
    rfl

theorem ready_address (twar : UInt8) : (twar ||| 1) &&& i2cReady ≠ 0 :=
  (Slave.own_read_address twar).2.2

/-- **A board that works after a poll was given a job in it**, whatever it was doing before: the
    address byte that is read in place of its header says ready. -/
theorem poll_live (haddr : s.Addressed i) (h : s.poll i = .ok s') {w' : Worker}
    (hw' : s'.workers i = .ok w') :
    ∃ (s2 : Wire) (w : Worker), s2.giveJob i = .ok s' ∧ IsReady s2.inBuffer ∧ s2.workers i = .ok w ∧
      w.twar >>> 1 = s2.address i ∧
      s2.ctl = (if HasReply s'.inBuffer then collect s.ctl s'.inBuffer else s.ctl) := by
  obtain ⟨s1, s2, h1, h2, h3⟩ := poll_eq_ok h
  obtain ⟨hctl1, hframed1, -⟩ := readHeader_spec h1
  obtain ⟨hctl2, hframed2, hzero, hsize⟩ := takeReply_spec h2
  obtain ⟨-, hframed3, hbuffer⟩ := giveJob_spec h3
  obtain ⟨w2, hw2, -⟩ := hframed3.keeps w' hw'
  obtain ⟨w1, hw1, -⟩ := hframed2.keeps w2 hw2
  refine ⟨s2, w2, h3, ?_, hw2, (haddr.framed (hframed1.trans hframed2)) w2 hw2, ?_⟩
  · unfold IsReady
    rw [hzero, readHeader_live haddr h1 hw1]
    exact ready_address w1.twar
  · have hreply : HasReply s1.inBuffer ↔ HasReply s'.inBuffer := by
      unfold HasReply
      rw [hbuffer, hsize]
    rw [hctl2, hctl1, ← hbuffer]
    simp only [hreply]

end Wire

/-- **A board that is lost answers again what the board before it has answered**: the controller
    goes by the bytes that its last transfer has left in `in_buffer`, as if this board had sent
    them. If they say that there is a reply, it records that once more, and if they say ready, it
    takes the next piece of text off the file and sends it to nobody. -/
theorem lost_board_answers_again (s s' : Wire) (i : Nat) (f : Fault)
    (hlost : s.workers i = .error f) (h : s.poll i = .ok s') :
    s'.workers = s.workers ∧ s'.inBuffer = s.inBuffer ∧
      (IsReady s.inBuffer → HasReply s.inBuffer →
        s'.ctl = (dispatch (collect s.ctl s.inBuffer)).1) ∧
      (IsReady s.inBuffer → ¬ HasReply s.inBuffer → s'.ctl = (dispatch s.ctl).1) ∧
      (¬ IsReady s.inBuffer → HasReply s.inBuffer → s'.ctl = collect s.ctl s.inBuffer) ∧
      (¬ IsReady s.inBuffer → ¬ HasReply s.inBuffer → s'.ctl = s.ctl) := by
  have hctl := Wire.poll_ctl h
  obtain ⟨hworkers, hbuffer⟩ := Wire.poll_lost hlost h
  rw [hbuffer] at hctl
  refine ⟨hworkers, hbuffer, fun hready hreply => ?_, fun hready hreply => ?_,
    fun hready hreply => ?_, fun hready hreply => ?_⟩
  · rw [hctl, if_pos hready, if_pos hreply]
  · rw [hctl, if_pos hready, if_neg hreply]
  · rw [hctl, if_neg hready, if_pos hreply]
  · rw [hctl, if_neg hready, if_neg hreply]

/-- A board that is lost, behind one whose reply was "ABC" and that was ready. -/
def deafWire : Wire where
  ctl := beginData textFram ⟨8, 600⟩ ⟨1604, 1604⟩
  inBuffer := fun i => [1, 3, 65, 66, 67].getD i.toNat 0
  address := fun _ => 0x20
  workers := fun _ => .error .treePool

theorem deaf_board_answers_again :
    ∃ s', deafWire.poll 0 = .ok s' ∧
      s'.ctl = (dispatch (collect deafWire.ctl deafWire.inBuffer)).1 :=
  ⟨_, rfl, (lost_board_answers_again deafWire _ 0 .treePool rfl rfl).2.2.1 (by decide) (by decide)⟩

/-- The controller over the wire is the controller of the system of boards: a poll does to its
    files, counters and the FRAM what a poll of any system in the same state does, when its board
    answers with what stands in `in_buffer` afterwards. -/
theorem poll_refines {s s' : Wire} {i : Nat} (h : s.poll i = .ok s') {t : Sys}
    (hctl : t.ctl = s.ctl) (hanswer : t.answer = s'.inBuffer) : t.poll.ctl = s'.ctl := by
  rw [Wire.poll_ctl h, Sys.poll, Sys.collected, hctl, hanswer]

end DistHuffman.Main
