/-
  What the loop of `processData` comes to over the wire, pass after pass.

  * `power_on_never_returns`: after power on the first poll of a board is its end. Nothing is read
    and nothing is sent, and the loop goes on for ever.
  * `encode_arrives_as_decode`: a board that is alive after a pass in ENCODE mode holds its job one
    place too far up, so that it inflates the text.
  * `handed_out_loses_boards`: once all of the text has been handed out, a pass either runs over the
    end of `out_buffer` or leaves no board alive, because a board that is alive always gets a job.

  A board that is lost does not acknowledge its address any more; the assumptions are those of
  `DistHuffman.Main.Wire`.
-/
import DistHuffman.Main.Wire
import DistHuffman.Lib.Outcome

namespace DistHuffman.Main

open DistHuffman.Lib DistHuffman.Master
open DistHuffman.Slave (Buffer Worker workerBus clearedBuffer)
open DistHuffman.Codec (Fault)

namespace Wire

variable {n : Nat} {s s' : Wire} {i : Nat}

/-! ## Rules for passes -/

theorem pass_succ (n : Nat) (s : Wire) : s.pass (n + 1) = s.pass n >>= fun s => s.poll n := by
  unfold pass
  rw [List.range_succ, List.foldlM_append]
  congr 1
  funext s
  exact bind_pure (s.poll n)

/-- What every poll carries on to the next board holds after the pass. -/
theorem pass_induction {P : Nat → Wire → Prop} (h0 : P 0 s)
    (hstep : ∀ i < n, ∀ s s', P i s → s.poll i = .ok s' → P (i + 1) s') (h : s.pass n = .ok s') :
    P n s' := by
  induction n generalizing s' with
  | zero =>
    cases h
    exact h0
  | succ n ih =>
    rw [pass_succ] at h
    obtain ⟨s1, h1, h2⟩ := Link.of_bind_eq_ok h
    exact hstep n (Nat.lt_succ_self n) s1 s' (ih (fun i hi => hstep i (Nat.lt_succ_of_lt hi)) h1) h2

/-- The header of the board cannot be read, and after the attempt the board is lost. -/
def Mute (s : Wire) (i : Nat) : Prop :=
  ∃ f, i2cReadReg workerBus (s.address i) 0 2 (s.workers i) = (1, [], .error f)

theorem mute_of_lost {f : Fault} (h : s.workers i = .error f) : s.Mute i :=
  ⟨f, by rw [h, Slave.readReg_lost]⟩

theorem mute_of_fresh {w : Worker} (h : s.workers i = .ok w) (haddr : s.Addressed i)
    (hfresh : w.inBuffer = clearedBuffer) : s.Mute i := by
  have hjob : Slave.processJob w.inBuffer = .error .treePool := by
    rw [hfresh, Slave.processJob_cleared]
  refine ⟨.treePool, ?_⟩
  rw [h, ← haddr w h]
  exact Slave.readReg_stuck hjob (Slave.own_address w.twar).1 0 2

theorem poll_mute (hmute : s.Mute i) (hreply : ¬ HasReply s.inBuffer)
    (hready : ¬ IsReady s.inBuffer) :
    ∃ f, s.poll i = .ok { s with workers := Function.update s.workers i (.error f) } := by
  obtain ⟨f, hread⟩ := hmute
  have hheader : s.readHeader i =
      .ok { s with workers := Function.update s.workers i (.error f) } := by
    unfold readHeader
    rw [hread]
    rfl
  refine ⟨f, ?_⟩
  unfold poll
  rw [hheader, Link.ok_bind, takeReply, if_neg hreply, Link.ok_bind, giveJob, if_neg hready]

/-- A pass over boards that do not answer, with nothing in `in_buffer`. -/
theorem pass_mute (hmute : ∀ i < n, s.Mute i) (hreply : ¬ HasReply s.inBuffer)
    (hready : ¬ IsReady s.inBuffer) :
    ∃ s', s.pass n = .ok s' ∧ s'.ctl = s.ctl ∧ s'.inBuffer = s.inBuffer ∧
      s'.address = s.address ∧ (∀ i < n, ∃ f, s'.workers i = .error f) ∧
      ∀ i, n ≤ i → s'.workers i = s.workers i := by
  induction n with
  | zero => exact ⟨s, rfl, rfl, rfl, rfl, by simp, fun _ _ => rfl⟩
  | succ n ih =>
    obtain ⟨s1, hpass, hctl, hbuffer, haddr, hlost, hrest⟩ :=
      ih fun i hi => hmute i (Nat.lt_succ_of_lt hi)
    have hnext : s1.Mute n := by
      obtain ⟨f, hread⟩ := hmute n (Nat.lt_succ_self n)
      exact ⟨f, by rw [haddr, hrest n (Nat.le_refl n), hread]⟩
    obtain ⟨f, hpoll⟩ := poll_mute hnext (by rwa [hbuffer]) (by rwa [hbuffer])
    refine ⟨{ s1 with workers := Function.update s1.workers n (.error f) }, ?_, hctl, hbuffer,
      haddr, fun i hi => ?_, fun i hi => ?_⟩
    · rw [pass_succ, hpass, Link.ok_bind, hpoll]
    · rcases Nat.lt_succ_iff_lt_or_eq.mp hi with hlt | rfl
      · obtain ⟨g, hg⟩ := hlost i hlt
        exact ⟨g, (Function.update_of_ne (Nat.ne_of_lt hlt) _ _).trans hg⟩
      · exact ⟨f, Function.update_self ..⟩
    · exact (Function.update_of_ne (Nat.ne_of_gt hi) _ _).trans (hrest i (Nat.le_of_succ_le hi))

end Wire

/-- **After power on `processData` does not come back**, if there is a block to do: with boards that
    hold nothing yet or are lost, and an `in_buffer` of zeros, the loop makes every pass, never
    leaves its condition, and all it does is to lose the boards. -/
theorem power_on_never_returns (n : Nat) (s : Wire) (hbuffer : s.inBuffer = clearedBuffer)
    (haddr : ∀ i < n, s.Addressed i)
    (hboards : ∀ i < n, ∀ w, s.workers i = .ok w → w.inBuffer = clearedBuffer)
    (hmore : s.ctl.block < s.ctl.blockCount) (k : Nat) :
    ∃ s', s.passes n k = .ok s' ∧ s'.ctl = s.ctl ∧
      (0 < k → ∀ i < n, ∃ f, s'.workers i = .error f) := by
  have hreply : ¬ HasReply clearedBuffer := by decide
  have hready : ¬ IsReady clearedBuffer := by decide
  induction k generalizing s with
  | zero => exact ⟨s, rfl, rfl, fun h => absurd h (Nat.lt_irrefl 0)⟩
  | succ k ih =>
    have hmute : ∀ i < n, s.Mute i := fun i hi => by
      cases hw : s.workers i with
      | error f => exact Wire.mute_of_lost hw
      | ok w => exact Wire.mute_of_fresh hw (haddr i hi) (hboards i hi w hw)
    obtain ⟨s1, hpass, hctl, hbuffer1, -, hlost, -⟩ :=
      Wire.pass_mute hmute (by rwa [hbuffer]) (by rwa [hbuffer])
    -- after the first pass no board is left, so there is nothing to ask of one
    have hnone : ∀ i < n, ∀ w, s1.workers i ≠ .ok w := fun i hi w hw => by
      obtain ⟨f, hf⟩ := hlost i hi
      rw [hf] at hw
      cases hw
    obtain ⟨s', hrun, hctl', hlost'⟩ := ih s1 (hbuffer1.trans hbuffer)
      (fun i hi w hw => absurd hw (hnone i hi w)) (fun i hi w hw => absurd hw (hnone i hi w))
      (by rwa [hctl])
    refine ⟨s', ?_, hctl'.trans hctl, fun _ => ?_⟩
    · rw [Wire.passes, if_pos hmore, hpass, Link.ok_bind, hrun]
    · rcases Nat.eq_zero_or_pos k with rfl | hk
      · cases hrun
        exact hlost
      · exact hlost' hk

/-- Three boards and a text file, just switched on. -/
def powerOn : Wire where
  ctl := beginData textFram ⟨8, 300⟩ ⟨16004, 16004⟩
  inBuffer := clearedBuffer
  address := fun i => 0x20 + UInt8.ofNat i
  workers := fun i => .ok { Slave.freshWorker with twar := (0x20 + UInt8.ofNat i) <<< 1 }

theorem power_on_three : ∃ s', powerOn.passes 3 1000 = .ok s' ∧ s'.ctl = powerOn.ctl := by
  obtain ⟨s', hrun, hctl, -⟩ := power_on_never_returns 3 powerOn rfl
    (fun i hi w hw => by
      cases hw
      exact (show ∀ i < 3, ((0x20 + UInt8.ofNat i) <<< 1) >>> 1 = 0x20 + UInt8.ofNat i by
        decide) i hi)
    (fun i hi w hw => by
      cases hw
      rfl)
    (by decide) 1000
  exact ⟨s', hrun, hctl⟩

/-! ## Jobs to boards that answer -/

theorem toNat_pieceSize (left : UInt16) :
    (if left > blockSize then blockSize else left).toUInt8.toNat = min 128 left.toNat := by
  have hsize : blockSize.toNat = 128 := rfl
  by_cases h : left > blockSize
  · have hlt := UInt16.lt_iff_toNat_lt.mp h
    rw [if_pos h, UInt16.toNat_toUInt8]
    omega
  · have hle := UInt16.le_iff_toNat_le.mp (UInt16.not_lt.mp h)
    rw [if_neg h, UInt16.toNat_toUInt8]
    omega

theorem sub_eq_zero_iff {a b : UInt16} : a - b = 0 ↔ a = b := by
  constructor
  · intro h
    rw [← UInt16.sub_add_cancel a b, h, UInt16.zero_add]
  · rintro rfl
    exact UInt16.sub_self a

/-- What `dispatch` packs in ENCODE mode. Nothing is left to send exactly if the read pointer is at
    the end of the file. -/
theorem dispatch_encode {c : Ctl} (hjob : c.job = encode) :
    (dispatch c).2.header = (c.block <<< 1) ||| encode ∧ (dispatch c).2.size.toNat ≤ 128 ∧
      (dispatch c).2.payload.length = (dispatch c).2.size.toNat ∧
      (dispatch c).1.irp = c.irp + (dispatch c).2.size ∧
      ((dispatch c).2.size = 0 ↔ c.input.end_ = c.irp.toUInt16) := by
  unfold dispatch
  simp only [if_pos hjob]
  refine ⟨by rw [hjob], ?_, by simp [Fram.read], trivial, ?_⟩
  · rw [toNat_pieceSize]
    exact Nat.min_le_left _ _
  · rw [← sub_eq_zero_iff, ← UInt8.toNat_inj, ← UInt16.toNat_inj, toNat_pieceSize,
      UInt8.toNat_zero, UInt16.toNat_zero]
    omega

theorem or_encode_and (b : UInt8) : (b ||| encode) &&& encode = encode := by
  revert b
  refine forall_byte ?_
  decide +kernel

/-- A board holds a job one place too far up, behind the low address byte. -/
def HoldsShifted (w : Worker) (j : Job) : Prop :=
  ∀ i : UInt8, i.toNat ≤ j.message.length → w.inBuffer i = (0 :: j.message).getD i.toNat 0

/-- A piece of text to encode. -/
structure IsText (j : Job) : Prop where
  encode : j.header &&& encode = encode
  nonempty : j.size ≠ 0
  fits : j.message.length ≤ 130

/-- Such a board takes the job for a DECODE job, the header for the size of the block, and the size
    and the text for the block. -/
theorem HoldsShifted.runCodec {w : Worker} {j : Job} (h : HoldsShifted w j)
    (hlen : j.message.length ≤ 254) :
    Slave.runCodec w.inBuffer =
        (Codec.huffmanInflate (w.inBuffer.bytes.drop 2) j.header.toUInt16
          (List.replicate 254 0)).map Prod.fst ∧
      (w.inBuffer.bytes.drop 2).take (j.message.length - 1) = j.size :: j.payload := by
  have hzero : w.inBuffer 0 = 0 := h 0 (Nat.zero_le _)
  have hone : w.inBuffer 1 = j.header := h 1 (Nat.succ_le_succ (Nat.zero_le _))
  constructor
  · unfold Slave.runCodec
    rw [hzero, hone]
    rfl
  · have hcount : j.message.length - 1 = (j.size :: j.payload).length := rfl
    rw [hcount]
    refine List.ext_getElem ?_ fun k hk hk' => ?_
    · simp [Slave.Buffer.bytes, Job.message] at hlen ⊢
      omega
    · have hbyte : (UInt8.ofNat (2 + k)).toNat = 2 + k := toNat_ofNat_byte (by
        rw [Job.message, List.length_cons] at hlen
        omega)
      have hplace := h (UInt8.ofNat (2 + k)) (by
        rw [hbyte, Job.message, List.length_cons]
        omega)
      simp only [Slave.Buffer.bytes, List.getElem_take, List.getElem_drop, List.getElem_map,
        List.getElem_range]
      rw [hplace, hbyte, Job.message, Nat.add_comm 2 k, List.getD_cons_succ, List.getD_cons_succ,
        List.getD_eq_getElem _ _ hk']

namespace Wire

variable {n : Nat} {s s' : Wire} {i : Nat}

theorem giveJob_live {w w' : Worker} (hready : IsReady s.inBuffer) (hw : s.workers i = .ok w)
    (haddr : w.twar >>> 1 = s.address i) (h : s.giveJob i = .ok s')
    (hw' : s'.workers i = .ok w') (hlen : (dispatch s.ctl).2.message.length ≤ 254) :
    (dispatch s.ctl).2.size ≠ 0 ∧ HoldsShifted w' (dispatch s.ctl).2 := by
  unfold giveJob at h
  rw [if_pos hready] at h
  dsimp only at h
  by_cases hroom : 2 + bytesMoved (dispatch s.ctl).2.size.toUInt16 ≤ 256
  · rw [if_pos hroom] at h
    cases h
    refine ⟨?_, ?_⟩
    · intro hzero
      rw [hzero] at hroom
      exact absurd hroom (by decide)
    · have hworker : (i2cWriteReg workerBus (s.address i) 0 (dispatch s.ctl).2.message
          (s.workers i)).2 = .ok w' := by
        rw [← hw']
        exact (Function.update_self i _ s.workers).symm
      rw [hw, ← haddr] at hworker
      have hrun : i2cWriteReg workerBus (w.twar >>> 1) 0 (dispatch s.ctl).2.message (.ok w) =
          (0, .ok w') :=
        Prod.ext (by rw [Slave.i2cWriteReg_eq, Slave.writeLoop_status]) hworker
      have hstored := ((Slave.i2cWriteReg_ok_iff (fun b => w'.inBuffer = b) w hlen).mp
        ⟨w', hrun, rfl⟩).2
      intro k hk
      have hin : k.toNat < (0 :: (dispatch s.ctl).2.message).length := Nat.lt_succ_of_le hk
      have hroom : (0 :: (dispatch s.ctl).2.message).length ≤ 255 := Nat.succ_le_succ hlen
      rw [hstored, Slave.stored_zero_apply hroom, List.getD_eq_getElem _ _ hin,
        List.getD_eq_getElem _ _ hin]
  · rw [if_neg hroom] at h
    cases h

/-- The controller before it gives out a job. -/
theorem collected_same (c : Ctl) (b : Buffer) :
    (if HasReply b then collect c b else c).job = c.job ∧
      (if HasReply b then collect c b else c).input = c.input ∧
      (if HasReply b then collect c b else c).irp = c.irp := by
  split_ifs
  · obtain ⟨hinput, hjob, -, hirp, -⟩ := collect_frame c b
    exact ⟨hjob, hinput, hirp⟩
  · exact ⟨rfl, rfl, rfl⟩

/-- In ENCODE mode a poll moves the read pointer only if there is text left. -/
theorem poll_same (hjob : s.ctl.job = encode) (h : s.poll i = .ok s') :
    s'.ctl.job = encode ∧ s'.ctl.input = s.ctl.input ∧
      (s.ctl.input.end_ = s.ctl.irp.toUInt16 → s'.ctl.irp = s.ctl.irp) := by
  obtain ⟨hjob', hinput, hirp⟩ := collected_same s.ctl s'.inBuffer
  have hctl := poll_ctl h
  by_cases hready : IsReady s'.inBuffer
  · rw [if_pos hready] at hctl
    obtain ⟨-, hinput2, -, hjob2, -⟩ :=
      dispatch_frame (if HasReply s'.inBuffer then collect s.ctl s'.inBuffer else s.ctl)
    obtain ⟨-, -, -, hmove, hzero⟩ := dispatch_encode (hjob'.trans hjob)
    rw [hctl]
    refine ⟨hjob2.trans (hjob'.trans hjob), hinput2.trans hinput, fun hend => ?_⟩
    rw [hmove, hzero.mpr (by rw [hinput, hirp, hend]), UInt8.add_zero, hirp]
  · rw [if_neg hready] at hctl
    rw [hctl]
    exact ⟨hjob'.trans hjob, hinput, fun _ => hirp⟩

/-- A board that is alive after a poll in ENCODE mode was given a piece of text in it, so there was
    one left, and it holds that one place too far up. -/
theorem poll_encode {w' : Worker} (hjob : s.ctl.job = encode) (haddr : s.Addressed i)
    (h : s.poll i = .ok s') (hw' : s'.workers i = .ok w') :
    s.ctl.input.end_ ≠ s.ctl.irp.toUInt16 ∧ ∃ j, IsText j ∧ HoldsShifted w' j := by
  obtain ⟨s2, w, hgive, hready, hw, haddr2, hctl⟩ := poll_live haddr h hw'
  obtain ⟨hjob2, hinput, hirp⟩ := collected_same s.ctl s'.inBuffer
  rw [← hctl] at hjob2 hinput hirp
  obtain ⟨hheader, hsize, hpayload, -, hzero⟩ := dispatch_encode (hjob2.trans hjob)
  have hlen : (dispatch s2.ctl).2.message.length ≤ 130 := by
    rw [Job.message, List.length_cons, List.length_cons, hpayload]
    omega
  obtain ⟨hne, hholds⟩ := giveJob_live hready hw haddr2 hgive hw' (Nat.le_trans hlen (by decide))
  refine ⟨?_, (dispatch s2.ctl).2, ⟨?_, hne, hlen⟩, hholds⟩
  · intro hend
    refine hne (hzero.mpr ?_)
    rw [hinput, hirp, hend]
  · rw [hheader]
    exact or_encode_and _

/-- The state of a pass in ENCODE mode before board `i`: the boards in front of it are lost or hold
    a piece of text. -/
structure Sending (n i : Nat) (s : Wire) : Prop where
  job : s.ctl.job = encode
  addressed : ∀ j < n, s.Addressed j
  sent : ∀ j < i, ∀ w, s.workers j = .ok w → ∃ t, IsText t ∧ HoldsShifted w t

theorem Sending.poll (h : Sending n i s) (hi : i < n) (hpoll : s.poll i = .ok s') :
    Sending n (i + 1) s' where
  job := (poll_same h.job hpoll).1
  addressed := fun j hj => (h.addressed j hj).framed (poll_framed hpoll)
  sent := fun j hj w hw => by
    rcases Nat.lt_succ_iff_lt_or_eq.mp hj with hlt | rfl
    · rw [(poll_framed hpoll).others j (Nat.ne_of_lt hlt)] at hw
      exact h.sent j hlt w hw
    · exact (poll_encode h.job (h.addressed j hi) hpoll hw).2

theorem Sending.pass (h : Sending n 0 s) (hpass : s.pass n = .ok s') : Sending n n s' :=
  pass_induction h (fun _ hi _ _ hs hpoll => hs.poll hi hpoll) hpass

theorem only_poll (s : Wire) (i : Nat) : Only (· = Fault.bounds) (s.poll i) := by
  have hinto : ∀ b offset bytes, Only (· = Fault.bounds) (intoBuffer b offset bytes) :=
    fun _ _ _ => only_ite (only_ok _) (only_error rfl)
  refine Only.bind ((hinto _ _ _).bind fun _ => only_ok _) fun s1 => Only.bind ?_ fun s2 => ?_
  · refine only_ite ((hinto _ _ _).bind fun _ => ?_) (only_ok _)
    exact only_ite (only_ok _) (only_error rfl)
  · exact only_ite (only_ite (only_ok _) (only_error rfl)) (only_ok _)

/-- The state of a pass before board `i` when all of the text has been handed out. -/
structure HandedOut (n i : Nat) (s : Wire) : Prop where
  job : s.ctl.job = encode
  atEnd : s.ctl.input.end_ = s.ctl.irp.toUInt16
  addressed : ∀ j < n, s.Addressed j
  lost : ∀ j < i, ∃ f, s.workers j = .error f

theorem HandedOut.poll (h : HandedOut n i s) (hi : i < n) (hpoll : s.poll i = .ok s') :
    HandedOut n (i + 1) s' := by
  obtain ⟨hjob, hinput, hirp⟩ := poll_same h.job hpoll
  refine ⟨hjob, by rw [hinput, hirp h.atEnd, h.atEnd], fun j hj =>
    (h.addressed j hj).framed (poll_framed hpoll), fun j hj => ?_⟩
  rcases Nat.lt_succ_iff_lt_or_eq.mp hj with hlt | rfl
  · rw [(poll_framed hpoll).others j (Nat.ne_of_lt hlt)]
    exact h.lost j hlt
  · cases hw : s'.workers j with
    | error f => exact ⟨f, rfl⟩
    | ok w => exact absurd h.atEnd (poll_encode h.job (h.addressed j hi) hpoll hw).1

end Wire

/-- A board that inflates nothing, and a text of two letters. -/
def textWire : Wire where
  ctl := beginData textFram ⟨8, 11⟩ ⟨16004, 16004⟩
  inBuffer := clearedBuffer
  address := fun _ => 0x20
  workers := fun _ => .ok Slave.idleWorker

/-- **Once all of the text has been handed out, nothing good comes of a pass**: the controller reads
    no byte from the FRAM for the first board that is alive, which is one of 65536, over the end of
    `out_buffer`; or there is no such board, and then none at all after the pass. -/
theorem handed_out_loses_boards (n : Nat) (s : Wire) (hjob : s.ctl.job = encode)
    (hend : s.ctl.input.end_ = s.ctl.irp.toUInt16) (haddr : ∀ i < n, s.Addressed i) :
    s.pass n = .error .bounds ∨
      ∃ s', s.pass n = .ok s' ∧ ∀ i < n, ∃ f, s'.workers i = .error f := by
  cases hpass : s.pass n with
  | error f =>
    have hbounds := only_foldlM (fun s i => Wire.only_poll s i) (List.range n) s f hpass
    exact Or.inl (congrArg Except.error hbounds)
  | ok s' =>
    have hdone : Wire.HandedOut n n s' := by
      refine Wire.pass_induction (P := Wire.HandedOut n)
        ⟨hjob, hend, haddr, fun j hj => absurd hj (Nat.not_lt_zero j)⟩ ?_ hpass
      exact fun i hi t t' ht hpoll => ht.poll hi hpoll
    exact Or.inr ⟨s', rfl, hdone.lost⟩

/-- The same board, and a text of no letter. -/
def emptyWire : Wire := { textWire with ctl := beginData textFram ⟨8, 9⟩ ⟨16004, 16004⟩ }

theorem handed_out_empty : emptyWire.pass 1 = .error .bounds := by
  have hfails : (emptyWire.pass 1).toOption.isSome = false := by decide +kernel
  have haddr : ∀ i < 1, emptyWire.Addressed i := fun i _ w hw => by
    cases hw
    rfl
  refine (handed_out_loses_boards 1 emptyWire (by decide) (by decide) haddr).resolve_right ?_
  rintro ⟨s', hs', -⟩
  rw [hs'] at hfails
  cases hfails

end DistHuffman.Main
