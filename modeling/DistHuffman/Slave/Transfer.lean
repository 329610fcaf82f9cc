/-
  The controller's register transfers as a worker sees them: `i2c_writeReg` and `i2c_readReg` over
  `workerBus`.

  The two programs do not mean the same by the address phase. The controller sends two bytes, high
  byte first; the worker takes the first one as buffer address and stores the second one, and it
  runs a job after each of them. So:

  * `i2cWriteReg_arrives_iff`: a message arrives where it was sent only if it is all zeros and what
    it pushes one place up is zero too;
  * `i2cReadReg_pure_iff`: a read leaves the worker as it was only if the offset is the header the
    worker already holds, and its bytes are those of the wrong place.
-/
import DistHuffman.Slave.Reply
import DistHuffman.Lib.Overlay

namespace DistHuffman.Slave

open DistHuffman.Lib DistHuffman.Codec DistHuffman.Link DistHuffman.Master

/-! ## Addressing -/

theorem own_address (twar : UInt8) :
    ((twar >>> 1) <<< 1) &&& 0xFE = twar &&& 0xFE ∧ ((twar >>> 1) <<< 1) &&& 1 = 0 := by
  revert twar
  refine forall_byte ?_
  decide +kernel

theorem own_read_address (twar : UInt8) :
    ((twar >>> 1) <<< 1) ||| 1 = twar ||| 1 ∧ (twar ||| 1) &&& 0xFE = twar &&& 0xFE ∧
      (twar ||| 1) &&& 1 ≠ 0 := by
  revert twar
  refine forall_byte ?_
  decide +kernel

/-- The worker after its own address for writing. -/
def addressed (w : Worker) : Worker :=
  { w with
    bufferAddress := 0xFF
    twdr := (w.twar >>> 1) <<< 1
    twcr := w.twcr ||| (twie ||| twint ||| twea ||| twen) }

theorem start_write (w : Worker) :
    workerBus.start ((w.twar >>> 1) <<< 1) (.ok w) = (0, .ok (addressed w)) := by
  simp only [workerBus, own_address, if_true]
  rfl

/-- The worker after its own address for reading: the event has no branch of its own, so only the
    control register changes, and `TWDR` holds the address byte. -/
theorem start_read (w : Worker) :
    workerBus.start ((w.twar >>> 1) <<< 1 ||| 1) (.ok w) =
      (0, .ok { w with twdr := w.twar ||| 1, twcr := w.twcr ||| (twea ||| twen ||| twie) }) := by
  obtain ⟨haddr, hown, hdir⟩ := own_read_address w.twar
  rw [haddr]
  simp only [workerBus, hown, hdir, if_true, if_false]
  rfl

/-! ## Receiving -/

theorem receive_address (w : Worker) (h : w.bufferAddress = 0xFF) :
    (receive w).inBuffer = w.inBuffer ∧ (receive w).bufferAddress = w.twdr := by
  unfold receive
  rw [if_pos h.symm]
  exact ⟨rfl, rfl⟩

theorem receive_data (w : Worker) (h : w.bufferAddress ≠ 0xFF) :
    (receive w).inBuffer = Function.update w.inBuffer w.bufferAddress w.twdr ∧
      (receive w).bufferAddress = w.bufferAddress + 1 := by
  unfold receive
  rw [if_neg (Ne.symm h)]
  dsimp only
  split <;> exact ⟨rfl, rfl⟩

theorem receive_twar (w : Worker) : (receive w).twar = w.twar := by
  unfold receive
  dsimp only
  repeat' split
  all_goals rfl

/-- `in_buffer` after the bytes `xs` have been stored from address `a` on. -/
def stored (b : Buffer) (a : UInt8) : List UInt8 → Buffer
  | [] => b
  | x :: xs => stored (Function.update b a x) (a + 1) xs

theorem ne_last {a : UInt8} (h : a.toNat < 255) : a ≠ 0xFF := by
  intro e
  rw [e] at h
  exact absurd h (by decide)

theorem toNat_succ {a : UInt8} (h : a.toNat < 255) : (a + 1).toNat = a.toNat + 1 := by
  rw [UInt8.toNat_add]
  exact Nat.mod_eq_of_lt (Nat.succ_lt_succ h)

theorem stored_apply {xs : List UInt8} {a : UInt8} (h : a.toNat + xs.length ≤ 255) (b : Buffer)
    (i : UInt8) :
    stored b a xs i = if a.toNat ≤ i.toNat then xs.getD (i.toNat - a.toNat) (b i) else b i := by
  induction xs generalizing a b with
  | nil => simp [stored]
  | cons x xs ih =>
    simp only [List.length_cons] at h
    have ha := toNat_succ (a := a) (by omega)
    rw [stored, ih (by omega), ha]
    rcases Nat.lt_trichotomy i.toNat a.toNat with hlt | heq | hgt
    · rw [if_neg (by omega), if_neg (by omega),
        Function.update_of_ne (fun e => by rw [e] at hlt; omega)]
    · have hi : i = a := UInt8.toNat_inj.mp heq
      subst hi
      rw [if_neg (by omega), if_pos (Nat.le_refl _), Nat.sub_self, Function.update_self]
      rfl
    · rw [if_pos (by omega), if_pos (by omega),
        Function.update_of_ne (fun e => by rw [e] at hgt; omega),
        show i.toNat - a.toNat = i.toNat - (a.toNat + 1) + 1 by omega, List.getD_cons_succ]

theorem stored_zero_apply {xs : List UInt8} (h : xs.length ≤ 255) (b : Buffer) (i : UInt8) :
    stored b 0 xs i = xs.getD i.toNat (b i) := by
  rw [stored_apply (by rwa [UInt8.toNat_zero, Nat.zero_add]), UInt8.toNat_zero,
    if_pos (Nat.zero_le _), Nat.sub_zero]

/-- Every byte is acknowledged. -/
theorem writeLoop_status (xs : List UInt8) (s : Except Fault Worker) :
    (writeLoop workerBus xs s).1 = 0 := by
  induction xs generalizing s with
  | nil => rfl
  | cons x xs ih => exact ih _

theorem writeLoop_error (xs : List UInt8) (f : Fault) :
    writeLoop workerBus xs (.error f) = (0, .error f) := by
  induction xs with
  | nil => rfl
  | cons x xs ih => exact ih

/-- A job has to end before the bytes behind it can arrive. -/
theorem writeLoop_bind_iff {job : Except Fault Buffer} {next : Buffer → Worker} {xs : List UInt8}
    {P : Worker → Prop} {Q : Prop}
    (h : ∀ out, job = .ok out →
      ((∃ w', writeLoop workerBus xs (.ok (next out)) = (0, .ok w') ∧ P w') ↔ Q)) :
    (∃ w', writeLoop workerBus xs (job >>= fun out => .ok (next out)) = (0, .ok w') ∧ P w') ↔
      (∃ out, job = .ok out) ∧ Q := by
  cases job with
  | error f =>
    rw [error_bind, writeLoop_error]
    constructor
    · intro hrun
      obtain ⟨w', hw', -⟩ := hrun
      cases hw'
    · intro hjob
      obtain ⟨⟨out, hout⟩, -⟩ := hjob
      cases hout
  | ok out =>
    rw [ok_bind, h out rfl]
    exact ⟨fun hQ => ⟨⟨out, rfl⟩, hQ⟩, And.right⟩

/-- The data loop of `i2c_writeReg`, from a worker that has its buffer address: the bytes are
    stored one after the other, and each of them starts a job on what has arrived so far. -/
theorem writeLoop_ok_iff (P : Buffer → Prop) {xs : List UInt8} {w : Worker}
    (h : w.bufferAddress.toNat + xs.length ≤ 255) :
    (∃ w', writeLoop workerBus xs (.ok w) = (0, .ok w') ∧ P w'.inBuffer) ↔
      (∀ k < xs.length, ∃ out,
        processJob (stored w.inBuffer w.bufferAddress (xs.take (k + 1))) = .ok out) ∧
      P (stored w.inBuffer w.bufferAddress xs) := by
  induction xs generalizing w with
  | nil =>
    constructor
    · rintro ⟨w', hrun, hP⟩
      cases hrun
      exact ⟨by simp, hP⟩
    · rintro ⟨-, hP⟩
      exact ⟨w, rfl, hP⟩
  | cons x xs ih =>
    simp only [List.length_cons] at h
    have hne := ne_last (a := w.bufferAddress) (by omega)
    have hin : (receive { w with twdr := x }).inBuffer =
        Function.update w.inBuffer w.bufferAddress x := (receive_data { w with twdr := x } hne).1
    have haddr : (receive { w with twdr := x }).bufferAddress = w.bufferAddress + 1 :=
      (receive_data { w with twdr := x } hne).2
    have hstep : writeLoop workerBus (x :: xs) (.ok w) =
        writeLoop workerBus xs (isr { w with twdr := x } twSrDataAck) := rfl
    rw [hstep, isr_data, hin, List.length_cons, Nat.forall_lt_succ_left]
    rw [and_assoc]
    refine writeLoop_bind_iff fun out _ => ?_
    rw [ih (by rw [haddr, toNat_succ (by omega)]; omega), haddr, hin]
    rfl

/-- The worker after its own address and the high address byte 0, with the reply `out` of the job
    that this byte starts. -/
def opened (w : Worker) (out : Buffer) : Worker :=
  { receive { addressed w with twdr := 0 } with outBuffer := out }

theorem opened_spec (w : Worker) (out : Buffer) :
    (opened w out).bufferAddress = 0 ∧ (opened w out).inBuffer = w.inBuffer ∧
      (opened w out).twar = w.twar := by
  obtain ⟨hin, haddr⟩ := receive_address { addressed w with twdr := 0 } rfl
  exact ⟨haddr, hin, receive_twar _⟩

theorem write_zero_addressed (w : Worker) :
    workerBus.write 0 (.ok (addressed w)) =
      (0, processJob w.inBuffer >>= fun out => .ok (opened w out)) := by
  have h := isr_data { addressed w with twdr := 0 }
  rw [(receive_address { addressed w with twdr := 0 } rfl).1] at h
  exact congrArg (Prod.mk 0) h

/-- `i2c_writeReg` to offset 0 runs a job on the old `in_buffer` and then stores a zero, the low
    address byte, followed by the message. -/
theorem i2cWriteReg_eq (w : Worker) (m : List UInt8) :
    i2cWriteReg workerBus (w.twar >>> 1) 0 m (.ok w) =
      writeLoop workerBus (0 :: m) (processJob w.inBuffer >>= fun out => .ok (opened w out)) := by
  have hstart : i2cWriteStart workerBus (w.twar >>> 1) 0 (.ok w) =
      (0, (workerBus.write 0 (processJob w.inBuffer >>= fun out => .ok (opened w out))).2) := by
    unfold i2cWriteStart
    rw [UInt8.or_zero, start_write]
    have hzero : ((0 : UInt16) >>> 8).toUInt8 = 0 := rfl
    dsimp only
    rw [if_neg (by decide), hzero, write_zero_addressed]
    rfl
  have hloop : writeLoop workerBus (0 :: m)
        (processJob w.inBuffer >>= fun out => .ok (opened w out)) =
      writeLoop workerBus m
        (workerBus.write 0 (processJob w.inBuffer >>= fun out => .ok (opened w out))).2 := rfl
  unfold i2cWriteReg
  rw [hstart, hloop]
  dsimp only
  rw [if_neg (by decide), writeLoop_status, if_neg (by decide)]
  exact Prod.ext (writeLoop_status _ _).symm rfl

/-- What `i2c_writeReg(worker, 0, m, |m|)` is for: `m` stands at the beginning of `in_buffer` and
    the rest of it is as it was. -/
def Arrives (w : Worker) (m : List UInt8) : Prop :=
  ∃ w', i2cWriteReg workerBus (w.twar >>> 1) 0 m (.ok w) = (0, .ok w') ∧
    ∀ i : UInt8, w'.inBuffer i = m.getD i.toNat (w.inBuffer i)

/-- What the transfer does. -/
theorem i2cWriteReg_ok_iff (P : Buffer → Prop) (w : Worker) {m : List UInt8}
    (h : m.length ≤ 254) :
    (∃ w', i2cWriteReg workerBus (w.twar >>> 1) 0 m (.ok w) = (0, .ok w') ∧ P w'.inBuffer) ↔
      (∀ k ≤ m.length + 1, ∃ out, processJob (stored w.inBuffer 0 ((0 :: m).take k)) = .ok out) ∧
      P (stored w.inBuffer 0 (0 :: m)) := by
  rw [i2cWriteReg_eq]
  have hsplit : ∀ Q : Nat → Prop, (∀ k ≤ m.length + 1, Q k) ↔ Q 0 ∧ ∀ k < m.length + 1, Q (k + 1) :=
    fun Q => by simp only [← Nat.lt_succ_iff, Nat.forall_lt_succ_left]
  rw [hsplit, and_assoc]
  refine writeLoop_bind_iff fun out _ => ?_
  obtain ⟨haddr, hin, -⟩ := opened_spec w out
  have hlen : (opened w out).bufferAddress.toNat + (0 :: m).length ≤ 255 := by
    rw [haddr, List.length_cons]
    have : (0 : UInt8).toNat = 0 := rfl
    omega
  rw [writeLoop_ok_iff P hlen, haddr, hin, List.length_cons]

/-- The buffer with its first `k` bytes cleared. -/
def cleared (b : Buffer) (k : Nat) : Buffer := fun i => if i.toNat < k then 0 else b i

theorem stored_zeros (b : Buffer) {k : Nat} (h : k ≤ 255) :
    stored b 0 (List.replicate k 0) = cleared b k := by
  funext i
  rw [stored_zero_apply (by rwa [List.length_replicate])]
  unfold cleared
  split
  · next hi => simp [List.getD_eq_getElem?_getD, hi]
  · next hi => simp [List.getD_eq_getElem?_getD, Nat.le_of_not_lt hi]

/-- A zero put in front of a list in a buffer leaves the buffer as it was without it only if the
    whole list is zeros, and so is what it pushes out of its place. -/
theorem zero_cons_getD_iff {m : List UInt8} (h : m.length ≤ 254) (b : Buffer) :
    (∀ i : UInt8, (0 :: m).getD i.toNat (b i) = m.getD i.toNat (b i)) ↔
      (∀ x ∈ m, x = 0) ∧ b (UInt8.ofNat m.length) = 0 := by
  have hindex : ∀ j ≤ m.length, (UInt8.ofNat j).toNat = j := fun j hj => toNat_ofNat_byte (by omega)
  have hlen : (0 :: m).length = m.length + 1 := List.length_cons
  constructor
  · intro hsame
    have hshift : (0 :: m).take m.length = m := by
      refine List.ext_getElem (by rw [List.length_take]; omega) fun j h1 h2 => ?_
      have hj := hsame (UInt8.ofNat j)
      rw [hindex j (Nat.le_of_lt h2), List.getD_eq_getElem _ _ (by omega),
        List.getD_eq_getElem _ _ h2] at hj
      rw [List.getElem_take, hj]
    have hall := take_cons_eq_iff.mp hshift
    have hlast := hsame (UInt8.ofNat m.length)
    rw [hindex _ (Nat.le_refl _), List.getD_eq_getElem _ _ (by omega),
      List.getD_eq_default _ _ (Nat.le_refl _)] at hlast
    have hcons : ∀ x ∈ 0 :: m, x = 0 := List.forall_mem_cons.mpr ⟨rfl, hall⟩
    exact ⟨hall, hlast.symm.trans (hcons _ (List.getElem_mem _))⟩
  · intro hzero i
    obtain ⟨hall, hb⟩ := hzero
    have hcons : ∀ x ∈ 0 :: m, x = 0 := List.forall_mem_cons.mpr ⟨rfl, hall⟩
    rcases Nat.lt_trichotomy i.toNat m.length with hlt | heq | hgt
    · rw [List.getD_eq_getElem _ _ (by omega), List.getD_eq_getElem _ _ hlt,
        hall _ (List.getElem_mem hlt)]
      exact hcons _ (List.getElem_mem _)
    · rw [← heq, UInt8.ofNat_toNat] at hb
      rw [List.getD_eq_getElem _ _ (by omega), List.getD_eq_default _ _ (by omega), hb]
      exact hcons _ (List.getElem_mem _)
    · rw [List.getD_eq_default _ _ (by omega), List.getD_eq_default _ _ (by omega)]

/-- A message arrives as it was sent exactly if it is all zeros, the byte behind it is zero, and no
    job that the transfer starts on the way, on the buffer cleared so far, ends in a fault. -/
theorem i2cWriteReg_arrives_iff (w : Worker) (m : List UInt8) (h : m.length ≤ 254) :
    Arrives w m ↔
      (∀ b ∈ m, b = 0) ∧ w.inBuffer (UInt8.ofNat m.length) = 0 ∧
        ∀ k ≤ m.length + 1, ∃ out, processJob (cleared w.inBuffer k) = .ok out := by
  have hbuffer : (∀ i : UInt8, stored w.inBuffer 0 (0 :: m) i = m.getD i.toNat (w.inBuffer i)) ↔
      (∀ b ∈ m, b = 0) ∧ w.inBuffer (UInt8.ofNat m.length) = 0 := by
    rw [← zero_cons_getD_iff h]
    refine forall_congr' fun i => ?_
    rw [stored_zero_apply (by rw [List.length_cons]; omega)]
  unfold Arrives
  rw [i2cWriteReg_ok_iff (fun b => ∀ i : UInt8, b i = m.getD i.toNat (w.inBuffer i)) w h,
    hbuffer, and_comm, and_assoc]
  refine and_congr_right fun hm => and_congr_right fun _ => ?_
  refine forall_congr' fun k => imp_congr_right fun hk => ?_
  have htake : (0 :: m).take k = List.replicate k 0 := by
    have hzeros : 0 :: m = List.replicate (m.length + 1) 0 :=
      List.eq_replicate_of_mem (List.forall_mem_cons.mpr ⟨rfl, hm⟩)
    rw [hzeros, List.take_replicate, Nat.min_eq_left hk]
  rw [htake, stored_zeros _ (by omega)]

/-- A worker at the first worker address whose job is to inflate nothing, and its reply. -/
def idleWorker : Worker where
  bufferAddress := 0
  inBuffer := fun i => [0, 0, 1, 0, 0, 65].getD i.toNat 0
  outBuffer := fun i => (1 :: 0 :: List.replicate 254 0).getD i.toNat 0
  twdr := 0
  twar := (0x20 : UInt8) <<< 1
  twcr := twie ||| twea ||| twint ||| twen

theorem runCodec_idleWorker :
    runCodec idleWorker.inBuffer = .ok (List.replicate 254 0) := by decide +kernel

theorem i2cWriteReg_arrives_zero : Arrives idleWorker [0] := by
  refine (i2cWriteReg_arrives_iff idleWorker [0] (by decide)).mpr
    ⟨by simp, by decide, fun k hk => ?_⟩
  have hsame : cleared idleWorker.inBuffer k = idleWorker.inBuffer := by
    funext i
    unfold cleared
    split
    · next hi =>
      have hcases : i = 0 ∨ i = 1 := by
        rw [List.length_singleton] at hk
        have h01 : i.toNat = (0 : UInt8).toNat ∨ i.toNat = (1 : UInt8).toNat := by
          rw [UInt8.toNat_zero, UInt8.toNat_one]
          omega
        exact h01.imp UInt8.toNat_inj.mp UInt8.toNat_inj.mp
      rcases hcases with rfl | rfl <;> rfl
    · rfl
  rw [hsame]
  exact ⟨_, processJob_of_runCodec runCodec_idleWorker (by decide)⟩

/-- The job to inflate the block of "AB", sent to that worker, arrives behind the low address byte:
    all goes well on the way, and `in_buffer` holds an empty job in the end. -/
theorem i2cWriteReg_shifts :
    (∃ w', i2cWriteReg workerBus (idleWorker.twar >>> 1) 0 [0, 7, 3, 0, 2, 42, 65, 66, 2]
        (.ok idleWorker) = (0, .ok w') ∧
      w'.inBuffer = stored idleWorker.inBuffer 0 [0, 0, 7, 3, 0, 2, 42, 65, 66, 2]) ∧
    ¬ Arrives idleWorker [0, 7, 3, 0, 2, 42, 65, 66, 2] := by
  constructor
  · rw [i2cWriteReg_ok_iff (· = stored idleWorker.inBuffer 0 [0, 0, 7, 3, 0, 2, 42, 65, 66, 2])
      idleWorker (by decide)]
    refine ⟨fun k hk => ?_, rfl⟩
    have hrun : ∀ k < 11, runCodec (stored idleWorker.inBuffer 0
        ([0, 0, 7, 3, 0, 2, 42, 65, 66, 2].take k)) = .ok (List.replicate 254 0) := by
      decide +kernel
    exact ⟨_, processJob_of_runCodec (hrun k (Nat.lt_succ_of_le hk)) (by decide)⟩
  · intro h
    unfold Arrives at h
    rw [i2cWriteReg_ok_iff (fun b => ∀ i : UInt8, b i =
      [0, 7, 3, 0, 2, 42, 65, 66, 2].getD i.toNat (idleWorker.inBuffer i))
      idleWorker (by decide)] at h
    exact absurd (h.2 1) (by decide)

/-! ## Sending -/

theorem transmit_spec (w : Worker) (h : w.bufferAddress ≠ 0xFF) :
    (transmit w).twdr = w.outBuffer w.bufferAddress ∧
      (transmit w).bufferAddress = w.bufferAddress + 1 ∧
      (transmit w).inBuffer = w.inBuffer ∧ (transmit w).outBuffer = w.outBuffer := by
  unfold transmit
  rw [if_neg h]
  dsimp only
  split <;> exact ⟨rfl, rfl, rfl, rfl⟩

/-- The read loop of `i2c_readReg`: the first byte is what `TWDR` held, the others come from
    `out_buffer` at the buffer address and behind it. -/
theorem readLoop_spec {k : Nat} {w : Worker} (h : w.bufferAddress.toNat + k ≤ 255) :
    ∃ w', readLoop workerBus k (.ok w) =
        (w.twdr :: (List.range k).map fun i => w.outBuffer (w.bufferAddress + UInt8.ofNat i),
          .ok w') ∧
      w'.inBuffer = w.inBuffer ∧ w'.outBuffer = w.outBuffer := by
  induction k generalizing w with
  | zero => exact ⟨w, rfl, rfl, rfl⟩
  | succ k ih =>
    have hne := ne_last (a := w.bufferAddress) (by omega)
    obtain ⟨htwdr, haddr, hin, hout⟩ := transmit_spec w hne
    obtain ⟨w', hrun, hin', hout'⟩ := @ih (transmit w) (by rw [haddr, toNat_succ (by omega)]; omega)
    refine ⟨w', ?_, hin'.trans hin, hout'.trans hout⟩
    have hstep : readLoop workerBus (k + 1) (.ok w) =
        (w.twdr :: (readLoop workerBus k (.ok (transmit w))).1,
          (readLoop workerBus k (.ok (transmit w))).2) := rfl
    have hhead : w.bufferAddress + UInt8.ofNat 0 = w.bufferAddress := UInt8.add_zero _
    have htail : ((fun i => w.outBuffer (w.bufferAddress + UInt8.ofNat i)) ∘ Nat.succ) =
        fun i => w.outBuffer (w.bufferAddress + 1 + UInt8.ofNat i) := by
      funext i
      rw [Function.comp_apply, Nat.succ_eq_add_one, UInt8.ofNat_add, UInt8.add_comm (UInt8.ofNat i),
        ← UInt8.add_assoc]
      rfl
    rw [hstep, hrun, htwdr, haddr, hout, List.range_succ_eq_map, List.map_cons, List.map_map,
      hhead, htail]

/-- The worker after both address bytes of a read, with the replies of the jobs they start: the low
    one has replaced the header in `in_buffer`. -/
def pointed (w : Worker) (out : Buffer) (low : UInt8) (out' : Buffer) : Worker :=
  { receive { opened w out with twdr := low } with outBuffer := out' }

theorem receive_opened (w : Worker) (out : Buffer) (low : UInt8) :
    (receive { opened w out with twdr := low }).inBuffer = Function.update w.inBuffer 0 low ∧
      (receive { opened w out with twdr := low }).bufferAddress = 1 := by
  obtain ⟨haddr, hin, -⟩ := opened_spec w out
  have hne : (opened w out).bufferAddress ≠ 0xFF := by
    rw [haddr]
    decide
  obtain ⟨hin', haddr'⟩ := receive_data { opened w out with twdr := low } hne
  dsimp only at hin' haddr'
  rw [hin, haddr] at hin'
  rw [haddr] at haddr'
  exact ⟨hin', haddr'⟩

theorem pointed_spec (w : Worker) (out : Buffer) (low : UInt8) (out' : Buffer) :
    (pointed w out low out').bufferAddress = 1 ∧
      (pointed w out low out').inBuffer = Function.update w.inBuffer 0 low ∧
      (pointed w out low out').outBuffer = out' ∧ (pointed w out low out').twar = w.twar := by
  obtain ⟨hin, haddr⟩ := receive_opened w out low
  exact ⟨haddr, hin, rfl, (receive_twar _).trans (opened_spec w out).2.2⟩

theorem write_opened (w : Worker) (out : Buffer) (low : UInt8) :
    workerBus.write low (.ok (opened w out)) =
      (0, processJob (Function.update w.inBuffer 0 low) >>= fun out' =>
        .ok (pointed w out low out')) := by
  have h := isr_data { opened w out with twdr := low }
  rw [(receive_opened w out low).1] at h
  exact congrArg (Prod.mk 0) h

/-- The data phase of a read: the worker answers to its address, and sends first the address byte,
    then the new reply from its second byte on. -/
theorem readLoop_pointed (w : Worker) (out : Buffer) (low : UInt8) (out' : Buffer) {k : Nat}
    (hk : k ≤ 254) :
    (workerBus.start ((w.twar >>> 1) <<< 1 ||| 1) (.ok (pointed w out low out'))).1 = 0 ∧
    ∃ w', readLoop workerBus k
        (workerBus.start ((w.twar >>> 1) <<< 1 ||| 1) (.ok (pointed w out low out'))).2 =
          ((w.twar ||| 1) :: (List.range k).map (fun i => out' (1 + UInt8.ofNat i)), .ok w') ∧
      w'.inBuffer = Function.update w.inBuffer 0 low ∧ w'.outBuffer = out' := by
  obtain ⟨haddr, hin, hout, htwar⟩ := pointed_spec w out low out'
  have hstart := start_read (pointed w out low out')
  rw [htwar] at hstart
  rw [hstart]
  have hroom : (pointed w out low out').bufferAddress.toNat + k ≤ 255 := by
    rw [haddr, UInt8.toNat_one]
    omega
  obtain ⟨w', hread, hin', hout'⟩ := @readLoop_spec k { pointed w out low out' with
    twdr := w.twar ||| 1
    twar := w.twar
    twcr := (pointed w out low out').twcr ||| (twea ||| twen ||| twie) } hroom
  dsimp only at hread hin' hout'
  rw [haddr, hout] at hread
  exact ⟨rfl, w', hread, hin'.trans hin, hout'.trans hout⟩

theorem high_byte {offset : UInt16} (h : offset.toNat < 256) : (offset >>> 8).toUInt8 = 0 := by
  apply UInt8.toNat_inj.mp
  simp only [UInt16.toNat_toUInt8, UInt16.toNat_shiftRight, UInt16.reduceToNat, Nat.reduceMod,
    Nat.shiftRight_eq_div_pow, UInt8.toNat_zero]
  omega

/-- What `i2c_readReg(worker, offset, buf, n)` does: both address bytes start a job, the low one
    after it has replaced the header in `in_buffer`. The first byte read is the address byte, the
    others are the last reply from its second byte on. -/
theorem i2cReadReg_ok_iff (P : Buffer → Buffer → Prop) (w : Worker) {offset n : UInt16}
    (bytes : List UInt8) (hoff : offset.toNat < 256) (hn : (n - 1).toNat ≤ 254) :
    (∃ w', i2cReadReg workerBus (w.twar >>> 1) offset n (.ok w) = (0, bytes, .ok w') ∧
        P w'.inBuffer w'.outBuffer) ↔
      ∃ out out', processJob w.inBuffer = .ok out ∧
        processJob (Function.update w.inBuffer 0 offset.toUInt8) = .ok out' ∧
        bytes = (w.twar ||| 1) ::
          (List.range (n - 1).toNat).map (fun i => out' (1 + UInt8.ofNat i)) ∧
        P (Function.update w.inBuffer 0 offset.toUInt8) out' := by
  unfold i2cReadReg
  rw [start_write]
  dsimp only
  rw [if_neg (by decide), high_byte hoff, write_zero_addressed]
  cases hjob : processJob w.inBuffer with
  | error f =>
    -- the worker is lost, and its bus no longer answers
    constructor
    · rintro ⟨w', hw', -⟩
      cases hw'
    · rintro ⟨out, out', hout, -⟩
      cases hout
  | ok out =>
    rw [ok_bind, write_opened]
    cases hjob' : processJob (Function.update w.inBuffer 0 offset.toUInt8) with
    | error f =>
      constructor
      · rintro ⟨w', hw', -⟩
        cases hw'
      · rintro ⟨out, out', -, hout, -⟩
        cases hout
    | ok out' =>
      obtain ⟨hstart, w', hread, hin, hout⟩ := readLoop_pointed w out offset.toUInt8 out' hn
      rw [ok_bind]
      dsimp only
      rw [if_neg (by rw [hstart]; decide), hread]
      constructor
      · rintro ⟨w'', hrun, hP⟩
        cases hrun
        refine ⟨out, out', rfl, rfl, rfl, ?_⟩
        rwa [hin, hout] at hP
      · rintro ⟨o, o', -, ho', hbytes, hP⟩
        cases ho'
        refine ⟨w', by rw [hbytes]; rfl, ?_⟩
        rwa [hin, hout]

/-- What polling a worker is for: `buf` is `out_buffer[offset ..]`, and the worker's buffers are as
    they were. -/
def PureRead (w : Worker) (offset n : UInt16) : Prop :=
  ∃ w', i2cReadReg workerBus (w.twar >>> 1) offset n (.ok w) =
      (0, (List.range n.toNat).map fun i => w.outBuffer (offset.toUInt8 + UInt8.ofNat i), .ok w') ∧
    w'.inBuffer = w.inBuffer ∧ w'.outBuffer = w.outBuffer

/-- A poll is a pure read exactly if the offset happens to be the header that `in_buffer` holds,
    `out_buffer` is the reply to the job in `in_buffer`, and the bytes asked for happen to be the
    worker's address byte followed by the reply from its second byte on. -/
theorem i2cReadReg_pure_iff (w : Worker) (offset n : UInt16) (hn : 1 ≤ n.toNat)
    (h : offset.toNat + n.toNat ≤ 254) :
    PureRead w offset n ↔
      w.inBuffer 0 = offset.toUInt8 ∧ processJob w.inBuffer = .ok w.outBuffer ∧
        w.outBuffer offset.toUInt8 = w.twar ||| 1 ∧
        ∀ i, 1 ≤ i → i < n.toNat →
          w.outBuffer (offset.toUInt8 + UInt8.ofNat i) = w.outBuffer (UInt8.ofNat i) := by
  have hpred : (n - 1).toNat = n.toNat - 1 := by
    rw [UInt16.toNat_sub_of_le]
    · rfl
    · exact UInt16.le_iff_toNat_le.mpr hn
  obtain ⟨k, hk⟩ : ∃ k, n.toNat = k + 1 := ⟨n.toNat - 1, by omega⟩
  have hbytes : ∀ out : Buffer,
      (List.range n.toNat).map (fun i => out (offset.toUInt8 + UInt8.ofNat i)) =
        (w.twar ||| 1) :: (List.range (n - 1).toNat).map (fun i => out (1 + UInt8.ofNat i)) ↔
      out offset.toUInt8 = w.twar ||| 1 ∧ ∀ i, 1 ≤ i → i < n.toNat →
        out (offset.toUInt8 + UInt8.ofNat i) = out (UInt8.ofNat i) := by
    intro out
    rw [hpred, hk, Nat.add_sub_cancel, List.range_succ_eq_map, List.map_cons, List.map_map,
      List.cons_eq_cons, List.map_inj_left]
    refine and_congr (by rw [show UInt8.ofNat 0 = 0 from rfl, UInt8.add_zero]) ⟨?_, ?_⟩
    · intro hall i hi1 hik
      have := hall (i - 1) (List.mem_range.mpr (by omega))
      simp only [Function.comp_apply, Nat.succ_eq_add_one, Nat.sub_add_cancel hi1] at this
      rw [this, ← UInt8.ofNat_one, ← UInt8.ofNat_add, Nat.add_comm, Nat.sub_add_cancel hi1]
    · intro hall i hi
      have := hall (i + 1) (by omega) (by rw [List.mem_range] at hi; omega)
      rw [Function.comp_apply, Nat.succ_eq_add_one, this, Nat.add_comm, UInt8.ofNat_add]
      rfl
  unfold PureRead
  rw [i2cReadReg_ok_iff (fun b o => b = w.inBuffer ∧ o = w.outBuffer) w _ (by omega) (by omega)]
  rw [Function.update_eq_self_iff]
  constructor
  · rintro ⟨out, out', hjob, hjob', hlist, hsame, rfl⟩
    rw [hsame, Function.update_eq_self] at hjob'
    exact ⟨hsame.symm, hjob', (hbytes _).mp hlist⟩
  · rintro ⟨hsame, hjob, hlist⟩
    refine ⟨w.outBuffer, w.outBuffer, hjob, ?_, (hbytes _).mpr hlist, hsame.symm, rfl⟩
    rw [← hsame, Function.update_eq_self, hjob]

/-- A worker that has inflated the block of "BBA" under the header 4. -/
def doneWorker : Worker :=
  { idleWorker with
    inBuffer := fun i => [4, 7, 3, 0, 3, 42, 65, 66, 3].getD i.toNat 0
    outBuffer := fun i => (5 :: 3 :: 66 :: 66 :: 65 :: List.replicate 251 0).getD i.toNat 0 }

theorem i2cReadReg_pure_header : PureRead doneWorker 4 1 := by
  have hrun : runCodec doneWorker.inBuffer = .ok (66 :: 66 :: 65 :: List.replicate 251 0) := by
    decide +kernel
  refine (i2cReadReg_pure_iff doneWorker 4 1 (by decide) (by decide)).mpr
    ⟨by decide, processJob_of_runCodec hrun (by decide), by decide, ?_⟩
  intro i hi1 hi
  exact absurd hi (Nat.not_lt.mpr hi1)

/-- The status poll of `processData`: it returns the worker's address byte for the header. -/
theorem i2cReadReg_wrong_header :
    (∃ w', i2cReadReg workerBus (idleWorker.twar >>> 1) 0 2 (.ok idleWorker) =
        (0, [0x41, 0], .ok w') ∧
      w'.inBuffer = idleWorker.inBuffer ∧ w'.outBuffer = idleWorker.outBuffer) ∧
    idleWorker.outBuffer 0 = 1 ∧ ¬ PureRead idleWorker 0 2 := by
  have hjob : processJob idleWorker.inBuffer = .ok idleWorker.outBuffer :=
    processJob_of_runCodec runCodec_idleWorker (by decide)
  have hsame : Function.update idleWorker.inBuffer 0 (0 : UInt16).toUInt8 = idleWorker.inBuffer :=
    Function.update_eq_self 0 idleWorker.inBuffer
  refine ⟨?_, rfl, fun hpure => ?_⟩
  · rw [i2cReadReg_ok_iff (fun b o => b = idleWorker.inBuffer ∧ o = idleWorker.outBuffer)
      idleWorker [0x41, 0] (by decide) (by decide), hsame]
    exact ⟨_, _, hjob, hjob, rfl, rfl, rfl⟩
  · unfold PureRead at hpure
    rw [i2cReadReg_ok_iff (fun b o => b = idleWorker.inBuffer ∧ o = idleWorker.outBuffer)
      idleWorker _ (by decide) (by decide)] at hpure
    obtain ⟨out, out', -, -, hbytes, -⟩ := hpure
    exact absurd (List.cons_eq_cons.mp hbytes).1 (by decide)

end DistHuffman.Slave
