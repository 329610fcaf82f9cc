/-
  `assert(head != NULL)` on the worker. The handler runs the codec after every received byte, so
  an ENCODE header that arrives before its size, or a size of 0 behind it, starts a compression of
  no bytes at all, and the assertion fails. `assertion_kept_iff` says which bytes, received where,
  do not.

  A run goes on after the other faults: the handler is then taken to return with any bytes in
  `out_buffer`. In the strict sense most runs from cleared buffers end at their first byte, because
  the job in a cleared buffer is a DECODE job without a tree.
-/
import DistHuffman.Lib.Runs
import DistHuffman.Link.Faults
import DistHuffman.Slave.Isr

namespace DistHuffman.Slave

open DistHuffman.Lib DistHuffman.Codec DistHuffman.Link

/-- An interrupt: the status in `TWSR` and the byte in `TWDR`. -/
structure Event where
  status : UInt8
  data : UInt8

def Worker.on (w : Worker) (e : Event) : Except Fault Worker :=
  isr { w with twdr := e.data } e.status

/-- The worker after the receive branch, with `out` in `out_buffer`. -/
def Worker.garbled (w : Worker) (e : Event) (out : Buffer) : Worker :=
  { receive { w with twdr := e.data } with outBuffer := out }

/-- The worker after an event that meets `ok` and does not end in the failed assertion. -/
inductive EventStep (ok : Worker → Event → Prop) : Worker → Worker → Prop where
  | done {w w' : Worker} (e : Event) (hok : ok w e) (h : w.on e = .ok w') : EventStep ok w w'
  | garbled {w : Worker} (e : Event) (f : Fault) (hok : ok w e) (h : w.on e = .error f)
      (hf : f ≠ .assertion) (out : Buffer) : EventStep ok w (w.garbled e out)

/-- The job in `in_buffer` is to compress no bytes. -/
def EmptyJob (b : Buffer) : Prop := jobOf (b 0) = encode ∧ b 1 = 0

/-- An ENCODE header is not received while the size byte is 0, and no size 0 while there is such a
    header. -/
def SizedEncode (w : Worker) (e : Event) : Prop :=
  twSrDataAck = e.status &&& 0xF8 →
    (w.bufferAddress = 0 → jobOf e.data = encode → w.inBuffer 1 ≠ 0) ∧
      (w.bufferAddress = 1 → e.data = 0 → jobOf (w.inBuffer 0) ≠ encode)

/-! ## One event -/

theorem encode_job_iff (status : UInt8) :
    encode = jobOf status &&& encode ↔ jobOf status = encode := by
  revert status
  refine forall_byte ?_
  decide +kernel

theorem runCodec_assertion_iff (b : Buffer) : runCodec b = .error .assertion ↔ EmptyJob b := by
  unfold runCodec EmptyJob
  simp only
  by_cases hjob : jobOf (b 0) = encode
  · rw [if_pos ((encode_job_iff _).mpr hjob), and_iff_right hjob]
    have hlen : (b.bytes.drop 2).length = 254 := by simp [Buffer.bytes]
    by_cases hroom : 2 + (b 1).toNat ≤ 256
    · have hblock : ((b.bytes.drop 2).take (b 1).toNat).length = (b 1).toNat := by
        rw [List.length_take]
        omega
      rw [if_pos hroom, huffmanCompress_assertion_iff (by omega), ← List.length_eq_zero_iff, hblock,
        ← UInt8.toNat_inj, UInt8.toNat_zero]
    · rw [if_neg hroom, ← UInt8.toNat_inj, UInt8.toNat_zero]
      constructor
      · intro h
        cases h
      · omega
  · rw [if_neg fun h => hjob ((encode_job_iff _).mp h)]
    simp only [hjob, false_and, iff_false]
    exact (huffmanInflate_noAssert _ _ _).map

theorem processJob_assertion_iff (b : Buffer) :
    processJob b = .error .assertion ↔ EmptyJob b := by
  rw [← runCodec_assertion_iff]
  constructor
  · intro h
    by_contra hrun
    revert h
    refine NoAssert.bind hrun fun out => NoAssert.bind ?_ fun _ => NoAssert.ok _
    exact NoAssert.ite (NoAssert.ok _) (NoAssert.error (by decide))
  · intro h
    unfold processJob
    rw [h]
    rfl

theorem transmit_inBuffer (w : Worker) : (transmit w).inBuffer = w.inBuffer := by
  unfold transmit
  simp only
  repeat' split
  all_goals rfl

/-- A received byte runs the job; every other event returns, and leaves `in_buffer` alone. -/
theorem on_cases (w : Worker) (e : Event) :
    twSrDataAck = e.status &&& 0xF8 ∧
        w.on e = (processJob (receive { w with twdr := e.data }).inBuffer >>= fun out =>
          .ok (w.garbled e out)) ∨
      twSrDataAck ≠ e.status &&& 0xF8 ∧ ∃ w', w.on e = .ok w' ∧ w'.inBuffer = w.inBuffer := by
  unfold Worker.on isr
  by_cases hsla : twSrSlaAck = e.status &&& 0xF8
  · right
    rw [if_pos hsla, ← hsla]
    exact ⟨by decide, _, rfl, rfl⟩
  · rw [if_neg hsla]
    by_cases hdata : twSrDataAck = e.status &&& 0xF8
    · left
      rw [if_pos hdata]
      exact ⟨hdata, rfl⟩
    · right
      rw [if_neg hdata]
      refine ⟨hdata, ?_⟩
      split
      · exact ⟨_, rfl, transmit_inBuffer _⟩
      · exact ⟨_, rfl, rfl⟩

theorem on_assertion_iff (w : Worker) (e : Event) :
    w.on e = .error .assertion ↔
      twSrDataAck = e.status &&& 0xF8 ∧ EmptyJob (receive { w with twdr := e.data }).inBuffer := by
  rw [← processJob_assertion_iff]
  rcases on_cases w e with ⟨hs, hon⟩ | ⟨hs, w', hon, -⟩
  · rw [and_iff_right hs, hon]
    cases processJob (receive { w with twdr := e.data }).inBuffer with
    | error f => rw [error_bind, Except.error.injEq, Except.error.injEq]
    | ok out =>
      rw [ok_bind]
      exact iff_of_false (NoAssert.ok _) (NoAssert.ok _)
  · rw [hon]
    exact iff_of_false (NoAssert.ok _) fun h => hs h.1

theorem receive_inBuffer (w : Worker) :
    (receive w).inBuffer =
      if 0xFF = w.bufferAddress then w.inBuffer
      else Function.update w.inBuffer w.bufferAddress w.twdr := by
  unfold receive
  split
  · rfl
  · simp only
    split <;> rfl

/-- Where the job was not an empty one before, a byte makes it one exactly if it breaks
    `SizedEncode`. -/
theorem emptyJob_receive_iff {w : Worker} {e : Event} (hw : ¬ EmptyJob w.inBuffer)
    (hs : twSrDataAck = e.status &&& 0xF8) :
    EmptyJob (receive { w with twdr := e.data }).inBuffer ↔ ¬ SizedEncode w e := by
  rw [receive_inBuffer]
  unfold EmptyJob at hw ⊢
  unfold SizedEncode
  simp only [forall_prop_of_true hs]
  by_cases h0 : w.bufferAddress = 0
  · simp [h0]
  · by_cases h1 : w.bufferAddress = 1
    · simp [h1]
      tauto
    · simp only [h0, h1, false_implies, and_self, not_true_eq_false, iff_false]
      split
      · exact hw
      · rwa [Function.update_of_ne (Ne.symm h0), Function.update_of_ne (Ne.symm h1)]

/-! ## Runs -/

/-- What a step does to `in_buffer`. -/
theorem EventStep.inBuffer_eq {ok : Worker → Event → Prop} {w w' : Worker}
    (h : EventStep ok w w') :
    w'.inBuffer = w.inBuffer ∨
      ∃ e, ok w e ∧ twSrDataAck = e.status &&& 0xF8 ∧
        w'.inBuffer = (receive { w with twdr := e.data }).inBuffer := by
  cases h with
  | done e hok h =>
    rcases on_cases w e with ⟨hs, hon⟩ | ⟨-, w'', hon, hin⟩
    · rw [hon] at h
      obtain ⟨out, -, h⟩ := of_bind_eq_ok h
      right
      refine ⟨e, hok, hs, ?_⟩
      rw [← Except.ok.inj h]
      rfl
    · rw [hon] at h
      left
      rw [← Except.ok.inj h, hin]
  | garbled e f hok h hf out =>
    rcases on_cases w e with ⟨hs, -⟩ | ⟨-, w'', hon, -⟩
    · exact Or.inr ⟨e, hok, hs, rfl⟩
    · rw [hon] at h
      cases h

theorem emptyJob_step {w w' : Worker} (h : EventStep SizedEncode w w')
    (hw : ¬ EmptyJob w.inBuffer) : ¬ EmptyJob w'.inBuffer := by
  rcases h.inBuffer_eq with hin | ⟨e, hok, hs, hin⟩
  · rwa [hin]
  · rw [hin, emptyJob_receive_iff hw hs]
    exact not_not.mpr hok

/-- From cleared buffers, as long as every event so far met `SizedEncode`: the next one trips the
    assertion exactly if it does not. -/
theorem assertion_kept_iff {w0 w : Worker} (h0 : ∀ i, w0.inBuffer i = 0)
    (hrun : Relation.ReflTransGen (EventStep SizedEncode) w0 w) (e : Event) :
    w.on e ≠ .error .assertion ↔ SizedEncode w e := by
  have hw : ¬ EmptyJob w.inBuffer := by
    refine run_invariant (I := fun w => ¬ EmptyJob w.inBuffer) ?_ ?_ hrun
    · intro h
      rw [EmptyJob, h0] at h
      exact absurd h.1 (by decide)
    · intro a b hstep ha
      exact emptyJob_step hstep ha
  rw [ne_eq, on_assertion_iff]
  by_cases hs : twSrDataAck = e.status &&& 0xF8
  · rw [and_iff_right hs, emptyJob_receive_iff hw hs, not_not]
  · simp only [hs, false_and, not_false_eq_true, true_iff]
    exact fun h => absurd h hs

/-- A worker right after reset. -/
def resetWorker : Worker := ⟨0, fun _ => 0, fun _ => 0, 0, 0, 0⟩

/-- Its address, then `register` as register number: the job in the cleared buffer has no tree. -/
theorem reset_addressed {ok : Worker → Event → Prop} (register : UInt8)
    (hok : ∀ (w : Worker) (e : Event), w.bufferAddress = 0xFF ∨ e.status = twSrSlaAck → ok w e) :
    ∃ w, Relation.ReflTransGen (EventStep ok) resetWorker w ∧ w.bufferAddress = register ∧
      w.inBuffer = fun _ => 0 := by
  have hfault : processJob (fun _ => 0) = .error .treePool := by
    have hrun : runCodec (fun _ => 0) = .error .treePool := by decide +kernel
    unfold processJob
    rw [hrun, error_bind]
  let w1 : Worker := { resetWorker with
    bufferAddress := 0xFF, twdr := 0x40, twcr := 0 ||| (twie ||| twint ||| twea ||| twen) }
  have h1 : EventStep ok resetWorker w1 :=
    .done ⟨twSrSlaAck, 0x40⟩ (hok _ _ (Or.inr rfl)) rfl
  have h2 : EventStep ok w1 (w1.garbled ⟨twSrDataAck, register⟩ fun _ => 0) := by
    refine .garbled _ .treePool (hok _ _ (Or.inl rfl)) ?_ (by decide) _
    rcases on_cases w1 ⟨twSrDataAck, register⟩ with ⟨-, hon⟩ | ⟨hs, -⟩
    · rw [hon, receive_inBuffer, if_pos rfl]
      show processJob (fun _ => 0) >>= _ = _
      rw [hfault, error_bind]
    · exact absurd (show twSrDataAck = twSrDataAck &&& 0xF8 by decide) hs
  refine ⟨_, (Relation.ReflTransGen.single h1).tail h2, rfl, rfl⟩

/-- Behind register number 2 an ENCODE header byte does no harm. -/
theorem assertion_kept_at_two :
    ∃ w, Relation.ReflTransGen (EventStep SizedEncode) resetWorker w ∧ w.bufferAddress = 2 ∧
      w.on ⟨twSrDataAck, 2⟩ ≠ .error .assertion := by
  have hok : ∀ (w : Worker) (e : Event), w.bufferAddress = 0xFF ∨ e.status = twSrSlaAck →
      SizedEncode w e := by
    intro w e h hs
    rcases h with h | h
    · rw [h]
      exact ⟨fun h' => absurd h' (by decide), fun h' => absurd h' (by decide)⟩
    · rw [h] at hs
      exact absurd hs (by decide)
  obtain ⟨w, hrun, haddr, -⟩ := reset_addressed 2 hok
  refine ⟨w, hrun, haddr, ?_⟩
  refine (assertion_kept_iff (fun _ => rfl) hrun ⟨twSrDataAck, 2⟩).mpr fun _ => ?_
  rw [haddr]
  exact ⟨fun h => absurd h (by decide), fun h => absurd h (by decide)⟩

/-- The header byte of an ENCODE job, received where `buffer_address` is 0; and the same behind the
    worker's address and the register number 0. -/
theorem assertion_fails_at_header :
    resetWorker.on ⟨twSrDataAck, 2⟩ = .error .assertion ∧
      ∃ w, Relation.ReflTransGen (EventStep fun _ _ => True) resetWorker w ∧
        w.bufferAddress = 0 ∧ w.on ⟨twSrDataAck, 2⟩ = .error .assertion := by
  have htrip : ∀ w : Worker, w.bufferAddress = 0 → w.inBuffer = (fun _ => 0) →
      w.on ⟨twSrDataAck, 2⟩ = .error .assertion := by
    intro w haddr hin
    refine (on_assertion_iff w _).mpr ⟨rfl, ?_⟩
    rw [receive_inBuffer, haddr, hin, if_neg (by decide)]
    rw [EmptyJob, Function.update_self, Function.update_of_ne (by decide)]
    exact ⟨show jobOf 2 = encode by decide, rfl⟩
  obtain ⟨w, hrun, haddr, hin⟩ := @reset_addressed (fun _ _ => True) 0 fun _ _ _ => trivial
  exact ⟨htrip _ rfl rfl, w, hrun, haddr, htrip w haddr hin⟩

end DistHuffman.Slave
