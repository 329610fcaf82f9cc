/-
  The loop of `processData` with its workers, as a step relation.

  A worker board holds the reply to its last job, or works on one; the job is one of this run or
  was left by an earlier one. Boards finish in any order. The controller goes over the boards one
  after the other: it takes the reply a board has, if any, and gives it a job if it is ready. Only
  at the end of a pass it looks whether it has all blocks.

  `Step n ok` are the steps with `n` boards in which every poll is made from a state with `ok`; with
  `ok` always true these are all runs. `sent` and `recorded` are history.
-/
import DistHuffman.Main.Process
import DistHuffman.Lib.Runs
import DistHuffman.Lib.Bits
import Mathlib.Logic.Function.Iterate

namespace DistHuffman.Main

open DistHuffman.Slave (Buffer)

/-- A worker board. `origin` is the job of this run that it works on or that its reply is to,
    counted in the order of dispatch; there is no reply while it is busy. -/
structure Board where
  origin : Option Nat
  reply : Option Buffer

/-- What a poll reads. The `out_buffer` of a busy board is cleared. -/
def Board.out (b : Board) : Buffer := b.reply.getD fun _ => 0

/-- `out` is a worker's answer to a message: the reply to some `in_buffer` that begins with it. -/
def IsResult (message : List UInt8) (out : Buffer) : Prop :=
  ∃ inBuffer : Buffer, (∀ i (h : i < message.length), inBuffer (UInt8.ofNat i) = message[i]) ∧
    Slave.processJob inBuffer = .ok out

/-- Controller and boards. Before board `turn` is polled, or behind the last one. -/
structure Sys where
  ctl : Ctl
  turn : Nat
  boards : Nat → Board
  sent : List Job
  recorded : List (Option Nat × Buffer)

namespace Sys

/-- The answer of the board that is next. -/
def answer (s : Sys) : Buffer := (s.boards s.turn).out

/-- The controller after it has taken the reply, if there is one. -/
def collected (s : Sys) : Ctl := if HasReply s.answer then collect s.ctl s.answer else s.ctl

/-- The body of the loop over the workers, for the board that is next. -/
def poll (s : Sys) : Sys where
  ctl := if IsReady s.answer then (dispatch s.collected).1 else s.collected
  turn := s.turn + 1
  boards := if IsReady s.answer then Function.update s.boards s.turn ⟨some s.sent.length, none⟩
    else s.boards
  sent := if IsReady s.answer then s.sent ++ [(dispatch s.collected).2] else s.sent
  recorded := if HasReply s.answer then s.recorded ++ [((s.boards s.turn).origin, s.answer)]
    else s.recorded

/-- Board `i` finishes with the reply `out`. -/
def finish (s : Sys) (i : Nat) (out : Buffer) : Sys :=
  { s with boards := Function.update s.boards i ⟨(s.boards i).origin, some out⟩ }

/-- What a board may answer to the job it works on; nothing is known of a job of an earlier run. -/
def MayReply (s : Sys) (origin : Option Nat) (out : Buffer) : Prop :=
  ∀ id, origin = some id → ∃ j, s.sent[id]? = some j ∧ IsResult j.message out

end Sys

variable (n : Nat) (ok : Sys → Prop)

inductive Step : Sys → Sys → Prop
  | finish (s : Sys) (i : Nat) (out : Buffer) (hi : i < n) (hbusy : (s.boards i).reply = none)
      (hout : s.MayReply (s.boards i).origin out) : Step s (s.finish i out)
  | again (s : Sys) (hturn : s.turn = n) (hmore : s.ctl.block < s.ctl.blockCount) :
      Step s { s with turn := 0 }
  | poll (s : Sys) (hturn : s.turn < n) (hok : ok s) : Step s s.poll

theorem Step.imp {n : Nat} {ok ok' : Sys → Prop} {s t : Sys} (h : Step n ok s t)
    (hok : ok s → ok' s) : Step n ok' s t := by
  cases h with
  | finish i out hi hbusy hout => exact .finish s i out hi hbusy hout
  | again hturn hmore => exact .again s hturn hmore
  | poll hturn h => exact .poll s hturn (hok h)

/-- `processData` returns. -/
def Returned (s : Sys) : Prop := s.turn = n ∧ ¬ s.ctl.block < s.ctl.blockCount

/-- The start of the loop, with boards left by an earlier run. -/
def beginSys (fram : Fram) (input output : File) (replies : Nat → Option Buffer) : Sys where
  ctl := beginData fram input output
  turn := n
  boards := fun i => ⟨none, replies i⟩
  sent := []
  recorded := []

/-- Runs from `s` on. -/
abbrev Run (s t : Sys) : Prop := Relation.ReflTransGen (Step n ok) s t

/-- A run from the start of the loop. -/
abbrev Reaches (fram : Fram) (input output : File) (replies : Nat → Option Buffer)
    (s : Sys) : Prop :=
  Run n ok (beginSys n fram input output replies) s

variable {n ok}

theorem Sys.finish_boards (s : Sys) (i : Nat) (out : Buffer) :
    (s.finish i out).boards = Function.update s.boards i ⟨(s.boards i).origin, some out⟩ := rfl

theorem beginData_encode {fram : Fram} {input : File} (output : File)
    (h : fram input.start = 42) :
    beginData fram input output =
      { fram := fram.write output.start [35]
        input := input
        output := { output with end_ := output.end_ + 1 }
        job := encode
        blockCount := encodeBlockCount input
        irp := (input.start + 1).toUInt8
        block := 0
        writes := [(output.start, [35])] } := if_pos h

theorem beginData_decode {fram : Fram} {input : File} (output : File)
    (h : fram input.start ≠ 42) :
    beginData fram input output =
      { fram := fram
        input := input
        output := output
        job := decode
        blockCount := fram (input.end_ - 1)
        irp := (input.start + 1).toUInt8
        block := 0
        writes := [] } := if_neg h

theorem beginData_block (fram : Fram) (input output : File) :
    (beginData fram input output).block = 0 := by
  by_cases h : fram input.start = 42
  · rw [beginData_encode output h]
  · rw [beginData_decode output h]

theorem collect_frame (c : Ctl) (out : Buffer) :
    (collect c out).input = c.input ∧ (collect c out).job = c.job ∧
      (collect c out).blockCount = c.blockCount ∧ (collect c out).irp = c.irp ∧
      (collect c out).block = c.block + 1 := by
  unfold collect
  dsimp only
  split <;> exact ⟨rfl, rfl, rfl, rfl, rfl⟩

theorem dispatch_frame (c : Ctl) :
    (dispatch c).1.fram = c.fram ∧ (dispatch c).1.input = c.input ∧
      (dispatch c).1.output = c.output ∧ (dispatch c).1.job = c.job ∧
      (dispatch c).1.blockCount = c.blockCount ∧ (dispatch c).1.block = c.block ∧
      (dispatch c).1.writes = c.writes := by
  unfold dispatch
  dsimp only
  split <;> exact ⟨rfl, rfl, rfl, rfl, rfl, rfl, rfl⟩

theorem write_of_lt {f : Fram} {address a : UInt16} {bytes : List UInt8}
    (ha : a.toNat < address.toNat) (hb : address.toNat + bytes.length ≤ 65536) :
    f.write address bytes a = f a := by
  have hsub : (a - address).toNat = 65536 - address.toNat + a.toNat := by
    rw [UInt16.toNat_sub]
    have := address.toNat_lt
    omega
  unfold Fram.write
  rw [List.getD_eq_default _ _ (by omega)]

theorem replyBytes_length (out : Buffer) : (replyBytes out).length = (out 1).toNat + 2 := by
  simp [replyBytes, replyPayload]

/-- The new end of the output file, while it does not wrap. -/
theorem toNat_end {address : UInt16} {size : UInt8} (h : address.toNat + 256 < 65536) :
    (address + (size.toUInt16 + 1)).toNat = address.toNat + size.toNat + 1 := by
  have hsize := size.toNat_lt
  rw [UInt16.toNat_add, UInt16.toNat_add, UInt8.toNat_toUInt16]
  simp only [UInt16.reduceToNat]
  omega

/-- What recording a reply does to the FRAM in front of the output file, and to its end. -/
theorem collect_output {c : Ctl} (out : Buffer) (h : c.output.end_.toNat + 514 ≤ 65536) :
    (collect c out).output.end_.toNat = c.output.end_.toNat + (out 1).toNat + 1 ∧
      ∀ a : UInt16, a.toNat < c.output.end_.toNat → (collect c out).fram a = c.fram a := by
  have hsize := (out 1).toNat_lt
  have hend := @toNat_end c.output.end_ (out 1) (by omega)
  have hfirst : ∀ a : UInt16, a.toNat < c.output.end_.toNat →
      c.fram.write c.output.end_ (replyBytes out) a = c.fram a := by
    intro a ha
    apply write_of_lt ha
    rw [replyBytes_length]
    omega
  unfold collect
  dsimp only
  split
  · refine ⟨hend, fun a ha => ?_⟩
    dsimp only [Ctl.writeFram]
    rw [write_of_lt (by omega) (by rw [List.length_singleton]; omega), hfirst a ha]
  · exact ⟨hend, hfirst⟩

/-! ## First passes -/

/-- The start of the first pass. -/
def firstPass (fram : Fram) (input output : File) (replies : Nat → Option Buffer) : Sys :=
  { beginSys 0 fram input output replies with turn := 0 }

/-- The state of the first pass after `k` boards is reached, if there are so many. -/
theorem reaches_firstPass {fram : Fram} {input output : File} {replies : Nat → Option Buffer}
    (hmore : 0 < (beginData fram input output).blockCount) {k : Nat} (hk : k ≤ n) :
    Reaches n (fun _ => True) fram input output replies
        (Sys.poll^[k] (firstPass fram input output replies)) ∧
      (Sys.poll^[k] (firstPass fram input output replies)).turn = k := by
  induction k with
  | zero =>
    refine ⟨.single ?_, rfl⟩
    apply Step.again (beginSys n fram input output replies) rfl
    exact (beginData_block fram input output).symm ▸ hmore
  | succ k ih =>
    obtain ⟨hrun, hturn⟩ := ih (Nat.le_of_succ_le hk)
    rw [Function.iterate_succ_apply']
    exact ⟨hrun.tail (.poll _ (by rw [hturn]; exact hk) trivial), congrArg (· + 1) hturn⟩

/-- A text file with the flag in front: `A` below address 256 and `B` above. -/
def textFram : Fram := fun a => if a = 8 then 42 else if a < 256 then 65 else 66

/-- Boards that are ready and have nothing to send. -/
def readyBoards : Nat → Option Buffer := fun _ => some fun i => if i = 0 then i2cReady else 0

end DistHuffman.Main
