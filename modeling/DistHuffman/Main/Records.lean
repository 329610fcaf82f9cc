/-
  The stored format. An ENCODE run writes a record as header, size and payload but moves the end of
  the file by one byte too few, so that the next record covers the last byte of the payload. A
  DECODE run takes the first byte of a record for its size, with an 8-bit pointer. The two agree on
  a file exactly if the bytes happen to be right where the reader looks; as long as its pointer does
  not wrap, that means that every record repeats one byte (`records_reread_iff`).

  What a run does to the output file is recording its replies one after the other, whatever it
  sends in between (`sameFile_of_reaches`). The end it is left with lies inside the last record, so
  no records survive as they were written (`records_never_survive`).
-/
import DistHuffman.Main.System
import DistHuffman.Lib.Overlay

namespace DistHuffman.Main

open DistHuffman.Lib
open DistHuffman.Slave (Buffer)

/-- Number of bytes by which a list of records moves the end of the file. -/
def advance (rs : List Buffer) : Nat := (rs.map fun r => (r 1).toNat + 1).sum

theorem advance_cons (r : Buffer) (rs : List Buffer) :
    advance (r :: rs) = (r 1).toNat + 1 + advance rs := by
  unfold advance
  rw [List.map_cons, List.sum_cons]

/-- The controller after the ENCODE run that recorded `rs` in an empty output file. -/
def recorded (fram : Fram) (input output : File) (rs : List Buffer) : Ctl :=
  rs.foldl collect (beginData fram input output)

/-- Two replies with the payloads `[1, 2]` and `[4]`. -/
def twoReplies : List Buffer :=
  [fun i => [3, 2, 1, 2].getD i.toNat 0, fun i => [3, 1, 4].getD i.toNat 0]

/-- The same output file, in the FRAM and in the table, and the same counters. -/
structure SameFile (c d : Ctl) : Prop where
  fram : c.fram = d.fram
  output : c.output = d.output
  block : c.block = d.block
  count : c.blockCount = d.blockCount

theorem SameFile.collect {c d : Ctl} (h : SameFile c d) (out : Buffer) :
    SameFile (collect c out) (collect d out) := by
  unfold Main.collect Ctl.writeFram
  dsimp only
  rw [h.fram, h.output, h.block, h.count]
  split <;> exact ⟨rfl, rfl, rfl, rfl⟩

theorem sameFile_dispatch (c : Ctl) : SameFile (dispatch c).1 c := by
  obtain ⟨hfram, -, houtput, -, hcount, hblock, -⟩ := dispatch_frame c
  exact ⟨hfram, houtput, hblock, hcount⟩

theorem SameFile.trans {c d e : Ctl} (h : SameFile c d) (h' : SameFile d e) : SameFile c e :=
  ⟨h.fram.trans h'.fram, h.output.trans h'.output, h.block.trans h'.block, h.count.trans h'.count⟩

/-- The replies recorded so far, in order. -/
def Sys.replies (s : Sys) : List Buffer := s.recorded.map Prod.snd

theorem sameFile_poll {c : Ctl} {s : Sys} (h : SameFile s.ctl (s.replies.foldl collect c)) :
    SameFile s.poll.ctl (s.poll.replies.foldl collect c) := by
  have hcollected : SameFile s.collected (s.poll.replies.foldl collect c) := by
    unfold Sys.collected Sys.replies Sys.poll
    dsimp only
    by_cases hreply : HasReply s.answer
    · rw [if_pos hreply, if_pos hreply, List.map_append, List.foldl_append]
      exact h.collect s.answer
    · rw [if_neg hreply, if_neg hreply]
      exact h
  have hdispatch : SameFile s.poll.ctl s.collected := by
    unfold Sys.poll
    dsimp only
    split
    · exact sameFile_dispatch s.collected
    · exact ⟨rfl, rfl, rfl, rfl⟩
  exact hdispatch.trans hcollected

/-- All that a run does to the output file is to record its replies. -/
theorem sameFile_of_reaches {n : Nat} {ok : Sys → Prop} {fram : Fram} {input output : File}
    {replies : Nat → Option Buffer} {s : Sys} (h : Reaches n ok fram input output replies s) :
    SameFile s.ctl (s.replies.foldl collect (beginData fram input output)) := by
  refine run_invariant (I := fun s =>
    SameFile s.ctl (s.replies.foldl collect (beginData fram input output)))
    ⟨rfl, rfl, rfl, rfl⟩ ?_ h
  intro a b hs ha
  cases hs with
  | finish i out hi hbusy hout => exact ha
  | again hturn hmore => exact ha
  | poll hturn hok => exact sameFile_poll ha

/-! ## Records as they were written -/

/-- Number of bytes in a list of records. -/
def recordsLength (rs : List Buffer) : Nat := (rs.map fun r => (replyBytes r).length).sum

/-- The records stand from `a` on, whole and one after the other. -/
def WholeAt (f : Fram) : Nat → List Buffer → Prop
  | _, [] => True
  | a, r :: rs =>
      f.read (UInt16.ofNat a) (replyBytes r).length = replyBytes r ∧
        WholeAt f (a + (replyBytes r).length) rs

/-- The records stand from `a` on, the number of blocks behind them, and the end of the file is not
    in front of that byte. -/
structure RecordsSurvive (c : Ctl) (a : Nat) (rs : List Buffer) : Prop where
  records : WholeAt c.fram a rs
  count : c.fram (UInt16.ofNat (a + recordsLength rs)) = UInt8.ofNat rs.length
  past : a + recordsLength rs ≤ c.output.end_.toNat

theorem recordsLength_eq (rs : List Buffer) : recordsLength rs = advance rs + rs.length := by
  induction rs with
  | nil => rfl
  | cons r rs ih =>
    rw [advance_cons, List.length_cons, recordsLength, List.map_cons, List.sum_cons,
      replyBytes_length,
      show (rs.map fun r => (replyBytes r).length).sum = recordsLength rs from rfl, ih]
    omega

/-- The end of the file moves one byte too few for each record. -/
theorem end_foldl_collect (rs : List Buffer) (c : Ctl) :
    (rs.foldl collect c).output.end_ = c.output.end_ + UInt16.ofNat (advance rs) := by
  induction rs generalizing c with
  | nil => exact (UInt16.add_zero _).symm
  | cons r rs ih =>
    have hend : (collect c r).output.end_ = c.output.end_ + ((r 1).toUInt16 + 1) := by
      unfold collect
      dsimp only
      split <;> rfl
    have hsize : (r 1).toUInt16 = UInt16.ofNat (r 1).toNat := by
      rw [← UInt16.toNat_inj, UInt8.toNat_toUInt16, toNat_ofNat_word]
      exact Nat.lt_trans (r 1).toNat_lt (by decide)
    rw [List.foldl_cons, ih, hend, advance_cons, hsize, UInt16.ofNat_add, UInt16.ofNat_add,
      UInt16.add_assoc]
    rfl

/-- Whatever replies are recorded, from whatever end on, the records do not survive. -/
theorem records_never_survive (c : Ctl) (rs : List Buffer) (hne : rs ≠ []) :
    ¬ RecordsSurvive (rs.foldl collect c) c.output.end_.toNat rs ∧
    ∀ (n : Nat) (ok : Sys → Prop) (fram : Fram) (input output : File)
      (replies : Nat → Option Buffer) (s : Sys), beginData fram input output = c →
      Reaches n ok fram input output replies s → s.replies = rs →
      ¬ RecordsSurvive s.ctl c.output.end_.toNat rs := by
  have hpast : (rs.foldl collect c).output.end_.toNat < c.output.end_.toNat + recordsLength rs := by
    have hpos : 0 < rs.length := List.length_pos_iff.mpr hne
    rw [end_foldl_collect, UInt16.toNat_add, UInt16.toNat_ofNat', recordsLength_eq]
    have := Nat.mod_le (c.output.end_.toNat + advance rs % 65536) 65536
    have := Nat.mod_le (advance rs) 65536
    omega
  constructor
  · intro h
    exact Nat.not_le.mpr hpast h.past
  · intro n ok fram input output replies s hbegin hrun hrs h
    have hsame := sameFile_of_reaches hrun
    rw [hbegin, hrs] at hsame
    have := h.past
    rw [hsame.output] at this
    exact Nat.not_le.mpr hpast this

theorem records_never_survive_two :
    ¬ RecordsSurvive (recorded textFram ⟨8, 300⟩ ⟨16004, 16004⟩ twoReplies) 16005 twoReplies :=
  (records_never_survive (beginData textFram ⟨8, 300⟩ ⟨16004, 16004⟩) twoReplies (by decide)).1

/-- Two boards with these replies: the header of the second record stands over the last byte of the
    first payload, and the file ends inside the second. -/
theorem records_overlap :
    ∃ s, Reaches 2 (fun _ => True) textFram ⟨8, 300⟩ ⟨16004, 16004⟩ (fun i => twoReplies[i]?) s ∧
      Returned 2 s ∧ s.replies = twoReplies ∧
      s.ctl.fram.read 16005 6 = [3, 2, 1, 3, 1, 4] ∧ s.ctl.output.end_ = 16010 ∧
      ¬ RecordsSurvive s.ctl 16005 twoReplies := by
  obtain ⟨hrun, hturn⟩ := @reaches_firstPass 2 textFram ⟨8, 300⟩ ⟨16004, 16004⟩
    (fun i => twoReplies[i]?) (by decide) 2 (Nat.le_refl 2)
  have hend : (Sys.poll^[2] (firstPass textFram ⟨8, 300⟩ ⟨16004, 16004⟩
      fun i => twoReplies[i]?)).ctl.output.end_ = 16010 := by decide +kernel
  refine ⟨_, hrun, ⟨hturn, by decide +kernel⟩, rfl, by decide +kernel, hend, fun h => ?_⟩
  have hpast := h.past
  rw [hend] at hpast
  revert hpast
  decide +kernel

end DistHuffman.Main
