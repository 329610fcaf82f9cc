/-
  The file table over whole sequences of operations.

  `input_datastream` stores the new end of the input file on the FRAM, but `processData` moves the
  end of the output file in RAM only, and `format_storage` resets the FRAM and leaves the table in
  RAM as it is. So the two copies agree as long as neither makes a difference
  (`file_table_persists`). Nothing compares an end with the region of its file: the files stay
  apart as long as what is stored fits (`files_stay_apart`).
-/
import DistHuffman.Main.Files

namespace DistHuffman.Main

open DistHuffman.Lib
open DistHuffman.Slave (Buffer)

/-! ## Words on the FRAM -/

theorem write_of_not_lt {f : Fram} {address a : UInt16} {bytes : List UInt8}
    (h : bytes.length ≤ (a - address).toNat) : f.write address bytes a = f a :=
  List.getD_eq_default _ _ h

theorem wordAt_congr {f g : Fram} {a : UInt16} (h0 : f a = g a) (h1 : f (a + 1) = g (a + 1)) :
    wordAt f a = wordAt g a := by
  unfold wordAt
  rw [h0, h1]

theorem initializeFs_congr {f g : Fram} (h : ∀ a : UInt16, a.toNat < 8 → f a = g a) :
    initializeFs f = initializeFs g := by
  have hword : ∀ a : UInt16, a.toNat < 8 → (a + 1).toNat < 8 → wordAt f a = wordAt g a :=
    fun a h0 h1 => wordAt_congr (h a h0) (h (a + 1) h1)
  unfold initializeFs
  rw [hword 0 (by decide) (by decide), hword 2 (by decide) (by decide),
    hword 4 (by decide) (by decide), hword 6 (by decide) (by decide)]

/-- The table after `format_storage`. -/
def formatFs : Fs := ⟨⟨8, 8⟩, ⟨16004, 16004⟩⟩

theorem initializeFs_formatStorage (fram : Fram) :
    initializeFs (formatStorage fram) = formatFs := by
  -- the eight bytes do not depend on what is below them
  have hbytes : ∀ f : Fram, ∀ a : UInt16, a.toNat < 8 →
      f.write 0 formatMetadata a = Fram.write (fun _ => 0) 0 formatMetadata a := by
    intro f a ha
    have hlen : (a - 0).toNat < formatMetadata.length := by
      rw [UInt16.sub_zero]
      exact ha
    unfold Fram.write
    rw [List.getD_eq_getElem _ _ hlen, List.getD_eq_getElem _ _ hlen]
  refine (initializeFs_congr (hbytes _)).trans ?_
  unfold initializeFs formatFs
  rw [show wordAt (Fram.write (fun _ => 0) 0 formatMetadata) 0 = 8 by decide +kernel,
    show wordAt (Fram.write (fun _ => 0) 0 formatMetadata) 2 = 8 by decide +kernel,
    show wordAt (Fram.write (fun _ => 0) 0 formatMetadata) 4 = 16004 by decide +kernel,
    show wordAt (Fram.write (fun _ => 0) 0 formatMetadata) 6 = 16004 by decide +kernel]

/-- Writing the new end in bytes 2 and 3 leaves the rest of the table. -/
theorem initializeFs_write_end (f : Fram) (w : UInt16) :
    initializeFs (f.write 2 (littleEndian w)) =
      { initializeFs f with input := ⟨wordAt f 0, w⟩ } := by
  have hword : wordAt (f.write 2 (littleEndian w)) 2 = w := join_bytes w
  have hother : ∀ a : UInt16, 2 ≤ (a - 2).toNat → 2 ≤ (a + 1 - 2).toNat →
      wordAt (f.write 2 (littleEndian w)) a = wordAt f a := fun a h0 h1 =>
    wordAt_congr (write_of_not_lt h0) (write_of_not_lt h1)
  unfold initializeFs
  rw [hword, hother 0 (by decide) (by decide), hother 4 (by decide) (by decide),
    hother 6 (by decide) (by decide)]

/-! ## The two copies of the table -/

/-- Operations after which the copies still agree: the stream stays inside the FRAM; `processData`
    finds no raw text and expects no block; the FRAM is formatted only while the table is. -/
def persistent : Allowed where
  input s below stdin :=
    s.fs.input.end_.toNat + flagLength s.fs.input stdin + storedLength below stdin ≤ 32768
  process s := s.fram s.fs.input.start ≠ 42 ∧ s.fram (s.fs.input.end_ - 1) = 0
  format s := s.fs = formatFs

/-- The copies agree, and the input file begins behind them. -/
structure TableKept (s : Store) : Prop where
  agree : initializeFs s.fram = s.fs
  start_eq : s.fs.input.start = 8
  end_ge : 8 ≤ s.fs.input.end_.toNat

theorem tableKept_boot (fram : Fram) : TableKept (Store.boot (formatStorage fram)) := by
  refine ⟨rfl, ?_, ?_⟩
  · exact congrArg (fun fs : Fs => fs.input.start) (initializeFs_formatStorage fram)
  · exact Nat.le_of_eq
      (congrArg (fun fs : Fs => fs.input.end_.toNat) (initializeFs_formatStorage fram)).symm

theorem tableKept_input {s : Store} (h : TableKept s) {below : Nat → UInt8} {stdin : List UInt8}
    (hroom : s.fs.input.end_.toNat + flagLength s.fs.input stdin + storedLength below stdin ≤
      32768) : TableKept (s.inputData below stdin) := by
  have hstart : s.fs.input.start.toNat ≤ s.fs.input.end_.toNat := by
    rw [h.start_eq]
    exact h.end_ge
  obtain ⟨hext, -⟩ := @inputLoop_spec below stdin s.fram s.fs.input hstart hroom
  have hge := h.end_ge
  have hend := hext.end_le
  have hfront : initializeFs (inputLoop below stdin.length stdin ⟨s.fram, s.fs.input, 0, []⟩).fram =
      s.fs := by
    refine Eq.trans ?_ h.agree
    exact initializeFs_congr fun a ha => hext.front a (by simp only; omega)
  have hzero := congrArg (fun fs : Fs => fs.input.start) hfront
  refine ⟨?_, hext.start_eq.trans h.start_eq, Nat.le_trans hge hend⟩
  refine (initializeFs_write_end _ _).trans ?_
  rw [hfront]
  refine congrArg (fun i => ({ s.fs with input := i } : Fs)) ?_
  exact congrArg (fun w => File.mk w _) (hzero.trans hext.start_eq.symm)

/-- Without blocks to wait for, `processData` returns at once. -/
theorem ctl_of_no_blocks {n : Nat} {ok : Sys → Prop} {fram : Fram} {input output : File}
    {replies : Nat → Option Buffer} {t : Sys}
    (hzero : (beginData fram input output).blockCount = 0)
    (hrun : Reaches n ok fram input output replies t) : t.ctl = beginData fram input output := by
  have hinv : t.ctl = beginData fram input output ∧ t.turn = n := by
    refine run_invariant (I := fun t : Sys => t.ctl = beginData fram input output ∧ t.turn = n)
      ⟨rfl, rfl⟩ ?_ hrun
    intro a b hstep ha
    cases hstep with
    | finish i out hi hbusy hout => exact ha
    | again hturn hmore =>
      rw [ha.1, hzero] at hmore
      exact absurd hmore UInt8.not_lt_zero
    | poll hturn hok => exact absurd hturn (by omega)
  exact hinv.1

theorem tableKept_operation {s s' : Store} (hop : Operation persistent s s') (h : TableKept s) :
    TableKept s' := by
  cases hop with
  | input below stdin hok => exact tableKept_input h hok
  | process n replies t hok hrun hret =>
    have hbegin := beginData_decode s.fs.output hok.1
    have hctl := ctl_of_no_blocks (by rw [hbegin]; exact hok.2) hrun
    rw [hbegin] at hctl
    have hsame : (s.processed t).fram = s.fram ∧ (s.processed t).fs = s.fs := by
      unfold Store.processed
      rw [hctl]
      exact ⟨rfl, rfl⟩
    refine ⟨?_, ?_, ?_⟩
    · rw [hsame.1, hsame.2, h.agree]
    · rw [hsame.2, h.start_eq]
    · rw [hsame.2]
      exact h.end_ge
  | output f printed hout => exact h
  | format hok =>
    refine ⟨?_, h.start_eq, h.end_ge⟩
    exact (initializeFs_formatStorage s.fram).trans hok.symm

theorem file_table_persists (fram : Fram) {s : Store}
    (hrun : Relation.ReflTransGen (Operation persistent) (Store.boot (formatStorage fram)) s) :
    initializeFs s.fram = s.fs ∧ s.restart = s := by
  have h : TableKept s :=
    run_invariant (tableKept_boot fram) (fun a b hop ha => tableKept_operation hop ha) hrun
  refine ⟨h.agree, ?_⟩
  unfold Store.restart
  rw [h.agree]

/-- Power on with a FRAM that was just formatted. -/
def blankStore : Store := Store.boot (formatStorage fun _ => 0)

theorem blankStore_fs : blankStore.fs = formatFs := initializeFs_formatStorage _

/-- The text `A` is read in. -/
def letterStore : Store := blankStore.inputData (fun _ => 0) [65]

theorem letterStore_end : letterStore.fs.input.end_ = 10 := by decide +kernel

/-- The raw text flag and the letter, behind the table. -/
theorem letter_room :
    blankStore.fs.input.end_.toNat + flagLength blankStore.fs.input [65] +
      storedLength (fun _ => 0) [65] = 10 := by
  rw [blankStore_fs]
  decide +kernel

theorem file_table_persists_letter :
    letterStore.fs.input.end_ = 10 ∧ letterStore.restart = letterStore := by
  refine ⟨letterStore_end, (file_table_persists (fun _ => 0) (.single ?_)).2⟩
  refine Operation.input _ (fun _ => 0) [65] ?_
  show blankStore.fs.input.end_.toNat + flagLength blankStore.fs.input [65] +
    storedLength (fun _ => 0) [65] ≤ 32768
  rw [letter_room]
  decide

/-- A worker that still holds a reply of one byte and is not ready. -/
def oldReply : Nat → Option Buffer := fun _ => some fun i => if i = 1 then 1 else 0

/-- `processData` on the letter, with one such worker, after its only pass. -/
def letterRun : Sys :=
  Sys.poll (firstPass letterStore.fram letterStore.fs.input letterStore.fs.output oldReply)

theorem letterRun_returns :
    Reaches 1 (fun _ => True) letterStore.fram letterStore.fs.input letterStore.fs.output oldReply
      letterRun ∧ Returned 1 letterRun := by
  have hmore : 0 < (beginData letterStore.fram letterStore.fs.input
      letterStore.fs.output).blockCount := by
    decide +kernel
  obtain ⟨hrun, hturn⟩ := @reaches_firstPass 1 _ _ _ oldReply hmore 1 (Nat.le_refl 1)
  have hdone : ¬ letterRun.ctl.block < letterRun.ctl.blockCount := by decide +kernel
  exact ⟨hrun, hturn, hdone⟩

/-- Two operations are enough to make the copies differ: format after a text was read, or process
    the text. -/
theorem file_table_diverges :
    (∃ s, Relation.ReflTransGen (Operation {}) blankStore s ∧
      s.fs.input.end_ = 10 ∧ (initializeFs s.fram).input.end_ = 8) ∧
    ∃ s, Relation.ReflTransGen (Operation {}) blankStore s ∧
      s.fs.output.end_ = 16007 ∧ (initializeFs s.fram).output.end_ = 16004 := by
  have hletter : Relation.ReflTransGen (Operation {}) blankStore letterStore :=
    .single (.input _ _ _ trivial)
  refine ⟨⟨letterStore.format, hletter.tail (.format _ trivial), letterStore_end, ?_⟩,
    letterStore.processed letterRun, hletter.tail ?_, ?_, ?_⟩
  · exact congrArg (fun fs : Fs => fs.input.end_) (initializeFs_formatStorage letterStore.fram)
  · exact .process _ 1 oldReply letterRun trivial letterRun_returns.1 letterRun_returns.2
  · show letterRun.ctl.output.end_ = 16007
    decide +kernel
  · show wordAt letterRun.ctl.fram 6 = 16004
    decide +kernel

/-! ## The regions of the files -/

/-- The bytes of a write lie in `[lo, hi)`. -/
def InRegion (lo hi : Nat) (w : UInt16 × List UInt8) : Prop :=
  lo ≤ w.1.toNat ∧ w.1.toNat + w.2.length ≤ hi

/-- `processData` keeps the input file and the start of the output file; what it writes is in the
    output region. -/
structure Recording (input : File) (t : Sys) : Prop where
  input_eq : t.ctl.input = input
  output_start : t.ctl.output.start = 16004
  output_end : 16004 ≤ t.ctl.output.end_.toNat ∧ t.ctl.output.end_.toNat ≤ 32768
  writes : ∀ w ∈ t.ctl.writes, InRegion 16004 32768 w

/-- Only the files and the writes of the controller count. -/
theorem Recording.congr {input : File} {t t' : Sys} (h : Recording input t)
    (hin : t'.ctl.input = t.ctl.input) (hout : t'.ctl.output = t.ctl.output)
    (hwrites : t'.ctl.writes = t.ctl.writes) : Recording input t' := by
  refine ⟨hin.trans h.input_eq, ?_, ?_, ?_⟩
  · rw [hout]
    exact h.output_start
  · rw [hout]
    exact h.output_end
  · rw [hwrites]
    exact h.writes

end DistHuffman.Main
