/-
  How many replies `processData` waits for. Its block counter counts the replies recorded, so the
  loop ends with the pass in which they reach `block_count` (`returned_iff`). That is 1 for every
  text, since the conditional operator binds weaker than `+`: right for texts of one chunk only
  (`block_count_iff`).
-/
import DistHuffman.Main.Dispatch
import DistHuffman.Main.Records

namespace DistHuffman.Main

open DistHuffman.Lib
open DistHuffman.Slave (Buffer)

/-- Number of chunks of `BLOCK_SIZE` bytes that `data` takes. -/
def chunkCount (data : List UInt8) : Nat := (data.length + 127) / 128

theorem chunk_ne_nil_iff (data : List UInt8) (j : Nat) :
    chunk data j ≠ [] ↔ j < chunkCount data := by
  rw [← List.length_pos_iff]
  simp only [chunk, chunkCount, List.length_take, List.length_drop]
  omega

theorem foldl_collect_counters (rs : List Buffer) (c : Ctl) :
    (rs.foldl collect c).block = c.block + UInt8.ofNat rs.length ∧
      (rs.foldl collect c).blockCount = c.blockCount := by
  induction rs generalizing c with
  | nil => exact ⟨(UInt8.add_zero _).symm, rfl⟩
  | cons r rs ih =>
    obtain ⟨-, -, hcount, -, hblock⟩ := collect_frame c r
    obtain ⟨hblock', hcount'⟩ := ih (collect c r)
    rw [List.foldl_cons, hblock', hcount', hblock, hcount, List.length_cons]
    refine ⟨?_, rfl⟩
    rw [UInt8.add_assoc, UInt8.add_comm 1, UInt8.ofNat_add]
    rfl

/-- `processData` returns at the end of a pass, by the number of replies recorded. -/
theorem returned_iff {n : Nat} {ok : Sys → Prop} {fram : Fram} {input output : File}
    {replies : Nat → Option Buffer} {s : Sys} (h : Reaches n ok fram input output replies s) :
    Returned n s ↔ s.turn = n ∧
      ¬ UInt8.ofNat s.replies.length < (beginData fram input output).blockCount := by
  have hsame := sameFile_of_reaches h
  obtain ⟨hblock, hcount⟩ := foldl_collect_counters s.replies (beginData fram input output)
  rw [beginData_block, UInt8.zero_add] at hblock
  unfold Returned
  rw [hsame.block, hsame.count, hblock, hcount]

/-- For a text at 8 with at least one byte behind its flag, `block_count` is the number of chunks
    that its bytes take exactly if they are at most 128. The loop ends by that number. -/
theorem block_count_iff (n : Nat) (ok : Sys → Prop) (fram : Fram) (input output : File)
    (replies : Nat → Option Buffer) (hflag : fram input.start = 42) (hstart : input.start = 8)
    (hdata : 9 < input.end_.toNat) :
    ((beginData fram input output).blockCount.toNat = chunkCount (fileBytes fram input) ↔
      input.end_.toNat ≤ 137) ∧
    ∀ s, Reaches n ok fram input output replies s →
      (Returned n s ↔ s.turn = n ∧
        ¬ UInt8.ofNat s.replies.length < (beginData fram input output).blockCount) := by
  refine ⟨?_, fun s h => returned_iff h⟩
  have hcount : (beginData fram input output).blockCount.toNat = 1 := by
    rw [beginData_encode output hflag]
    dsimp only
    rw [encodeBlockCount_of_data hstart hdata]
    rfl
  have hlength : (fileBytes fram input).length = input.end_.toNat - 9 := by
    simp [fileBytes, Fram.read, hstart]
  rw [hcount, chunkCount, hlength]
  omega

theorem block_count_short :
    (beginData textFram ⟨8, 100⟩ ⟨16004, 16004⟩).blockCount.toNat =
      chunkCount (fileBytes textFram ⟨8, 100⟩) :=
  (block_count_iff 1 (fun _ => True) textFram ⟨8, 100⟩ ⟨16004, 16004⟩ readyBoards (by decide) rfl
    (by decide)).1.mpr (by decide)

/-- 291 bytes are three chunks, and the run waits for one reply. -/
theorem block_count_long :
    (beginData textFram ⟨8, 300⟩ ⟨16004, 16004⟩).blockCount.toNat = 1 ∧
      chunkCount (fileBytes textFram ⟨8, 300⟩) = 3 := by
  decide +kernel

end DistHuffman.Main
