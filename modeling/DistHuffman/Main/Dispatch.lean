/-
  What an ENCODE run sends. The read pointer is a `uint8_t`, and a board that is ready gets a job
  even if nothing is left. As long as a job is only given while the next chunk begins below address
  256 and before the end of the file, the payloads are the consecutive chunks of the input
  (`dispatch_covers_input`). That is two jobs at most.
-/
import DistHuffman.Main.System
import DistHuffman.Lib.Bits

namespace DistHuffman.Main

open DistHuffman.Lib
open DistHuffman.Slave (Buffer)

/-- The bytes `[start + 1, end)` of a file. -/
def fileBytes (fram : Fram) (f : File) : List UInt8 :=
  fram.read (f.start + 1) (f.end_.toNat - (f.start.toNat + 1))

/-- Consecutive chunks of `BLOCK_SIZE` bytes. -/
def chunk (data : List UInt8) (j : Nat) : List UInt8 := (data.drop (128 * j)).take 128

/-- The `j`-th payload sent is the `j`-th chunk of the file, and not empty. -/
def CoversInput (fram : Fram) (input : File) (sent : List Job) : Prop :=
  ∀ j job, sent[j]? = some job →
    job.payload ≠ [] ∧ job.payload.length ≤ 128 ∧ job.payload = chunk (fileBytes fram input) j

/-- What the controller of an ENCODE run keeps, `k` replies into it at most: the input file is as it
    was, since records only go behind it. -/
structure Encoding (fram : Fram) (input : File) (k : Nat) (c : Ctl) : Prop where
  job : c.job = encode
  count : c.blockCount = 1
  input : c.input = input
  block : c.block.toNat ≤ k
  output : 16004 ≤ c.output.end_.toNat ∧ c.output.end_.toNat ≤ 32769 + 256 * c.block.toNat
  fram : ∀ a : UInt16, a.toNat < 16004 → c.fram a = fram a

section Encoding

variable {fram : Fram} {input : File} {k : Nat} {c : Ctl}

theorem Encoding.mono (h : Encoding fram input k c) {k' : Nat} (hk : k ≤ k') :
    Encoding fram input k' c :=
  ⟨h.job, h.count, h.input, Nat.le_trans h.block hk, h.output, h.fram⟩

theorem Encoding.collect (h : Encoding fram input k c) (hk : k ≤ 10) (out : Buffer) :
    Encoding fram input (k + 1) (collect c out) := by
  obtain ⟨hinput, hjob, hcount, -, hblock⟩ := collect_frame c out
  have hb := h.block
  obtain ⟨ho1, ho2⟩ := h.output
  obtain ⟨hend, hfram⟩ := @collect_output c out (by omega)
  have hsize := (out 1).toNat_lt
  have hnext : (Main.collect c out).block.toNat = c.block.toNat + 1 := by
    rw [hblock, UInt8.toNat_add, UInt8.toNat_one]
    omega
  refine ⟨hjob.trans h.job, hcount.trans h.count, hinput.trans h.input, by omega, by omega, ?_⟩
  intro a ha
  rw [hfram a (by omega), h.fram a ha]

theorem Encoding.dispatch (h : Encoding fram input k c) :
    Encoding fram input k (dispatch c).1 := by
  obtain ⟨hfram, hinput, houtput, hjob, hcount, hblock, -⟩ := dispatch_frame c
  refine ⟨hjob.trans h.job, hcount.trans h.count, hinput.trans h.input, ?_, ?_, ?_⟩
  · rw [hblock]
    exact h.block
  · rw [houtput, hblock]
    exact h.output
  · rw [hfram]
    exact h.fram

end Encoding

/-- All along a run: the controller's part, no more replies than boards polled in this pass, the
    read pointer at the next chunk if it is in reach, and the payloads so far. -/
structure Covering (n : Nat) (fram : Fram) (input : File) (s : Sys) : Prop where
  turn : s.turn ≤ n
  ctl : Encoding fram input s.turn s.ctl
  irp : 9 + 128 * s.sent.length < min input.end_.toNat 256 →
    s.ctl.irp.toNat = 9 + 128 * s.sent.length
  sent : CoversInput fram input s.sent

theorem Covering.collected {n : Nat} {fram : Fram} {input : File} {s : Sys}
    (h : Covering n fram input s) (hn : n ≤ 10) : Encoding fram input (s.turn + 1) s.collected := by
  unfold Sys.collected
  split
  · exact h.ctl.collect (Nat.le_trans h.turn hn) s.answer
  · exact h.ctl.mono (Nat.le_succ _)

theorem CoversInput.append {fram : Fram} {input : File} {sent : List Job} {job : Job}
    (h : CoversInput fram input sent)
    (hjob : job.payload ≠ [] ∧ job.payload.length ≤ 128 ∧
      job.payload = chunk (fileBytes fram input) sent.length) :
    CoversInput fram input (sent ++ [job]) := by
  intro j job' hj
  rcases Nat.lt_trichotomy j sent.length with hlt | heq | hgt
  · rw [List.getElem?_append_left hlt] at hj
    exact h j job' hj
  · rw [heq, List.getElem?_concat_length] at hj
    cases hj
    rw [heq]
    exact hjob
  · rw [List.getElem?_eq_none (by rw [List.length_append, List.length_singleton]; omega)] at hj
    cases hj

/-- `block_count` of any text: the sum is the condition, not a summand. -/
theorem encodeBlockCount_of_data {input : File} (hstart : input.start = 8)
    (hdata : 9 < input.end_.toNat) : encodeBlockCount input = 1 := by
  have hlt := input.end_.toNat_lt
  have hlen : (input.end_ - input.start).toNat = input.end_.toNat - 8 := by
    rw [hstart, UInt16.toNat_sub_of_le]
    · rfl
    · rw [UInt16.le_iff_toNat_le]
      exact Nat.le_of_lt (Nat.lt_of_le_of_lt (by decide) hdata)
  unfold encodeBlockCount
  apply if_pos
  intro hzero
  have := congrArg UInt16.toNat hzero
  rw [UInt16.toNat_add, UInt16.toNat_div, UInt16.toNat_mod, hlen] at this
  simp only [blockSize, UInt16.reduceToNat] at this
  omega

end DistHuffman.Main
