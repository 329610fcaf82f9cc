/-
  What `sequence_blocks` finds in a stored file. It takes its first header from address 8, where the
  compression flag `'#'` stands, so its first entry is number 17, and it shifts every size byte by
  two bits, so no entry it writes has the size of a record. Whatever the records and their order,
  and however sequence number and job are packed, it does not find them
  (`sequence_blocks_never_finds`).
-/
import DistHuffman.Main.Process
import DistHuffman.Lib.Bits
import Mathlib.Data.List.Perm.Basic
import Mathlib.Logic.Function.Basic

namespace DistHuffman.Main

open DistHuffman.Lib

/-- A record of the file, with the number and the job that its header is packed from. -/
structure StoredBlock where
  seq : Nat
  job : UInt8
  payload : List UInt8

/-- Header, size and payload. -/
def StoredBlock.bytes (pack : Nat → UInt8 → UInt8) (r : StoredBlock) : List UInt8 :=
  pack r.seq r.job :: UInt8.ofNat r.payload.length :: r.payload

/-- The records with the addresses where they begin, from `a` on. -/
def placed (a : UInt16) : List StoredBlock → List (UInt16 × StoredBlock)
  | [] => []
  | r :: rs => (a, r) :: placed (a + UInt16.ofNat (r.payload.length + 2)) rs

/-- The records stand in the FRAM from `a` on. -/
def LaidOut (fram : Fram) (pack : Nat → UInt8 → UInt8) (a : UInt16) (rs : List StoredBlock) :
    Prop :=
  ∀ e ∈ placed a rs, fram.read e.1 (e.2.payload.length + 2) = e.2.bytes pack

/-- `seq` after the writes, in order. -/
def seqAfter (seq : Nat → BlockSeq) (writes : List (UInt8 × BlockSeq)) : Nat → BlockSeq :=
  writes.foldl (fun seq w => Function.update seq w.1.toNat w.2) seq

/-- `sequence_blocks(seq, n)` writes inside `seq[0 .. n)`, and entry `k` is then the place and the
    size of the record with number `k`. -/
def FindsBlocks (fram : Fram) (n : Nat) (seq : Nat → BlockSeq) (rs : List StoredBlock) : Prop :=
  (∀ w ∈ sequenceBlocks fram n 8, w.1.toNat < n) ∧
    ∀ e ∈ placed 9 rs, seqAfter seq (sequenceBlocks fram n 8) e.2.seq =
      ⟨e.1, UInt8.ofNat e.2.payload.length⟩

/-! ## Entries -/

/-- An entry keeps its old value or has the one of a write to it. -/
theorem seqAfter_cases (seq : Nat → BlockSeq) (writes : List (UInt8 × BlockSeq)) (k : Nat) :
    seqAfter seq writes k = seq k ∨ ∃ w ∈ writes, w.1.toNat = k ∧ seqAfter seq writes k = w.2 := by
  induction writes generalizing seq with
  | nil => exact Or.inl rfl
  | cons w writes ih =>
    have hstep : seqAfter seq (w :: writes) =
        seqAfter (Function.update seq w.1.toNat w.2) writes := rfl
    rcases ih (Function.update seq w.1.toNat w.2) with h | ⟨v, hv, hk, h⟩
    · by_cases hwk : w.1.toNat = k
      · refine Or.inr ⟨w, List.mem_cons_self, hwk, ?_⟩
        rw [hstep, h, ← hwk, Function.update_self]
      · left
        rw [hstep, h, Function.update_of_ne (Ne.symm hwk)]
    · exact Or.inr ⟨v, List.mem_cons_of_mem _ hv, hk, hstep ▸ h⟩

/-- An entry that is written has the value of a write. -/
theorem seqAfter_of_first (seq : Nat → BlockSeq) (w : UInt8 × BlockSeq)
    (writes : List (UInt8 × BlockSeq)) :
    ∃ v ∈ w :: writes, seqAfter seq (w :: writes) w.1.toNat = v.2 := by
  have hstep : seqAfter seq (w :: writes) =
      seqAfter (Function.update seq w.1.toNat w.2) writes := rfl
  rcases seqAfter_cases (Function.update seq w.1.toNat w.2) writes w.1.toNat with
    h | ⟨v, hv, -, h⟩
  · exact ⟨w, List.mem_cons_self, by rw [hstep, h, Function.update_self]⟩
  · exact ⟨v, List.mem_cons_of_mem _ hv, hstep ▸ h⟩

/-- Every entry carries the byte behind its address, shifted by two bits. -/
theorem size_of_mem_sequenceBlocks {fram : Fram} {n : Nat} {address : UInt16}
    {w : UInt8 × BlockSeq} (h : w ∈ sequenceBlocks fram n address) :
    w.2.size = fram (w.2.start + 1) >>> 2 := by
  induction n generalizing address with
  | zero => cases h
  | succ n ih =>
    rcases List.mem_cons.mp h with rfl | h
    · rfl
    · exact ih h

theorem shiftRight_two_ne (b : UInt8) : b ≠ 0 → b >>> 2 ≠ b := by
  revert b
  exact forall_byte (by decide +kernel)

theorem size_of_laidOut {fram : Fram} {pack : Nat → UInt8 → UInt8} {a : UInt16}
    {rs : List StoredBlock} (h : LaidOut fram pack a rs) {e : UInt16 × StoredBlock}
    (he : e ∈ placed a rs) : fram (e.1 + 1) = UInt8.ofNat e.2.payload.length := by
  have hbyte := congrArg (fun l => l[1]?) (h e he)
  have h1 : 1 < e.2.payload.length + 2 := by omega
  simp only [Fram.read, StoredBlock.bytes, List.getElem?_map, List.getElem?_range h1,
    Option.map_some, List.getElem?_cons_succ, List.getElem?_cons_zero, Option.some.injEq] at hbyte
  exact hbyte

theorem exists_placed {a : UInt16} {rs : List StoredBlock} {r : StoredBlock} (h : r ∈ rs) :
    ∃ e ∈ placed a rs, e.2 = r := by
  induction rs generalizing a with
  | nil => cases h
  | cons r' rs ih =>
    rcases List.mem_cons.mp h with rfl | h
    · exact ⟨_, List.mem_cons_self, rfl⟩
    · obtain ⟨e, he, her⟩ := ih h
      exact ⟨e, List.mem_cons_of_mem _ he, her⟩

/-- No records are found, for any number, order and contents of them and any packing of their
    headers. -/
theorem sequence_blocks_never_finds (fram : Fram) (pack : Nat → UInt8 → UInt8) (n : Nat)
    (hn : 1 ≤ n) (hn63 : n ≤ 63) (seq : Nat → BlockSeq) (rs : List StoredBlock)
    (hperm : (rs.map StoredBlock.seq).Perm (List.range n))
    (hsize : ∀ r ∈ rs, 1 ≤ r.payload.length ∧ r.payload.length ≤ 253)
    (hflag : fram 8 = 35) (hlaid : LaidOut fram pack 9 rs) : ¬ FindsBlocks fram n seq rs := by
  intro hfinds
  obtain ⟨hinside, hentries⟩ := hfinds
  obtain ⟨m, rfl⟩ := Nat.exists_eq_add_of_le' hn
  -- the flag is taken for the header of the first record
  have hfirst : ∃ w writes, sequenceBlocks fram (m + 1) 8 = w :: writes ∧ w.1.toNat = 17 := by
    refine ⟨_, _, rfl, ?_⟩
    simp only [hflag]
    decide
  obtain ⟨w, writes, hwrites, hw⟩ := hfirst
  have h17 : 17 < m + 1 := by
    have := hinside w (by rw [hwrites]; exact List.mem_cons_self)
    omega
  -- so there is a record with number 17, and its entry was written
  have hmem : 17 ∈ rs.map StoredBlock.seq := hperm.mem_iff.mpr (List.mem_range.mpr h17)
  obtain ⟨r, hr, hseq⟩ := List.mem_map.mp hmem
  obtain ⟨e, he, rfl⟩ := @exists_placed 9 rs r hr
  obtain ⟨v, hv, hentry⟩ := seqAfter_of_first seq w writes
  rw [← hwrites] at hv hentry
  have hfound := hentries e he
  rw [hseq, ← hw, hentry] at hfound
  have hshift := size_of_mem_sequenceBlocks hv
  rw [hfound] at hshift
  dsimp only at hshift
  rw [size_of_laidOut hlaid he] at hshift
  have hlen := hsize e.2 hr
  refine shiftRight_two_ne (UInt8.ofNat e.2.payload.length) ?_ hshift.symm
  intro hzero
  have := congrArg UInt8.toNat hzero
  rw [toNat_ofNat_byte (by omega), UInt8.toNat_zero] at this
  omega

/-- A file with one record: number 0 of an ENCODE job, one byte of payload. -/
def oneRecord : Fram := fun a => [35, 2, 1, 7].getD (a - 8).toNat 0

theorem oneRecord_laidOut :
    LaidOut oneRecord (fun seq job => (UInt8.ofNat seq <<< 1) ||| job) 9 [⟨0, encode, [7]⟩] := by
  unfold LaidOut
  decide

theorem sequence_blocks_never_finds_one :
    ¬ FindsBlocks oneRecord 1 (fun _ => ⟨0, 0⟩) [⟨0, encode, [7]⟩] :=
  sequence_blocks_never_finds oneRecord (fun seq job => (UInt8.ofNat seq <<< 1) ||| job) 1
    (by decide) (by decide) _ _ (by decide) (by decide) (by decide) oneRecord_laidOut

/-- The only entry that is written is number 17, with the address of the flag. -/
theorem sequence_blocks_misses_one :
    LaidOut oneRecord (fun seq job => (UInt8.ofNat seq <<< 1) ||| job) 9 [⟨0, encode, [7]⟩] ∧
      (sequenceBlocks oneRecord 1 8).map (fun w => (w.1, w.2.start, w.2.size)) = [(17, 8, 0)] ∧
      ¬ FindsBlocks oneRecord 1 (fun _ => ⟨0, 0⟩) [⟨0, encode, [7]⟩] := by
  refine ⟨oneRecord_laidOut, by decide, fun h => ?_⟩
  have := h.1 _ List.mem_cons_self
  revert this
  decide

end DistHuffman.Main
