/-
  `input_datastream` when calls of `i2c_writeReg` fail. It looks at no return value, so a run makes
  the same calls whatever becomes of them (`attemptLines_eq`), and `f->end` moves behind a chunk
  that was not stored. A failed call leaves it where it was only if it had nothing to store
  (`failed_write_iff`).
-/
import DistHuffman.Main.Files

namespace DistHuffman.Main

open DistHuffman.Lib

/-- A call of `i2c_writeReg` on data: `outcome` is `none` if it returns 0 and `some k` if it returns
    1 after `k` bytes. `endAfter` is `f->end` before the next call. -/
structure DataWrite where
  address : UInt16
  bytes : List UInt8
  outcome : Option Nat
  endAfter : UInt16

/-- What a call of `i2c_writeReg` stores. -/
def stored (bytes : List UInt8) (outcome : Option Nat) : List UInt8 :=
  outcome.elim bytes bytes.take

/-- What `input_datastream` works on, and `calls`: its calls of `i2c_writeReg` on data so far,
    newest first. -/
structure Attempt where
  fram : Fram
  file : File
  bytesRead : Nat
  calls : List DataWrite

section Model

/-! The outcome of call `n` is `outcome n`. -/

variable (outcome : Nat → Option Nat)

def Attempt.append (c : Attempt) (bytes : List UInt8) : Attempt :=
  { c with
    fram := c.fram.write c.file.end_ (stored bytes (outcome c.calls.length))
    file := { c.file with end_ := c.file.end_ + UInt16.ofNat bytes.length }
    calls := ⟨c.file.end_, bytes, outcome c.calls.length,
      c.file.end_ + UInt16.ofNat bytes.length⟩ :: c.calls }

def Attempt.flag (c : Attempt) (line : List UInt8) : Attempt :=
  if c.file.end_ = c.file.start ∧ line.headD 0 ≠ 35 then c.append outcome [42] else c

/-- The body of the loop. -/
def attemptLine (c : Attempt) (line : List UInt8) : Attempt :=
  { (c.flag outcome line).append outcome (cString line) with bytesRead := (cString line).length }

def attemptLoop (below : Nat → UInt8) : Nat → List UInt8 → Attempt → Attempt
  | 0, _, c => c
  | fuel + 1, stdin, c =>
      match fgets 9 stdin with
      | none => c
      | some (line, rest) =>
          if lastChar below line rest = 0 then attemptLine outcome c line
          else attemptLoop below fuel rest (attemptLine outcome c line)

/-- `input_datastream`; `last` is the outcome of the metadata write. -/
def attemptDatastream (below : Nat → UInt8) (last : Option Nat) (stdin : List UInt8) (fram : Fram)
    (f : File) : Attempt :=
  let c := attemptLoop outcome below stdin.length stdin ⟨fram, f, 0, []⟩
  { c with fram := c.fram.write 2 (stored (littleEndian c.file.end_) last) }

theorem attemptLoop_eq (below : Nat → UInt8) (fuel : Nat) (stdin : List UInt8) (c : Attempt) :
    attemptLoop outcome below fuel stdin c =
      (linesRead below fuel stdin).foldl (attemptLine outcome) c := by
  induction fuel generalizing stdin c with
  | zero => rfl
  | succ fuel ih =>
    unfold attemptLoop linesRead
    cases fgets 9 stdin with
    | none => rfl
    | some p =>
      obtain ⟨line, rest⟩ := p
      simp only [List.foldl_cons]
      split
      · rfl
      · exact ih rest (attemptLine outcome c line)

end Model

/-! ## Without failures -/

/-- The same state, with `calls` for `writes`. -/
def Attempt.Matches (c : Attempt) (d : Input) : Prop :=
  c.fram = d.fram ∧ c.file = d.file ∧ c.bytesRead = d.bytesRead

theorem matches_append {c : Attempt} {d : Input} (h : c.Matches d) (bytes : List UInt8) :
    (c.append (fun _ => none) bytes).Matches (d.append bytes) := by
  obtain ⟨hfram, hfile, hread⟩ := h
  unfold Attempt.Matches Attempt.append Input.append Input.writeFram
  dsimp only
  rw [hfram, hfile, hread]
  exact ⟨rfl, rfl, rfl⟩

theorem matches_attemptLine {c : Attempt} {d : Input} (h : c.Matches d) (line : List UInt8) :
    (attemptLine (fun _ => none) c line).Matches (inputLine d line) := by
  have hflag : (c.flag (fun _ => none) line).Matches (d.flag line) := by
    unfold Attempt.flag Input.flag
    rw [h.2.1]
    split
    · exact matches_append h [42]
    · exact h
  obtain ⟨hfram, hfile, -⟩ := matches_append hflag (cString line)
  exact ⟨hfram, hfile, rfl⟩

/-- With all calls successful this is `inputDatastream`. -/
theorem attemptDatastream_success (below : Nat → UInt8) (stdin : List UInt8) (fram : Fram)
    (f : File) :
    (attemptDatastream (fun _ => none) below none stdin fram f).Matches
      (inputDatastream below stdin fram f) := by
  have hlines : ∀ (lines : List (List UInt8)) (c : Attempt) (d : Input), c.Matches d →
      (lines.foldl (attemptLine fun _ => none) c).Matches (lines.foldl inputLine d) := by
    intro lines
    induction lines with
    | nil => exact fun _ _ h => h
    | cons line lines ih => exact fun c d h => ih _ _ (matches_attemptLine h line)
  obtain ⟨hfram, hfile, hread⟩ := hlines (linesRead below stdin.length stdin)
    ⟨fram, f, 0, []⟩ ⟨fram, f, 0, []⟩ ⟨rfl, rfl, rfl⟩
  unfold attemptDatastream inputDatastream Attempt.Matches Input.writeFram
  rw [attemptLoop_eq, inputLoop_eq]
  dsimp only
  rw [hfram, hfile, hread]
  exact ⟨rfl, rfl, rfl⟩

/-! ## The calls of a run -/

/-- The end of a file after writes of these strings. -/
def endAfter (e : UInt16) (writes : List (List UInt8)) : UInt16 :=
  writes.foldl (fun e bytes => e + UInt16.ofNat bytes.length) e

/-- The strings that one round writes: the flag, in front of the first line of an empty file, and
    the line. -/
def lineWrites (f : File) (line : List UInt8) : List (List UInt8) :=
  (if f.end_ = f.start ∧ line.headD 0 ≠ 35 then [[42]] else []) ++ [cString line]

/-- The strings that a run writes to a file. -/
def dataWrites (f : File) : List (List UInt8) → List (List UInt8)
  | [] => []
  | line :: lines =>
      lineWrites f line ++ dataWrites ⟨f.start, endAfter f.end_ (lineWrites f line)⟩ lines

section Calls

variable (outcome : Nat → Option Nat)

theorem foldl_append_file (writes : List (List UInt8)) (c : Attempt) :
    (writes.foldl (Attempt.append outcome) c).file =
      ⟨c.file.start, endAfter c.file.end_ writes⟩ := by
  induction writes generalizing c with
  | nil => rfl
  | cons bytes writes ih =>
    rw [List.foldl_cons, ih]
    rfl

theorem attemptLine_eq (c : Attempt) (line : List UInt8) :
    attemptLine outcome c line =
      { (lineWrites c.file line).foldl (Attempt.append outcome) c with
        bytesRead := (cString line).length } := by
  unfold attemptLine Attempt.flag lineWrites
  split <;> rfl

theorem append_bytesRead (c : Attempt) (n : Nat) (writes : List (List UInt8)) :
    writes.foldl (Attempt.append outcome) { c with bytesRead := n } =
      { writes.foldl (Attempt.append outcome) c with bytesRead := n } := by
  induction writes generalizing c with
  | nil => rfl
  | cons bytes writes ih => exact ih (c.append outcome bytes)

/-- Whatever becomes of the calls, a run makes the same ones. -/
theorem attemptLines_eq (lines : List (List UInt8)) (c : Attempt) :
    ∃ n, lines.foldl (attemptLine outcome) c =
      { (dataWrites c.file lines).foldl (Attempt.append outcome) c with bytesRead := n } := by
  induction lines generalizing c with
  | nil => exact ⟨c.bytesRead, rfl⟩
  | cons line lines ih =>
    obtain ⟨n, hn⟩ := ih (attemptLine outcome c line)
    refine ⟨n, ?_⟩
    have hfile : (attemptLine outcome c line).file =
        ⟨c.file.start, endAfter c.file.end_ (lineWrites c.file line)⟩ := by
      rw [attemptLine_eq]
      exact foldl_append_file outcome (lineWrites c.file line) c
    rw [List.foldl_cons, hn, hfile, attemptLine_eq, append_bytesRead, dataWrites,
      List.foldl_append]

/-- The calls that write these strings, from call `k` and address `e` on, oldest first. -/
def callsOf : Nat → UInt16 → List (List UInt8) → List DataWrite
  | _, _, [] => []
  | k, e, bytes :: writes =>
      ⟨e, bytes, outcome k, e + UInt16.ofNat bytes.length⟩ ::
        callsOf (k + 1) (e + UInt16.ofNat bytes.length) writes

theorem foldl_append_calls (writes : List (List UInt8)) (c : Attempt) :
    (writes.foldl (Attempt.append outcome) c).calls =
      (callsOf outcome c.calls.length c.file.end_ writes).reverse ++ c.calls := by
  induction writes generalizing c with
  | nil => rfl
  | cons bytes writes ih =>
    rw [List.foldl_cons, ih, callsOf, List.reverse_cons, List.append_assoc]
    rfl

/-- Among these strings, from call `k` on, only empty ones meet a failure. -/
def OnlyEmptyFail (k : Nat) (writes : List (List UInt8)) : Prop :=
  ∀ i bytes, writes[i]? = some bytes → outcome (k + i) ≠ none → bytes = []

theorem onlyEmptyFail_cons (k : Nat) (bytes : List UInt8) (writes : List (List UInt8)) :
    OnlyEmptyFail outcome k (bytes :: writes) ↔
      (outcome k ≠ none → bytes = []) ∧ OnlyEmptyFail outcome (k + 1) writes := by
  constructor
  · intro h
    refine ⟨h 0 bytes rfl, fun i b hi ho => h (i + 1) b hi ?_⟩
    rwa [Nat.add_right_comm] at ho
  · intro h i b hi ho
    cases i with
    | zero =>
      cases hi
      exact h.1 ho
    | succ i =>
      refine h.2 i b hi ?_
      rwa [Nat.add_right_comm]

/-- `f->end` moves behind a failed call exactly as far as the call had bytes. -/
theorem callsOf_leave_end_iff {writes : List (List UInt8)} (h : ∀ b ∈ writes, b.length < 65536)
    (k : Nat) (e : UInt16) :
    (∀ w ∈ callsOf outcome k e writes, w.outcome ≠ none → w.endAfter = w.address) ↔
      OnlyEmptyFail outcome k writes := by
  induction writes generalizing k e with
  | nil => exact ⟨fun _ i b hi => by simp at hi, fun _ w hw => by cases hw⟩
  | cons bytes writes ih =>
    have hlen := h bytes List.mem_cons_self
    have hmove : e + UInt16.ofNat bytes.length = e ↔ bytes = [] := by
      have := e.toNat_lt
      rw [← UInt16.toNat_inj, UInt16.toNat_add, toNat_ofNat_word hlen,
        ← List.length_eq_zero_iff]
      omega
    rw [onlyEmptyFail_cons, callsOf, List.forall_mem_cons,
      ih fun b hb => h b (List.mem_cons_of_mem _ hb)]
    dsimp only
    rw [hmove]

theorem callsOf_address_ge {writes : List (List UInt8)} {e : UInt16}
    (hfit : e.toNat + writes.flatten.length < 65536) {k : Nat} {w : DataWrite}
    (hw : w ∈ callsOf outcome k e writes) : e.toNat ≤ w.address.toNat := by
  induction writes generalizing k e with
  | nil => cases hw
  | cons bytes writes ih =>
    rw [List.flatten_cons, List.length_append] at hfit
    have hnext : (e + UInt16.ofNat bytes.length).toNat = e.toNat + bytes.length := by
      rw [UInt16.toNat_add, toNat_ofNat_word (by omega)]
      omega
    rcases List.mem_cons.mp hw with rfl | hw
    · exact Nat.le_refl _
    · have := ih (by omega) hw
      omega

/-- The calls lie side by side, so the bytes of a failed one are in no other. -/
theorem callsOf_cover_iff {writes : List (List UInt8)} {e : UInt16}
    (hfit : e.toNat + writes.flatten.length < 65536) (k : Nat) :
    (∀ a, e.toNat ≤ a → a < e.toNat + writes.flatten.length →
      ∃ w ∈ callsOf outcome k e writes, w.outcome = none ∧ w.address.toNat ≤ a ∧
        a < w.address.toNat + w.bytes.length) ↔ OnlyEmptyFail outcome k writes := by
  induction writes generalizing k e with
  | nil => exact ⟨fun _ i b hi => by simp at hi, fun _ a _ _ => by simp at *; omega⟩
  | cons bytes writes ih =>
    rw [List.flatten_cons, List.length_append] at hfit ⊢
    have hnext : (e + UInt16.ofNat bytes.length).toNat = e.toNat + bytes.length := by
      rw [UInt16.toNat_add, toNat_ofNat_word (by omega)]
      omega
    have hfit' : (e + UInt16.ofNat bytes.length).toNat + writes.flatten.length < 65536 := by omega
    rw [onlyEmptyFail_cons, ← ih hfit' (k + 1), hnext, callsOf]
    constructor
    · intro h
      constructor
      · intro ho
        by_contra hne
        have hpos : 0 < bytes.length := List.length_pos_iff.mpr hne
        -- the first byte of the failed call
        obtain ⟨w, hw, hok, hle, -⟩ := h e.toNat (Nat.le_refl _) (by omega)
        rcases List.mem_cons.mp hw with rfl | hw
        · exact ho hok
        · have := callsOf_address_ge outcome hfit' hw
          omega
      · intro a hle hlt
        obtain ⟨w, hw, hok, hwle, hwlt⟩ := h a (by omega) (by omega)
        rcases List.mem_cons.mp hw with rfl | hw
        · dsimp only at hwlt
          omega
        · exact ⟨w, hw, hok, hwle, hwlt⟩
    · intro h a hle hlt
      by_cases hin : a < e.toNat + bytes.length
      · refine ⟨_, List.mem_cons_self, ?_, hle, hin⟩
        by_contra ho
        rw [h.1 ho, List.length_nil] at hin
        omega
      · obtain ⟨w, hw, hrest⟩ := h.2 a (by omega) (by omega)
        exact ⟨w, List.mem_cons_of_mem _ hw, hrest⟩

end Calls

/-! ## Lines are short -/

theorem lineLength_le (n : Nat) (stdin : List UInt8) : lineLength n stdin ≤ n := by
  induction n generalizing stdin with
  | zero => exact Nat.le_refl _
  | succ n ih =>
    cases stdin with
    | nil => exact Nat.zero_le _
    | cons c cs =>
      unfold lineLength
      split
      · omega
      · exact Nat.succ_le_succ (ih cs)

theorem linesRead_length_le (below : Nat → UInt8) (fuel : Nat) (stdin : List UInt8) :
    ∀ line ∈ linesRead below fuel stdin, line.length ≤ 8 := by
  induction fuel generalizing stdin with
  | zero => simp [linesRead]
  | succ fuel ih =>
    intro line hline
    unfold linesRead fgets at hline
    by_cases hnil : stdin = []
    · rw [if_pos hnil] at hline
      cases hline
    · rw [if_neg hnil] at hline
      rcases List.mem_cons.mp hline with rfl | hline
      · rw [List.length_take]
        exact Nat.le_trans (Nat.min_le_left _ _) (lineLength_le _ _)
      · split at hline
        · cases hline
        · exact ih _ line hline

theorem dataWrites_length_le {lines : List (List UInt8)} (h : ∀ line ∈ lines, line.length ≤ 8)
    (f : File) : ∀ bytes ∈ dataWrites f lines, bytes.length ≤ 8 := by
  induction lines generalizing f with
  | nil => simp [dataWrites]
  | cons line lines ih =>
    intro bytes hbytes
    have hline : (cString line).length ≤ 8 :=
      Nat.le_trans (List.takeWhile_prefix _).length_le (h line List.mem_cons_self)
    rw [dataWrites, lineWrites, List.append_assoc, List.mem_append, List.mem_append] at hbytes
    rcases hbytes with hbytes | hbytes | hbytes
    · split at hbytes
      · rw [List.mem_singleton.mp hbytes]
        decide
      · cases hbytes
    · rwa [List.mem_singleton.mp hbytes]
    · exact ih (fun l hl => h l (List.mem_cons_of_mem _ hl)) _ bytes hbytes

/-! ## The file -/

/-- Every failed call leaves `f->end` as it was. -/
def FailedLeavesEnd (d : Attempt) : Prop :=
  ∀ w ∈ d.calls, w.outcome ≠ none → w.endAfter = w.address

/-- What was added to the file `f` consists of bytes of successful calls. -/
def CoveredBySuccess (f : File) (d : Attempt) : Prop :=
  ∀ a, f.end_.toNat ≤ a → a < d.file.end_.toNat →
    ∃ w ∈ d.calls, w.outcome = none ∧ w.address.toNat ≤ a ∧ a < w.address.toNat + w.bytes.length

theorem toNat_endAfter {writes : List (List UInt8)} {e : UInt16}
    (h : e.toNat + writes.flatten.length < 65536) :
    (endAfter e writes).toNat = e.toNat + writes.flatten.length := by
  induction writes generalizing e with
  | nil => rfl
  | cons bytes writes ih =>
    rw [List.flatten_cons, List.length_append] at h ⊢
    have hnext : (e + UInt16.ofNat bytes.length).toNat = e.toNat + bytes.length := by
      rw [UInt16.toNat_add, toNat_ofNat_word (by omega)]
      omega
    have := @ih (e + UInt16.ofNat bytes.length) (by omega)
    unfold endAfter at this ⊢
    rw [List.foldl_cons, this]
    omega

/-- Failed calls leave the end alone, and the file grows by stored bytes only, exactly when the
    failures strike calls that have nothing to write. -/
theorem failed_write_iff (below : Nat → UInt8) (outcome : Nat → Option Nat) (last : Option Nat)
    (stdin : List UInt8) (fram : Fram) (f : File) :
    (FailedLeavesEnd (attemptDatastream outcome below last stdin fram f) ↔
      OnlyEmptyFail outcome 0 (dataWrites f (linesRead below stdin.length stdin))) ∧
    (f.end_.toNat + (dataWrites f (linesRead below stdin.length stdin)).flatten.length < 65536 →
      (CoveredBySuccess f (attemptDatastream outcome below last stdin fram f) ↔
        OnlyEmptyFail outcome 0 (dataWrites f (linesRead below stdin.length stdin)))) := by
  have hshort := dataWrites_length_le (linesRead_length_le below stdin.length stdin) f
  obtain ⟨n, hrun⟩ := attemptLines_eq outcome (linesRead below stdin.length stdin)
    ⟨fram, f, 0, []⟩
  rw [← attemptLoop_eq] at hrun
  dsimp only at hrun
  generalize dataWrites f (linesRead below stdin.length stdin) = writes at hshort hrun
  have hcalls : (attemptDatastream outcome below last stdin fram f).calls =
      (callsOf outcome 0 f.end_ writes).reverse := by
    have := foldl_append_calls outcome writes ⟨fram, f, 0, []⟩
    rw [List.append_nil] at this
    unfold attemptDatastream
    rw [hrun]
    exact this
  have hfile : (attemptDatastream outcome below last stdin fram f).file =
      ⟨f.start, endAfter f.end_ writes⟩ := by
    have := foldl_append_file outcome writes ⟨fram, f, 0, []⟩
    unfold attemptDatastream
    rw [hrun]
    exact this
  constructor
  · rw [← callsOf_leave_end_iff outcome (fun b hb => Nat.lt_of_le_of_lt (hshort b hb) (by decide))
      0 f.end_]
    unfold FailedLeavesEnd
    rw [hcalls]
    simp only [List.mem_reverse]
  · intro hfit
    rw [← callsOf_cover_iff outcome hfit 0]
    unfold CoveredBySuccess
    rw [hcalls, hfile]
    simp only [List.mem_reverse, toNat_endAfter hfit]

theorem failed_write_Hi :
    FailedLeavesEnd
        (attemptDatastream (fun _ => none) (fun _ => 0) none [72, 105] (fun _ => 0) ⟨8, 8⟩) ∧
      CoveredBySuccess ⟨8, 8⟩
        (attemptDatastream (fun _ => none) (fun _ => 0) none [72, 105] (fun _ => 0) ⟨8, 8⟩) := by
  have h := failed_write_iff (fun _ => 0) (fun _ => none) none [72, 105] (fun _ => 0) ⟨8, 8⟩
  exact ⟨h.1.mpr fun _ _ _ ho => absurd rfl ho,
    (h.2 (by decide)).mpr fun _ _ _ ho => absurd rfl ho⟩

/-- `"Hi"` for an empty file: the flag is stored, the write of the text is not acknowledged. The
    file ends at 11 all the same. -/
theorem failed_write_grows_file :
    (attemptDatastream (fun n => if n = 1 then some 0 else none) (fun _ => 0) none [72, 105]
        (fun _ => 0) ⟨8, 8⟩).file.end_ = 11 ∧
      ¬ FailedLeavesEnd (attemptDatastream (fun n => if n = 1 then some 0 else none) (fun _ => 0)
        none [72, 105] (fun _ => 0) ⟨8, 8⟩) := by
  refine ⟨by decide, fun h => ?_⟩
  have hend : (11 : UInt16) = 9 := h ⟨9, [72, 105], some 0, 11⟩ List.mem_cons_self (by decide)
  exact absurd hend (by decide)

end DistHuffman.Main
