/-
  The controller's files: `input_datastream`, `output_datastream`, `format_storage`,
  `initialize_fs`, and the operations a user starts with the buttons, as steps on what they leave
  behind: the FRAM and the file table `_fs`.

  The table is kept twice, in RAM and in the first eight bytes of the FRAM. Transfers with the FRAM
  are taken to succeed (`DistHuffman.Main.Memory`); a run of `processData` is a run of
  `DistHuffman.Main.System` that returns. `int` has 16 bits, `uint16_t` arithmetic wraps.

  `extends_foldl_inputLine` is what reading a stream does: the file grows by the bytes stored, and
  all writes of the loop lie between the old and the new end.
-/
import DistHuffman.Main.System
import Mathlib.Data.List.TakeWhile

namespace DistHuffman.Main

open DistHuffman.Lib
open DistHuffman.Slave (Buffer)

/-- `_fs` -/
structure Fs where
  input : File
  output : File

/-- A `uint16_t` in memory. -/
def littleEndian (w : UInt16) : List UInt8 := [w.toUInt8, (w >>> 8).toUInt8]

def wordAt (fram : Fram) (a : UInt16) : UInt16 :=
  ((fram (a + 1)).toUInt16 <<< 8) ||| (fram a).toUInt16

def initializeFs (fram : Fram) : Fs :=
  ⟨⟨wordAt fram 0, wordAt fram 2⟩, ⟨wordAt fram 4, wordAt fram 6⟩⟩

/-- `metadata` of `format_storage`. -/
def formatMetadata : List UInt8 :=
  littleEndian 8 ++ littleEndian 8 ++ littleEndian 16004 ++ littleEndian 16004

def formatStorage (fram : Fram) : Fram :=
  ((List.range 8000).foldl (fun f i => f.write (UInt16.ofNat (i * 4)) [0, 0, 0, 0]) fram).write 0
    formatMetadata

/-! ## Reading a stream -/

/-- How many of the next `n` characters `fgets` takes: up to a newline, and that too. -/
def lineLength : Nat → List UInt8 → Nat
  | n + 1, c :: cs => if c = 10 then 1 else lineLength n cs + 1
  | _, _ => 0

/-- `fgets(buffer, size, stdin)`: the line and the rest of the stream. -/
def fgets (size : Nat) (stdin : List UInt8) : Option (List UInt8 × List UInt8) :=
  if stdin = [] then none
  else some (stdin.take (lineLength (size - 1) stdin), stdin.drop (lineLength (size - 1) stdin))

/-- The string in a buffer; its length is `strlen`. -/
def cString (buffer : List UInt8) : List UInt8 := buffer.takeWhile (· ≠ 0)

/-- What `input_datastream` works on, and `writes`: its writes to the FRAM so far, newest first. -/
structure Input where
  fram : Fram
  file : File
  bytesRead : Nat
  writes : List (UInt16 × List UInt8)

def Input.writeFram (c : Input) (address : UInt16) (bytes : List UInt8) : Input :=
  { c with fram := c.fram.write address bytes, writes := (address, bytes) :: c.writes }

/-- Write at `f->end` and move it. -/
def Input.append (c : Input) (bytes : List UInt8) : Input :=
  { c.writeFram c.file.end_ bytes with
    file := { c.file with end_ := c.file.end_ + UInt16.ofNat bytes.length } }

/-- The raw text flag `'*'` in front of the first line of an empty file, unless it begins with the
    compression flag `'#'`. -/
def Input.flag (c : Input) (line : List UInt8) : Input :=
  if c.file.end_ = c.file.start ∧ line.headD 0 ≠ 35 then c.append [42] else c

/-- The body of the loop. -/
def inputLine (c : Input) (line : List UInt8) : Input :=
  { (c.flag line).append (cString line) with bytesRead := (cString line).length }

/-- `buffer[bytes_read-1]`. For an empty string this is the byte in front of `buffer`, which is
    `below` of the number of characters left. -/
def lastChar (below : Nat → UInt8) (line rest : List UInt8) : UInt8 :=
  (cString line).getLast?.getD (below rest.length)

/-- The loop. A line has at least one character, so there are no more lines than characters. -/
def inputLoop (below : Nat → UInt8) : Nat → List UInt8 → Input → Input
  | 0, _, c => c
  | fuel + 1, stdin, c =>
      match fgets 9 stdin with
      | none => c
      | some (line, rest) =>
          if lastChar below line rest = 0 then inputLine c line
          else inputLoop below fuel rest (inputLine c line)

def inputDatastream (below : Nat → UInt8) (stdin : List UInt8) (fram : Fram) (f : File) : Input :=
  let c := inputLoop below stdin.length stdin ⟨fram, f, 0, []⟩
  c.writeFram 2 (littleEndian c.file.end_)

/-! ## Printing a file -/

/-- The loop of `output_datastream`: the strings given to `printf`. The flag is taken off the chunk
    that ends where the file starts. After 8192 rounds `address` repeats. -/
def outputLoop (fram : Fram) (f : File) : Nat → UInt16 → Option (List (List UInt8))
  | 0, _ => none
  | fuel + 1, address =>
      if address < f.end_ then do
        let size := if f.end_ - address > 8 then 8 else f.end_ - address
        let buffer := fram.read address size.toNat
        let text := if address + 8 = f.start ∧ buffer.headD 0 = 42 then buffer.drop 1 else buffer
        let printed ← outputLoop fram f fuel (address + 8)
        return cString text :: printed
      else some []

/-- `output_datastream`: what it prints of the file, and its result. `none` when it does not end. -/
def outputDatastream (fram : Fram) (f : File) : Option (List (List UInt8) × UInt16) := do
  let printed ← outputLoop fram f 8193 f.start
  return (printed, f.end_ - f.start)

/-! ## Operations -/

/-- What the controller keeps from one operation to the next, and the writes to the FRAM made by
    `input_datastream` and by `processData`. -/
structure Store where
  fram : Fram
  fs : Fs
  inputWrites : List (UInt16 × List UInt8)
  outputWrites : List (UInt16 × List UInt8)

namespace Store

/-- Power on with this FRAM. -/
def boot (fram : Fram) : Store := ⟨fram, initializeFs fram, [], []⟩

def restart (s : Store) : Store := { s with fs := initializeFs s.fram }

def inputData (s : Store) (below : Nat → UInt8) (stdin : List UInt8) : Store :=
  let c := inputDatastream below stdin s.fram s.fs.input
  { s with fram := c.fram, fs := { s.fs with input := c.file },
           inputWrites := c.writes ++ s.inputWrites }

/-- `processData` has returned in state `t`. -/
def processed (s : Store) (t : Sys) : Store :=
  { s with fram := t.ctl.fram, fs := ⟨t.ctl.input, t.ctl.output⟩,
           outputWrites := t.ctl.writes ++ s.outputWrites }

def format (s : Store) : Store := { s with fram := formatStorage s.fram }

end Store

/-- Conditions on the operations, each on the state before and on what it is given. -/
structure Allowed where
  input : Store → (Nat → UInt8) → List UInt8 → Prop := fun _ _ _ => True
  process : Store → Prop := fun _ => True
  poll : Sys → Prop := fun _ => True
  format : Store → Prop := fun _ => True

/-- One operation, from start to end. -/
inductive Operation (ok : Allowed) : Store → Store → Prop
  | input (s : Store) (below : Nat → UInt8) (stdin : List UInt8) (hok : ok.input s below stdin) :
      Operation ok s (s.inputData below stdin)
  | process (s : Store) (n : Nat) (replies : Nat → Option Buffer) (t : Sys) (hok : ok.process s)
      (hrun : Reaches n ok.poll s.fram s.fs.input s.fs.output replies t) (hret : Returned n t) :
      Operation ok s (s.processed t)
  | output (s : Store) (f : File) (printed : List (List UInt8) × UInt16)
      (h : outputDatastream s.fram f = some printed) : Operation ok s s
  | format (s : Store) (hok : ok.format s) : Operation ok s s.format

/-! ## The lines of a stream -/

/-- The lines that the loop reads. -/
def linesRead (below : Nat → UInt8) : Nat → List UInt8 → List (List UInt8)
  | 0, _ => []
  | fuel + 1, stdin =>
      match fgets 9 stdin with
      | none => []
      | some (line, rest) =>
          line :: if lastChar below line rest = 0 then [] else linesRead below fuel rest

/-- Number of bytes in these lines that are stored. -/
def storedLength (below : Nat → UInt8) (stdin : List UInt8) : Nat :=
  ((linesRead below stdin.length stdin).map fun line => (cString line).length).sum

/-- The raw text flag: one byte, for a stream that starts a file and does not begin with `'#'`. -/
def flagLength (f : File) (stdin : List UInt8) : Nat :=
  if f.end_ = f.start ∧ stdin.headD 35 ≠ 35 then 1 else 0

theorem inputLoop_eq (below : Nat → UInt8) (fuel : Nat) (stdin : List UInt8) (c : Input) :
    inputLoop below fuel stdin c = (linesRead below fuel stdin).foldl inputLine c := by
  induction fuel generalizing stdin c with
  | zero => rfl
  | succ fuel ih =>
    unfold inputLoop linesRead
    cases fgets 9 stdin with
    | none => rfl
    | some p =>
      obtain ⟨line, rest⟩ := p
      simp only [List.foldl_cons]
      split
      · rfl
      · exact ih rest (inputLine c line)

theorem lineLength_pos {n : Nat} {c : UInt8} {cs : List UInt8} :
    0 < lineLength (n + 1) (c :: cs) := by
  unfold lineLength
  split <;> omega

/-- A line begins like the stream. -/
theorem fgets_cons (c : UInt8) (cs : List UInt8) :
    ∃ tail rest, fgets 9 (c :: cs) = some (c :: tail, rest) ∧ c :: cs = c :: tail ++ rest := by
  obtain ⟨k, hk⟩ : ∃ k, lineLength 8 (c :: cs) = k + 1 :=
    Nat.exists_eq_succ_of_ne_zero (Nat.ne_of_gt lineLength_pos)
  refine ⟨cs.take k, cs.drop k, ?_, by simp⟩
  unfold fgets
  rw [if_neg (List.cons_ne_nil c cs), hk]
  rfl

theorem linesRead_head (below : Nat → UInt8) (c : UInt8) (cs : List UInt8) :
    ∃ tail lines, linesRead below (c :: cs).length (c :: cs) = (c :: tail) :: lines := by
  obtain ⟨tail, rest, hget, -⟩ := fgets_cons c cs
  rw [List.length_cons, linesRead, hget]
  exact ⟨tail, _, rfl⟩

theorem linesRead_ne_nil (below : Nat → UInt8) (fuel : Nat) (stdin : List UInt8) :
    ∀ line ∈ linesRead below fuel stdin, line ≠ [] := by
  induction fuel generalizing stdin with
  | zero => simp [linesRead]
  | succ fuel ih =>
    cases stdin with
    | nil => simp [linesRead, fgets]
    | cons c cs =>
      obtain ⟨tail, rest, hget, -⟩ := fgets_cons c cs
      intro line hline
      rw [linesRead, hget] at hline
      rcases List.mem_cons.mp hline with hline | hline
      · rw [hline]
        exact List.cons_ne_nil c tail
      · split at hline
        · cases hline
        · exact ih rest line hline

/-- Cutting a text without zero bytes into lines loses nothing. -/
theorem linesRead_flatten (below : Nat → UInt8) {fuel : Nat} {stdin : List UInt8}
    (hf : stdin.length ≤ fuel) (h0 : ∀ c ∈ stdin, c ≠ 0) :
    ((linesRead below fuel stdin).map cString).flatten = stdin := by
  induction fuel generalizing stdin with
  | zero =>
    rw [linesRead, List.length_eq_zero_iff.mp (Nat.le_zero.mp hf)]
    rfl
  | succ fuel ih =>
    cases stdin with
    | nil => rfl
    | cons c cs =>
      obtain ⟨tail, rest, hget, hsplit⟩ := fgets_cons c cs
      rw [hsplit] at hf h0
      have hline : cString (c :: tail) = c :: tail := by
        refine List.takeWhile_eq_self_iff.mpr fun x hx => ?_
        simpa using h0 x (List.mem_append_left _ hx)
      have hlast : lastChar below (c :: tail) rest ≠ 0 := by
        rw [lastChar, hline, List.getLast?_eq_getLast_of_ne_nil (List.cons_ne_nil c tail)]
        exact h0 _ (List.mem_append_left _ (List.getLast_mem _))
      rw [linesRead, hget]
      simp only [if_neg hlast, List.map_cons, List.flatten_cons, hline]
      rw [ih (by simp only [List.length_append, List.length_cons] at hf; omega)
        (fun x hx => h0 x (List.mem_append_right _ hx)), hsplit]

/-- `d` comes from `c` by writing behind its end. -/
structure Extends (c d : Input) : Prop where
  start_eq : d.file.start = c.file.start
  end_le : c.file.end_.toNat ≤ d.file.end_.toNat
  writes : ∀ w ∈ d.writes, w ∈ c.writes ∨
    c.file.end_.toNat ≤ w.1.toNat ∧ w.1.toNat + w.2.length ≤ d.file.end_.toNat
  front : ∀ a : UInt16, a.toNat < c.file.end_.toNat → d.fram a = c.fram a

theorem Extends.refl (c : Input) : Extends c c :=
  ⟨rfl, Nat.le_refl _, fun _ hw => Or.inl hw, fun _ _ => rfl⟩

theorem Extends.trans {c d e : Input} (h : Extends c d) (h' : Extends d e) : Extends c e where
  start_eq := h'.start_eq.trans h.start_eq
  end_le := Nat.le_trans h.end_le h'.end_le
  writes := by
    intro w hw
    have hle := h.end_le
    have hle' := h'.end_le
    rcases h'.writes w hw with hw | hw
    · rcases h.writes w hw with hw | hw
      · exact Or.inl hw
      · exact Or.inr ⟨hw.1, by omega⟩
    · exact Or.inr ⟨by omega, hw.2⟩
  front := by
    intro a ha
    have hle := h.end_le
    rw [h'.front a (by omega), h.front a ha]

theorem append_spec {c : Input} {bytes : List UInt8}
    (hroom : c.file.end_.toNat + bytes.length ≤ 32768) :
    Extends c (c.append bytes) ∧
      (c.append bytes).file.end_.toNat = c.file.end_.toNat + bytes.length := by
  have hend : (c.append bytes).file.end_.toNat = c.file.end_.toNat + bytes.length := by
    simp only [Input.append, UInt16.toNat_add]
    rw [toNat_ofNat_word (by omega)]
    omega
  refine ⟨⟨rfl, by omega, ?_, ?_⟩, hend⟩
  · intro w hw
    rcases List.mem_cons.mp hw with hw | hw
    · rw [hw]
      exact Or.inr ⟨Nat.le_refl _, Nat.le_of_eq hend.symm⟩
    · exact Or.inl hw
  · intro a ha
    exact write_of_lt ha (by omega)

theorem flag_spec {c : Input} {b : UInt8} {tail : List UInt8}
    (hroom : c.file.end_.toNat + flagLength c.file (b :: tail) ≤ 32768) :
    Extends c (c.flag (b :: tail)) ∧
      (c.flag (b :: tail)).file.end_.toNat =
        c.file.end_.toNat + flagLength c.file (b :: tail) := by
  unfold Input.flag flagLength at *
  by_cases hflag : c.file.end_ = c.file.start ∧ b ≠ 35
  · rw [List.headD_cons, if_pos hflag] at hroom ⊢
    rw [List.headD_cons, if_pos hflag]
    exact append_spec hroom
  · rw [List.headD_cons, if_neg hflag, List.headD_cons, if_neg hflag]
    exact ⟨Extends.refl c, rfl⟩

/-- A first line leaves the file non-empty. -/
theorem flagLength_add_cString_pos {f : File} {b : UInt8} {tail : List UInt8}
    (h : f.end_ = f.start) : 0 < flagLength f (b :: tail) + (cString (b :: tail)).length := by
  by_cases hb : b = 35
  · rw [cString, List.takeWhile_cons_of_pos (by simp [hb]), List.length_cons]
    omega
  · rw [flagLength, if_pos ⟨h, hb⟩]
    omega

theorem inputLine_spec {c : Input} {b : UInt8} {tail : List UInt8}
    (hle : c.file.start.toNat ≤ c.file.end_.toNat)
    (hroom : c.file.end_.toNat + flagLength c.file (b :: tail) + (cString (b :: tail)).length ≤
      32768) :
    Extends c (inputLine c (b :: tail)) ∧
      (inputLine c (b :: tail)).file.end_.toNat =
        c.file.end_.toNat + flagLength c.file (b :: tail) + (cString (b :: tail)).length ∧
      (inputLine c (b :: tail)).file.end_ ≠ (inputLine c (b :: tail)).file.start := by
  obtain ⟨h1, he1⟩ := @flag_spec c b tail (by omega)
  obtain ⟨h2, he2⟩ := @append_spec (c.flag (b :: tail)) (cString (b :: tail)) (by omega)
  have h := h1.trans h2
  have hend : (inputLine c (b :: tail)).file.end_.toNat =
      c.file.end_.toNat + flagLength c.file (b :: tail) + (cString (b :: tail)).length := by
    rw [← he1]
    exact he2
  have hext : Extends c (inputLine c (b :: tail)) := ⟨h.start_eq, h.end_le, h.writes, h.front⟩
  refine ⟨hext, hend, ?_⟩
  intro heq
  have hnat := congrArg UInt16.toNat heq
  rw [hext.start_eq, hend] at hnat
  have hempty : c.file.end_ = c.file.start := UInt16.toNat_inj.mp (by omega)
  have := @flagLength_add_cString_pos c.file b tail hempty
  omega

theorem flagLength_of_ne {f : File} (h : f.end_ ≠ f.start) (stdin : List UInt8) :
    flagLength f stdin = 0 := if_neg fun h' => h h'.1

/-- The file grows by the flag and the strings in the lines. -/
theorem extends_foldl_inputLine {lines : List (List UInt8)} {c : Input}
    (hne : ∀ line ∈ lines, line ≠ []) (hle : c.file.start.toNat ≤ c.file.end_.toNat)
    (hroom : c.file.end_.toNat + flagLength c.file (lines.headD []) +
      (lines.map fun line => (cString line).length).sum ≤ 32768) :
    Extends c (lines.foldl inputLine c) ∧
      (lines.foldl inputLine c).file.end_.toNat =
        c.file.end_.toNat + flagLength c.file (lines.headD []) +
          (lines.map fun line => (cString line).length).sum := by
  induction lines generalizing c with
  | nil =>
    have hflag : flagLength c.file [] = 0 := if_neg fun h => h.2 rfl
    refine ⟨Extends.refl c, ?_⟩
    rw [List.headD_nil, hflag]
    rfl
  | cons line lines ih =>
    obtain ⟨b, tail, rfl⟩ := List.exists_cons_of_ne_nil (hne line List.mem_cons_self)
    simp only [List.headD_cons, List.map_cons, List.sum_cons] at hroom ⊢
    obtain ⟨h1, he1, hne1⟩ := @inputLine_spec c b tail hle (by omega)
    have hzero := flagLength_of_ne hne1 (lines.headD [])
    obtain ⟨h2, he2⟩ := @ih (inputLine c (b :: tail))
      (fun l hl => hne l (List.mem_cons_of_mem _ hl))
      (by rw [h1.start_eq]; have := h1.end_le; omega) (by omega)
    refine ⟨h1.trans h2, ?_⟩
    rw [List.foldl_cons, he2]
    omega

theorem flagLength_linesRead (below : Nat → UInt8) (f : File) (stdin : List UInt8) :
    flagLength f ((linesRead below stdin.length stdin).headD []) = flagLength f stdin := by
  cases stdin with
  | nil => rfl
  | cons c cs =>
    obtain ⟨tail, lines, hlines⟩ := linesRead_head below c cs
    rw [hlines]
    rfl

/-- `input_datastream` without the last write, which stores the new end. -/
theorem inputLoop_spec (below : Nat → UInt8) (stdin : List UInt8) {fram : Fram} {f : File}
    (hle : f.start.toNat ≤ f.end_.toNat)
    (hroom : f.end_.toNat + flagLength f stdin + storedLength below stdin ≤ 32768) :
    Extends ⟨fram, f, 0, []⟩ (inputLoop below stdin.length stdin ⟨fram, f, 0, []⟩) ∧
      (inputLoop below stdin.length stdin ⟨fram, f, 0, []⟩).file.end_.toNat =
        f.end_.toNat + flagLength f stdin + storedLength below stdin := by
  rw [inputLoop_eq, ← flagLength_linesRead below f stdin] at *
  exact extends_foldl_inputLine (linesRead_ne_nil below _ stdin) hle hroom

end DistHuffman.Main
