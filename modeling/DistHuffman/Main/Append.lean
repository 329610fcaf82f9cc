/-
  What `input_datastream` leaves in the FRAM. Each of its writes starts where the one before ended,
  so a whole run is one write behind the old end (`Appended`): the raw text flag, if the file was
  empty, and the lines. Cutting a text into lines loses nothing (`linesRead_flatten`), so the file
  is its old contents followed by the text (`input_appends`).
-/
import DistHuffman.Main.Extents

namespace DistHuffman.Main

open DistHuffman.Lib

/-! ## Intervals of the FRAM -/

theorem write_nil (f : Fram) (address : UInt16) : f.write address [] = f := rfl

/-- Two writes, the second where the first ended. -/
theorem write_write (f : Fram) (address : UInt16) (xs ys : List UInt8)
    (h : xs.length + ys.length ≤ 65536) :
    (f.write address xs).write (address + UInt16.ofNat xs.length) ys =
      f.write address (xs ++ ys) := by
  funext a
  have hlt := (a - address).toNat_lt
  by_cases hxs : xs.length < 65536
  · have hsub : (a - (address + UInt16.ofNat xs.length)).toNat =
        ((a - address).toNat + (65536 - xs.length)) % 65536 := by
      have := address.toNat_lt
      rw [UInt16.toNat_sub, UInt16.toNat_sub, UInt16.toNat_add, toNat_ofNat_word hxs]
      omega
    unfold Fram.write
    rw [hsub]
    by_cases hk : (a - address).toNat < xs.length
    · rw [List.getD_append _ _ _ _ hk, List.getD_eq_default ys _ (by omega)]
    · rw [List.getD_append_right _ _ _ _ (by omega), List.getD_eq_default xs _ (by omega),
        show ((a - address).toNat + (65536 - xs.length)) % 65536 =
          (a - address).toNat - xs.length by omega]
  · obtain rfl : ys = [] := List.length_eq_zero_iff.mp (by omega)
    rw [List.append_nil, write_nil]

theorem read_length (f : Fram) (address : UInt16) (n : Nat) : (f.read address n).length = n := by
  simp [Fram.read]

theorem read_add (f : Fram) (address : UInt16) (m n : Nat) :
    f.read address (m + n) = f.read address m ++ f.read (address + UInt16.ofNat m) n := by
  unfold Fram.read
  rw [List.range_add, List.map_append, List.map_map]
  refine congrArg₂ List.append rfl (List.map_congr_left fun i _ => ?_)
  rw [Function.comp_apply, UInt16.ofNat_add, UInt16.add_assoc]

theorem read_congr {f g : Fram} {address : UInt16} {n : Nat}
    (h : ∀ i < n, f (address + UInt16.ofNat i) = g (address + UInt16.ofNat i)) :
    f.read address n = g.read address n :=
  List.map_congr_left fun i hi => h i (List.mem_range.mp hi)

theorem read_write_self (f : Fram) (address : UInt16) {bytes : List UInt8}
    (h : bytes.length ≤ 65536) : (f.write address bytes).read address bytes.length = bytes := by
  refine List.ext_getElem (read_length _ _ _) fun i h1 h2 => ?_
  have hsub : (address + UInt16.ofNat i - address).toNat = i := by
    have := address.toNat_lt
    rw [UInt16.toNat_sub, UInt16.toNat_add, toNat_ofNat_word (by omega)]
    omega
  simp only [Fram.read, List.getElem_map, List.getElem_range, Fram.write, hsub]
  exact List.getD_eq_getElem _ _ h2

/-- The bytes of a file. -/
def contents (fram : Fram) (f : File) : List UInt8 := fram.read f.start (f.end_ - f.start).toNat

/-! ## One write -/

/-- `d` comes from `c` by a write of `bytes` behind the end of the file. -/
structure Appended (c d : Input) (bytes : List UInt8) : Prop where
  start_eq : d.file.start = c.file.start
  end_eq : d.file.end_ = c.file.end_ + UInt16.ofNat bytes.length
  fram_eq : d.fram = c.fram.write c.file.end_ bytes

theorem Appended.refl (c : Input) : Appended c c [] := ⟨rfl, (UInt16.add_zero _).symm, rfl⟩

theorem Appended.trans {c d e : Input} {xs ys : List UInt8} (h : Appended c d xs)
    (h' : Appended d e ys) (hlen : xs.length + ys.length ≤ 65536) : Appended c e (xs ++ ys) where
  start_eq := h'.start_eq.trans h.start_eq
  end_eq := by
    rw [h'.end_eq, h.end_eq, List.length_append, UInt16.ofNat_add, UInt16.add_assoc]
  fram_eq := by
    rw [h'.fram_eq, h.fram_eq, h.end_eq, write_write _ _ _ _ hlen]

theorem appended_append (c : Input) (bytes : List UInt8) : Appended c (c.append bytes) bytes :=
  ⟨rfl, rfl, rfl⟩

/-- The raw text flag, for a stream that starts a file and does not begin with `'#'`. -/
def flagBytes (f : File) (stdin : List UInt8) : List UInt8 :=
  if f.end_ = f.start ∧ stdin.headD 35 ≠ 35 then [42] else []

theorem flagBytes_length (f : File) (stdin : List UInt8) :
    (flagBytes f stdin).length = flagLength f stdin := by
  unfold flagBytes flagLength
  split <;> rfl

theorem flagBytes_append_length (f : File) (s : List UInt8) :
    (flagBytes f s ++ s).length ≤ 1 + s.length := by
  rw [List.length_append]
  refine Nat.add_le_add_right ?_ _
  unfold flagBytes
  split <;> simp

theorem appended_flag (c : Input) (b : UInt8) (tail : List UInt8) :
    Appended c (c.flag (b :: tail)) (flagBytes c.file (b :: tail)) := by
  unfold Input.flag flagBytes
  rw [List.headD_cons, List.headD_cons]
  by_cases hflag : c.file.end_ = c.file.start ∧ b ≠ 35
  · rw [if_pos hflag, if_pos hflag]
    exact appended_append c [42]
  · rw [if_neg hflag, if_neg hflag]
    exact Appended.refl c

theorem appended_inputLine {c : Input} {b : UInt8} {tail : List UInt8}
    (hlen : (flagBytes c.file (b :: tail)).length + (cString (b :: tail)).length ≤ 65536) :
    Appended c (inputLine c (b :: tail)) (flagBytes c.file (b :: tail) ++ cString (b :: tail)) := by
  have h := (appended_flag c b tail).trans (appended_append _ (cString (b :: tail))) hlen
  exact ⟨h.start_eq, h.end_eq, h.fram_eq⟩

/-- The lines of a stream go behind the end of the file in one piece, with at most one flag. -/
theorem appended_foldl_inputLine {lines : List (List UInt8)} {c : Input}
    (hne : ∀ line ∈ lines, line ≠ []) (hle : c.file.start.toNat ≤ c.file.end_.toNat)
    (hroom : c.file.end_.toNat + flagLength c.file (lines.headD []) +
      (lines.map cString).flatten.length ≤ 32768) :
    Appended c (lines.foldl inputLine c)
      (flagBytes c.file (lines.headD []) ++ (lines.map cString).flatten) := by
  induction lines generalizing c with
  | nil =>
    have hflag : flagBytes c.file [] = [] := if_neg fun h => h.2 rfl
    rw [List.headD_nil, hflag]
    exact Appended.refl c
  | cons line lines ih =>
    obtain ⟨b, tail, rfl⟩ := List.exists_cons_of_ne_nil (hne line List.mem_cons_self)
    simp only [List.headD_cons, List.map_cons, List.flatten_cons, List.length_append] at hroom ⊢
    obtain ⟨hext, hend, hne1⟩ := @inputLine_spec c b tail hle (by omega)
    have hflag := flagBytes_length c.file (b :: tail)
    -- the file is not empty any more
    have hzero := flagLength_of_ne hne1 (lines.headD [])
    have hnone : flagBytes (inputLine c (b :: tail)).file (lines.headD []) = [] := by
      rw [← List.length_eq_zero_iff, flagBytes_length, hzero]
    have h1 := @appended_inputLine c b tail (by omega)
    have h2 := @ih (inputLine c (b :: tail)) (fun l hl => hne l (List.mem_cons_of_mem _ hl))
      (by rw [hext.start_eq]; have := hext.end_le; omega) (by omega)
    rw [hnone, List.nil_append] at h2
    have h := h1.trans h2 (by rw [List.length_append]; omega)
    rwa [List.append_assoc] at h

/-- The loop on a text without zero bytes. -/
theorem appended_inputLoop (below : Nat → UInt8) {stdin : List UInt8} {fram : Fram} {f : File}
    (hle : f.start.toNat ≤ f.end_.toNat) (h0 : ∀ c ∈ stdin, c ≠ 0)
    (hroom : f.end_.toNat + flagLength f stdin + stdin.length ≤ 32768) :
    Appended ⟨fram, f, 0, []⟩ (inputLoop below stdin.length stdin ⟨fram, f, 0, []⟩)
      (flagBytes f stdin ++ stdin) := by
  have hflat := linesRead_flatten below (Nat.le_refl _) h0
  have hhead := flagLength_linesRead below f stdin
  have hflag : flagBytes f ((linesRead below stdin.length stdin).headD []) =
      flagBytes f stdin := by
    cases stdin with
    | nil => rfl
    | cons c cs =>
      obtain ⟨tail, lines, hlines⟩ := linesRead_head below c cs
      rw [hlines]
      rfl
  have h := @appended_foldl_inputLine (linesRead below stdin.length stdin) ⟨fram, f, 0, []⟩
    (linesRead_ne_nil below _ stdin) hle (by rw [hflat, hhead]; exact hroom)
  rw [hflat] at h
  rw [inputLoop_eq, ← hflag]
  exact h

/-! ## The file -/

/-- A file after an append that does not wrap. -/
theorem contents_append {fram : Fram} {f : File} {bytes : List UInt8}
    (hle : f.start.toNat ≤ f.end_.toNat) (hroom : f.end_.toNat + bytes.length < 65536) :
    contents (fram.write f.end_ bytes) ⟨f.start, f.end_ + UInt16.ofNat bytes.length⟩ =
      contents fram f ++ bytes := by
  have hold : (f.end_ - f.start).toNat = f.end_.toNat - f.start.toNat := by
    rw [UInt16.toNat_sub_of_le _ _ (UInt16.le_iff_toNat_le.mpr hle)]
  have hnew : (f.end_ + UInt16.ofNat bytes.length - f.start).toNat =
      (f.end_ - f.start).toNat + bytes.length := by
    have := f.start.toNat_lt
    rw [hold, UInt16.toNat_sub, UInt16.toNat_add, toNat_ofNat_word (by omega)]
    omega
  have hend : f.start + UInt16.ofNat (f.end_ - f.start).toNat = f.end_ := by
    rw [UInt16.ofNat_toNat, UInt16.add_comm, UInt16.sub_add_cancel]
  unfold contents
  dsimp only
  rw [hnew, read_add, hend, read_write_self _ _ (by omega)]
  refine congrArg (· ++ bytes) (read_congr fun i hi => ?_)
  refine write_of_lt ?_ (by omega)
  rw [UInt16.toNat_add, toNat_ofNat_word (by omega)]
  omega

theorem flagBytes_eq (f : File) (s : List UInt8) :
    flagBytes f s = if f.end_ = f.start ∧ s ≠ [] ∧ s.head? ≠ some 35 then [42] else [] := by
  unfold flagBytes
  refine if_congr (and_congr_right fun _ => ?_) rfl rfl
  cases s with
  | nil => simp
  | cons c cs => simp

/-- The metadata write at 2 and 3. -/
theorem write_end_of_ge {f : Fram} {a : UInt16} (w : UInt16) (h : a.toNat < 2 ∨ 4 ≤ a.toNat) :
    f.write 2 (littleEndian w) a = f a := by
  refine write_of_not_lt ?_
  have := a.toNat_lt
  rw [UInt16.toNat_sub]
  simp only [littleEndian, List.length_cons, List.length_nil, UInt16.reduceToNat]
  omega

/-- The file table and the FRAM after `input_datastream` has read in a text without zero bytes. -/
theorem inputDatastream_spec (below : Nat → UInt8) {s : List UInt8} {fram : Fram} {f : File}
    (h8 : 8 ≤ f.start.toNat) (hle : f.start.toNat ≤ f.end_.toNat) (h0 : ∀ c ∈ s, c ≠ 0)
    (hroom : f.end_.toNat + 1 + s.length ≤ 32768) :
    (inputDatastream below s fram f).file =
        ⟨f.start, f.end_ + UInt16.ofNat (flagBytes f s ++ s).length⟩ ∧
      contents (inputDatastream below s fram f).fram (inputDatastream below s fram f).file =
        contents fram f ++ (flagBytes f s ++ s) ∧
      (inputDatastream below s fram f).fram =
        (fram.write f.end_ (flagBytes f s ++ s)).write 2
          (littleEndian (inputDatastream below s fram f).file.end_) := by
  have hlen := flagBytes_append_length f s
  have happ := @appended_inputLoop below s fram f hle h0 (by
    rw [← flagBytes_length, Nat.add_assoc, ← List.length_append]
    omega)
  generalize flagBytes f s ++ s = added at happ hlen
  unfold inputDatastream
  generalize inputLoop below s.length s ⟨fram, f, 0, []⟩ = c at happ
  obtain ⟨hstart, hend, hfram⟩ := happ
  dsimp only [Input.writeFram] at hstart hend hfram ⊢
  have hfile : c.file = ⟨f.start, f.end_ + UInt16.ofNat added.length⟩ := by
    rw [← hstart, ← hend]
  refine ⟨hfile, ?_, by rw [hfram]⟩
  -- the file lies behind the metadata
  have hmeta : contents (c.fram.write 2 (littleEndian c.file.end_)) c.file =
      contents c.fram c.file := by
    have htoNat : c.file.end_.toNat = f.end_.toNat + added.length := by
      rw [hend, UInt16.toNat_add, toNat_ofNat_word (by omega)]
      omega
    refine read_congr fun i hi => write_end_of_ge _ (Or.inr ?_)
    rw [UInt16.toNat_sub_of_le _ _ (by rw [UInt16.le_iff_toNat_le, hstart]; omega), hstart] at hi
    rw [hstart, UInt16.toNat_add, toNat_ofNat_word (by omega)]
    omega
  rw [hmeta, hfram, hfile, contents_append hle (by omega)]

/-- Reading in a text without zero bytes appends it to the file, behind the raw text flag where
    there is one, and stores the new end. Nothing else changes. -/
theorem input_appends (below : Nat → UInt8) (s : List UInt8) (fram : Fram) (f : File)
    (h8 : 8 ≤ f.start.toNat) (hle : f.start.toNat ≤ f.end_.toNat) (h0 : ∀ c ∈ s, c ≠ 0)
    (hroom : f.end_.toNat + 1 + s.length ≤ 16004) :
    (inputDatastream below s fram f).file.start = f.start ∧
      contents (inputDatastream below s fram f).fram (inputDatastream below s fram f).file =
        contents fram f ++
          ((if f.end_ = f.start ∧ s ≠ [] ∧ s.head? ≠ some 35 then [42] else []) ++ s) ∧
      wordAt (inputDatastream below s fram f).fram 2 = (inputDatastream below s fram f).file.end_ ∧
      ∀ a : UInt16, (a.toNat < f.end_.toNat ∨
          (inputDatastream below s fram f).file.end_.toNat ≤ a.toNat) → a ≠ 2 → a ≠ 3 →
        (inputDatastream below s fram f).fram a = fram a := by
  obtain ⟨hfile, hcontents, hfram⟩ := @inputDatastream_spec below s fram f h8 hle h0 (by omega)
  have hlen := flagBytes_append_length f s
  refine ⟨by rw [hfile], by rw [hcontents, flagBytes_eq], ?_, fun a ha h2 h3 => ?_⟩
  · rw [hfram]
    exact join_bytes _
  · have h2' : a.toNat ≠ 2 := fun h => h2 (UInt16.toNat_inj.mp h)
    have h3' : a.toNat ≠ 3 := fun h => h3 (UInt16.toNat_inj.mp h)
    rw [hfram, write_end_of_ge _ (by omega)]
    rcases ha with ha | ha
    · exact write_of_lt ha (by omega)
    · rw [hfile, UInt16.toNat_add, toNat_ofNat_word (by omega)] at ha
      refine write_of_not_lt ?_
      rw [UInt16.toNat_sub_of_le _ _ (by rw [UInt16.le_iff_toNat_le]; omega)]
      omega

/-- `"Hi"` read into an empty file. -/
theorem input_appends_Hi :
    contents (inputDatastream (fun _ => 0) [72, 105] (fun _ => 0) ⟨8, 8⟩).fram
        (inputDatastream (fun _ => 0) [72, 105] (fun _ => 0) ⟨8, 8⟩).file = [42, 72, 105] := by
  have h := input_appends (fun _ => 0) [72, 105] (fun _ => 0) ⟨8, 8⟩ (by decide) (by decide)
    (by simp) (by decide)
  rw [h.2.1]
  decide

end DistHuffman.Main
