/-
  Printing the input file. `output_datastream` gives `printf` the file in pieces of eight bytes.
  Together they are the contents of the file, the raw text flag included: `address` has moved on
  when it is compared with `f->start`, so the flag is never taken off (`outputDatastream_text`).
  And each piece is a format: from the first `'%'` of a piece on, what is printed is up to `printf`
  and to what lies on the stack, which `directive` leaves open.

  So a text that was read into an empty file is never printed as it was (`print_never_gives_text`).
-/
import DistHuffman.Main.Append
import DistHuffman.Main.Reads

namespace DistHuffman.Main

open DistHuffman.Lib

/-! ## `printf` -/

/-- `printf(fmt)`. What it makes of the format from the first `'%'` on is `directive`. -/
def printf (directive : List UInt8 → List UInt8) (fmt : List UInt8) : List UInt8 :=
  fmt.takeWhile (· ≠ 37) ++ if 37 ∈ fmt then directive (fmt.dropWhile (· ≠ 37)) else []

/-- The strings printed one after the other, from call `k` on. -/
def printAll (directive : Nat → List UInt8 → List UInt8) : Nat → List (List UInt8) → List UInt8
  | _, [] => []
  | k, s :: strings => printf (directive k) s ++ printAll directive (k + 1) strings

variable (directive : Nat → List UInt8 → List UInt8)

theorem takeWhile_append_of_not_mem {s : List UInt8} (h : 37 ∉ s) (t : List UInt8) :
    (s ++ t).takeWhile (· ≠ 37) = s ++ t.takeWhile (· ≠ 37) := by
  refine List.takeWhile_append_of_pos fun x hx => ?_
  simp only [ne_eq, decide_not, Bool.not_eq_true', decide_eq_false_iff_not]
  intro heq
  exact h (heq ▸ hx)

theorem printf_of_not_mem (d : List UInt8 → List UInt8) {s : List UInt8} (h : 37 ∉ s) :
    printf d s = s := by
  have htake := takeWhile_append_of_not_mem h []
  rw [List.append_nil, List.takeWhile_nil, List.append_nil] at htake
  rw [printf, htake, if_neg h, List.append_nil]

theorem printAll_of_not_mem {strings : List (List UInt8)} (h : 37 ∉ strings.flatten) (k : Nat) :
    printAll directive k strings = strings.flatten := by
  induction strings generalizing k with
  | nil => rfl
  | cons s strings ih =>
    rw [List.flatten_cons, List.mem_append, not_or] at h
    rw [printAll, printf_of_not_mem _ h.1, ih h.2, List.flatten_cons]

/-- Up to the first `'%'` the strings are printed as they are. -/
theorem takeWhile_prefix_printAll (strings : List (List UInt8)) (k : Nat) :
    strings.flatten.takeWhile (· ≠ 37) <+: printAll directive k strings := by
  induction strings generalizing k with
  | nil => exact List.nil_prefix
  | cons s strings ih =>
    rw [List.flatten_cons, printAll]
    by_cases h : 37 ∈ s
    · obtain ⟨front, back, rfl, hfront⟩ := List.eq_append_cons_of_mem h
      rw [printf, List.append_assoc, takeWhile_append_of_not_mem hfront, List.append_assoc,
        takeWhile_append_of_not_mem hfront, List.cons_append,
        List.takeWhile_cons_of_neg (by simp), List.takeWhile_cons_of_neg (by simp),
        List.append_nil]
      exact List.prefix_append _ _
    · rw [takeWhile_append_of_not_mem h, printf_of_not_mem _ h]
      exact (List.prefix_append_right_inj s).mpr (ih (k + 1))

/-- With a character in front of it that is not a `'%'`, a text is not printed as it is. -/
theorem printAll_cons_ne {c : UInt8} (hc : c ≠ 37) {s : List UInt8} {strings : List (List UInt8)}
    (h : strings.flatten = c :: s) (k : Nat) : printAll directive k strings ≠ s := by
  by_cases hmem : 37 ∈ s
  · obtain ⟨front, back, rfl, hfront⟩ := List.eq_append_cons_of_mem hmem
    have hcfront : 37 ∉ c :: front := by
      rw [List.mem_cons, not_or]
      exact ⟨hc.symm, hfront⟩
    intro heq
    -- what is printed in front of the `'%'` is one character too long
    have hprefix := takeWhile_prefix_printAll directive strings k
    rw [h, ← List.cons_append, takeWhile_append_of_not_mem hcfront,
      List.takeWhile_cons_of_neg (by simp), List.append_nil, heq] at hprefix
    have hshort : front ++ [37] <+: front ++ 37 :: back := by
      rw [show front ++ 37 :: back = (front ++ [37]) ++ back by simp]
      exact List.prefix_append _ _
    have hsame : c :: front = front ++ [37] :=
      (List.prefix_of_prefix_length_le hprefix hshort (by simp)).eq_of_length (by simp)
    exact hcfront (hsame ▸ List.mem_append_right _ List.mem_cons_self)
  · rw [printAll_of_not_mem directive (by rw [h, List.mem_cons, not_or]; exact ⟨hc.symm, hmem⟩), h]
    exact List.cons_ne_self c s

/-! ## The pieces -/

/-- The pieces given to `printf` make up the file from `address` on, if it has no zero byte. -/
theorem outputLoop_text {fram : Fram} {f : File} {fuel : Nat} {address : UInt16}
    (hstart : f.start.toNat ≤ address.toNat) (hend : f.end_.toNat ≤ 65528)
    (hfuel : f.end_.toNat - address.toNat + 8 ≤ 8 * fuel)
    (h0 : ∀ b ∈ fram.read address (f.end_.toNat - address.toNat), b ≠ 0) :
    ∃ strings, outputLoop fram f fuel address = some strings ∧
      strings.flatten = fram.read address (f.end_.toNat - address.toNat) := by
  induction fuel generalizing address with
  | zero => omega
  | succ fuel ih =>
    by_cases hlt : address < f.end_
    · have hlt' := UInt16.lt_iff_toNat_lt.mp hlt
      have hnext : (address + 8).toNat = address.toNat + 8 := by
        rw [toNat_add_eight]
        omega
      have hflag : address + 8 ≠ f.start := by
        intro heq
        have := congrArg UInt16.toNat heq
        omega
      have hsize : (if f.end_ - address > 8 then 8 else f.end_ - address).toNat =
          min 8 (f.end_.toNat - address.toNat) := toNat_readSize hlt'
      -- the piece and the rest of the file
      have hsplit : fram.read address (f.end_.toNat - address.toNat) =
          fram.read address (min 8 (f.end_.toNat - address.toNat)) ++
            fram.read (address + 8) (f.end_.toNat - (address + 8).toNat) := by
        by_cases h8 : 8 ≤ f.end_.toNat - address.toNat
        · rw [Nat.min_eq_left h8, hnext,
            show f.end_.toNat - address.toNat = 8 + (f.end_.toNat - (address.toNat + 8)) by omega,
            read_add]
          rfl
        · rw [Nat.min_eq_right (by omega), hnext,
            show f.end_.toNat - (address.toNat + 8) = 0 by omega]
          exact (List.append_nil _).symm
      rw [hsplit] at h0 ⊢
      obtain ⟨strings, hrest, hflat⟩ := ih (by omega) (by omega)
        fun b hb => h0 b (List.mem_append_right _ hb)
      have hpiece : cString (fram.read address (min 8 (f.end_.toNat - address.toNat))) =
          fram.read address (min 8 (f.end_.toNat - address.toNat)) := by
        refine List.takeWhile_eq_self_iff.mpr fun b hb => ?_
        simpa using h0 b (List.mem_append_left _ hb)
      refine ⟨fram.read address (min 8 (f.end_.toNat - address.toNat)) :: strings, ?_, ?_⟩
      · rw [outputLoop, if_pos hlt]
        simp only [hsize, hrest, hflag, false_and, if_false, hpiece]
        rfl
      · rw [List.flatten_cons, hflat]
    · have hge := mt UInt16.lt_iff_toNat_lt.mpr hlt
      refine ⟨[], by rw [outputLoop, if_neg hlt], ?_⟩
      rw [show f.end_.toNat - address.toNat = 0 by omega]
      rfl

theorem outputDatastream_text {fram : Fram} {f : File} (hle : f.start.toNat ≤ f.end_.toNat)
    (hend : f.end_.toNat ≤ 65528) (h0 : ∀ b ∈ contents fram f, b ≠ 0) :
    ∃ strings, outputDatastream fram f = some (strings, f.end_ - f.start) ∧
      strings.flatten = contents fram f := by
  have hlen : (f.end_ - f.start).toNat = f.end_.toNat - f.start.toNat :=
    UInt16.toNat_sub_of_le _ _ (UInt16.le_iff_toNat_le.mpr hle)
  unfold contents at h0 ⊢
  rw [hlen] at h0 ⊢
  obtain ⟨strings, hloop, hflat⟩ := @outputLoop_text fram f 8193 f.start (Nat.le_refl _) hend
    (by omega) h0
  refine ⟨strings, ?_, hflat⟩
  rw [outputDatastream, hloop]
  rfl

/-! ## A text that was read in -/

/-- A text read into an empty file is not printed as it was, whatever `printf` makes of a `'%'`:
    without one it is printed behind the raw text flag. -/
theorem print_never_gives_text (below : Nat → UInt8) (s : List UInt8) (fram : Fram) (f : File)
    (h8 : 8 ≤ f.start.toNat) (hempty : f.end_ = f.start) (hne : s ≠ []) (h0 : ∀ c ∈ s, c ≠ 0)
    (hhash : s.head? ≠ some 35) (hroom : f.start.toNat + 1 + s.length ≤ 32768) :
    ∃ strings size, outputDatastream (inputDatastream below s fram f).fram
        (inputDatastream below s fram f).file = some (strings, size) ∧
      printAll directive 0 strings ≠ s ∧
      (37 ∉ s → printAll directive 0 strings = 42 :: s) := by
  obtain ⟨hfile, hcontents, -⟩ := @inputDatastream_spec below s fram f h8
    (by rw [hempty]) h0 (by rw [hempty]; exact hroom)
  have hflag : flagBytes f s = [42] := by rw [flagBytes_eq, if_pos ⟨hempty, hne, hhash⟩]
  have hold : contents fram f = [] := by
    unfold contents
    rw [hempty, UInt16.sub_self]
    rfl
  rw [hold, hflag, List.nil_append, List.singleton_append] at hcontents
  have hend : (inputDatastream below s fram f).file.end_.toNat = f.start.toNat + 1 + s.length := by
    rw [hfile, hflag, hempty, UInt16.toNat_add, List.singleton_append, List.length_cons,
      toNat_ofNat_word (by omega)]
    omega
  have hstart : (inputDatastream below s fram f).file.start = f.start := by rw [hfile]
  obtain ⟨strings, hprint, hflat⟩ := @outputDatastream_text (inputDatastream below s fram f).fram
    (inputDatastream below s fram f).file (by rw [hstart, hend]; omega) (by omega)
    (by
      rw [hcontents]
      intro b hb
      rcases List.mem_cons.mp hb with rfl | hb
      · decide
      · exact h0 b hb)
  rw [hcontents] at hflat
  refine ⟨strings, _, hprint, printAll_cons_ne directive (by decide) hflat 0, fun h37 => ?_⟩
  rw [← hflat]
  refine printAll_of_not_mem directive ?_ 0
  rw [hflat, List.mem_cons, not_or]
  exact ⟨by decide, h37⟩

theorem print_never_gives_Hi :
    ∃ strings size, outputDatastream
        (inputDatastream (fun _ => 0) [72, 105] (fun _ => 0) ⟨8, 8⟩).fram
        (inputDatastream (fun _ => 0) [72, 105] (fun _ => 0) ⟨8, 8⟩).file = some (strings, size) ∧
      printAll (fun _ _ => []) 0 strings ≠ [72, 105] := by
  obtain ⟨strings, size, hprint, hne, -⟩ := print_never_gives_text (fun _ _ => []) (fun _ => 0)
    [72, 105] (fun _ => 0) ⟨8, 8⟩ (by decide) rfl (by simp) (by simp) (by simp) (by decide)
  exact ⟨strings, size, hprint, hne⟩

/-- `"Hi"` is printed as `"*Hi"`. -/
theorem print_keeps_flag :
    (outputDatastream (inputDatastream (fun _ => 0) [72, 105] (fun _ => 0) ⟨8, 8⟩).fram
        (inputDatastream (fun _ => 0) [72, 105] (fun _ => 0) ⟨8, 8⟩).file).map
      (fun printed => printAll (fun _ _ => []) 0 printed.1) = some [42, 72, 105] := by
  decide +kernel

end DistHuffman.Main
