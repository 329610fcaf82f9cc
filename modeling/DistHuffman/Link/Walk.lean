/-
  Link: `inflate_data` on any tree. A character is a walk down the tree, one bit a step, until a
  child is missing or carries a byte (`walk`); the root's own byte is not looked at. A walk takes at
  least one bit and at most one for each level of the tree.

  `inflateTrace` is the loop with a record of each round. On the bits of the payload it is a run
  over complete walks (`inflateTrace_eq`): it stops when `total_bits` are read or `buff_index` has
  reached `data_size`, and leaves the payload if no complete walk is left before that.

  With it the loop always ends, its counters do not wrap, and it writes no more characters than
  there are bits to read (`inflate_data_ends`).
-/
import DistHuffman.Link.RoundTrip

namespace DistHuffman.Link

open DistHuffman.Lib DistHuffman.Codec

/-! ## One walk -/

/-- The child that a bit chooses. -/
def child : Node → Bool → Node
  | .null, _ => .null
  | .mk l r _ _, b => if b then r else l

/-- `deserialize_next_char` on a list of bits: the character and the number of bits read. `none` if
    the bits run out. -/
def walk : List Bool → Node → Option (UInt8 × Nat)
  | [], _ => none
  | b :: bits, n =>
      if child n b = .null then some (63, 1)
      else if (child n b).byte ≠ 0 then some ((child n b).byte, 1)
      else (walk bits (child n b)).map fun r => (r.1, r.2 + 1)

/-- Levels of a tree: a root alone has one, so a tree of depth `d` has `d + 1`. -/
def levels : Node → Nat
  | .null => 0
  | .mk l r _ _ => max (levels l) (levels r) + 1

theorem levels_child {n : Node} (b : Bool) (hn : n ≠ .null) : levels (child n b) < levels n := by
  cases n with
  | null => exact absurd rfl hn
  | mk l r w c =>
    simp only [child, levels]
    split <;> omega

theorem walk_length {bits : List Bool} {n : Node} {r : UInt8 × Nat} (hn : n ≠ .null)
    (h : walk bits n = some r) : 1 ≤ r.2 ∧ r.2 ≤ bits.length ∧ r.2 ≤ levels n := by
  induction bits generalizing n r with
  | nil => cases h
  | cons b bits ih =>
    have hlevels := levels_child b hn
    unfold walk at h
    by_cases hnull : child n b = .null
    · rw [if_pos hnull] at h
      cases h
      simp only [List.length_cons]
      omega
    · rw [if_neg hnull] at h
      by_cases hbyte : (child n b).byte ≠ 0
      · rw [if_pos hbyte] at h
        cases h
        simp only [List.length_cons]
        omega
      · rw [if_neg hbyte] at h
        obtain ⟨r', hr', rfl⟩ := Option.map_eq_some_iff.mp h
        have := ih hnull hr'
        simp only [List.length_cons]
        omega

/-- Only a lack of bits keeps a walk from ending. -/
theorem walk_ne_none {bits : List Bool} {n : Node} (hn : n ≠ .null) (h : levels n ≤ bits.length) :
    walk bits n ≠ none := by
  induction bits generalizing n with
  | nil =>
    have := levels_child true hn
    simp only [List.length_nil] at h
    omega
  | cons b bits ih =>
    have hlevels := levels_child b hn
    simp only [List.length_cons] at h
    unfold walk
    by_cases hnull : child n b = .null
    · simp [hnull]
    · rw [if_neg hnull]
      split
      · exact Option.some_ne_none _
      · rw [Ne, Option.map_eq_none_iff]
        exact ih hnull (by omega)

/-! ## Walks in a buffer -/

/-- The bits of a buffer from `pos` on. -/
def bitsFrom (buff : List UInt8) (pos : Nat) : List Bool :=
  (List.range (8 * buff.length - pos)).map fun j => bitAt buff (pos + j)

theorem bitsFrom_length (buff : List UInt8) (pos : Nat) :
    (bitsFrom buff pos).length = 8 * buff.length - pos := by
  simp [bitsFrom]

theorem bitsFrom_cons {buff : List UInt8} {pos : Nat} (h : pos < 8 * buff.length) :
    bitsFrom buff pos = bitAt buff pos :: bitsFrom buff (pos + 1) := by
  unfold bitsFrom
  rw [show 8 * buff.length - pos = (8 * buff.length - (pos + 1)) + 1 by omega,
    List.range_succ_eq_map, List.map_cons, List.map_map]
  refine congrArg₂ List.cons rfl (List.map_congr_left fun j _ => ?_)
  simp only [Function.comp_apply, Nat.succ_eq_add_one]
  rw [show pos + (j + 1) = pos + 1 + j by omega]

theorem bitsFrom_nil {buff : List UInt8} {pos : Nat} (h : 8 * buff.length ≤ pos) :
    bitsFrom buff pos = [] := by
  rw [bitsFrom, Nat.sub_eq_zero_of_le h]
  rfl

theorem bitsFrom_drop (buff : List UInt8) (pos m : Nat) :
    (bitsFrom buff pos).drop m = bitsFrom buff (pos + m) := by
  refine List.ext_getElem ?_ fun i h1 h2 => ?_
  · simp only [List.length_drop, bitsFrom_length]
    omega
  · simp only [bitsFrom, List.getElem_drop, List.getElem_map, List.getElem_range]
    rw [Nat.add_assoc]

theorem bitstreamReadBit_end {buff : List UInt8} {pos : Nat} (h : 8 * buff.length ≤ pos)
    (hi : pos / 8 < 65536) : bitstreamReadBit (streamAt buff pos) = .error .bounds := by
  have hload : load buff (pos / 8) = .error .bounds := by
    unfold load
    rw [List.getElem?_eq_none (by omega)]
  unfold bitstreamReadBit
  rw [streamAt_buffIndex hi, show (streamAt buff pos).buff = buff from rfl, hload]
  rfl

/-- One step of the walk, for a bit that has been read. -/
theorem deserializeNextChar_of_bit {l r : Node} {w : UInt16} {c : UInt8} {s s' : Bitstream}
    {bit : Bool} (h : bitstreamReadBit s = .ok (bit.toUInt8, s')) (k : UInt8) :
    deserializeNextChar (.mk l r w c) s k =
      if child (.mk l r w c) bit = .null then .ok (63, s', k + 1)
      else if (child (.mk l r w c) bit).byte ≠ 0 then
        .ok ((child (.mk l r w c) bit).byte, s', k + 1)
      else deserializeNextChar (child (.mk l r w c) bit) s' (k + 1) := by
  rw [deserializeNextChar, h, ok_bind]
  cases bit with
  | false => rfl
  | true => rfl

/-- `deserialize_next_char` is a walk on the bits that follow. -/
theorem deserializeNextChar_eq (n : Node) (hn : n ≠ .null) {buff : List UInt8} {pos : Nat}
    (hword : pos + levels n ≤ 8 * 65536) (hpos : pos ≤ 8 * buff.length) (k : UInt8) :
    deserializeNextChar n (streamAt buff pos) k =
      (walk (bitsFrom buff pos) n).elim (.error .bounds) fun r =>
        .ok (r.1, streamAt buff (pos + r.2), k + UInt8.ofNat r.2) := by
  induction n generalizing pos k with
  | null => exact absurd rfl hn
  | mk l r w c ihl ihr =>
    rw [levels] at hword
    by_cases hend : pos < 8 * buff.length
    · rw [deserializeNextChar_of_bit (bitstreamReadBit_refines hend (by omega)) k,
        bitsFrom_cons hend, walk]
      have ih : child (.mk l r w c) (bitAt buff pos) ≠ .null →
          deserializeNextChar (child (.mk l r w c) (bitAt buff pos)) (streamAt buff (pos + 1))
              (k + 1) =
            (walk (bitsFrom buff (pos + 1)) (child (.mk l r w c) (bitAt buff pos))).elim
              (.error .bounds) fun r =>
                .ok (r.1, streamAt buff (pos + 1 + r.2), k + 1 + UInt8.ofNat r.2) := by
        intro hne
        cases hbit : bitAt buff pos with
        | false =>
          rw [hbit] at hne
          exact ihl hne (by omega) hend (k + 1)
        | true =>
          rw [hbit] at hne
          exact ihr hne (by omega) hend (k + 1)
      split
      · rfl
      · next hne =>
        split
        · rfl
        · rw [ih hne]
          cases walk (bitsFrom buff (pos + 1)) (child (.mk l r w c) (bitAt buff pos)) with
          | none => rfl
          | some r =>
            simp only [Option.map_some, Option.elim_some]
            rw [Nat.add_comm r.2 1, UInt8.ofNat_add, ← Nat.add_assoc, ← UInt8.add_assoc]
            rfl
    · rw [bitsFrom_nil (by omega), deserializeNextChar, bitstreamReadBit_end (by omega) (by omega)]
      rfl

/-! ## The loop -/

/-- The loop of `inflate_data` without its writes: `(next_char, num_bits_read)` of each round, and
    `bits_read` and the stream at the end. -/
def inflateTrace (tree : Node) (dataSize totalBits : UInt16) :
    Nat → UInt16 → Bitstream → Except Fault (List (UInt8 × UInt8) × UInt16 × Bitstream)
  | 0, _, _ => .error .bounds
  | fuel + 1, bitsRead, s =>
      if bitsRead < totalBits ∧ s.buffIndex < dataSize then do
        let c ← deserializeNextChar tree s 0
        let t ← inflateTrace tree dataSize totalBits fuel (bitsRead + c.2.2.toUInt16) c.2.1
        return ((c.1, c.2.2) :: t.1, t.2)
      else .ok ([], bitsRead, s)

theorem inflateTrace_succ (tree : Node) (dataSize totalBits : UInt16) (fuel : Nat)
    (bitsRead : UInt16) (s : Bitstream) :
    inflateTrace tree dataSize totalBits (fuel + 1) bitsRead s =
      if bitsRead < totalBits ∧ s.buffIndex < dataSize then
        deserializeNextChar tree s 0 >>= fun c =>
          inflateTrace tree dataSize totalBits fuel (bitsRead + c.2.2.toUInt16) c.2.1 >>= fun t =>
            .ok ((c.1, c.2.2) :: t.1, t.2)
      else .ok ([], bitsRead, s) := rfl

theorem inflateLoop_succ (tree : Node) (dataSize totalBits : UInt16) (fuel : Nat)
    (bitsRead : UInt16) (s : Bitstream) (out : List UInt8 × Nat) :
    inflateLoop tree dataSize totalBits (fuel + 1) bitsRead s out =
      if bitsRead < totalBits ∧ s.buffIndex < dataSize then
        deserializeNextChar tree s 0 >>= fun c => putByte out c.1 >>= fun out =>
          inflateLoop tree dataSize totalBits fuel (bitsRead + c.2.2.toUInt16) c.2.1 out
      else .ok out := rfl

/-- The complete walks in a list of bits, one after the other. A walk takes a bit, so the number of
    bits is enough for `fuel`. -/
def walks (n : Node) : Nat → List Bool → List (UInt8 × Nat)
  | 0, _ => []
  | fuel + 1, bits => (walk bits n).elim [] fun r => r :: walks n fuel (bits.drop r.2)

/-- Number of bits in a list of walks. -/
def walkBits (ws : List (UInt8 × Nat)) : Nat := (ws.map Prod.snd).sum

@[simp] theorem walkBits_nil : walkBits [] = 0 := rfl

@[simp] theorem walkBits_cons (r : UInt8 × Nat) (ws : List (UInt8 × Nat)) :
    walkBits (r :: ws) = r.2 + walkBits ws := rfl

/-- The walks that the loop makes from bit `pos` on. `none` if it needs one that is not there. -/
def takeWalks (dataSize totalBits : Nat) : Nat → List (UInt8 × Nat) → Option (List (UInt8 × Nat))
  | pos, [] => if pos < totalBits ∧ pos / 8 < dataSize then none else some []
  | pos, r :: ws =>
      if pos < totalBits ∧ pos / 8 < dataSize then
        (takeWalks dataSize totalBits (pos + r.2) ws).map (r :: ·)
      else some []

theorem takeWalks_stop {dataSize totalBits pos : Nat} (h : ¬ (pos < totalBits ∧ pos / 8 < dataSize))
    (ws : List (UInt8 × Nat)) : takeWalks dataSize totalBits pos ws = some [] := by
  cases ws with
  | nil => rw [takeWalks, if_neg h]
  | cons r ws => rw [takeWalks, if_neg h]

theorem eq_nil_of_takeWalks_nil {dataSize totalBits pos : Nat} {taken : List (UInt8 × Nat)}
    (h : takeWalks dataSize totalBits pos [] = some taken) : taken = [] := by
  rw [takeWalks] at h
  split at h
  · cases h
  · exact (Option.some.inj h).symm

/-- The loop stops in front of a walk, or makes it and goes on behind it. -/
theorem takeWalks_cons_cases {dataSize totalBits pos : Nat} {r : UInt8 × Nat}
    {ws taken : List (UInt8 × Nat)} (h : takeWalks dataSize totalBits pos (r :: ws) = some taken) :
    taken = [] ∨ (pos < totalBits ∧ pos / 8 < dataSize) ∧
      ∃ rest, takeWalks dataSize totalBits (pos + r.2) ws = some rest ∧ taken = r :: rest := by
  by_cases hguard : pos < totalBits ∧ pos / 8 < dataSize
  · rw [takeWalks, if_pos hguard] at h
    obtain ⟨rest, hrest, heq⟩ := Option.map_eq_some_iff.mp h
    exact Or.inr ⟨hguard, rest, hrest, heq.symm⟩
  · rw [takeWalks_stop hguard] at h
    exact Or.inl (Option.some.inj h).symm

/-- What the trace is for the walks `ws` from bit `pos` on. -/
def traceOf (buff : List UInt8) (pos : Nat) (ws : List (UInt8 × Nat)) :
    List (UInt8 × UInt8) × UInt16 × Bitstream :=
  (ws.map fun r => (r.1, UInt8.ofNat r.2), UInt16.ofNat (pos + walkBits ws),
    streamAt buff (pos + walkBits ws))

section Loop

variable {tree : Node} {buff : List UInt8} {dataSize totalBits : UInt16}

theorem guard_iff {pos : Nat} (hpos : pos < 65536) :
    (UInt16.ofNat pos < totalBits ∧ (streamAt buff pos).buffIndex < dataSize) ↔
      (pos < totalBits.toNat ∧ pos / 8 < dataSize.toNat) := by
  rw [UInt16.lt_iff_toNat_lt, UInt16.lt_iff_toNat_lt, toNat_ofNat_word hpos,
    streamAt_buffIndex (by omega)]

theorem ofNat_toUInt16 {n : Nat} (h : n < 256) : (UInt8.ofNat n).toUInt16 = UInt16.ofNat n := by
  rw [← UInt16.toNat_inj, UInt8.toNat_toUInt16, toNat_ofNat_byte h,
    toNat_ofNat_word (Nat.lt_trans h (by decide))]

/-- One round's character and `num_bits_read`. -/
theorem nextChar_eq (htree : tree ≠ .null) (hlevels : levels tree ≤ 255) {pos : Nat}
    (hword : pos < 65536) (hpos : pos ≤ 8 * buff.length) :
    deserializeNextChar tree (streamAt buff pos) 0 =
      (walk (bitsFrom buff pos) tree).elim (.error .bounds) fun r =>
        .ok (r.1, streamAt buff (pos + r.2), UInt8.ofNat r.2) := by
  rw [deserializeNextChar_eq tree htree (by omega) hpos]
  simp only [UInt8.zero_add]

/-- The loop makes the complete walks in the payload, one after the other. -/
theorem inflateTrace_eq (htree : tree ≠ .null) (hlevels : levels tree ≤ 255)
    (hsize : dataSize.toNat ≤ 255) {fuel pos : Nat} (hfuel : 8 * buff.length - pos ≤ fuel)
    (hpos : pos ≤ 8 * buff.length) (hword : pos < 65536) :
    inflateTrace tree dataSize totalBits (fuel + 1) (UInt16.ofNat pos) (streamAt buff pos) =
      (takeWalks dataSize.toNat totalBits.toNat pos (walks tree fuel (bitsFrom buff pos))).elim
        (.error .bounds) fun ws => .ok (traceOf buff pos ws) := by
  induction fuel generalizing pos with
  | zero =>
    by_cases hguard : pos < totalBits.toNat ∧ pos / 8 < dataSize.toNat
    · rw [inflateTrace_succ, if_pos ((guard_iff hword).mpr hguard),
        nextChar_eq htree hlevels hword hpos, bitsFrom_nil (by omega), walks, takeWalks,
        if_pos hguard]
      rfl
    · rw [inflateTrace_succ, if_neg (mt (guard_iff hword).mp hguard), takeWalks_stop hguard]
      rfl
  | succ fuel ih =>
    by_cases hguard : pos < totalBits.toNat ∧ pos / 8 < dataSize.toNat
    · rw [inflateTrace_succ, if_pos ((guard_iff hword).mpr hguard),
        nextChar_eq htree hlevels hword hpos, walks]
      cases hwalk : walk (bitsFrom buff pos) tree with
      | none =>
        simp only [Option.elim_none, takeWalks, if_pos hguard]
        rfl
      | some r =>
        have hr := walk_length htree hwalk
        rw [bitsFrom_length] at hr
        simp only [Option.elim_some, takeWalks, if_pos hguard, ok_bind, bitsFrom_drop]
        rw [ofNat_toUInt16 (by omega), ← UInt16.ofNat_add,
          ih (by omega) (by omega) (by omega)]
        cases takeWalks dataSize.toNat totalBits.toNat (pos + r.2)
            (walks tree fuel (bitsFrom buff (pos + r.2))) with
        | none => rfl
        | some ws =>
          simp only [Option.elim_some, Option.map_some, ok_bind, traceOf, walkBits_cons,
            List.map_cons, Nat.add_assoc]
    · rw [inflateTrace_succ, if_neg (mt (guard_iff hword).mp hguard), takeWalks_stop hguard]
      rfl

/-! The writes of the loop. -/

theorem inflateLoop_of_trace {fuel j : Nat} {bitsRead : UInt16} {s : Bitstream} {out : List UInt8}
    {t : List (UInt8 × UInt8) × UInt16 × Bitstream}
    (h : inflateTrace tree dataSize totalBits fuel bitsRead s = .ok t)
    (hroom : j + t.1.length ≤ out.length) :
    inflateLoop tree dataSize totalBits fuel bitsRead s (out, j) =
      .ok (overlay out j (t.1.map Prod.fst), j + t.1.length) := by
  induction fuel generalizing bitsRead s out j t with
  | zero => cases h
  | succ fuel ih =>
    rw [inflateTrace_succ] at h
    rw [inflateLoop_succ]
    by_cases hguard : bitsRead < totalBits ∧ s.buffIndex < dataSize
    · rw [if_pos hguard] at h ⊢
      obtain ⟨c, hc, h⟩ := of_bind_eq_ok h
      obtain ⟨t', ht', h⟩ := of_bind_eq_ok h
      cases h
      simp only [List.length_cons] at hroom
      have hlen : (overlay out j [c.1]).length = out.length :=
        overlay_length (by rw [List.length_singleton]; omega)
      rw [hc, ok_bind, putByte_refines _ (by omega), ok_bind, ih ht' (by omega),
        show j + 1 = j + [c.1].length from rfl, overlay_overlay _ _ (by omega)]
      simp only [List.map_cons, List.length_cons, List.length_nil, Nat.zero_add,
        List.singleton_append, Nat.add_assoc, Nat.add_comm 1]
    · rw [if_neg hguard] at h ⊢
      cases h
      rw [List.map_nil, overlay_nil]
      rfl

theorem inflateLoop_no_room {fuel j : Nat} {bitsRead : UInt16} {s : Bitstream} {out : List UInt8}
    {t : List (UInt8 × UInt8) × UInt16 × Bitstream}
    (h : inflateTrace tree dataSize totalBits fuel bitsRead s = .ok t) (hj : j ≤ out.length)
    (hroom : out.length < j + t.1.length) :
    inflateLoop tree dataSize totalBits fuel bitsRead s (out, j) = .error .bounds := by
  induction fuel generalizing bitsRead s out j t with
  | zero => cases h
  | succ fuel ih =>
    rw [inflateTrace_succ] at h
    rw [inflateLoop_succ]
    by_cases hguard : bitsRead < totalBits ∧ s.buffIndex < dataSize
    · rw [if_pos hguard] at h ⊢
      obtain ⟨c, hc, h⟩ := of_bind_eq_ok h
      obtain ⟨t', ht', h⟩ := of_bind_eq_ok h
      cases h
      simp only [List.length_cons] at hroom
      rw [hc, ok_bind]
      by_cases hlast : j < out.length
      · have hlen : (overlay out j [c.1]).length = out.length :=
          overlay_length (by rw [List.length_singleton]; omega)
        rw [putByte_refines _ hlast, ok_bind]
        exact ih ht' (by omega) (by omega)
      · rw [putByte, store, if_neg hlast]
        rfl
    · rw [if_neg hguard] at h
      cases h
      simp only [List.length_nil] at hroom
      omega

theorem inflateLoop_of_trace_error {fuel j : Nat} {bitsRead : UInt16} {s : Bitstream}
    {out : List UInt8}
    (h : inflateTrace tree dataSize totalBits fuel bitsRead s = .error .bounds) :
    inflateLoop tree dataSize totalBits fuel bitsRead s (out, j) = .error .bounds := by
  induction fuel generalizing bitsRead s out j with
  | zero => rfl
  | succ fuel ih =>
    rw [inflateTrace_succ] at h
    rw [inflateLoop_succ]
    by_cases hguard : bitsRead < totalBits ∧ s.buffIndex < dataSize
    · rw [if_pos hguard] at h ⊢
      cases hc : deserializeNextChar tree s 0 with
      | error e =>
        rw [hc, error_bind] at h
        rw [error_bind, Except.error.inj h]
      | ok c =>
        rw [hc, ok_bind] at h
        rw [ok_bind]
        by_cases hlast : j < out.length
        · rw [putByte_refines _ hlast, ok_bind]
          refine ih ?_
          cases ht : inflateTrace tree dataSize totalBits fuel (bitsRead + c.2.2.toUInt16)
              c.2.1 with
          | error e =>
            rw [ht, error_bind] at h
            rw [Except.error.inj h]
          | ok t =>
            rw [ht] at h
            cases h
        · rw [putByte, store, if_neg hlast]
          rfl
    · rw [if_neg hguard] at h
      cases h

end Loop

/-! ## Bounds on a run -/

theorem takeWalks_length {dataSize totalBits pos : Nat} {ws taken : List (UInt8 × Nat)}
    (hone : ∀ r ∈ ws, 1 ≤ r.2) (hstart : pos ≤ min totalBits (8 * dataSize))
    (h : takeWalks dataSize totalBits pos ws = some taken) :
    pos + taken.length ≤ min totalBits (8 * dataSize) := by
  induction ws generalizing pos taken with
  | nil =>
    rw [eq_nil_of_takeWalks_nil h]
    exact hstart
  | cons r ws ih =>
    rcases takeWalks_cons_cases h with rfl | ⟨hguard, rest, hrest, rfl⟩
    · exact hstart
    · have hr := hone r List.mem_cons_self
      by_cases hnext : pos + r.2 ≤ min totalBits (8 * dataSize)
      · have := ih (fun r hr => hone r (List.mem_cons_of_mem _ hr)) hnext hrest
        simp only [List.length_cons]
        omega
      · -- the walk has gone past the end: no further round
        rw [takeWalks_stop (by omega)] at hrest
        cases hrest
        simp only [List.length_singleton]
        omega

/-- The last round starts inside the payload, so the run ends less than a walk behind it. -/
theorem takeWalks_bits {dataSize totalBits pos k : Nat} {ws taken : List (UInt8 × Nat)}
    (hk : ∀ r ∈ ws, r.2 ≤ k) (hstart : pos ≤ 8 * dataSize + k)
    (h : takeWalks dataSize totalBits pos ws = some taken) :
    pos + walkBits taken ≤ 8 * dataSize + k := by
  induction ws generalizing pos taken with
  | nil =>
    rw [eq_nil_of_takeWalks_nil h]
    exact hstart
  | cons r ws ih =>
    rcases takeWalks_cons_cases h with rfl | ⟨hguard, rest, hrest, rfl⟩
    · exact hstart
    · have hr := hk r List.mem_cons_self
      have := ih (fun r hr => hk r (List.mem_cons_of_mem _ hr)) (by omega) hrest
      rw [walkBits_cons]
      omega

theorem mem_walks {n : Node} (hn : n ≠ .null) {fuel : Nat} {bits : List Bool} {r : UInt8 × Nat}
    (h : r ∈ walks n fuel bits) : 1 ≤ r.2 ∧ r.2 ≤ levels n := by
  induction fuel generalizing bits with
  | zero => cases h
  | succ fuel ih =>
    rw [walks] at h
    cases hwalk : walk bits n with
    | none =>
      rw [hwalk] at h
      cases h
    | some r' =>
      rw [hwalk, Option.elim_some, List.mem_cons] at h
      rcases h with rfl | h
      · exact ⟨(walk_length hn hwalk).1, (walk_length hn hwalk).2.2⟩
      · exact ih h

/-- With room for one more walk behind `data_size` bytes, no round runs out of bits. -/
theorem takeWalks_ne_none {n : Node} (hn : n ≠ .null) {dataSize totalBits fuel : Nat}
    {buff : List UInt8} {pos : Nat} (hfuel : 8 * buff.length - pos ≤ fuel)
    (hbuff : 8 * dataSize + levels n ≤ 8 * buff.length + 1) (hpos : pos ≤ 8 * buff.length) :
    takeWalks dataSize totalBits pos (walks n fuel (bitsFrom buff pos)) ≠ none := by
  induction fuel generalizing pos with
  | zero =>
    have := levels_child true hn
    rw [walks, takeWalks, if_neg (by omega)]
    exact Option.some_ne_none _
  | succ fuel ih =>
    by_cases hguard : pos < totalBits ∧ pos / 8 < dataSize
    · have hbits : levels n ≤ (bitsFrom buff pos).length := by
        rw [bitsFrom_length]
        omega
      obtain ⟨r, hr⟩ := Option.ne_none_iff_exists'.mp (walk_ne_none hn hbits)
      have hlen := walk_length hn hr
      rw [bitsFrom_length] at hlen
      rw [walks, hr, Option.elim_some, takeWalks, if_pos hguard, bitsFrom_drop, Ne,
        Option.map_eq_none_iff]
      exact ih (by omega) (by omega)
    · rw [takeWalks_stop hguard]
      exact Option.some_ne_none _

theorem mem_of_takeWalks {dataSize totalBits pos : Nat} {ws taken : List (UInt8 × Nat)}
    (h : takeWalks dataSize totalBits pos ws = some taken) {r : UInt8 × Nat} (hr : r ∈ taken) :
    r ∈ ws := by
  induction ws generalizing pos taken with
  | nil => rwa [eq_nil_of_takeWalks_nil h] at hr
  | cons w ws ih =>
    rcases takeWalks_cons_cases h with rfl | ⟨-, rest, hrest, rfl⟩
    · cases hr
    · rcases List.mem_cons.mp hr with rfl | hr
      · exact List.mem_cons_self
      · exact List.mem_cons_of_mem _ (ih hrest hr)

/-! ## `inflate_data` -/

/-- The walks of a whole run over `data`. `none` if the run leaves `data`. -/
def runWalks (tree : Node) (data : List UInt8) (dataSize totalBits : UInt16) :
    Option (List (UInt8 × Nat)) :=
  takeWalks dataSize.toNat totalBits.toNat 0 (walks tree (8 * data.length) (bitsFrom data 0))

section Run

variable {tree : Node} {data : List UInt8} {dataSize totalBits : UInt16}

theorem inflateTrace_runWalks (htree : tree ≠ .null) (hlevels : levels tree ≤ 255)
    (hsize : dataSize.toNat ≤ 255) :
    inflateTrace tree dataSize totalBits (8 * data.length + 1) 0 { buff := data } =
      (runWalks tree data dataSize totalBits).elim (.error .bounds) fun ws =>
        .ok (traceOf data 0 ws) :=
  inflateTrace_eq htree hlevels hsize (Nat.le_refl _) (Nat.zero_le _) (by decide)

/-- `inflate_data` returns exactly when every round finds its walk in the payload and there is room
    for the characters. -/
theorem inflateData_eq_ok_iff (htree : tree ≠ .null) (hlevels : levels tree ≤ 255)
    (hsize : dataSize.toNat ≤ 255) (out : List UInt8) (res : List UInt8 × Nat) :
    inflateData tree data dataSize totalBits out = .ok res ↔
      ∃ ws, runWalks tree data dataSize totalBits = some ws ∧ ws.length ≤ out.length ∧
        res = (overlay out 0 (ws.map Prod.fst), ws.length) := by
  have htrace := @inflateTrace_runWalks tree data dataSize totalBits htree hlevels hsize
  unfold inflateData
  cases hrun : runWalks tree data dataSize totalBits with
  | none =>
    rw [hrun] at htrace
    rw [inflateLoop_of_trace_error htrace]
    constructor
    · intro h
      cases h
    · intro h
      obtain ⟨ws, h, -⟩ := h
      cases h
  | some ws =>
    rw [hrun] at htrace
    have hlength : (traceOf data 0 ws).1.length = ws.length := List.length_map _
    have hchars : (traceOf data 0 ws).1.map Prod.fst = ws.map Prod.fst := by
      simp only [traceOf, List.map_map, Function.comp_def]
    by_cases hroom : ws.length ≤ out.length
    · rw [inflateLoop_of_trace htrace (by omega), hchars, hlength, Nat.zero_add]
      constructor
      · intro h
        exact ⟨ws, rfl, hroom, (Except.ok.inj h).symm⟩
      · intro h
        obtain ⟨ws', hws, -, rfl⟩ := h
        cases hws
        rfl
    · rw [inflateLoop_no_room htrace (Nat.zero_le _) (by omega)]
      constructor
      · intro h
        cases h
      · intro h
        obtain ⟨ws', hws, hle, -⟩ := h
        cases hws
        exact absurd hle hroom

theorem mem_runWalks (htree : tree ≠ .null) {ws : List (UInt8 × Nat)}
    (h : runWalks tree data dataSize totalBits = some ws) {r : UInt8 × Nat} (hr : r ∈ ws) :
    1 ≤ r.2 ∧ r.2 ≤ levels tree :=
  mem_walks htree (mem_of_takeWalks h hr)

theorem runWalks_length (htree : tree ≠ .null) {ws : List (UInt8 × Nat)}
    (h : runWalks tree data dataSize totalBits = some ws) :
    ws.length ≤ min totalBits.toNat (8 * dataSize.toNat) := by
  have := takeWalks_length (fun r hr => (mem_walks htree hr).1) (Nat.zero_le _) h
  omega

theorem runWalks_bits (htree : tree ≠ .null) {ws : List (UInt8 × Nat)}
    (h : runWalks tree data dataSize totalBits = some ws) :
    walkBits ws ≤ 8 * dataSize.toNat + levels tree := by
  have := takeWalks_bits (fun r hr => (mem_walks htree hr).2) (Nat.zero_le _) h
  omega

end Run

/-! ## The loop ends -/

/-- `num_bits_read` summed over the rounds. -/
def bitsCounted (rounds : List (UInt8 × UInt8)) : Nat := (rounds.map fun r => r.2.toNat).sum

theorem bitsCounted_traceOf {ws : List (UInt8 × Nat)} (h : ∀ r ∈ ws, r.2 ≤ 255)
    (buff : List UInt8) (pos : Nat) : bitsCounted (traceOf buff pos ws).1 = walkBits ws := by
  unfold bitsCounted walkBits traceOf
  rw [List.map_map]
  refine congrArg List.sum (List.map_congr_left fun r hr => ?_)
  exact toNat_ofNat_byte (Nat.lt_succ_of_le (h r hr))

/-- `inflate_data` on a tree of depth at most 254, for any payload with any memory behind it: the
    last character may take up to 32 bytes from there. It ends, `num_bits_read`, `bits_read` and the
    position of the stream count the same bits, and what it writes is one character a round. -/
theorem inflate_data_ends (tree : Node) (htree : tree ≠ .null) (hdepth : levels tree ≤ 255)
    (payload memory : List UInt8) (dataSize totalBits : UInt16) (hsize : dataSize.toNat ≤ 255)
    (hmem : dataSize.toNat + 32 ≤ (payload ++ memory).length) :
    ∃ rounds bitsRead s,
      inflateTrace tree dataSize totalBits (8 * (payload ++ memory).length + 1) 0
          { buff := payload ++ memory } = .ok (rounds, bitsRead, s) ∧
        rounds.length ≤ min totalBits.toNat (8 * dataSize.toNat) ∧
        bitsCounted rounds = 8 * s.buffIndex.toNat + s.bitnum.toNat ∧
        bitsCounted rounds = bitsRead.toNat ∧
        ∀ out : List UInt8, rounds.length ≤ out.length →
          inflateData tree (payload ++ memory) dataSize totalBits out =
            .ok (overlay out 0 (rounds.map Prod.fst), rounds.length) := by
  generalize payload ++ memory = data at hmem ⊢
  have hsome : runWalks tree data dataSize totalBits ≠ none :=
    takeWalks_ne_none htree (Nat.le_refl _) (by omega) (Nat.zero_le _)
  obtain ⟨ws, hws⟩ := Option.ne_none_iff_exists'.mp hsome
  have htrace : inflateTrace tree dataSize totalBits (8 * data.length + 1) 0 { buff := data } =
      .ok (traceOf data 0 ws) := by
    rw [inflateTrace_runWalks htree hdepth hsize, hws]
    rfl
  have hcount : bitsCounted (traceOf data 0 ws).1 = walkBits ws :=
    bitsCounted_traceOf (fun r hr => Nat.le_trans (mem_runWalks htree hws hr).2 hdepth) data 0
  have hbits := runWalks_bits htree hws
  have hlength : (traceOf data 0 ws).1.length = ws.length := List.length_map _
  refine ⟨(traceOf data 0 ws).1, (traceOf data 0 ws).2.1, (traceOf data 0 ws).2.2, htrace, ?_, ?_,
    ?_, fun out hout => ?_⟩
  · rw [hlength]
    exact runWalks_length htree hws
  · rw [hcount, traceOf, streamAt_buffIndex (by omega), streamAt_bitnum]
    omega
  · rw [hcount, traceOf, toNat_ofNat_word (by omega), Nat.zero_add]
  · rw [inflateData, inflateLoop_of_trace htrace (by omega), Nat.zero_add]

/-- A root without children: every bit is a round that gives `'?'`. -/
theorem inflate_data_ends_childless :
    ∃ rounds bitsRead s,
      inflateTrace (.mk .null .null 0 0) 3 9 (8 * ([255] ++ List.replicate 40 0).length + 1) 0
          { buff := [255] ++ List.replicate 40 0 } = .ok (rounds, bitsRead, s) ∧
        rounds.length ≤ min (9 : UInt16).toNat (8 * (3 : UInt16).toNat) ∧
        bitsCounted rounds = 8 * s.buffIndex.toNat + s.bitnum.toNat ∧
        bitsCounted rounds = bitsRead.toNat ∧
        ∀ out : List UInt8, rounds.length ≤ out.length →
          inflateData (.mk .null .null 0 0) ([255] ++ List.replicate 40 0) 3 9 out =
            .ok (overlay out 0 (rounds.map Prod.fst), rounds.length) :=
  inflate_data_ends (.mk .null .null 0 0) (by decide) (by decide) [255] (List.replicate 40 0) 3 9
    (by decide) (by decide)

end DistHuffman.Link
