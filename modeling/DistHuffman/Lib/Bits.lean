/-
  Bits of byte buffers, least significant bit of a byte first: reading a bit (`bitAt`), setting
  bits by OR (`orBit`, `orBits`), and the two ways a short bit string sits in one byte.

  * `bitAt_orBits`: after OR-ing `bits` in at `pos`, a bit of the buffer is its old value, OR the
    bit written there.
  * `testBit_packMSB`: a bit string of at most eight bits, shifted in from the right, has its last
    bit at position 0.
-/
import Mathlib.Data.List.Induction
import Mathlib.Data.Nat.Bitwise

namespace DistHuffman.Lib

/-- A statement about a byte can be checked on the 256 values. -/
theorem forall_byte {P : UInt8 → Prop} (h : ∀ n : Fin 256, P (UInt8.ofNat n)) (b : UInt8) :
    P b := by
  have := h ⟨b.toNat, b.toNat_lt⟩
  rwa [UInt8.ofNat_toNat] at this

theorem toNat_ofNat_byte {n : Nat} (h : n < 256) : (UInt8.ofNat n).toNat = n :=
  UInt8.toNat_ofNat_of_lt' h

theorem toNat_ofNat_word {n : Nat} (h : n < 65536) : (UInt16.ofNat n).toNat = n :=
  UInt16.toNat_ofNat_of_lt' h

/-- A word is its high byte followed by its low byte. -/
theorem join_bytes (n : UInt16) :
    ((n >>> 8).toUInt8.toUInt16 <<< 8) ||| n.toUInt8.toUInt16 = n := by
  have hn := n.toNat_lt
  rw [← UInt16.toNat_inj, UInt16.toNat_or, UInt16.toNat_shiftLeft, UInt8.toNat_toUInt16,
    UInt8.toNat_toUInt16, UInt16.toNat_toUInt8, UInt16.toNat_toUInt8, UInt16.toNat_shiftRight]
  simp only [UInt16.reduceToNat, Nat.reduceMod]
  rw [Nat.shiftRight_eq_div_pow, Nat.mod_eq_of_lt (a := n.toNat / 2 ^ 8) (by omega),
    Nat.shiftLeft_eq, Nat.mod_eq_of_lt (by omega), Nat.mul_comm,
    ← Nat.two_pow_add_eq_or_of_lt (Nat.mod_lt _ (by decide))]
  omega

/-- Bit `i` of the buffer: bit `i % 8` of byte `i / 8`. -/
def bitAt (bytes : List UInt8) (i : Nat) : Bool :=
  (bytes.getD (i / 8) 0).toNat.testBit (i % 8)

theorem bitAt_append_left {a : List UInt8} {j : Nat} (h : j < 8 * a.length) (b : List UInt8) :
    bitAt (a ++ b) j = bitAt a j := by
  unfold bitAt
  rw [List.getD_append _ _ _ _ (by omega)]

theorem bitAt_append_right {a : List UInt8} {j : Nat} (h : 8 * a.length ≤ j) (b : List UInt8) :
    bitAt (a ++ b) j = bitAt b (j - 8 * a.length) := by
  unfold bitAt
  rw [List.getD_append_right _ _ _ _ (by omega),
    show (j - 8 * a.length) / 8 = j / 8 - a.length by omega,
    show (j - 8 * a.length) % 8 = j % 8 by omega]

theorem bitAt_drop (bytes : List UInt8) (n j : Nat) :
    bitAt (bytes.drop n) j = bitAt bytes (8 * n + j) := by
  unfold bitAt
  rw [List.getD_eq_getElem?_getD, List.getElem?_drop, ← List.getD_eq_getElem?_getD,
    show (8 * n + j) / 8 = n + j / 8 by omega, show (8 * n + j) % 8 = j % 8 by omega]

/-- OR bit `b` into position `pos`. -/
def orBit (bytes : List UInt8) (pos : Nat) (b : Bool) : List UInt8 :=
  bytes.set (pos / 8) ((b.toUInt8 <<< UInt8.ofNat (pos % 8)) ||| bytes.getD (pos / 8) 0)

/-- OR the bits into the positions from `pos` on. -/
def orBits (bytes : List UInt8) (pos : Nat) : List Bool → List UInt8
  | [] => bytes
  | b :: bits => orBits (orBit bytes pos b) (pos + 1) bits

theorem orBit_length (bytes : List UInt8) (pos : Nat) (b : Bool) :
    (orBit bytes pos b).length = bytes.length := by
  unfold orBit
  rw [List.length_set]

theorem orBits_length (bytes : List UInt8) (pos : Nat) (bits : List Bool) :
    (orBits bytes pos bits).length = bytes.length := by
  induction bits generalizing bytes pos with
  | nil => rfl
  | cons b bits ih => rw [orBits, ih, orBit_length]

/-- Bytes behind the last bit position are not touched. -/
theorem getElem?_orBits (bytes : List UInt8) (pos : Nat) (bits : List Bool) (i : Nat)
    (h : pos + bits.length ≤ 8 * i) : (orBits bytes pos bits)[i]? = bytes[i]? := by
  induction bits generalizing bytes pos with
  | nil => rfl
  | cons b bits ih =>
    rw [List.length_cons] at h
    rw [orBits, ih _ _ (by omega), orBit, List.getElem?_set_ne (by omega)]

theorem orBits_append (bytes : List UInt8) (pos : Nat) (xs ys : List Bool) :
    orBits bytes pos (xs ++ ys) = orBits (orBits bytes pos xs) (pos + xs.length) ys := by
  induction xs generalizing bytes pos with
  | nil => rfl
  | cons b xs ih =>
    simp only [List.cons_append, orBits, List.length_cons]
    rw [ih, Nat.add_assoc, Nat.add_comm 1]

theorem testBit_shiftedBit (b : Bool) (k i : Nat) (hk : k < 8) (hi : i < 8) :
    (b.toUInt8 <<< UInt8.ofNat k).toNat.testBit i = (decide (i = k) && b) := by
  have h : ∀ k < 8, ∀ i < 8, ∀ b : Bool,
      (b.toUInt8 <<< UInt8.ofNat k).toNat.testBit i = (decide (i = k) && b) := by decide
  exact h k hk i hi b

theorem bitAt_orBit (bytes : List UInt8) (pos : Nat) (b : Bool) (i : Nat)
    (hp : pos < 8 * bytes.length) :
    bitAt (orBit bytes pos b) i = (bitAt bytes i || (decide (i = pos) && b)) := by
  unfold bitAt orBit
  have hlt : pos / 8 < bytes.length := by omega
  by_cases hb : i / 8 = pos / 8
  · rw [hb, List.getD_eq_getElem?_getD, List.getElem?_set_self hlt, Option.getD_some,
      UInt8.toNat_or, Nat.testBit_or, testBit_shiftedBit _ _ _ (by omega) (by omega),
      Bool.or_comm]
    have hi : i % 8 = pos % 8 ↔ i = pos := by omega
    simp only [hi]
  · have hi : i ≠ pos := by
      rintro rfl
      exact hb rfl
    rw [List.getD_eq_getElem?_getD, List.getElem?_set_ne (Ne.symm hb),
      ← List.getD_eq_getElem?_getD]
    simp [hi]

theorem bitAt_orBits (bytes : List UInt8) (pos : Nat) (bits : List Bool) (i : Nat)
    (hp : pos + bits.length ≤ 8 * bytes.length) :
    bitAt (orBits bytes pos bits) i =
      (bitAt bytes i || (decide (pos ≤ i) && bits.getD (i - pos) false)) := by
  induction bits generalizing bytes pos with
  | nil => simp [orBits]
  | cons b bits ih =>
    simp only [List.length_cons] at hp
    rw [orBits, ih _ _ (by rw [orBit_length]; omega), bitAt_orBit _ _ _ _ (by omega),
      Bool.or_assoc]
    congr 1
    rcases Nat.lt_trichotomy i pos with h | h | h
    · simp [show ¬ pos ≤ i by omega, show ¬ pos + 1 ≤ i by omega, show i ≠ pos by omega]
    · subst h
      simp
    · have h1 : i - pos = (i - (pos + 1)) + 1 := by omega
      simp [h1, show pos ≤ i by omega, show pos + 1 ≤ i by omega, show i ≠ pos by omega]

theorem bitAt_replicate_zero (n i : Nat) : bitAt (List.replicate n 0) i = false := by
  unfold bitAt
  rw [List.getD_eq_getElem?_getD, List.getElem?_replicate]
  split <;> simp

theorem bitAt_replicate_ones {n i : Nat} (h : i < 8 * n) :
    bitAt (List.replicate n 255) i = true := by
  unfold bitAt
  rw [List.getD_eq_getElem?_getD, List.getElem?_replicate_of_lt (by omega), Option.getD_some]
  have hall : ∀ k < 8, (255 : UInt8).toNat.testBit k = true := by decide
  exact hall _ (Nat.mod_lt _ (by decide))

/-- A bit string written to a cleared buffer is read back. -/
theorem bitAt_orBits_zero (n : Nat) (bits : List Bool) (i : Nat) (hn : bits.length ≤ 8 * n) :
    bitAt (orBits (List.replicate n 0) 0 bits) i = bits.getD i false := by
  rw [bitAt_orBits _ _ _ _ (by simpa using hn), bitAt_replicate_zero]
  simp

/-- A byte is its eight bits. -/
theorem byte_ext {x y : UInt8} (h : ∀ k, k < 8 → x.toNat.testBit k = y.toNat.testBit k) :
    x = y := by
  rw [← UInt8.toNat_inj]
  refine Nat.eq_of_testBit_eq fun k => ?_
  by_cases hk : k < 8
  · exact h k hk
  · have hx := x.toNat_lt
    have hy := y.toNat_lt
    have : 2 ^ 8 ≤ 2 ^ k := Nat.pow_le_pow_right (by decide) (by omega)
    rw [Nat.testBit_lt_two_pow (by omega), Nat.testBit_lt_two_pow (by omega)]

theorem bitAt_mul_add (bytes : List UInt8) (j : Nat) {k : Nat} (hk : k < 8) :
    bitAt bytes (8 * j + k) = (bytes.getD j 0).toNat.testBit k := by
  unfold bitAt
  rw [show (8 * j + k) / 8 = j by omega, show (8 * j + k) % 8 = k by omega]

/-- A byte is zero when none of its eight bits is set. -/
theorem getD_eq_zero_iff (bytes : List UInt8) (j : Nat) :
    bytes.getD j 0 = 0 ↔ ∀ k, k < 8 → bitAt bytes (8 * j + k) = false := by
  constructor
  · intro h k hk
    rw [bitAt_mul_add bytes j hk, h]
    simp
  · intro h
    refine byte_ext fun k hk => ?_
    rw [← bitAt_mul_add bytes j hk, h k hk]
    simp

/-- Buffers that start with the same `m` bytes start with the same `8 * m` bits. -/
theorem take_eq_take_iff_bitAt {a b : List UInt8} {m : Nat} (ha : m ≤ a.length)
    (hb : m ≤ b.length) : a.take m = b.take m ↔ ∀ j, j < 8 * m → bitAt a j = bitAt b j := by
  constructor
  · intro h j hj
    have hbyte := congrArg (fun l => l.getD (j / 8) 0) h
    simp only [List.getD_eq_getElem?_getD, List.getElem?_take_of_lt (show j / 8 < m by omega)]
      at hbyte
    unfold bitAt
    simp only [List.getD_eq_getElem?_getD, hbyte]
  · intro h
    refine List.ext_getElem (by simp [ha, hb]) fun i h1 h2 => ?_
    rw [List.length_take] at h1
    have hbyte : a.getD i 0 = b.getD i 0 := byte_ext fun k hk => by
      rw [← bitAt_mul_add a i hk, ← bitAt_mul_add b i hk]
      exact h _ (by omega)
    rw [List.getElem_take, List.getElem_take]
    simpa only [List.getD_eq_getElem?_getD, List.getElem?_eq_getElem (show i < a.length by omega),
      List.getElem?_eq_getElem (show i < b.length by omega), Option.getD_some] using hbyte

/-! ## A bit string in one byte -/

/-- Shift the bits in from the right, first bit first. -/
def packMSB (e : UInt8) (p : List Bool) : UInt8 :=
  p.foldl (fun e b => (e <<< 1) ||| b.toUInt8) e

/-- The low `n` bits, least significant first. -/
def lowBits (n : Nat) (b : UInt8) : List Bool := (List.range n).map b.toNat.testBit

theorem testBit_shiftIn (e : UInt8) (b : Bool) (i : Nat) (hi : i < 8) :
    ((e <<< 1) ||| b.toUInt8).toNat.testBit i =
      if i = 0 then b else e.toNat.testBit (i - 1) := by
  rw [UInt8.toNat_or, Nat.testBit_or, UInt8.toNat_shiftLeft, Nat.testBit_mod_two_pow,
    Nat.testBit_shiftLeft]
  cases i with
  | zero => cases b <;> simp [Bool.toUInt8]
  | succ i => cases b <;> simp [Bool.toUInt8, hi, Nat.testBit_succ]

theorem testBit_packMSB (e : UInt8) (p : List Bool) (i : Nat) (hi : i < 8) (hp : i < p.length) :
    (packMSB e p).toNat.testBit i = p.getD (p.length - 1 - i) false := by
  induction p using List.reverseRecOn generalizing i with
  | nil => simp at hp
  | append_singleton p b ih =>
    unfold packMSB at ih ⊢
    rw [List.foldl_append, List.foldl_cons, List.foldl_nil, testBit_shiftIn _ _ _ hi]
    simp only [List.length_append, List.length_singleton] at hp ⊢
    split
    · next h =>
      subst h
      simp
    · next h =>
      rw [ih (i - 1) (by omega) (by omega),
        show p.length + 1 - 1 - i = p.length - 1 - (i - 1) by omega]
      simp only [List.getD_eq_getElem?_getD]
      rw [List.getElem?_append_left (by omega)]

theorem lowBits_succ (n : Nat) (b : UInt8) :
    lowBits (n + 1) b = b.toNat.testBit 0 :: lowBits n (b >>> 1) := by
  unfold lowBits
  rw [List.range_succ_eq_map, List.map_cons, List.map_map]
  congr 1
  refine List.map_congr_left fun i _ => ?_
  rw [UInt8.toNat_shiftRight, Function.comp_apply, Nat.testBit_shiftRight, Nat.add_comm]
  rfl

theorem lowBits_eq {n : Nat} {b : UInt8} {p : List Bool} (hl : p.length = n)
    (h : ∀ i, i < n → b.toNat.testBit i = p.getD i false) : lowBits n b = p := by
  refine List.ext_getElem (by simp [lowBits, hl]) fun i h1 h2 => ?_
  have hi : i < n := by omega
  simp only [lowBits, List.getElem_map, List.getElem_range, h i hi]
  rw [List.getD_eq_getElem?_getD, List.getElem?_eq_getElem h2, Option.getD_some]

end DistHuffman.Lib
