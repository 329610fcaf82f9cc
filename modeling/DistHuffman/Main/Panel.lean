/-
  The buttons of the controller: `ISR(PCINT0_vect)` of `buttons.c`, and the callbacks of `main.c`
  that `initialize_system` gives it.

  A callback sets one flag of its button and turns the other one over, so what the two flags say
  depends on how often the button has changed: nothing before the first change, both after it, and
  only from the second change on which way the button is (`flags_isr`, `flags_panelAfter`).

  The light that the handler flashes and the texts that the callbacks print are left out.
-/
import DistHuffman.Lib.Bits

namespace DistHuffman.Main

open DistHuffman.Lib

inductive Button where
  | A
  | C
  deriving DecidableEq, Repr

namespace Button

/-- `BUTTONA`, `BUTTONC` -/
def pin : Button → UInt8
  | A => 3
  | C => 0

def bit (b : Button) : UInt8 := 1 <<< b.pin

/-- `A_PRESS`, `C_PRESS` -/
def pressFlag : Button → UInt8
  | A => 0x01
  | C => 0x04

/-- `A_RELEASE`, `C_RELEASE` -/
def releaseFlag : Button → UInt8
  | A => 0x02
  | C => 0x08

/-- The two flags of a button in `button_status`. -/
def flags (b : Button) (status : UInt8) : Bool × Bool :=
  (status &&& b.pressFlag != 0, status &&& b.releaseFlag != 0)

end Button

def buttonMask : UInt8 := Button.A.bit ||| Button.C.bit

/-! ## Callbacks -/

/-- What a press does to `button_status`. -/
def press (b : Button) (status : UInt8) : UInt8 := (status ||| b.pressFlag) ^^^ b.releaseFlag

/-- What a release does to it. -/
def release (b : Button) (status : UInt8) : UInt8 := (status ||| b.releaseFlag) ^^^ b.pressFlag

def aPress : UInt8 → UInt8 := press .A
def aRelease : UInt8 → UInt8 := release .A
def cPress : UInt8 → UInt8 := press .C
def cRelease : UInt8 → UInt8 := release .C

/-! ## Interrupt handler -/

/-- `pinb_previous` and `button_status`. `events` is history: how often the handler has seen a
    button change. -/
structure Panel where
  pinbPrevious : UInt8
  buttonStatus : UInt8
  events : Button → Nat

/-- The part of the handler for one button: a press is 0, a release is 1. -/
def onChange (b : Button) (fnPress fnRelease : UInt8 → UInt8) (pinbNow pinbChange status : UInt8) :
    UInt8 :=
  if pinbChange &&& b.bit ≠ 0 then
    if 0 = pinbNow &&& b.bit then fnPress status else fnRelease status
  else status

/-- `ISR(PCINT0_vect)`, where `PINB` reads `first`, and `second` a millisecond later. -/
def pcint0Isr (first second : UInt8) (p : Panel) : Panel :=
  let pinbNow := first &&& buttonMask
  if pinbNow ^^^ (second &&& buttonMask) ≠ 0 then p
  else
    let pinbChange := pinbNow ^^^ p.pinbPrevious
    { pinbPrevious := pinbNow
      buttonStatus := onChange .C cPress cRelease pinbNow pinbChange
        (onChange .A aPress aRelease pinbNow pinbChange p.buttonStatus)
      events := fun b => if pinbChange &&& b.bit ≠ 0 then p.events b + 1 else p.events b }

/-- The panel when `initialize_system` is done and `PINB` read `pinb`. -/
def initialPanel (pinb : UInt8) : Panel := ⟨pinb &&& buttonMask, 0, fun _ => 0⟩

/-- The panel after these runs of the handler. -/
def panelAfter (pinb : UInt8) (samples : List (UInt8 × UInt8)) : Panel :=
  samples.foldl (fun p s => pcint0Isr s.1 s.2 p) (initialPanel pinb)

/-- The button is down, as far as the handler knows. -/
def Panel.down (p : Panel) (b : Button) : Bool := p.pinbPrevious &&& b.bit == 0

/-! ## Flags -/

theorem flags_press (b : Button) (status : UInt8) :
    b.flags (press b status) = (true, !(b.flags status).2) := by
  revert status
  refine forall_byte ?_
  cases b <;> decide +kernel

theorem flags_release (b : Button) (status : UInt8) :
    b.flags (release b status) = (!(b.flags status).1, true) := by
  revert status
  refine forall_byte ?_
  cases b <;> decide +kernel

theorem flags_other {b c : Button} (h : b ≠ c) (status : UInt8) :
    b.flags (press c status) = b.flags status ∧ b.flags (release c status) = b.flags status := by
  revert status
  refine forall_byte ?_
  cases b <;> cases c
  · exact absurd rfl h
  · decide +kernel
  · decide +kernel
  · exact absurd rfl h

theorem and_bit (b : Button) (x : UInt8) : x &&& b.bit = 0 ∨ x &&& b.bit = b.bit := by
  revert x
  refine forall_byte ?_
  cases b <;> decide +kernel

theorem xor_and (x y z : UInt8) : (x ^^^ y) &&& z = (x &&& z) ^^^ (y &&& z) := by
  rw [← UInt8.toNat_inj, UInt8.toNat_and, UInt8.toNat_xor, UInt8.toNat_xor, UInt8.toNat_and,
    UInt8.toNat_and, Nat.and_xor_distrib_right]

/-- A button has changed if it is now what it was not. -/
theorem change_iff (b : Button) (now previous : UInt8) :
    (now ^^^ previous) &&& b.bit ≠ 0 ↔ (now &&& b.bit == 0) ≠ (previous &&& b.bit == 0) := by
  have hbit : b.bit ≠ 0 := by cases b <;> decide
  rw [xor_and]
  rcases and_bit b now with h1 | h1 <;> rcases and_bit b previous with h2 | h2 <;>
    simp [h1, h2, hbit]

/-- What the flags say after so many changes. -/
def flagsAfter : Nat → Bool → Bool × Bool
  | 0, _ => (false, false)
  | 1, _ => (true, true)
  | _ + 2, down => (down, !down)

/-- The flags of the button are those of its changes. -/
def Panel.Follows (p : Panel) (b : Button) : Prop :=
  b.flags p.buttonStatus = flagsAfter (p.events b) (p.down b)

theorem flagsAfter_press {n : Nat} {s : Bool × Bool} (h : s = flagsAfter n false) :
    (true, !s.2) = flagsAfter (n + 1) true := by
  obtain _ | _ | n := n
  · rw [h]; rfl
  · rw [h]; rfl
  · rw [h]; rfl

theorem flagsAfter_release {n : Nat} {s : Bool × Bool} (h : s = flagsAfter n true) :
    (!s.1, true) = flagsAfter (n + 1) false := by
  obtain _ | _ | n := n
  · rw [h]; rfl
  · rw [h]; rfl
  · rw [h]; rfl

section Handler

variable {b c : Button} {now previous status : UInt8} {n : Nat}

theorem flags_onChange_other (h : b ≠ c) (now change status : UInt8) :
    b.flags (onChange c (press c) (release c) now change status) = b.flags status := by
  obtain ⟨hpress, hrelease⟩ := flags_other h status
  unfold onChange
  split_ifs
  · exact hpress
  · exact hrelease
  · rfl

/-- The part of the handler for a button, and the flags of that button. -/
theorem flags_onChange (h : b.flags status = flagsAfter n (previous &&& b.bit == 0)) :
    b.flags (onChange b (press b) (release b) now (now ^^^ previous) status) =
      flagsAfter (if (now ^^^ previous) &&& b.bit ≠ 0 then n + 1 else n) (now &&& b.bit == 0) := by
  have hchange := change_iff b now previous
  unfold onChange
  by_cases hev : (now ^^^ previous) &&& b.bit ≠ 0
  · have hne := hchange.mp hev
    rw [if_pos hev, if_pos hev]
    by_cases hnow : now &&& b.bit = 0
    · -- a press: the button was up
      have hup : (previous &&& b.bit == 0) = false := by simpa [hnow] using hne
      rw [hup] at h
      rw [if_pos hnow.symm, flags_press, flagsAfter_press h, hnow]
      rfl
    · -- a release: it was down
      have hdown : (previous &&& b.bit == 0) = true := by simpa [hnow] using hne
      rw [hdown] at h
      rw [if_neg (Ne.symm hnow), flags_release, flagsAfter_release h, beq_false_of_ne hnow]
  · have hsame : (now &&& b.bit == 0) = (previous &&& b.bit == 0) :=
      not_ne_iff.mp (mt hchange.mpr hev)
    rw [if_neg hev, if_neg hev, h, hsame]

end Handler

/-- One run of the handler. -/
theorem flags_isr (first second : UInt8) {p : Panel} {b : Button} (h : p.Follows b) :
    (pcint0Isr first second p).Follows b := by
  unfold pcint0Isr
  dsimp only
  by_cases hbounce : (first &&& buttonMask) ^^^ (second &&& buttonMask) ≠ 0
  · rwa [if_pos hbounce]
  · rw [if_neg hbounce]
    cases b with
    | A => exact (flags_onChange_other (by decide) _ _ _).trans (flags_onChange h)
    | C =>
      refine flags_onChange ?_
      exact (flags_onChange_other (by decide) _ _ _).trans h

theorem flags_initialPanel (pinb : UInt8) (b : Button) : (initialPanel pinb).Follows b := by
  show b.flags 0 = (false, false)
  cases b <;> decide

/-- **The flags of a button after any runs of the handler**, bounces among them: clear before its
    first change, both set after it whichever way it went, and from the second change on they say
    whether the button is down. -/
theorem flags_panelAfter (pinb : UInt8) (samples : List (UInt8 × UInt8)) (b : Button) :
    b.flags (panelAfter pinb samples).buttonStatus =
      flagsAfter ((panelAfter pinb samples).events b) ((panelAfter pinb samples).down b) := by
  unfold panelAfter
  refine List.foldlRecOn samples _ (motive := fun p : Panel => p.Follows b)
    (flags_initialPanel pinb b) ?_
  intro p hp s _
  exact flags_isr s.1 s.2 hp

/-! A press of `A`, its release and a second press: the handler has set both flags, then one, then
    the other. -/

example :
    ([[(0x01, 0x01)], [(0x01, 0x01), (0x09, 0x09)], [(0x01, 0x01), (0x09, 0x09), (0x01, 0x01)]].map
      fun samples => Button.A.flags (panelAfter 0x09 samples).buttonStatus) =
    [(true, true), (false, true), (true, false)] := by decide

end DistHuffman.Main
