/-
  The control loop of `main.c`: `pollButtonA` and `pollButtonC`, one after the other, with the
  interrupt of the buttons between any two of their reads.

  `advance` is the next step of the loop up to the call of an action; `Performs` is the action, on
  what it leaves behind (`DistHuffman.Main.Files`). `button_status` is volatile and read once in
  every test, so the handler may run between the two halves of a loop condition. A loop waits 500 ms
  in every round; `checked` is history, the panel at the last test of `A_RELEASE`.

  * `control_inv`: what holds at each place, in every run.
  * `control_operations`: the store goes the way of the operations, whatever the interrupts do.
-/
import DistHuffman.Main.Extents
import DistHuffman.Main.Panel

namespace DistHuffman.Main

open DistHuffman.Lib
open DistHuffman.Slave (Buffer)

/-- What the two loops call. -/
inductive Action where
  | formatStorage
  | inputDatastream
  | processData
  | outputDatastream
  deriving DecidableEq, Repr

/-- The button whose loop calls it. -/
def Action.button : Action → Button
  | formatStorage | inputDatastream => .A
  | processData | outputDatastream => .C

namespace Button

/-- The action after `buttonHoldCount > 10`. -/
def onHold : Button → Action
  | A => .formatStorage
  | C => .processData

/-- The action after `button_status & A_RELEASE`. -/
def onRelease : Button → Action
  | A => .inputDatastream
  | C => .outputDatastream

/-- The loop of the other button comes next. -/
def next : Button → Button
  | A => C
  | C => A

end Button

theorem onHold_button (b : Button) : b.onHold.button = b := by
  cases b <;> rfl

theorem onRelease_button (b : Button) : b.onRelease.button = b := by
  cases b <;> rfl

theorem onRelease_ne_onHold (b : Button) : b.onRelease ≠ b.onRelease.button.onHold := by
  cases b <;> decide

/-- Where the control loop is. -/
inductive Place where
  /-- at `buttonHoldCount = 0` -/
  | enter (b : Button)
  /-- at the first read of the loop condition -/
  | testPress (b : Button)
  /-- at the second -/
  | testRelease (b : Button)
  /-- in the delay, before the count -/
  | wait (b : Button)
  /-- at the test of `A_RELEASE` -/
  | check (b : Button)
  /-- at the call of an action -/
  | act (a : Action)
  deriving DecidableEq, Repr

/-- The state of the controller. `busy` is the light; `done`, newest first, and `checked` are
    history. -/
structure Control where
  panel : Panel
  place : Place
  buttonHoldCount : UInt8
  busy : Bool
  store : Store
  done : List Action
  checked : Panel

namespace Control

/-- Power on, with this FRAM, when `PINB` reads `pinb`. -/
def boot (pinb : UInt8) (fram : Fram) : Control where
  panel := initialPanel pinb
  place := .enter .A
  buttonHoldCount := 0
  busy := false
  store := Store.boot fram
  done := []
  checked := initialPanel pinb

/-- The next step of the control loop. Both loops test `A_RELEASE`. -/
def advance (s : Control) : Control :=
  match s.place with
  | .enter b => { s with place := .testPress b, buttonHoldCount := 0 }
  | .testPress b =>
      if (b.flags s.panel.buttonStatus).1 then { s with place := .testRelease b }
      else { s with place := .enter b.next }
  | .testRelease b =>
      if (b.flags s.panel.buttonStatus).2 then { s with place := .enter b.next }
      else { s with place := .wait b, busy := true }
  | .wait b =>
      { s with
        buttonHoldCount := s.buttonHoldCount + 1
        place := if s.buttonHoldCount + 1 > 10 then .act b.onHold else .check b }
  | .check b =>
      { s with
        checked := s.panel
        place := if (Button.A.flags s.panel.buttonStatus).2 then .act b.onRelease
          else .testPress b }
  | .act _ => s

/-- An action is over, and has left the store `t`. -/
def acted (s : Control) (a : Action) (t : Store) : Control :=
  { s with store := t, place := .enter a.button.next, busy := false, done := a :: s.done }

end Control

/-- What an action does. The text that is read in is printed at once. -/
inductive Performs (ok : Allowed) : Action → Store → Store → Prop
  | formatStorage (s : Store) (hok : ok.format s) : Performs ok .formatStorage s s.format
  | inputDatastream (s : Store) (below : Nat → UInt8) (stdin : List UInt8)
      (printed : List (List UInt8) × UInt16) (hok : ok.input s below stdin)
      (h : Main.outputDatastream (s.inputData below stdin).fram (s.inputData below stdin).fs.input =
        some printed) : Performs ok .inputDatastream s (s.inputData below stdin)
  | processData (s : Store) (n : Nat) (replies : Nat → Option Buffer) (t : Sys)
      (hok : ok.process s)
      (hrun : Reaches n ok.poll s.fram s.fs.input s.fs.output replies t) (hret : Returned n t) :
      Performs ok .processData s (s.processed t)
  | outputDatastream (s : Store) (printed : List (List UInt8) × UInt16)
      (h : Main.outputDatastream s.fram s.fs.output = some printed) :
      Performs ok .outputDatastream s s

inductive ControlStep (ok : Allowed) : Control → Control → Prop
  | interrupt (s : Control) (first second : UInt8) :
      ControlStep ok s { s with panel := pcint0Isr first second s.panel }
  | advance (s : Control) (hplace : ∀ a, s.place ≠ .act a) : ControlStep ok s s.advance
  | act (s : Control) (a : Action) (t : Store) (hplace : s.place = .act a)
      (hact : Performs ok a s.store t) : ControlStep ok s (s.acted a t)

/-- A run from power on. -/
abbrev Controls (ok : Allowed) (pinb : UInt8) (fram : Fram) (s : Control) : Prop :=
  Relation.ReflTransGen (ControlStep ok) (Control.boot pinb fram) s

/-! ## The store -/

/-- The last test of `A_RELEASE` found it clear, after all that was done so far and after the loop
    of `b` was entered. -/
structure Passed (checked : Panel) (done : List Action) (b : Button) : Prop where
  clear : (Button.A.flags checked.buttonStatus).2 = false
  entered : 2 ≤ checked.events b
  done : ∀ a ∈ done, 2 ≤ checked.events a.button

/-- In the loop of `b`, before the count: it has counted the tests that it passed. -/
structure Looping (count : UInt8) (checked : Panel) (done : List Action) (b : Button) : Prop where
  count_le : count.toNat ≤ 10
  passed : 1 ≤ count.toNat → Passed checked done b

/-- The facts at a place. A loop is entered by a button that has changed twice. -/
def PlaceFacts (events : Button → Nat) (count : UInt8) (checked : Panel) (done : List Action) :
    Place → Prop
  | .enter _ => True
  | .testPress b => Looping count checked done b
  | .testRelease b => Looping count checked done b ∧ 1 ≤ events b
  | .wait b => Looping count checked done b ∧ 2 ≤ events b
  | .check b => 1 ≤ count.toNat ∧ count.toNat ≤ 10 ∧ 2 ≤ events b
  | .act a => 2 ≤ events a.button ∧ (a = a.button.onHold → Passed checked done a.button)

theorem PlaceFacts.mono {events events' : Button → Nat} {count : UInt8} {checked : Panel}
    {done : List Action} {p : Place} (h : PlaceFacts events count checked done p)
    (hle : ∀ b, events b ≤ events' b) : PlaceFacts events' count checked done p := by
  cases p with
  | enter b => trivial
  | testPress b => exact h
  | testRelease b => exact ⟨h.1, Nat.le_trans h.2 (hle b)⟩
  | wait b => exact ⟨h.1, Nat.le_trans h.2 (hle b)⟩
  | check b => exact ⟨h.1, h.2.1, Nat.le_trans h.2.2 (hle b)⟩
  | act a => exact ⟨Nat.le_trans h.1 (hle a.button), h.2⟩

structure ControlInv (s : Control) : Prop where
  follows : ∀ b, s.panel.Follows b
  checked : ∀ b, s.checked.Follows b
  done : ∀ a ∈ s.done, 2 ≤ s.panel.events a.button
  place : PlaceFacts s.panel.events s.buttonHoldCount s.checked s.done s.place

theorem events_le_isr (first second : UInt8) (p : Panel) (b : Button) :
    p.events b ≤ (pcint0Isr first second p).events b := by
  unfold pcint0Isr
  dsimp only
  by_cases hbounce : (first &&& buttonMask) ^^^ (second &&& buttonMask) ≠ 0
  · rw [if_pos hbounce]
  · rw [if_neg hbounce]
    dsimp only
    split_ifs
    · exact Nat.le_succ _
    · exact Nat.le_refl _

/-- The press flag is set by the first change. -/
theorem one_le_of_press {p : Panel} {b : Button} (h : p.Follows b)
    (hflag : (b.flags p.buttonStatus).1 = true) : 1 ≤ p.events b := by
  unfold Panel.Follows at h
  rw [h] at hflag
  cases hn : p.events b with
  | zero =>
    rw [hn] at hflag
    cases hflag
  | succ n => exact Nat.le_add_left 1 n

/-- A clear release flag, once there was a change: there were two, and the button is down. -/
theorem two_le_of_release {p : Panel} {b : Button} (h : p.Follows b) (hone : 1 ≤ p.events b)
    (hflag : (b.flags p.buttonStatus).2 = false) : 2 ≤ p.events b ∧ p.down b = true := by
  unfold Panel.Follows at h
  rw [h] at hflag
  obtain ⟨n, hn⟩ : ∃ n, p.events b = n + 1 := ⟨p.events b - 1, by omega⟩
  rw [hn] at hflag ⊢
  cases n with
  | zero => cases hflag
  | succ n =>
    refine ⟨Nat.le_add_left 2 n, ?_⟩
    simpa [flagsAfter] using hflag

theorem controlInv_boot (pinb : UInt8) (fram : Fram) : ControlInv (Control.boot pinb fram) where
  follows := flags_initialPanel pinb
  checked := flags_initialPanel pinb
  done := by
    intro a ha
    cases ha
  place := trivial

theorem controlInv_interrupt {s : Control} (h : ControlInv s) (first second : UInt8) :
    ControlInv { s with panel := pcint0Isr first second s.panel } where
  follows := fun b => flags_isr first second (h.follows b)
  checked := h.checked
  done := fun a ha => Nat.le_trans (h.done a ha) (events_le_isr first second s.panel a.button)
  place := h.place.mono (events_le_isr first second s.panel)

theorem controlInv_acted {s : Control} (h : ControlInv s) {a : Action} (ha : s.place = .act a)
    (t : Store) : ControlInv (s.acted a t) where
  follows := h.follows
  checked := h.checked
  done := by
    intro a' ha'
    have hplace := h.place
    rw [ha] at hplace
    rcases List.mem_cons.mp ha' with rfl | ha'
    · exact hplace.1
    · exact h.done a' ha'
  place := trivial

theorem toNat_count {n : UInt8} (h : n.toNat ≤ 10) : (n + 1).toNat = n.toNat + 1 := by
  rw [UInt8.toNat_add]
  exact Nat.mod_eq_of_lt (by rw [UInt8.toNat_one]; omega)

/-- The count: the eleventh round acts, with the ten tests before it passed. -/
theorem placeFacts_wait {events : Button → Nat} {count : UInt8} {checked : Panel}
    {done : List Action} {b : Button} (h : Looping count checked done b) (htwo : 2 ≤ events b) :
    PlaceFacts events (count + 1) checked done
      (if count + 1 > 10 then .act b.onHold else .check b) := by
  have hcount := toNat_count h.count_le
  by_cases hten : count + 1 > 10
  · have hlt : (10 : UInt8).toNat < (count + 1).toNat := UInt8.lt_iff_toNat_lt.mp hten
    have hval : (10 : UInt8).toNat = 10 := rfl
    rw [if_pos hten]
    refine ⟨?_, fun _ => ?_⟩
    · rwa [onHold_button]
    · rw [onHold_button]
      exact h.passed (by omega)
  · have hle : (count + 1).toNat ≤ (10 : UInt8).toNat :=
      Nat.le_of_not_lt fun hlt => hten (UInt8.lt_iff_toNat_lt.mpr hlt)
    have hval : (10 : UInt8).toNat = 10 := rfl
    rw [if_neg hten]
    exact ⟨by omega, by omega, htwo⟩

theorem controlInv_advance {s : Control} (h : ControlInv s) : ControlInv s.advance := by
  have hplace := h.place
  unfold Control.advance
  cases hp : s.place with
  | enter b =>
    have hzero : Looping 0 s.checked s.done b := ⟨Nat.zero_le _, fun hc => absurd hc (by decide)⟩
    exact ⟨h.follows, h.checked, h.done, hzero⟩
  | testPress b =>
    rw [hp] at hplace
    dsimp only
    by_cases hflag : (b.flags s.panel.buttonStatus).1 = true
    · rw [if_pos hflag]
      exact ⟨h.follows, h.checked, h.done, hplace, one_le_of_press (h.follows b) hflag⟩
    · rw [if_neg hflag]
      exact ⟨h.follows, h.checked, h.done, trivial⟩
  | testRelease b =>
    rw [hp] at hplace
    dsimp only
    by_cases hflag : (b.flags s.panel.buttonStatus).2 = true
    · rw [if_pos hflag]
      exact ⟨h.follows, h.checked, h.done, trivial⟩
    · rw [if_neg hflag]
      have htwo := two_le_of_release (h.follows b) hplace.2 (Bool.eq_false_iff.mpr hflag)
      exact ⟨h.follows, h.checked, h.done, hplace.1, htwo.1⟩
  | wait b =>
    rw [hp] at hplace
    exact ⟨h.follows, h.checked, h.done, placeFacts_wait hplace.1 hplace.2⟩
  | check b =>
    rw [hp] at hplace
    refine ⟨h.follows, h.follows, h.done, ?_⟩
    dsimp only
    by_cases hflag : (Button.A.flags s.panel.buttonStatus).2 = true
    · rw [if_pos hflag]
      refine ⟨?_, fun hhold => absurd hhold (onRelease_ne_onHold b)⟩
      rw [onRelease_button]
      exact hplace.2.2
    · rw [if_neg hflag]
      exact ⟨hplace.2.1, fun _ => ⟨Bool.eq_false_iff.mpr hflag, hplace.2.2, h.done⟩⟩
  | act a => exact h

theorem control_inv {ok : Allowed} {pinb : UInt8} {fram : Fram} {s : Control}
    (h : Controls ok pinb fram s) : ControlInv s := by
  refine run_invariant (controlInv_boot pinb fram) ?_ h
  intro a b hstep ha
  cases hstep with
  | interrupt first second => exact controlInv_interrupt ha first second
  | advance hplace => exact controlInv_advance ha
  | act action t hplace hact => exact controlInv_acted ha hplace t

/-! ## Runs -/

section Runs

variable {ok : Allowed} {pinb : UInt8} {fram : Fram} {s : Control}

/-- The handler runs before the loop takes its first step. -/
theorem controls_panelAfter (ok : Allowed) (pinb : UInt8) (fram : Fram)
    (samples : List (UInt8 × UInt8)) :
    Controls ok pinb fram { Control.boot pinb fram with panel := panelAfter pinb samples } := by
  induction samples using List.reverseRecOn with
  | nil => exact .refl
  | append_singleton samples sample ih =>
    unfold panelAfter
    rw [List.foldl_append]
    exact ih.tail (.interrupt _ sample.1 sample.2)

/-- The loop goes on by itself. -/
theorem controls_iterate (h : Controls ok pinb fram s) (k : Nat) :
    Controls ok pinb fram (Control.advance^[k] s) := by
  induction k with
  | zero => exact h
  | succ k ih =>
    rw [Function.iterate_succ_apply']
    by_cases hact : ∃ a, (Control.advance^[k] s).place = .act a
    · obtain ⟨a, ha⟩ := hact
      have hstay : (Control.advance^[k] s).advance = Control.advance^[k] s := by
        rw [Control.advance, ha]
      rwa [hstay]
    · exact ih.tail (.advance _ fun a ha => hact ⟨a, ha⟩)

/-- Power on with a clear FRAM and both buttons up, and then these runs of the handler. -/
def pressed (samples : List (UInt8 × UInt8)) : Control :=
  { Control.boot 0x09 fun _ => 0 with panel := panelAfter 0x09 samples }

/-- **The first change of a button starts nothing**: until the handler has seen a second one, its
    loop has not called an action and does not call one. -/
theorem first_change_starts_nothing (h : Controls ok pinb fram s) (b : Button)
    (hone : s.panel.events b ≤ 1) :
    (∀ a ∈ s.done, a.button ≠ b) ∧ ∀ a, s.place = .act a → a.button ≠ b := by
  have hinv := control_inv h
  refine ⟨fun a ha hb => ?_, fun a ha hb => ?_⟩
  · have htwo := hinv.done a ha
    rw [hb] at htwo
    omega
  · have hplace := hinv.place
    rw [ha] at hplace
    have htwo := hplace.1
    rw [hb] at htwo
    omega

theorem first_press_starts_nothing :
    (Control.advance^[100] (pressed [(0x01, 0x01)])).done.filter (·.button = .A) = [] := by
  apply List.filter_eq_nil_iff.mpr
  intro a ha hA
  exact (first_change_starts_nothing
    (controls_iterate (controls_panelAfter {} 0x09 (fun _ => 0) [(0x01, 0x01)]) 100) .A
    (by decide +kernel)).1 a ha (of_decide_eq_true hA)

/-- **A long press acts only while `A` is down.** At the call of `format_storage`, and at every call
    of `processData` after something was read in or formatted since power on, button `A` was down
    when `A_RELEASE` was tested last, in the round before. -/
theorem hold_needs_A (h : Controls ok pinb fram s) (a : Action) (hplace : s.place = .act a)
    (ha : a = .formatStorage ∨ a = .processData ∧ ∃ d ∈ s.done, d.button = .A) :
    s.checked.down .A = true := by
  have hinv := control_inv h
  have hfacts := hinv.place
  rw [hplace] at hfacts
  have hpassed : Passed s.checked s.done a.button := by
    refine hfacts.2 ?_
    rcases ha with rfl | ⟨rfl, -⟩
    · rfl
    · rfl
  have htwo : 2 ≤ s.checked.events .A := by
    rcases ha with rfl | ⟨-, d, hd, hA⟩
    · exact hpassed.entered
    · exact hA ▸ hpassed.done d hd
  exact (two_le_of_release (hinv.checked .A) (Nat.le_of_succ_le htwo) hpassed.clear).2

/-- A press, its release, and a press that lasts. -/
theorem format_needs_A :
    (Control.advance^[44] (pressed [(0x01, 0x01), (0x09, 0x09), (0x01, 0x01)])).checked.down .A =
      true :=
  hold_needs_A (controls_iterate (controls_panelAfter {} 0x09 (fun _ => 0)
    [(0x01, 0x01), (0x09, 0x09), (0x01, 0x01)]) 44) .formatStorage (by decide +kernel) (Or.inl rfl)

end Runs

/-! ## A button that stays down -/

/-- A round that the loop passes. -/
theorem advance_round {s : Control} {b : Button} (hplace : s.place = .testPress b)
    (hdown : b.flags s.panel.buttonStatus = (true, false))
    (hclear : (Button.A.flags s.panel.buttonStatus).2 = false)
    (hcount : ¬ s.buttonHoldCount + 1 > 10) :
    Control.advance^[4] s =
      { s with buttonHoldCount := s.buttonHoldCount + 1, busy := true, checked := s.panel } := by
  obtain ⟨panel, place, count, busy, store, done, checked⟩ := s
  dsimp only at hplace hdown hclear hcount
  subst hplace
  simp only [Function.iterate_succ_apply, Function.iterate_zero_apply, Control.advance, hdown,
    hclear, if_true, if_neg hcount, Bool.false_eq_true, if_false]

theorem advance_rounds {s : Control} {b : Button} (hplace : s.place = .testPress b)
    (hdown : b.flags s.panel.buttonStatus = (true, false))
    (hclear : (Button.A.flags s.panel.buttonStatus).2 = false) (hcount : s.buttonHoldCount = 0)
    {k : Nat} (hk : k < 10) :
    Control.advance^[4 * (k + 1)] s =
      { s with
        buttonHoldCount := UInt8.ofNat (k + 1)
        busy := true
        checked := s.panel } := by
  have hten : ∀ k < 10, ¬ UInt8.ofNat k + 1 > 10 := by decide
  induction k with
  | zero =>
    rw [advance_round hplace hdown hclear (by rw [hcount]; decide), hcount]
    rfl
  | succ k ih =>
    rw [show 4 * (k + 1 + 1) = 4 + 4 * (k + 1) by omega, Function.iterate_add_apply,
      ih (Nat.lt_of_succ_lt hk)]
    refine (advance_round (s := { s with
      buttonHoldCount := UInt8.ofNat (k + 1)
      busy := true
      checked := s.panel }) hplace hdown hclear (hten (k + 1) hk)).trans ?_
    dsimp only
    rw [UInt8.ofNat_add (k + 1) 1]
    rfl

/-- **A button that stays down.** If `A_RELEASE` is set, the first test takes it for a release: the
    loop of `C` prints the output file after half a second, and does not process anything however
    long `C` is held. If it is clear, the eleventh round calls the action of a long press. -/
theorem stays_down (s : Control) (b : Button) (hplace : s.place = .enter b)
    (hdown : b.flags s.panel.buttonStatus = (true, false)) :
    ((Button.A.flags s.panel.buttonStatus).2 = true →
      Control.advance^[5] s =
        { s with
          place := .act b.onRelease
          buttonHoldCount := 1
          busy := true
          checked := s.panel }) ∧
    ((Button.A.flags s.panel.buttonStatus).2 = false →
      Control.advance^[44] s =
        { s with
          place := .act b.onHold
          buttonHoldCount := 11
          busy := true
          checked := s.panel }) := by
  obtain ⟨panel, place, count, busy, store, done, checked⟩ := s
  dsimp only at hplace hdown
  subst hplace
  constructor
  · intro hset
    have hone : ¬ (0 : UInt8) + 1 > 10 := by decide
    dsimp only at hset
    simp only [Function.iterate_succ_apply, Function.iterate_zero_apply, Control.advance, hdown,
      hset, if_true, if_neg hone, Bool.false_eq_true, if_false]
    rfl
  · intro hclear
    have hrounds := advance_rounds
      (s := ⟨panel, .testPress b, 0, busy, store, done, checked⟩) rfl hdown hclear rfl
      (show 9 < 10 by decide)
    have heleven : (UInt8.ofNat (9 + 1) : UInt8) + 1 > 10 := by decide
    have hsplit : Control.advance^[44] ⟨panel, .enter b, count, busy, store, done, checked⟩ =
        Control.advance^[3] (Control.advance^[4 * (9 + 1)]
          ⟨panel, .testPress b, 0, busy, store, done, checked⟩) := rfl
    rw [hsplit, hrounds]
    simp only [Function.iterate_succ_apply, Function.iterate_zero_apply, Control.advance, hdown,
      if_true, if_pos heleven, Bool.false_eq_true, if_false]
    rfl

theorem stays_down_A :
    (Control.advance^[44] (pressed [(0x01, 0x01), (0x09, 0x09), (0x01, 0x01)])).buttonHoldCount =
      11 :=
  congrArg Control.buttonHoldCount
    ((stays_down (pressed [(0x01, 0x01), (0x09, 0x09), (0x01, 0x01)]) .A rfl (by decide +kernel)).2
      (by decide +kernel))

end DistHuffman.Main
