/-
  `i2c_start_timeout`: the wait for the answer to an address, with a timeout.

  `while ((ms_timeout--) || (!(TWCR & (1 << TWINT)))) _delay_ms(1);` goes on while there is time
  left or there is no answer. So it does not look at the flag before the time is over, and if there
  is no answer then, the counter has become 255 and it waits another 256 ms for its next look. It
  ends with the first look that sees the flag, and with nothing else (`endsAs_iff`).
-/
import Mathlib.Data.List.Basic

namespace DistHuffman.Master

/-- The delays of a wait so far, and what each look at `TWINT` saw, newest first. -/
structure Wait where
  delays : Nat
  polls : List Bool
  deriving DecidableEq, Repr

/-- The loop, with `twint t` for the flag after `t` delays. `ms_timeout--` comes first; only where
    it gives 0 is the flag looked at. -/
def waitLoop (twint : Nat → Bool) : Nat → UInt8 → Wait → Option Wait
  | 0, _, _ => none
  | fuel + 1, msTimeout, w =>
      if msTimeout ≠ 0 then waitLoop twint fuel (msTimeout - 1) ⟨w.delays + 1, w.polls⟩
      else if twint w.delays = false then
        waitLoop twint fuel (msTimeout - 1) ⟨w.delays + 1, false :: w.polls⟩
      else some ⟨w.delays, true :: w.polls⟩

/-- The wait ends, and as `w` says. -/
def EndsAs (twint : Nat → Bool) (msTimeout : UInt8) (w : Wait) : Prop :=
  ∃ fuel, waitLoop twint fuel msTimeout ⟨0, []⟩ = some w

/-- The wait ends after at most `ms_timeout` delays, and no look before its last saw the flag. -/
def TimeoutHonoured (twint : Nat → Bool) (msTimeout : UInt8) : Prop :=
  ∃ w, EndsAs twint msTimeout w ∧ w.delays ≤ msTimeout.toNat ∧ ∀ seen ∈ w.polls.tail, seen = false

variable {twint : Nat → Bool}

theorem waitLoop_succ (fuel : Nat) (msTimeout : UInt8) (w : Wait) :
    waitLoop twint (fuel + 1) msTimeout w =
      if msTimeout ≠ 0 then waitLoop twint fuel (msTimeout - 1) ⟨w.delays + 1, w.polls⟩
      else if twint w.delays = false then
        waitLoop twint fuel (msTimeout - 1) ⟨w.delays + 1, false :: w.polls⟩
      else some ⟨w.delays, true :: w.polls⟩ := rfl

theorem waitLoop_delay {msTimeout : UInt8} (h : msTimeout ≠ 0) (fuel : Nat) (w : Wait) :
    waitLoop twint (fuel + 1) msTimeout w =
      waitLoop twint fuel (msTimeout - 1) ⟨w.delays + 1, w.polls⟩ := by
  rw [waitLoop_succ, if_pos h]

theorem waitLoop_clear {w : Wait} (h : twint w.delays = false) (fuel : Nat) :
    waitLoop twint (fuel + 1) 0 w =
      waitLoop twint fuel 255 ⟨w.delays + 1, false :: w.polls⟩ := by
  rw [waitLoop_succ, if_neg (not_not.mpr rfl), if_pos h]
  rfl

theorem waitLoop_set {w : Wait} (h : twint w.delays = true) (fuel : Nat) :
    waitLoop twint (fuel + 1) 0 w = some ⟨w.delays, true :: w.polls⟩ := by
  rw [waitLoop_succ, if_neg (not_not.mpr rfl), if_neg (by rw [h]; exact Bool.noConfusion)]

theorem toNat_pred {x : UInt8} (h : x ≠ 0) : (x - 1).toNat + 1 = x.toNat := by
  have hpos : x.toNat ≠ 0 := fun h0 => h (UInt8.toNat_inj.mp h0)
  have hlt := x.toNat_lt
  rw [UInt8.toNat_sub]
  simp only [UInt8.reduceToNat]
  omega

/-- The first look that sees the flag is number `k`, the looks being 256 delays apart from `d`. -/
def FirstSeen (twint : Nat → Bool) (d k : Nat) : Prop :=
  twint (d + 256 * k) = true ∧ ∀ j < k, twint (d + 256 * j) = false

theorem firstSeen_succ (d k : Nat) :
    FirstSeen twint d (k + 1) ↔ twint d = false ∧ FirstSeen twint (d + 256) k := by
  have hlook : ∀ j, d + 256 * (j + 1) = d + 256 + 256 * j := fun j => by omega
  unfold FirstSeen
  rw [Nat.forall_lt_succ_left, hlook k]
  simp only [hlook]
  exact and_left_comm

/-- The loop ends with the first look that sees the flag. -/
theorem firstSeen_of_waitLoop {fuel : Nat} {msTimeout : UInt8} {w w' : Wait}
    (h : waitLoop twint fuel msTimeout w = some w') :
    ∃ k, FirstSeen twint (w.delays + msTimeout.toNat) k ∧
      w' = ⟨w.delays + msTimeout.toNat + 256 * k, true :: (List.replicate k false ++ w.polls)⟩ := by
  induction fuel generalizing msTimeout w with
  | zero => cases h
  | succ fuel ih =>
    by_cases hms : msTimeout = 0
    · subst hms
      by_cases hset : twint w.delays = true
      · rw [waitLoop_set hset] at h
        exact ⟨0, ⟨hset, fun j hj => absurd hj (Nat.not_lt_zero j)⟩, (Option.some.inj h).symm⟩
      · -- a look in vain: the counter starts again from 255
        have hclear := Bool.eq_false_iff.mpr hset
        rw [waitLoop_clear hclear] at h
        obtain ⟨k, hseen, hw⟩ := ih h
        refine ⟨k + 1, (firstSeen_succ _ k).mpr ⟨hclear, hseen⟩, ?_⟩
        rw [hw, List.replicate_succ', List.append_assoc]
        simp only [UInt8.reduceToNat, Wait.mk.injEq]
        exact ⟨by omega, rfl⟩
    · rw [waitLoop_delay hms] at h
      obtain ⟨k, hseen, hw⟩ := ih h
      dsimp only at hseen hw
      have hpred := toNat_pred hms
      rw [show w.delays + 1 + (msTimeout - 1).toNat = w.delays + msTimeout.toNat by omega]
        at hseen hw
      exact ⟨k, hseen, hw⟩

theorem waitLoop_countdown {n : Nat} {msTimeout : UInt8} (h : msTimeout.toNat = n) (fuel : Nat)
    (w : Wait) :
    waitLoop twint (fuel + n) msTimeout w = waitLoop twint fuel 0 ⟨w.delays + n, w.polls⟩ := by
  induction n generalizing msTimeout w with
  | zero =>
    rw [UInt8.toNat_inj.mp (h.trans rfl : msTimeout.toNat = (0 : UInt8).toNat)]
    rfl
  | succ n ih =>
    have hms : msTimeout ≠ 0 := by
      intro h0
      rw [h0] at h
      cases h
    have hpred := toNat_pred hms
    rw [← Nat.add_assoc, waitLoop_delay hms, ih (by omega), Nat.add_assoc, Nat.add_comm 1]

/-- After the time is over, each look in vain costs 256 delays. -/
theorem waitLoop_of_firstSeen {k : Nat} {w : Wait} (h : FirstSeen twint w.delays k) :
    waitLoop twint (256 * k + 1) 0 w =
      some ⟨w.delays + 256 * k, true :: (List.replicate k false ++ w.polls)⟩ := by
  induction k generalizing w with
  | zero => exact waitLoop_set h.1 0
  | succ k ih =>
    obtain ⟨hclear, hnext⟩ := (firstSeen_succ w.delays k).mp h
    have hround : waitLoop twint (256 * k + 1 + 255 + 1) 0 w =
        waitLoop twint (256 * k + 1) 0 ⟨w.delays + 256, false :: w.polls⟩ := by
      rw [waitLoop_clear hclear (256 * k + 1 + 255), waitLoop_countdown (n := 255) rfl,
        show w.delays + 1 + 255 = w.delays + 256 by omega]
    rw [show 256 * (k + 1) + 1 = 256 * k + 1 + 255 + 1 by omega, hround, ih hnext,
      List.replicate_succ', List.append_assoc,
      show w.delays + 256 + 256 * k = w.delays + 256 * (k + 1) by omega]
    rfl

/-- How a wait ends, for every history of the flag: `ms_timeout` delays and 256 more for each look
    before the first that sees it. -/
theorem endsAs_iff (msTimeout : UInt8) (w : Wait) :
    EndsAs twint msTimeout w ↔ ∃ k, FirstSeen twint msTimeout.toNat k ∧
      w = ⟨msTimeout.toNat + 256 * k, true :: List.replicate k false⟩ := by
  constructor
  · intro h
    obtain ⟨fuel, hloop⟩ := h
    obtain ⟨k, hseen, hw⟩ := firstSeen_of_waitLoop hloop
    rw [Nat.zero_add] at hseen hw
    rw [List.append_nil] at hw
    exact ⟨k, hseen, hw⟩
  · intro h
    obtain ⟨k, hseen, hw⟩ := h
    refine ⟨256 * k + 1 + msTimeout.toNat, ?_⟩
    rw [waitLoop_countdown rfl, waitLoop_of_firstSeen (by rwa [Nat.zero_add]), hw,
      List.append_nil, Nat.zero_add]

/-- The timeout is honoured exactly if the flag is there when the time is over. In every case a wait
    that ends has lasted `ms_timeout` delays, or 256 more for each look in vain. -/
theorem start_timeout_iff (twint : Nat → Bool) (msTimeout : UInt8) :
    (TimeoutHonoured twint msTimeout ↔ twint msTimeout.toNat = true) ∧
    ∀ w, EndsAs twint msTimeout w ↔ ∃ k, FirstSeen twint msTimeout.toNat k ∧
      w = ⟨msTimeout.toNat + 256 * k, true :: List.replicate k false⟩ := by
  refine ⟨⟨fun h => ?_, fun h => ?_⟩, endsAs_iff msTimeout⟩
  · obtain ⟨w, hends, hle, -⟩ := h
    obtain ⟨k, hseen, rfl⟩ := (endsAs_iff msTimeout w).mp hends
    dsimp only at hle
    have hk : k = 0 := by omega
    rw [hk] at hseen
    exact hseen.1
  · refine ⟨⟨msTimeout.toNat, [true]⟩, (endsAs_iff msTimeout _).mpr ⟨0, ⟨h, ?_⟩, rfl⟩,
      Nat.le_refl _, ?_⟩
    · intro j hj
      exact absurd hj (Nat.not_lt_zero j)
    · intro seen hmem
      cases hmem

/-- The 10 ms of `scan_i2c` and `auto_address`. An answer that comes after 11 ms ends the wait after
    266 ms; without any answer it does not end. -/
theorem start_timeout_overrun :
    EndsAs (fun t => decide (11 ≤ t)) 10 ⟨266, [true, false]⟩ ∧
      ¬ TimeoutHonoured (fun t => decide (11 ≤ t)) 10 ∧ ∀ w, ¬ EndsAs (fun _ => false) 10 w := by
  have hseen : FirstSeen (fun t => decide (11 ≤ t)) 10 1 := by
    refine ⟨rfl, fun j hj => ?_⟩
    rw [show j = 0 by omega]
    rfl
  refine ⟨(endsAs_iff 10 _).mpr ⟨1, hseen, rfl⟩, fun h => ?_, fun w h => ?_⟩
  · obtain ⟨w, hends, hle, -⟩ := h
    obtain ⟨k, hk, rfl⟩ := (endsAs_iff 10 w).mp hends
    have hset : 11 ≤ 10 + 256 * k := of_decide_eq_true hk.1
    have hshort : 10 + 256 * k ≤ 10 := hle
    omega
  · obtain ⟨k, hk, -⟩ := (endsAs_iff 10 w).mp h
    exact Bool.noConfusion hk.1

end DistHuffman.Master
