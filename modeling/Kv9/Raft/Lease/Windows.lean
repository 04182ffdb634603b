import Kv9.Lib.Drift
import Kv9.Raft.Lease.Policy

/-!
# The times of a lease

The times that a policy is given, together with a margin that covers the errors of the clocks,
are in order on any two clocks within the drift of the policy.  What the leader counts from
before a promise is over before the promise is, and what a voter counts after a restart is over
after every promise from before it.
-/

namespace Kv9.Raft.Lease

open Except

/-- The least rate of a clock. -/
def slowest (driftPpb : ℕ) : ℚ := 1 - driftPpb / rateScale

/-- The greatest rate of a clock. -/
def fastest (driftPpb : ℕ) : ℚ := 1 + driftPpb / rateScale

/-- Times that are accepted together with the bounds of the clocks. -/
structure Accepted (bounds : ClockBounds) (promiseNs driftPpb marginNs : ℕ) (timing : Timing) :
    Prop where
  margin : ∃ minimum, bounds.minimumMarginNs driftPpb = .ok minimum ∧ minimum ≤ marginNs
  timing_eq : Timing.new promiseNs driftPpb marginNs = .ok timing

/-- Two counts of which the first is the shorter one at every rate, whatever the errors of the
samples. -/
def Shorter (bounds : ClockBounds) (driftPpb short long : ℕ) : Prop :=
  fastest driftPpb * (short + 2 * bounds.errorNs) ≤ slowest driftPpb * (long - 2 * bounds.errorNs)
    ∧ (0 : ℚ) ≤ long - 2 * bounds.errorNs

theorem fastest_pos (driftPpb : ℕ) :
  0 < fastest driftPpb
  := by
  rw [fastest]
  positivity

theorem slowest_pos {driftPpb : ℕ} (h : driftPpb < rateScale) :
  0 < slowest driftPpb
  := by
  have hscale : (0 : ℚ) < rateScale := by norm_num [rateScale]
  have hlt : (driftPpb : ℚ) < rateScale := by exact_mod_cast h
  have := (div_lt_one hscale).mpr hlt
  rw [slowest]
  linarith

/-- The two rates, in parts per billion. -/
theorem mul_fastest_le {driftPpb : ℕ} {x y : ℚ}
    (h : (rateScale + driftPpb) * x ≤ (rateScale - driftPpb) * y) :
  fastest driftPpb * x ≤ slowest driftPpb * y
  := by
  have hscale : (0 : ℚ) < rateScale := by norm_num [rateScale]
  have hdiv := div_le_div_of_nonneg_right h hscale.le
  calc fastest driftPpb * x
      = (rateScale + driftPpb) * x / rateScale := by rw [fastest]; field_simp
    _ ≤ (rateScale - driftPpb) * y / rateScale := hdiv
    _ = slowest driftPpb * y := by rw [slowest]; field_simp

theorem le_ceil_mul (n : ℕ) {a : ℕ} (ha : 0 < a) :
  n ≤ (n + a - 1) / a * a
  := by
  have hlt := Nat.lt_mul_div_succ (n + a - 1) ha
  rw [Nat.mul_add, Nat.mul_comm] at hlt
  omega

namespace Accepted

variable {bounds : ClockBounds} {promiseNs driftPpb marginNs : ℕ} {timing : Timing}

section

variable (h : Accepted bounds promiseNs driftPpb marginNs timing)
include h

/-- What the check of the margin gives. -/
theorem covers :
  bounds.driftPpb ≤ driftPpb ∧ driftPpb < rateScale
    ∧ 4 * bounds.errorNs * rateScale ≤ marginNs * (rateScale - driftPpb)
  := by
  obtain ⟨minimum, hminimum, hmargin⟩ := h.margin
  unfold ClockBounds.minimumMarginNs at hminimum
  dsimp only at hminimum
  split_ifs at hminimum with hmax
  obtain rfl := ok.inj hminimum
  rw [Nat.div_le_iff_le_mul (by omega)] at hmargin
  omega

theorem spec :
  timing.promiseNs = promiseNs
    ∧ (timing.leaderNs + marginNs) * (rateScale + driftPpb) ≤ promiseNs * (rateScale - driftPpb)
    ∧ promiseNs * (rateScale + driftPpb) + marginNs * (rateScale - driftPpb)
      ≤ timing.recoveryNs * (rateScale - driftPpb)
    ∧ timing.leaderNs ≤ maxU64 ∧ timing.recoveryNs ≤ maxU64
  := by
  have htiming := h.timing_eq
  unfold Timing.new at htiming
  split_ifs at htiming with hinvalid
  dsimp only at htiming
  split_ifs at htiming with hmargin hmax
  rw [← ok.inj htiming]
  push Not at hmax
  refine ⟨rfl, ?_, ?_, hmax⟩
  · dsimp only
    rw [Nat.sub_add_cancel (not_le.mp hmargin).le]
    apply Nat.div_mul_le_self
  · dsimp only
    rw [Nat.add_mul]
    apply Nat.add_le_add_right (le_ceil_mul _ (by omega))

theorem promise_le_recovery :
  timing.promiseNs ≤ timing.recoveryNs
  := by
  obtain ⟨rfl, -, hrecovery, -⟩ := h.spec
  have hdrift := h.covers.2.1
  apply Nat.le_of_mul_le_mul_right _ (Nat.sub_pos_of_lt hdrift)
  have hrates : rateScale - driftPpb ≤ rateScale + driftPpb := by omega
  apply ((Nat.mul_le_mul_left _ hrates).trans (Nat.le_add_right ..)).trans hrecovery

/-- A clock within its bounds is within the drift of the policy. -/
theorem rateWithin {value : ℚ → ℚ}
    (hvalue : RateWithin (slowest bounds.driftPpb) (fastest bounds.driftPpb) value) :
  RateWithin (slowest driftPpb) (fastest driftPpb) value
  := by
  have hdrift : (bounds.driftPpb : ℚ) ≤ driftPpb := by exact_mod_cast h.covers.1
  have hdiv := div_le_div_of_nonneg_right hdrift (Nat.cast_nonneg (α := ℚ) rateScale)
  apply hvalue.mono
  · simp only [slowest]
    linarith
  · simp only [fastest]
    linarith

theorem spec_rat :
  ((timing.leaderNs : ℚ) + marginNs) * (rateScale + driftPpb) ≤ promiseNs * (rateScale - driftPpb)
    ∧ (promiseNs : ℚ) * (rateScale + driftPpb) + marginNs * (rateScale - driftPpb)
      ≤ timing.recoveryNs * (rateScale - driftPpb)
    ∧ 4 * (bounds.errorNs : ℚ) * rateScale ≤ marginNs * (rateScale - driftPpb)
  := by
  obtain ⟨-, hdrift, hmargin⟩ := h.covers
  obtain ⟨-, hleader, hrecovery, -⟩ := h.spec
  rw [← Nat.cast_sub hdrift.le]
  exact ⟨by exact_mod_cast hleader, by exact_mod_cast hrecovery, by exact_mod_cast hmargin⟩

/-- Times between which there is the margin. -/
theorem shorter_of {a b : ℕ} (hab : (a : ℚ) * (rateScale + driftPpb)
      + marginNs * (rateScale - driftPpb) ≤ b * (rateScale - driftPpb)) :
  Shorter bounds driftPpb a b
  := by
  obtain ⟨-, -, hmargin⟩ := h.spec_rat
  have hdrift : (driftPpb : ℚ) < rateScale := by exact_mod_cast h.covers.2.1
  have ha : (0 : ℚ) ≤ a * (rateScale + driftPpb) := by positivity
  have hE : (0 : ℚ) ≤ bounds.errorNs * (rateScale + driftPpb) := by positivity
  constructor
  · apply mul_fastest_le
    linarith
  · have hpos : (0 : ℚ) ≤ (b - 2 * bounds.errorNs) * (rateScale - driftPpb) := by linarith
    apply nonneg_of_mul_nonneg_left hpos
    linarith

/-- The leader's time is shorter than a promise. -/
theorem leader_shorter :
  Shorter bounds driftPpb timing.leaderNs timing.promiseNs
  := by
  apply h.shorter_of
  have hM : (0 : ℚ) ≤ marginNs * driftPpb := by positivity
  rw [h.spec.1]
  linarith [h.spec_rat.1]

/-- A promise is shorter than the time after a restart. -/
theorem promise_shorter :
  Shorter bounds driftPpb timing.promiseNs timing.recoveryNs
  := by
  apply h.shorter_of
  rw [h.spec.1]
  apply h.spec_rat.2.1

/-- The times fit 64 bits, and what they are computed from fits 128 bits. -/
theorem fits (hpromise : promiseNs < 2 ^ 64)
    (hmargin : marginNs < 2 ^ 64) (herror : bounds.errorNs < 2 ^ 64) :
  promiseNs * (rateScale - driftPpb) < 2 ^ 128 ∧ promiseNs * (rateScale + driftPpb) < 2 ^ 128
    ∧ (promiseNs * (rateScale + driftPpb) + (rateScale - driftPpb) - 1) / (rateScale - driftPpb)
      + marginNs < 2 ^ 128
    ∧ 4 * bounds.errorNs * rateScale < 2 ^ 128
    ∧ timing.promiseNs < 2 ^ 64 ∧ timing.leaderNs < 2 ^ 64 ∧ timing.recoveryNs < 2 ^ 64
  := by
  have hdrift : driftPpb < 1000000000 := h.covers.2.1
  obtain ⟨rfl, -, -, hleader, hrecovery⟩ := h.spec
  have hlow : timing.promiseNs * (rateScale - driftPpb) ≤ timing.promiseNs * 2000000000 := by
    apply Nat.mul_le_mul_left
    rw [rateScale]
    omega
  have hhigh : timing.promiseNs * (rateScale + driftPpb) ≤ timing.promiseNs * 2000000000 := by
    apply Nat.mul_le_mul_left
    rw [rateScale]
    omega
  have hquotient := Nat.div_le_self (timing.promiseNs * (rateScale + driftPpb)
    + (rateScale - driftPpb) - 1) (rateScale - driftPpb)
  simp only [maxU64] at hleader hrecovery
  simp only [rateScale] at hlow hhigh hquotient ⊢
  omega

end

end Accepted

/-- The two orders, on samples of any two clocks.  In real time the leader's window, counted from
before a promise, ends before the promise does on the voter's clock.  The time after a restart
ends after every promise from before the restart.  Nothing on the way overflows. -/
theorem lease_windows_nest {bounds : ClockBounds} {promiseNs driftPpb marginNs : ℕ} {timing : Timing}
    (h : Accepted bounds promiseNs driftPpb marginNs timing) {one other : ℚ → ℚ}
    (hone : RateWithin (slowest bounds.driftPpb) (fastest bounds.driftPpb) one)
    (hother : RateWithin (slowest bounds.driftPpb) (fastest bounds.driftPpb) other)
    {early late now done : ℕ} {s g t w : ℚ} (hsg : s ≤ g) (hs : |one s - early| ≤ bounds.errorNs)
    (hg : |other g - late| ≤ bounds.errorNs) (ht : |one t - now| ≤ bounds.errorNs)
    (hw : |other w - done| ≤ bounds.errorNs) :
  (now < early + timing.leaderNs → late + timing.promiseNs ≤ done → t < w)
    ∧ (now < early + timing.promiseNs → late + timing.recoveryNs ≤ done → t < w)
    ∧ (promiseNs < 2 ^ 64 → marginNs < 2 ^ 64 → bounds.errorNs < 2 ^ 64 →
      promiseNs * (rateScale - driftPpb) < 2 ^ 128 ∧ promiseNs * (rateScale + driftPpb) < 2 ^ 128
        ∧ (promiseNs * (rateScale + driftPpb) + (rateScale - driftPpb) - 1)
          / (rateScale - driftPpb) + marginNs < 2 ^ 128
        ∧ 4 * bounds.errorNs * rateScale < 2 ^ 128
        ∧ timing.promiseNs < 2 ^ 64 ∧ timing.leaderNs < 2 ^ 64 ∧ timing.recoveryNs < 2 ^ 64)
  := by
  have horder {short long : ℕ} (hshorter : Shorter bounds driftPpb short long)
      (hnow : now < early + short) (hdone : late + long ≤ done) : t < w := by
    have hnow' : (now : ℚ) < early + short := by exact_mod_cast hnow
    have hdone' : (late : ℚ) + long ≤ done := by exact_mod_cast hdone
    apply (h.rateWithin hone).lt_of_samples (h.rateWithin hother) (slowest_pos h.covers.2.1)
      (fastest_pos driftPpb) hsg hs hg ht hw hnow' hdone' hshorter.1 hshorter.2
  use horder h.leader_shorter, horder h.promise_shorter, h.fits

/-- A slow clock and a fast one, at the ends of their windows. -/
theorem lease_windows_nest_sample :
  Accepted ⟨100000000, 1⟩ 1000 100000000 5 ⟨1000, 813, 1228⟩
    ∧ (812 < 0 + 813 → 0 + 1000 ≤ 1000 → (902 : ℚ) < 909)
  := by
  have haccepted : Accepted ⟨100000000, 1⟩ 1000 100000000 5 ⟨1000, 813, 1228⟩ :=
    ⟨⟨5, by decide, by decide⟩, by decide⟩
  have hslow : RateWithin (slowest 100000000) (fastest 100000000) (fun t => 9 / 10 * t) :=
    .of_rate (by norm_num [slowest, rateScale]) (by norm_num [fastest, rateScale])
  have hfast : RateWithin (slowest 100000000) (fastest 100000000) (fun t => 11 / 10 * t) :=
    .of_rate (by norm_num [slowest, rateScale]) (by norm_num [fastest, rateScale])
  have hearly : |9 / 10 * (0 : ℚ) - (0 : ℕ)| ≤ (1 : ℕ) := by norm_num
  have hlate : |11 / 10 * (0 : ℚ) - (0 : ℕ)| ≤ (1 : ℕ) := by norm_num
  have hnow : |9 / 10 * (902 : ℚ) - (812 : ℕ)| ≤ (1 : ℕ) := by norm_num [abs_le]
  have hdone : |11 / 10 * (909 : ℚ) - (1000 : ℕ)| ≤ (1 : ℕ) := by norm_num [abs_le]
  use haccepted
  apply (lease_windows_nest haccepted hslow hfast le_rfl hearly hlate hnow hdone).1

end Kv9.Raft.Lease
