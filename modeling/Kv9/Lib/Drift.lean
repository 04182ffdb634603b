import Mathlib

/-!
# Clocks that drift

A clock gives a value at each instant, and its rate stays between two bounds.  Something counted
on a slow clock can take longer than the same count on a fast one; how much longer is known from
the bounds.
-/

/-- A clock whose rate is at least `slow` and at most `fast`. -/
structure RateWithin (slow fast : ℚ) (value : ℚ → ℚ) : Prop where
  le_elapsed : ∀ {s t}, s ≤ t → slow * (t - s) ≤ value t - value s
  elapsed_le : ∀ {s t}, s ≤ t → value t - value s ≤ fast * (t - s)

namespace RateWithin

variable {slow fast slow' fast' : ℚ} {value value' : ℚ → ℚ}

theorem of_rate {rate : ℚ} (hslow : slow ≤ rate) (hfast : rate ≤ fast) :
  RateWithin slow fast (fun t => rate * t)
  where
  le_elapsed := by
    intro s t hst
    rw [← mul_sub]
    apply mul_le_mul_of_nonneg_right hslow (by linarith)
  elapsed_le := by
    intro s t hst
    rw [← mul_sub]
    apply mul_le_mul_of_nonneg_right hfast (by linarith)

theorem mono (h : RateWithin slow fast value) (hslow : slow' ≤ slow) (hfast : fast ≤ fast') :
  RateWithin slow' fast' value
  where
  le_elapsed := by
    intro s t hst
    apply le_trans _ (h.le_elapsed hst)
    apply mul_le_mul_of_nonneg_right hslow (by linarith)
  elapsed_le := by
    intro s t hst
    apply le_trans (h.elapsed_le hst)
    apply mul_le_mul_of_nonneg_right hfast (by linarith)

/-- A count that one clock has not reached since `s` ends before a count that another clock has
reached since a later instant, if the first count is the shorter one at every rate. -/
theorem lt_of_count (h : RateWithin slow fast value) (hslow : 0 < slow) (hfast : 0 < fast)
    {count : ℚ} {long s t g w : ℚ} (ht : value t - value s < count) (hsg : s ≤ g)
    (hw : long ≤ fast * (w - g)) (hcount : fast * count ≤ slow * long) (hlong : 0 ≤ long) :
  t < w
  := by
  have hgw : 0 ≤ w - g := by
    by_contra hneg
    have := mul_neg_of_pos_of_neg hfast (not_le.mp hneg)
    linarith
  by_cases hts : t < s
  · linarith
  · have helapsed : slow * (t - s) < count :=
      lt_of_le_of_lt (h.le_elapsed (not_lt.mp hts)) ht
    have hscaled : (slow * fast) * (t - s) < (slow * fast) * (w - g) := by
      calc (slow * fast) * (t - s)
          = fast * (slow * (t - s)) := by ring
        _ < fast * count := by
          apply mul_lt_mul_of_pos_left helapsed hfast
        _ ≤ slow * long := hcount
        _ ≤ slow * (fast * (w - g)) := by
          apply mul_le_mul_of_nonneg_left hw hslow.le
        _ = (slow * fast) * (w - g) := by ring
    have := lt_of_mul_lt_mul_left hscaled (mul_pos hslow hfast).le
    linarith

/-- The same from samples of the two clocks, each of them off by at most an error. -/
theorem lt_of_samples (h : RateWithin slow fast value) (h' : RateWithin slow fast value')
    (hslow : 0 < slow) (hfast : 0 < fast) {error short long early late now done s g t w : ℚ}
    (hsg : s ≤ g) (hs : |value s - early| ≤ error) (hg : |value' g - late| ≤ error)
    (ht : |value t - now| ≤ error) (hw : |value' w - done| ≤ error) (hnow : now < early + short)
    (hdone : late + long ≤ done) (hcount : fast * (short + 2 * error) ≤ slow * (long - 2 * error))
    (hlong : 0 ≤ long - 2 * error) :
  t < w
  := by
  rw [abs_le] at hs hg ht hw
  apply h.lt_of_count hslow hfast _ hsg _ hcount hlong
  · linarith
  · by_cases hgw : g ≤ w
    · have := h'.elapsed_le hgw
      linarith
    · have hback := h'.le_elapsed (not_le.mp hgw).le
      have := mul_pos hslow (sub_pos.mpr (not_le.mp hgw))
      linarith

end RateWithin
