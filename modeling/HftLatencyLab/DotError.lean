import Mathlib.Algebra.Order.BigOperators.Group.Finset
import Mathlib.Algebra.Order.BigOperators.Ring.Finset
import Mathlib.Algebra.Order.Field.Basic
import Mathlib.Tactic.Linarith
import Mathlib.Tactic.Ring

/-! How far a product of approximations, and a sum of such products, is from the exact one, and
what a rounded quotient approximates. -/

namespace HftLatencyLab.DotError

variable {K : Type*} [Field K]

theorem mul_dot {ι : Type*} [Fintype ι] (s t : K) (a b : ι → K) :
    s * t * ∑ i, a i * b i = ∑ i, s * a i * (t * b i) := by
  rw [Finset.mul_sum]
  exact Finset.sum_congr rfl fun i _ => by ring

variable [LinearOrder K] [IsStrictOrderedRing K]

theorem abs_mul_sub_le_of_near {s x : K} {n : ℤ} (pos : 0 < s) (near : |x / s - n| ≤ 1 / 2) :
    |s * n - x| ≤ s / 2 := by
  have whole : s * n - x = -(s * (x / s - n)) := by
    rw [mul_sub, mul_div_cancel₀ x pos.ne']
    ring
  calc |s * n - x| = s * |x / s - n| := by rw [whole, abs_neg, abs_mul, abs_of_pos pos]
    _ ≤ s * (1 / 2) := mul_le_mul_of_nonneg_left near pos.le
    _ = s / 2 := by ring

variable {δ ε : K}

theorem abs_mul_sub_mul_le {a b x w : K} (ha : |a - x| ≤ δ) (hb : |b - w| ≤ ε) :
    |a * b - x * w| ≤ δ * |w| + ε * |x| + δ * ε := by
  have split : a * b - x * w = (a - x) * w + (b - w) * x + (a - x) * (b - w) := by ring
  have first : |(a - x) * w| ≤ δ * |w| := by
    rw [abs_mul]
    exact mul_le_mul_of_nonneg_right ha (abs_nonneg w)
  have second : |(b - w) * x| ≤ ε * |x| := by
    rw [abs_mul]
    exact mul_le_mul_of_nonneg_right hb (abs_nonneg x)
  have both : |(a - x) * (b - w)| ≤ δ * ε := by
    rw [abs_mul]
    exact mul_le_mul ha hb (abs_nonneg _) ((abs_nonneg _).trans ha)
  rw [split]
  calc |(a - x) * w + (b - w) * x + (a - x) * (b - w)|
      ≤ |(a - x) * w + (b - w) * x| + |(a - x) * (b - w)| := abs_add_le _ _
    _ ≤ |(a - x) * w| + |(b - w) * x| + |(a - x) * (b - w)| :=
        add_le_add_left (abs_add_le _ _) _
    _ ≤ δ * |w| + ε * |x| + δ * ε := add_le_add (add_le_add first second) both

theorem abs_dot_sub_dot_le_sum {ι : Type*} [Fintype ι] {a b x w d e : ι → K}
    (ha : ∀ i, |a i - x i| ≤ d i) (hb : ∀ i, |b i - w i| ≤ e i) :
    |∑ i, a i * b i - ∑ i, x i * w i| ≤ ∑ i, (d i * |w i| + e i * |x i| + d i * e i) := by
  rw [← Finset.sum_sub_distrib]
  calc |∑ i, (a i * b i - x i * w i)| ≤ ∑ i, |a i * b i - x i * w i| :=
        Finset.abs_sum_le_sum_abs _ _
    _ ≤ ∑ i, (d i * |w i| + e i * |x i| + d i * e i) :=
        Finset.sum_le_sum fun i _ => abs_mul_sub_mul_le (ha i) (hb i)

theorem abs_dot_sub_dot_le {ι : Type*} [Fintype ι] {a b x w : ι → K}
    (ha : ∀ i, |a i - x i| ≤ δ) (hb : ∀ i, |b i - w i| ≤ ε) :
    |∑ i, a i * b i - ∑ i, x i * w i| ≤ ∑ i, (δ * |w i| + ε * |x i| + δ * ε) :=
  abs_dot_sub_dot_le_sum ha hb

end HftLatencyLab.DotError
