import HftLatencyLab.FixedWidth

/-! Integers that move to a target by the share `d / tau` of their distance, rounded toward
zero. A gap beyond `tau` moves them past it. A bucket that leaks its content in this way,
and gains `c` each time, stays bounded when the gaps have a least length. -/

namespace HftLatencyLab.Relaxation
open FixedWidth

def share (x d tau : ℤ) : ℤ := x * d / tau

variable {x t d e tau c : ℤ}

theorem share_nonneg (hx : 0 ≤ x) (hd : 0 ≤ d) (ht : 0 < tau) : 0 ≤ share x d tau :=
  Int.ediv_nonneg (mul_nonneg hx hd) ht.le

theorem share_zero (d tau : ℤ) : share 0 d tau = 0 := by
  rw [share, zero_mul, Int.zero_ediv]

theorem share_mono (hx : 0 ≤ x) (ht : 0 < tau) (longer : d ≤ e) : share x d tau ≤ share x e tau :=
  Int.ediv_le_ediv ht (mul_le_mul_of_nonneg_left longer hx)

theorem share_le_iff (ht : 0 < tau) : share x d tau ≤ x ↔ x * d < (x + 1) * tau := by
  rw [share, ← Int.lt_add_one_iff, Int.ediv_lt_iff_lt_mul ht]

theorem share_eq_zero_iff (hx : 0 ≤ x) (hd : 0 ≤ d) (ht : 0 < tau) :
    share x d tau = 0 ↔ x * d < tau := by
  have nonneg := share_nonneg hx hd ht
  have below : share x d tau < 1 ↔ x * d < 1 * tau := Int.ediv_lt_iff_lt_mul ht
  rw [one_mul] at below
  omega

theorem share_le (hx : 0 ≤ x) (ht : 0 < tau) (short : d ≤ tau) : share x d tau ≤ x := by
  rw [share_le_iff ht]
  have product : x * d ≤ x * tau := mul_le_mul_of_nonneg_left short hx
  linarith

def relax (x t d tau : ℤ) : ℤ := x + ((t - x) * d).tdiv tau

theorem relax_up (up : x ≤ t) (hd : 0 ≤ d) : relax x t d tau = x + share (t - x) d tau := by
  have nonneg : 0 ≤ (t - x) * d := mul_nonneg (by omega) hd
  rw [relax, share, Int.tdiv_eq_ediv_of_nonneg nonneg]

theorem relax_down (down : t ≤ x) (hd : 0 ≤ d) : relax x t d tau = x - share (x - t) d tau := by
  have nonpos : (t - x) * d ≤ 0 := mul_nonpos_of_nonpos_of_nonneg (by omega) hd
  have flip : -((t - x) * d) = (x - t) * d := by ring
  rw [relax, tdiv_of_nonpos _ nonpos, flip]
  exact (sub_eq_add_neg x (share (x - t) d tau)).symm

theorem bucket_bound (hd : 0 ≤ d) (short : d ≤ tau) (ht : 0 < tau) (bound : x * d ≤ (c + 1) * tau) :
    (x - share x d tau + c) * d ≤ (c + 1) * tau := by
  have floor : share x d tau * tau ≤ x * d := Int.ediv_mul_le _ ht.ne'
  have above : x * d < (share x d tau + 1) * tau := by
    rw [← Int.ediv_lt_iff_lt_mul ht]
    exact Int.lt_succ _
  have most : share x d tau ≤ c + 1 := le_of_mul_le_mul_right (floor.trans bound) ht
  generalize share x d tau = m at floor above most
  have spread : (x - m + c) * d = x * d + (c - m) * d := by ring
  rw [spread]
  rcases most.lt_or_eq with less | rfl
  · have rest : (c - m) * d ≤ (c - m) * tau := mul_le_mul_of_nonneg_left short (by omega)
    linarith
  · -- The share took all that the bound allows.
    have gone : (c - (c + 1)) * d = -d := by ring
    rw [gone]
    linarith

theorem bucket_bound_of_le (hd : 0 ≤ d) (short : d ≤ tau) (ht : 0 < tau) (hx : 0 ≤ x)
    (longer : d ≤ e) (bound : x * d ≤ (c + 1) * tau) :
    (x - share x e tau + c) * d ≤ (c + 1) * tau := by
  have least := bucket_bound hd short ht bound
  have more := share_mono hx ht longer
  have less : (x - share x e tau + c) * d ≤ (x - share x d tau + c) * d :=
    mul_le_mul_of_nonneg_right (by omega) hd
  exact less.trans least

end HftLatencyLab.Relaxation
