import Mathlib.Data.Int.ModEq
import Mathlib.Tactic.Linarith
import Mathlib.Tactic.Ring
import Mathlib.Tactic.NormNum

/-! Exact integers behind fixed-width registers: when a widening, a shift or a
truncated quotient is the integer it stands for, and how division rounding
toward zero differs from division rounding down. -/

namespace HftLatencyLab.FixedWidth

theorem toInt_setWidth_of_lt {w v : ℕ} (x : BitVec w) (h : w < v) :
    (x.setWidth v).toInt = x.toNat := by
  have hx := x.isLt
  have wider : 2 * 2 ^ w ≤ 2 ^ v := by
    rw [← pow_succ']
    exact Nat.pow_le_pow_right (by norm_num) h
  have value : (x.setWidth v).toNat = x.toNat := by
    rw [BitVec.toNat_setWidth, Nat.mod_eq_of_lt (by omega)]
  rw [BitVec.toInt_eq_toNat_of_lt (by omega), value]

theorem setWidth_eq_ofInt {w v : ℕ} (x : BitVec w) (h : v ≤ w) :
    x.setWidth v = BitVec.ofInt v x.toInt := by
  apply BitVec.eq_of_toInt_eq
  rw [BitVec.toInt_setWidth, BitVec.toInt_ofInt, BitVec.toInt_eq_toNat_bmod,
    Int.bmod_bmod_of_dvd (pow_dvd_pow 2 h)]

theorem toInt_add_ofInt {w : ℕ} {x : BitVec (w + 1)} {n : ℤ} (lo : -2 ^ w ≤ x.toInt + n)
    (hi : x.toInt + n < 2 ^ w) : (x + BitVec.ofInt (w + 1) n).toInt = x.toInt + n := by
  rw [BitVec.toInt_add, BitVec.toInt_ofInt, Int.add_bmod_bmod]
  exact Int.bmod_eq_of_le_mul_two (by push_cast; rw [pow_succ]; omega)
    (by push_cast; rw [pow_succ]; omega)

theorem toInt_sub_ofInt {w : ℕ} {x : BitVec (w + 1)} {n : ℤ} (lo : -2 ^ w ≤ x.toInt - n)
    (hi : x.toInt - n < 2 ^ w) : (x - BitVec.ofInt (w + 1) n).toInt = x.toInt - n := by
  rw [BitVec.sub_eq_add_neg, ← BitVec.ofInt_neg, toInt_add_ofInt (by omega) (by omega),
    sub_eq_add_neg]

theorem toInt_add_of_range {w : ℕ} {x y : BitVec (w + 1)} (lo : -2 ^ w ≤ x.toInt + y.toInt)
    (hi : x.toInt + y.toInt < 2 ^ w) : (x + y).toInt = x.toInt + y.toInt := by
  have sum := toInt_add_ofInt lo hi
  rwa [BitVec.ofInt_toInt] at sum

theorem toInt_sub_of_range {w : ℕ} {x y : BitVec (w + 1)} (lo : -2 ^ w ≤ x.toInt - y.toInt)
    (hi : x.toInt - y.toInt < 2 ^ w) : (x - y).toInt = x.toInt - y.toInt := by
  have difference := toInt_sub_ofInt lo hi
  rwa [BitVec.ofInt_toInt] at difference

theorem toInt_signExtend_succ {w : ℕ} (x : BitVec (w + 1)) :
    (x.signExtend (w + 2)).toInt = x.toInt ∧ -2 ^ w ≤ x.toInt ∧ x.toInt < 2 ^ w :=
  ⟨BitVec.toInt_signExtend_of_le (Nat.le_succ _), BitVec.le_toInt x, BitVec.toInt_lt⟩

theorem toInt_signExtend_add {w : ℕ} (x y : BitVec (w + 1)) :
    (x.signExtend (w + 2) + y.signExtend (w + 2)).toInt = x.toInt + y.toInt := by
  obtain ⟨hx, lx, ux⟩ := toInt_signExtend_succ x
  obtain ⟨hy, ly, uy⟩ := toInt_signExtend_succ y
  have double : (2 : ℤ) ^ (w + 1) = 2 * 2 ^ w := pow_succ' 2 w
  rw [toInt_add_of_range (by omega) (by omega), hx, hy]

theorem toInt_signExtend_sub {w : ℕ} (x y : BitVec (w + 1)) :
    (x.signExtend (w + 2) - y.signExtend (w + 2)).toInt = x.toInt - y.toInt := by
  obtain ⟨hx, lx, ux⟩ := toInt_signExtend_succ x
  obtain ⟨hy, ly, uy⟩ := toInt_signExtend_succ y
  have double : (2 : ℤ) ^ (w + 1) = 2 * 2 ^ w := pow_succ' 2 w
  rw [toInt_sub_of_range (by omega) (by omega), hx, hy]

theorem toInt_shiftLeft_of_range {w n : ℕ} (hw : 0 < w) {x : BitVec w}
    (lo : -2 ^ (w - 1) ≤ x.toInt * 2 ^ n) (hi : x.toInt * 2 ^ n < 2 ^ (w - 1)) :
    (x <<< n).toInt = x.toInt * 2 ^ n := by
  have shifted : x <<< n = BitVec.ofInt w (x.toInt * 2 ^ n) := by
    apply BitVec.eq_of_toInt_eq
    rw [BitVec.toInt_shiftLeft, BitVec.toInt_ofInt, Nat.shiftLeft_eq,
      BitVec.toInt_eq_toNat_bmod, Int.bmod_mul_bmod]
    push_cast
    rfl
  rw [shifted, BitVec.toInt_ofInt_eq_self hw lo hi]

theorem get_set {α : Type*} {n : ℕ} (v : Vector α n) (i : ℕ) (h : i < n) (x : α) (k : Fin n) :
    (v.set i x h).get k = if i = k.val then x else v.get k :=
  Vector.getElem_set h k.isLt

theorem get_map {α β : Type*} {n : ℕ} (f : α → β) (v : Vector α n) (k : Fin n) :
    (v.map f).get k = f (v.get k) :=
  Vector.getElem_map f k.isLt

def saturateU32 (x : ℤ) : ℤ := max 0 (min x 0xFFFFFFFF)

theorem saturateU32_of_range {x : ℤ} (lo : 0 ≤ x) (hi : x ≤ 0xFFFFFFFF) :
    saturateU32 x = x := by
  unfold saturateU32
  omega

theorem bmod_inside {x : ℤ} (lo : -2 ^ 31 ≤ x) (hi : x < 2 ^ 31) : x.bmod (2 ^ 32) = x :=
  Int.bmod_eq_of_le_mul_two (by omega) (by omega)

theorem bmod_below {x : ℤ} (lo : -2 ^ 32 ≤ x) (hi : x < -2 ^ 31) :
    x.bmod (2 ^ 32) = x + 2 ^ 32 := by
  have wrapped : (x + 2 ^ 32).bmod (2 ^ 32) = x.bmod (2 ^ 32) := Int.add_bmod_right x (2 ^ 32)
  rw [← wrapped, bmod_inside (by omega) (by omega)]

theorem bmod_above {x : ℤ} (lo : 2 ^ 31 ≤ x) (hi : x < 2 ^ 32) :
    x.bmod (2 ^ 32) = x - 2 ^ 32 := by
  have wrapped : (x - 2 ^ 32).bmod (2 ^ 32) = x.bmod (2 ^ 32) := Int.sub_bmod_right x (2 ^ 32)
  rw [← wrapped, bmod_inside (by omega) (by omega)]

theorem bmod_eq_saturated_iff {x : ℤ} (lo : -2 ^ 32 ≤ x) (hi : x < 2 ^ 32) :
    x.bmod (2 ^ 32) = max (min x (2 ^ 31 - 1)) (-2 ^ 31) ↔ -2 ^ 31 ≤ x ∧ x < 2 ^ 31 := by
  rcases lt_or_ge x (-2 ^ 31) with below | above
  · rw [bmod_below lo below]
    omega
  · rcases lt_or_ge x (2 ^ 31) with inside | beyond
    · rw [bmod_inside above inside]
      omega
    · rw [bmod_above beyond hi]
      omega

theorem abs_bmod {x : ℤ} (fits : |x| < 2 ^ 32) :
    |x.bmod (2 ^ 32)| = if |x| ≤ 2 ^ 31 then |x| else 2 ^ 32 - |x| := by
  obtain ⟨lo, hi⟩ := abs_lt.mp fits
  rcases lt_or_ge x (-2 ^ 31) with below | above
  · rw [bmod_below lo.le below, abs_of_nonneg (by omega), abs_of_neg (by omega), if_neg (by omega)]
    omega
  · rcases lt_or_ge x (2 ^ 31) with inside | beyond
    · rw [bmod_inside above inside, if_pos (abs_le.mpr ⟨above, inside.le⟩)]
    · rw [bmod_above beyond hi, abs_of_nonpos (by omega), abs_of_nonneg (by omega)]
      split_ifs <;> omega

theorem tdiv_of_nonpos {n : ℤ} (d : ℤ) (h : n ≤ 0) : n.tdiv d = -(-n / d) := by
  rw [← Int.tdiv_eq_ediv_of_nonneg (by omega), Int.neg_tdiv, neg_neg]

theorem tdiv_bounds {n d m : ℤ} (hd : 0 < d) (lo : -(m * d) ≤ n) (hi : n ≤ m * d) :
    -m ≤ n.tdiv d ∧ n.tdiv d ≤ m := by
  rcases le_total 0 n with pos | neg
  · rw [Int.tdiv_eq_ediv_of_nonneg pos]
    have upper := Int.ediv_le_of_le_mul hd hi
    have lower : 0 ≤ n / d := Int.ediv_nonneg pos hd.le
    omega
  · have flip := tdiv_of_nonpos d neg
    have upper := Int.ediv_le_of_le_mul hd (show -n ≤ m * d by omega)
    have lower : 0 ≤ -n / d := Int.ediv_nonneg (by omega) hd.le
    omega

theorem tdiv_le_tdiv {n d n' d' : ℤ} (hd : 0 < d) (hd' : 0 < d') (le : n * d' ≤ n' * d) :
    n.tdiv d ≤ n'.tdiv d' := by
  have down {n d n' d' : ℤ} (hd : 0 < d) (hd' : 0 < d') (le : n * d' ≤ n' * d) :
      n / d ≤ n' / d' := by
    rw [Int.le_ediv_iff_mul_le hd']
    have floor : n / d * d ≤ n := Int.ediv_mul_le n hd.ne'
    have scaled : n / d * d' * d ≤ n' * d := by
      calc n / d * d' * d = n / d * d * d' := by ring
        _ ≤ n * d' := mul_le_mul_of_nonneg_right floor hd'.le
        _ ≤ n' * d := le
    exact le_of_mul_le_mul_right scaled hd
  rcases le_total 0 n with pos | neg
  · have pos' : 0 ≤ n' := by
      have product : 0 ≤ n' * d := (mul_nonneg pos hd'.le).trans le
      exact nonneg_of_mul_nonneg_left product hd
    rw [Int.tdiv_eq_ediv_of_nonneg pos, Int.tdiv_eq_ediv_of_nonneg pos']
    exact down hd hd' le
  · rw [tdiv_of_nonpos d neg]
    rcases le_total 0 n' with pos' | neg'
    · have quotient : 0 ≤ -n / d := Int.ediv_nonneg (by omega) hd.le
      have quotient' : 0 ≤ n'.tdiv d' := Int.tdiv_nonneg pos' hd'.le
      omega
    · rw [tdiv_of_nonpos d' neg', neg_le_neg_iff]
      exact down hd' hd (by linarith)

theorem mul_bounds {n d a b : ℤ} (lo : -a ≤ n) (hi : n ≤ a) (ha : 0 ≤ a) (hd : 0 ≤ d)
    (hb : d ≤ b) : -(a * b) ≤ n * d ∧ n * d ≤ a * b := by
  have grow : a * d ≤ a * b := mul_le_mul_of_nonneg_left hb ha
  have upper : n * d ≤ a * d := mul_le_mul_of_nonneg_right hi hd
  have lower : -a * d ≤ n * d := mul_le_mul_of_nonneg_right lo hd
  constructor <;> linarith

theorem fdiv_eq_tdiv {n d : ℤ} (hd : 0 < d) (h : 0 ≤ n ∨ d ∣ n) : n.fdiv d = n.tdiv d := by
  rw [Int.fdiv_eq_ediv_of_nonneg n hd.le, Int.tdiv_eq_ediv, if_pos h, add_zero]

theorem fdiv_eq_tdiv_sub_one {n d : ℤ} (hd : 0 < d) (h : ¬(0 ≤ n ∨ d ∣ n)) :
    n.fdiv d = n.tdiv d - 1 := by
  rw [Int.fdiv_eq_ediv_of_nonneg n hd.le, Int.tdiv_eq_ediv, if_neg h, Int.sign_eq_one_of_pos hd]
  omega

theorem saturate_tdiv_eq_fdiv_iff {v n d : ℤ} (hd : 0 < d) (lo : 0 ≤ v) (hi : v ≤ 0xFFFFFFFF) :
    saturateU32 (v + n.tdiv d) = saturateU32 (v + n.fdiv d) ↔ 0 ≤ n ∨ d ∣ n ∨ v * d ≤ -n := by
  by_cases whole : 0 ≤ n ∨ d ∣ n
  · rw [fdiv_eq_tdiv hd whole]
    simp only [true_iff]
    tauto
  · have neg : n < 0 := by
      rw [not_or] at whole
      omega
    have quotient := tdiv_of_nonpos d neg.le
    have small : 0 ≤ -n / d := Int.ediv_nonneg (by omega) hd.le
    have emptied : v ≤ -n / d ↔ v * d ≤ -n := Int.le_ediv_iff_mul_le hd
    rw [not_or] at whole
    rw [fdiv_eq_tdiv_sub_one hd (by tauto), quotient, ← emptied]
    unfold saturateU32
    constructor
    · intro same
      right
      right
      omega
    · rintro (pos | divides | empty)
      · exact absurd pos whole.1
      · exact absurd divides whole.2
      · omega

end HftLatencyLab.FixedWidth
