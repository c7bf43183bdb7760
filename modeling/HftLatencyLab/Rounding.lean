import Mathlib.Algebra.Order.Floor.Ring
import Mathlib.Algebra.Ring.Int.Parity
import Mathlib.Tactic.Linarith
import Mathlib.Tactic.NormNum
import Mathlib.Tactic.Ring

/-! Rounding to the nearest integer, with the ties away from zero or to the even integer.
The two differ in the ties next to an even integer, and there by one. -/

namespace HftLatencyLab.Rounding

section Nearest

variable {α : Type*} [Field α] [LinearOrder α]

def IsNearestEven (x : α) (n : ℤ) : Prop := |x - n| < 1 / 2 ∨ |x - n| = 1 / 2 ∧ Even n

theorem IsNearestEven.dist_le {x : α} {n : ℤ} (near : IsNearestEven x n) : |x - n| ≤ 1 / 2 := by
  rcases near with close | ⟨tie, -⟩
  · exact close.le
  · exact tie.le

theorem IsNearestEven.neg {x : α} {n : ℤ} (near : IsNearestEven x n) : IsNearestEven (-x) (-n) := by
  have mirrored : |-x - ((-n : ℤ) : α)| = |x - n| := by
    push_cast
    rw [← abs_neg]
    congr 1
    ring
  rw [IsNearestEven, mirrored, even_neg]
  exact near

variable [IsStrictOrderedRing α]

theorem IsNearestEven.not_next {x : α} {n : ℤ} (low : IsNearestEven x n)
    (high : IsNearestEven x (n + 1)) : False := by
  have dLow := abs_le.mp low.dist_le
  have dHigh := abs_le.mp high.dist_le
  push_cast at dHigh
  have tieLow : |x - n| = 1 / 2 := by
    rw [abs_of_nonneg (by linarith)]
    linarith
  have tieHigh : |x - ((n + 1 : ℤ) : α)| = 1 / 2 := by
    push_cast
    rw [abs_of_nonpos (by linarith)]
    linarith
  have even : Even n := (low.resolve_left tieLow.not_lt).2
  have even' : Even (n + 1) := (high.resolve_left tieHigh.not_lt).2
  exact Int.even_add_one.mp even' even

theorem IsNearestEven.unique {x : α} {n k : ℤ} (hn : IsNearestEven x n)
    (hk : IsNearestEven x k) : n = k := by
  have dn := abs_le.mp hn.dist_le
  have dk := abs_le.mp hk.dist_le
  have up : (n : α) - k ≤ 1 := by linarith
  have down : (k : α) - n ≤ 1 := by linarith
  have upper : n - k ≤ 1 := by exact_mod_cast up
  have lower : k - n ≤ 1 := by exact_mod_cast down
  by_contra other
  rcases (by omega : n = k + 1 ∨ k = n + 1) with rfl | rfl
  · exact hk.not_next hn
  · exact hn.not_next hk

end Nearest

variable {α : Type*} [Field α] [LinearOrder α] [IsStrictOrderedRing α] [FloorRing α]

def truncate (x : α) : ℤ := if 0 ≤ x then ⌊x⌋ else ⌈x⌉

def roundHalfAway (x : α) : ℤ := if 0 ≤ x then ⌊x + 1 / 2⌋ else ⌈x - 1 / 2⌉

def roundHalfEven (x : α) : ℤ :=
  if x - ⌊x⌋ < 1 / 2 then ⌊x⌋
  else if 1 / 2 < x - ⌊x⌋ then ⌊x⌋ + 1
  else if Even ⌊x⌋ then ⌊x⌋ else ⌊x⌋ + 1

theorem truncate_add_half {x : α} (nonneg : 0 ≤ x) : truncate (x + 1 / 2) = roundHalfAway x := by
  have shifted : 0 ≤ x + 1 / 2 := by linarith
  rw [truncate, roundHalfAway, if_pos shifted, if_pos nonneg]

theorem truncate_sub_half {x : α} (neg : x < 0) : truncate (x - 1 / 2) = roundHalfAway x := by
  have shifted : ¬0 ≤ x - 1 / 2 := by linarith
  rw [truncate, roundHalfAway, if_neg shifted, if_neg (not_le.mpr neg)]

theorem roundHalfAway_neg (x : α) : roundHalfAway (-x) = -roundHalfAway x := by
  unfold roundHalfAway
  rcases lt_trichotomy x 0 with neg | rfl | pos
  · rw [if_pos (by linarith), if_neg (not_le.mpr neg), ← Int.floor_neg]
    congr 1
    ring
  · have half : ⌊(1 / 2 : α)⌋ = 0 := by
      rw [Int.floor_eq_iff]
      norm_num
    rw [neg_zero, if_pos le_rfl, zero_add, half, neg_zero]
  · rw [if_neg (by linarith), if_pos pos.le, ← Int.ceil_neg]
    congr 1
    ring

theorem roundHalfAway_dist (x : α) : |x - roundHalfAway x| ≤ 1 / 2 := by
  unfold roundHalfAway
  rw [abs_le]
  split_ifs
  · have low := Int.floor_le (x + 1 / 2)
    have high := Int.lt_floor_add_one (x + 1 / 2)
    constructor <;> linarith
  · have low := Int.ceil_lt_add_one (x - 1 / 2)
    have high := Int.le_ceil (x - 1 / 2)
    constructor <;> linarith

theorem abs_le_of_dist {x : α} {n : ℤ} {bound : ℕ} (near : |x - n| ≤ 1 / 2)
    (inside : |x| ≤ bound) : |n| ≤ bound := by
  have close := abs_le.mp near
  have span := abs_le.mp inside
  have upper : (n : α) < bound + 1 := by linarith
  have lower : (-bound - 1 : α) < n := by linarith
  have upper' : n < bound + 1 := by exact_mod_cast upper
  have lower' : -(bound : ℤ) - 1 < n := by exact_mod_cast lower
  rw [abs_le]
  omega

theorem roundHalfEven_nearest (x : α) : IsNearestEven x (roundHalfEven x) := by
  have low := Int.floor_le x
  have high := Int.lt_floor_add_one x
  unfold roundHalfEven IsNearestEven
  split_ifs with below above even
  · left
    rw [abs_of_nonneg (by linarith)]
    exact below
  · left
    push_cast
    rw [abs_of_nonpos (by linarith)]
    linarith
  · right
    rw [abs_of_nonneg (by linarith)]
    exact ⟨by linarith, even⟩
  · right
    push_cast
    rw [abs_of_nonpos (by linarith)]
    exact ⟨by linarith, Int.even_add_one.mpr even⟩

theorem roundHalfEven_eq {x : α} {n : ℤ} (near : IsNearestEven x n) : roundHalfEven x = n :=
  (roundHalfEven_nearest x).unique near

theorem roundHalfEven_eq_zero_iff {x : α} : roundHalfEven x = 0 ↔ |x| ≤ 1 / 2 := by
  constructor
  · intro zero
    have near := (roundHalfEven_nearest x).dist_le
    rwa [zero, Int.cast_zero, sub_zero] at near
  · intro small
    apply roundHalfEven_eq
    rw [IsNearestEven, Int.cast_zero, sub_zero]
    exact small.lt_or_eq.imp_right (fun tie => ⟨tie, Even.zero⟩)

theorem roundHalfEven_neg (x : α) : roundHalfEven (-x) = -roundHalfEven x :=
  roundHalfEven_eq (roundHalfEven_nearest x).neg

/-- Away from the ties with an even integer below, adding a half and cutting off is rounding to
the nearest, ties to even. -/
theorem roundHalfEven_eq_floor {x : α} (nonneg : 0 ≤ x) (free : ∀ m : ℕ, x ≠ 2 * m + 1 / 2) :
    roundHalfEven x = ⌊x + 1 / 2⌋ := by
  have low := Int.floor_le (x + 1 / 2)
  have high := Int.lt_floor_add_one (x + 1 / 2)
  refine roundHalfEven_eq ?_
  rcases low.lt_or_eq with inside | edge
  · left
    rw [abs_lt]
    constructor <;> linarith
  · right
    refine ⟨?_, ?_⟩
    · rw [edge, sub_add_cancel_left, abs_neg]
      norm_num
    · -- An odd integer above the tie would make it one of the excluded ones.
      by_contra odd
      obtain ⟨m, half⟩ := Int.not_even_iff_odd.mp odd
      have wide : 0 ≤ ⌊x + 1 / 2⌋ := Int.floor_nonneg.mpr (by linarith)
      obtain ⟨k, rfl⟩ := Int.eq_ofNat_of_zero_le (by omega : 0 ≤ m)
      apply free k
      rw [half] at edge
      push_cast at edge
      linarith

theorem halfAway_cases {x : α} (nonneg : 0 ≤ x) :
    roundHalfAway x = roundHalfEven x ∧ (∀ m : ℕ, x ≠ 2 * m + 1 / 2) ∨
      ∃ m : ℕ, x = 2 * m + 1 / 2 ∧ roundHalfEven x = 2 * m ∧ roundHalfAway x = 2 * m + 1 := by
  have away : roundHalfAway x = ⌊x + 1 / 2⌋ := if_pos nonneg
  by_cases tie : ∃ m : ℕ, x = 2 * m + 1 / 2
  · obtain ⟨m, rfl⟩ := tie
    refine Or.inr ⟨m, rfl, roundHalfEven_eq (Or.inr ⟨?_, even_two_mul _⟩), ?_⟩
    · push_cast
      rw [add_sub_cancel_left]
      norm_num
    · rw [away, Int.floor_eq_iff]
      push_cast
      constructor <;> linarith
  · push Not at tie
    refine Or.inl ⟨?_, tie⟩
    rw [away, roundHalfEven_eq_floor nonneg tie]

theorem halfAway_cases_abs (x : α) :
    roundHalfAway x = roundHalfEven x ∧ (∀ m : ℕ, |x| ≠ 2 * m + 1 / 2) ∨
      ∃ m : ℕ, |x| = 2 * m + 1 / 2 ∧ (roundHalfEven x = 2 * m ∧ roundHalfAway x = 2 * m + 1 ∨
        roundHalfEven x = -(2 * m) ∧ roundHalfAway x = -(2 * m + 1)) := by
  rcases le_total 0 x with nonneg | neg
  · rw [abs_of_nonneg nonneg]
    exact (halfAway_cases nonneg).imp_right
      (fun ⟨m, tie, even, away⟩ => ⟨m, tie, Or.inl ⟨even, away⟩⟩)
  · have mirrored := halfAway_cases (neg_nonneg.mpr neg)
    rw [roundHalfAway_neg, roundHalfEven_neg, neg_inj] at mirrored
    rw [abs_of_nonpos neg]
    refine mirrored.imp_right (fun ⟨m, tie, even, away⟩ => ⟨m, tie, Or.inr ⟨?_, ?_⟩⟩)
    · rw [← even, neg_neg]
    · rw [← away, neg_neg]

end HftLatencyLab.Rounding
