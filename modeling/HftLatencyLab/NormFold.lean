import Mathlib.Algebra.Module.Torsion.Pi
import Mathlib.Data.Matrix.Mul
import Mathlib.Data.Rat.Sqrt
import Mathlib.Algebra.Order.BigOperators.Ring.Finset
import Mathlib.Tactic.FieldSimp
import Mathlib.Tactic.NormNum
import Mathlib.Tactic.Positivity
import Mathlib.Tactic.Ring

/-! standardize of train_baselines.py, and the fold of its normalisation into the first
layer in quantize_models.py. Both add 1e-8 to the deviation, so the fold divides by
a deviation raised twice. -/

namespace HftLatencyLab.NormFold
open Matrix

variable {K : Type*} [Field K] {n m d hidden : ℕ}

/-- `train_X.mean(axis=0)` -/
def columnMean (trainX : Matrix (Fin n) (Fin d) K) (j : Fin d) : K := (∑ i, trainX i j) / n

/-- `train_X.std(axis=0)`, with `sqrt` for the square root of numpy. -/
def columnStd (sqrt : K → K) (trainX : Matrix (Fin n) (Fin d) K) (j : Fin d) : K :=
  sqrt ((∑ i, (trainX i j - columnMean trainX j) ^ 2) / n)

def epsilon : K := 1 / 10 ^ 8

structure NormMeta (K : Type*) (d : ℕ) where
  mean : Fin d → K
  std : Fin d → K

/-- `(x - mean) / std` -/
def NormMeta.normalise (norm : NormMeta K d) (x : Fin d → K) : Fin d → K :=
  fun j => (x j - norm.mean j) / norm.std j

/-- `none` where the mean of no rows is nan. -/
def standardize (sqrt : K → K) (trainX : Matrix (Fin n) (Fin d) K) (x : Matrix (Fin m) (Fin d) K) :
    Option (Matrix (Fin m) (Fin d) K × NormMeta K d) :=
  if n = 0 then none
  else
    let norm : NormMeta K d :=
      { mean := columnMean trainX
        std := fun j => columnStd sqrt trainX j + epsilon }
    some (fun i => norm.normalise (x i), norm)

structure Layer (K : Type*) (hidden d : ℕ) where
  w0 : Matrix (Fin hidden) (Fin d) K
  b0 : Fin hidden → K

def Layer.apply (l : Layer K hidden d) (x : Fin d → K) : Fin hidden → K := l.w0 *ᵥ x + l.b0

def foldNormIntoFirstLayer (l : Layer K hidden d) (norm : NormMeta K d) : Layer K hidden d :=
  let invStd (j : Fin d) : K := 1 / (norm.std j + epsilon)
  { w0 := fun h j => l.w0 h j * invStd j
    b0 := fun h => l.b0 h - ∑ j, l.w0 h j * (norm.mean j * invStd j) }

theorem fold_apply (l : Layer K hidden d) (norm : NormMeta K d) (x : Fin d → K) :
    (foldNormIntoFirstLayer l norm).apply x =
      l.apply (fun j => (x j - norm.mean j) / (norm.std j + epsilon)) := by
  ext h
  simp only [Layer.apply, foldNormIntoFirstLayer, Pi.add_apply, mulVec, dotProduct]
  have split : ∑ j, l.w0 h j * ((x j - norm.mean j) / (norm.std j + epsilon)) =
      ∑ j, l.w0 h j * (1 / (norm.std j + epsilon)) * x j -
        ∑ j, l.w0 h j * (norm.mean j * (1 / (norm.std j + epsilon))) := by
    rw [← Finset.sum_sub_distrib]
    refine Finset.sum_congr rfl (fun j _ => ?_)
    ring
  rw [split]
  ring

def overReg (norm : NormMeta K d) (x : Fin d → K) : Fin d → K :=
  fun j => (x j - norm.mean j) / (norm.std j * (norm.std j + epsilon))

section Ordered

variable [LinearOrder K] [IsStrictOrderedRing K]

theorem epsilon_pos : (0 : K) < epsilon := by
  unfold epsilon
  positivity

theorem normalise_sub {norm : NormMeta K d} (pos : ∀ j, 0 < norm.std j) (x : Fin d → K) :
    norm.normalise x - (fun j => (x j - norm.mean j) / (norm.std j + epsilon)) =
      (epsilon : K) • overReg norm x := by
  ext j
  have std := (pos j).ne'
  have raised : norm.std j + epsilon ≠ 0 := (add_pos (pos j) epsilon_pos).ne'
  simp only [Pi.sub_apply, Pi.smul_apply, smul_eq_mul, NormMeta.normalise, overReg]
  field_simp
  ring

theorem apply_sub_fold_apply {norm : NormMeta K d} (pos : ∀ j, 0 < norm.std j)
    (l : Layer K hidden d) (x : Fin d → K) :
    l.apply (norm.normalise x) - (foldNormIntoFirstLayer l norm).apply x =
      (epsilon : K) • (l.w0 *ᵥ overReg norm x) := by
  rw [fold_apply, Layer.apply, Layer.apply, add_sub_add_right_eq_sub, ← mulVec_sub,
    normalise_sub pos, mulVec_smul]

theorem fold_apply_iff {norm : NormMeta K d} (pos : ∀ j, 0 < norm.std j) (l : Layer K hidden d)
    (x : Fin d → K) :
    (foldNormIntoFirstLayer l norm).apply x = l.apply (norm.normalise x) ↔
      l.w0 *ᵥ overReg norm x = 0 := by
  rw [eq_comm, ← sub_eq_zero, apply_sub_fold_apply pos, smul_eq_zero_iff_right epsilon_pos.ne']

theorem overReg_surjective {norm : NormMeta K d} (pos : ∀ j, 0 < norm.std j) :
    Function.Surjective (overReg norm) := by
  intro v
  refine ⟨fun j => v j * (norm.std j * (norm.std j + epsilon)) + norm.mean j, ?_⟩
  ext j
  have scale : norm.std j * (norm.std j + epsilon) ≠ 0 :=
    (mul_pos (pos j) (add_pos (pos j) epsilon_pos)).ne'
  rw [overReg, add_sub_cancel_right, mul_div_cancel_right₀ _ scale]

theorem columnStd_pos {sqrt : K → K} (nonneg : ∀ v, 0 ≤ v → 0 ≤ sqrt v)
    (trainX : Matrix (Fin n) (Fin d) K) (j : Fin d) : 0 < columnStd sqrt trainX j + epsilon := by
  have variance : 0 ≤ (∑ i, (trainX i j - columnMean trainX j) ^ 2) / (n : K) :=
    div_nonneg (Finset.sum_nonneg (fun i _ => sq_nonneg _)) (Nat.cast_nonneg n)
  exact add_pos_of_nonneg_of_pos (nonneg _ variance) epsilon_pos

omit [LinearOrder K] [IsStrictOrderedRing K] in
theorem standardize_spec {sqrt : K → K} {trainX : Matrix (Fin n) (Fin d) K}
    {x z : Matrix (Fin m) (Fin d) K} {norm : NormMeta K d}
    (stored : standardize sqrt trainX x = some (z, norm)) :
    (∀ i, z i = norm.normalise (x i)) ∧ (∀ j, norm.mean j = columnMean trainX j) ∧
      ∀ j, norm.std j = columnStd sqrt trainX j + epsilon := by
  unfold standardize at stored
  split_ifs at stored
  obtain ⟨rfl, rfl⟩ := Prod.mk.inj (Option.some.inj stored)
  exact ⟨fun _ => rfl, fun _ => rfl, fun _ => rfl⟩

/-- At each raw row the folded layer agrees with training when the weights annihilate
the row over both deviations, and it agrees everywhere only for zero weights. -/
theorem fold_preserves_iff {sqrt : K → K} (nonneg : ∀ v, 0 ≤ v → 0 ≤ sqrt v)
    {trainX : Matrix (Fin n) (Fin d) K} {x z : Matrix (Fin m) (Fin d) K} {norm : NormMeta K d}
    (stored : standardize sqrt trainX x = some (z, norm)) (l : Layer K hidden d) :
    (∀ i, (foldNormIntoFirstLayer l norm).apply (x i) = l.apply (z i) ↔
      l.w0 *ᵥ (fun j => (x i j - columnMean trainX j) /
        ((columnStd sqrt trainX j + epsilon) * (columnStd sqrt trainX j + 2 * epsilon))) = 0) ∧
    ((∀ raw, (foldNormIntoFirstLayer l norm).apply raw = l.apply (norm.normalise raw)) ↔
      l.w0 = 0) := by
  obtain ⟨rows, mean, std⟩ := standardize_spec stored
  have pos (j : Fin d) : 0 < norm.std j := by
    rw [std]
    exact columnStd_pos nonneg trainX j
  constructor
  · intro i
    have left : overReg norm (x i) = fun j => (x i j - columnMean trainX j) /
        ((columnStd sqrt trainX j + epsilon) * (columnStd sqrt trainX j + 2 * epsilon)) := by
      ext j
      rw [overReg, mean, std]
      ring
    rw [rows, ← left]
    exact fold_apply_iff pos l (x i)
  · rw [ext_iff_mulVec]
    simp only [zero_mulVec]
    constructor
    · intro agree v
      obtain ⟨raw, rfl⟩ := overReg_surjective pos v
      exact (fold_apply_iff pos l raw).mp (agree raw)
    · intro zero raw
      exact (fold_apply_iff pos l raw).mpr (zero _)

end Ordered

theorem ratSqrt_nonneg (q : ℚ) : 0 ≤ Rat.sqrt q :=
  Rat.mkRat_nonneg (Int.sqrt_nonneg q.num) _

def constantColumn : Matrix (Fin 2) (Fin 1) ℚ := fun _ _ => 5

def unitLayer : Layer ℚ 1 1 where
  w0 _ _ := 1
  b0 _ := 0

def rawRows : Matrix (Fin 2) (Fin 1) ℚ := fun i _ => if i = 0 then 6 else 5

theorem constantColumn_mean (j : Fin 1) : columnMean constantColumn j = 5 := by
  norm_num [columnMean, constantColumn]

theorem constantColumn_std (j : Fin 1) : columnStd Rat.sqrt constantColumn j = 0 := by
  have zero := Rat.sqrt_eq 0
  rw [columnStd]
  simp only [constantColumn_mean]
  simpa only [constantColumn, sub_self, ne_eq, OfNat.ofNat_ne_zero, not_false_eq_true, zero_pow,
    Finset.sum_const_zero, zero_div, mul_zero, abs_zero] using zero

/-- The mean goes through, a value off it does not. -/
theorem fold_preserves_iff_constant :
    ∃ z norm, standardize Rat.sqrt constantColumn rawRows = some (z, norm) ∧
      (foldNormIntoFirstLayer unitLayer norm).apply (rawRows 1) = unitLayer.apply (z 1) ∧
      (foldNormIntoFirstLayer unitLayer norm).apply (rawRows 0) ≠ unitLayer.apply (z 0) := by
  have stored : standardize Rat.sqrt constantColumn rawRows = some (_, _) := rfl
  have rows := (fold_preserves_iff (fun q _ => ratSqrt_nonneg q) stored unitLayer).1
  refine ⟨_, _, stored, (rows 1).mpr ?_, fun same => ?_⟩
  · simp only [constantColumn_std]
    decide +kernel
  · have left := (rows 0).mp same
    simp only [constantColumn_std] at left
    exact absurd left (by decide +kernel)

/-- What training saw as 1e8 is half of it after the fold. -/
theorem constant_feature_halved :
    ¬∀ (trainX x z : Matrix (Fin 2) (Fin 1) ℚ) (norm : NormMeta ℚ 1) (l : Layer ℚ 1 1),
      standardize Rat.sqrt trainX x = some (z, norm) →
      ∀ i, (foldNormIntoFirstLayer l norm).apply (x i) = l.apply (z i) := by
  intro always
  have same := congrFun (always constantColumn rawRows _ _ unitLayer rfl 0) 0
  simp only [Layer.apply, constantColumn_std] at same
  exact absurd same (by decide +kernel)

end HftLatencyLab.NormFold
