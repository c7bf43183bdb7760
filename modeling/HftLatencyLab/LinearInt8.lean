import HftLatencyLab.Fxp
import HftLatencyLab.DotError
import Mathlib.Algebra.BigOperators.Fin
import Mathlib.Data.Matrix.Mul
import Mathlib.LinearAlgebra.Matrix.Notation

/-! make_int8_linear_from_fp32 of fxp.py over the rationals: calibration rows and weights are
quantised by their largest magnitudes, the bias at the product of the two scales. How far the
integer layer is from the exact one follows from the rounding of the entries alone, since
nothing is clamped. -/

namespace HftLatencyLab.LinearInt8
open Matrix Rounding Fxp DotError

variable {n d hidden : ℕ} {α : Type*}

def entries (x : Matrix (Fin n) (Fin d) α) : List α :=
  (List.finRange n).flatMap fun i => (List.finRange d).map (x i)

structure QuantMatrix (n d : ℕ) where
  data : Matrix (Fin n) (Fin d) ℤ
  scale : ℚ
  zeroPoint : ℤ

def quantizeEntry (numBits : ℕ) (scale x : ℚ) : ℤ :=
  clampInt (roundHalfEven (x / scale)) (-2 ^ (numBits - 1)) (2 ^ (numBits - 1) - 1)

/-- `quantize_symmetric` of a matrix, which keeps its shape. -/
def quantizeMatrix (x : Matrix (Fin n) (Fin d) ℚ) (numBits : ℕ) : Option (QuantMatrix n d) :=
  (quantizeSymmetric (entries x) numBits).map fun q =>
    { data := fun i j => quantizeEntry numBits q.scale (x i j)
      scale := q.scale
      zeroPoint := q.zeroPoint }

def quantizeBias (bias : Fin hidden → ℚ) (inputScale weightScale : ℚ) : (Fin hidden → ℤ) × ℚ :=
  let biasScale := inputScale * weightScale
  (fun k => clampInt (roundHalfEven (bias k / biasScale)) (-2 ^ 31) (2 ^ 31 - 1), biasScale)

def makeInt8LinearFromFp32 (x : Matrix (Fin n) (Fin d) ℚ) (w : Matrix (Fin hidden) (Fin d) ℚ)
    (b : Fin hidden → ℚ) (xBits wBits : ℕ) :
    Option (QuantMatrix n d × QuantMatrix hidden d × (Fin hidden → ℤ) × ℚ) := do
  let xQ ← quantizeMatrix x xBits
  let wQ ← quantizeMatrix w wBits
  let (bQ, biasScale) := quantizeBias b xQ.scale wQ.scale
  return (xQ, wQ, bQ, biasScale)

theorem mem_entries (x : Matrix (Fin n) (Fin d) α) (i : Fin n) (j : Fin d) :
    x i j ∈ entries x :=
  List.mem_flatMap.mpr ⟨i, List.mem_finRange i, List.mem_map_of_mem (List.mem_finRange j)⟩

theorem entries_data {x : Matrix (Fin n) (Fin d) ℚ} {numBits : ℕ} {m : QuantMatrix n d}
    (quantised : quantizeMatrix x numBits = some m) :
    ∃ q, quantizeSymmetric (entries x) numBits = some q ∧ entries m.data = q.data ∧
      m.scale = q.scale ∧ m.data = fun i j => quantizeEntry numBits m.scale (x i j) := by
  rw [quantizeMatrix, Option.map_eq_some_iff] at quantised
  obtain ⟨q, tensor, rfl⟩ := quantised
  refine ⟨q, tensor, ?_, rfl, rfl⟩
  simp only [quantizeSymmetric, Option.bind_eq_bind, Option.pure_def, Option.bind_eq_some_iff,
    Option.some.injEq] at tensor
  obtain ⟨peak, -, rfl⟩ := tensor
  simp only [entries, List.map_flatMap, List.map_map]
  rfl

structure Approximates (m : QuantMatrix n d) (x : Matrix (Fin n) (Fin d) ℚ) : Prop where
  pos : 0 < m.scale
  range : ∀ i j, -127 ≤ m.data i j ∧ m.data i j ≤ 127
  error : ∀ i j, |m.scale * m.data i j - x i j| ≤ m.scale / 2

theorem quantizeMatrix_approximates (rows : 0 < n) (columns : 0 < d)
    (x : Matrix (Fin n) (Fin d) ℚ) :
    ∃ m, quantizeMatrix x 8 = some m ∧ Approximates m x := by
  have some : entries x ≠ [] := List.ne_nil_of_mem (mem_entries x ⟨0, rows⟩ ⟨0, columns⟩)
  obtain ⟨q, tensor⟩ := quantizeSymmetric_isSome some 8
  have pos := quantizeSymmetric_scale_pos (by norm_num) tensor
  have near (y : ℚ) := (roundHalfEven_nearest y).dist_le
  have inside (i : Fin n) (j : Fin d) : |roundHalfEven (x i j / q.scale)| ≤ 127 := by
    have below := quantizeSymmetric_inside (by norm_num) tensor (mem_entries x i j)
    have within : |x i j / q.scale| ≤ ((127 : ℕ) : ℚ) := by
      norm_num at below ⊢
      exact below.le
    exact abs_le_of_dist (near _) within
  have entry (i : Fin n) (j : Fin d) :
      quantizeEntry 8 q.scale (x i j) = roundHalfEven (x i j / q.scale) := by
    have range := abs_le.mp (inside i j)
    rw [quantizeEntry, clampInt]
    omega
  refine ⟨⟨fun i j => quantizeEntry 8 q.scale (x i j), q.scale, q.zeroPoint⟩, ?_, pos, ?_, ?_⟩
  · rw [quantizeMatrix, tensor, Option.map_some]
  · intro i j
    dsimp only
    rw [entry]
    exact abs_le.mp (inside i j)
  · intro i j
    dsimp only
    rw [entry]
    exact abs_mul_sub_le_of_near pos (near _)

theorem quantizeBias_error {b : Fin hidden → ℚ} {sx sw : ℚ} (pos : 0 < sx * sw) {k : Fin hidden}
    (range : |b k / (sx * sw)| ≤ 2 ^ 31 - 1) :
    |sx * sw * (quantizeBias b sx sw).1 k - b k| ≤ sx * sw / 2 := by
  have near := (roundHalfEven_nearest (b k / (sx * sw))).dist_le
  have inside : |roundHalfEven (b k / (sx * sw))| ≤ ((2 ^ 31 - 1 : ℕ) : ℤ) := by
    refine abs_le_of_dist near ?_
    norm_num at range ⊢
    exact range
  have entry : (quantizeBias b sx sw).1 k = roundHalfEven (b k / (sx * sw)) := by
    have bound := abs_le.mp inside
    simp only [quantizeBias, clampInt]
    norm_num at bound ⊢
    omega
  rw [entry]
  exact abs_mul_sub_le_of_near pos near

/-- No entry is -128, and a row comes out of the integer layer within the rounding of its
entries, of the weights and of the bias. -/
theorem int8_linear_error (rows : 0 < n) (columns : 0 < d) (neurons : 0 < hidden)
    (x : Matrix (Fin n) (Fin d) ℚ) (w : Matrix (Fin hidden) (Fin d) ℚ) (b : Fin hidden → ℚ) :
    ∃ xQ wQ bQ biasScale, makeInt8LinearFromFp32 x w b 8 8 = some (xQ, wQ, bQ, biasScale) ∧
      biasScale = xQ.scale * wQ.scale ∧
      (∀ i j, -127 ≤ xQ.data i j ∧ xQ.data i j ≤ 127) ∧
      (∀ k j, -127 ≤ wQ.data k j ∧ wQ.data k j ≤ 127) ∧
      ((∀ k, |b k / (xQ.scale * wQ.scale)| ≤ 2 ^ 31 - 1) → ∀ i k,
        |biasScale * ((∑ j, xQ.data i j * wQ.data k j) + bQ k : ℤ) -
            ((∑ j, x i j * w k j) + b k)| ≤
          (∑ j, (xQ.scale * |w k j| / 2 + wQ.scale * |x i j| / 2 + xQ.scale * wQ.scale / 4)) +
            xQ.scale * wQ.scale / 2) := by
  obtain ⟨xQ, madeX, hx⟩ := quantizeMatrix_approximates rows columns x
  obtain ⟨wQ, madeW, hw⟩ := quantizeMatrix_approximates neurons columns w
  refine ⟨xQ, wQ, (quantizeBias b xQ.scale wQ.scale).1, xQ.scale * wQ.scale, ?_, rfl, hx.range,
    hw.range, fun bias i k => ?_⟩
  · rw [makeInt8LinearFromFp32, madeX, madeW]
    rfl
  · have dot := abs_dot_sub_dot_le (hx.error i) (hw.error k)
    have shift := quantizeBias_error (mul_pos hx.pos hw.pos) (bias k)
    have sum : xQ.scale * wQ.scale * (((∑ j, xQ.data i j * wQ.data k j) +
        (quantizeBias b xQ.scale wQ.scale).1 k : ℤ) : ℚ) - ((∑ j, x i j * w k j) + b k) =
        (∑ j, xQ.scale * xQ.data i j * (wQ.scale * wQ.data k j) - ∑ j, x i j * w k j) +
          (xQ.scale * wQ.scale * (quantizeBias b xQ.scale wQ.scale).1 k - b k) := by
      push_cast
      rw [mul_add, mul_dot]
      ring
    have bound : ∑ j, (xQ.scale / 2 * |w k j| + wQ.scale / 2 * |x i j| +
        xQ.scale / 2 * (wQ.scale / 2)) =
        ∑ j, (xQ.scale * |w k j| / 2 + wQ.scale * |x i j| / 2 + xQ.scale * wQ.scale / 4) :=
      Finset.sum_congr rfl fun j _ => by ring
    rw [bound] at dot
    rw [sum]
    exact (abs_add_le _ _).trans (add_le_add dot shift)

def twoRows : Matrix (Fin 2) (Fin 2) ℚ := !![3, -1; 0, 2]

def twoNeurons : Matrix (Fin 2) (Fin 2) ℚ := !![1 / 2, -1; 1, 1 / 4]

theorem int8_linear_error_two :
    ∃ xQ wQ bQ biasScale,
      makeInt8LinearFromFp32 twoRows twoNeurons ![1, 0] 8 8 = some (xQ, wQ, bQ, biasScale) ∧
        ∀ i k, |biasScale * ((∑ j, xQ.data i j * wQ.data k j) + bQ k : ℤ) -
          !![7 / 2, 11 / 4; -1, 1 / 2] i k| ≤ 1 / 20 := by
  obtain ⟨xQ, wQ, bQ, biasScale, made, -, -, -, error⟩ := int8_linear_error (by norm_num)
    (by norm_num) (by norm_num) twoRows twoNeurons ![1, 0]
  have scales : (makeInt8LinearFromFp32 twoRows twoNeurons ![1, 0] 8 8).map
      (fun r => (r.1.scale, r.2.1.scale)) =
        some ((3 + 1 / 10 ^ 12) / 127, (1 + 1 / 10 ^ 12) / 127) := by decide +kernel
  rw [made, Option.map_some, Option.some_inj, Prod.mk.injEq] at scales
  obtain ⟨sx, sw⟩ := scales
  dsimp only at sx sw
  have bias : ∀ k : Fin 2, |(![1, 0] k : ℚ) / (xQ.scale * wQ.scale)| ≤ 2 ^ 31 - 1 := by
    intro k
    rw [sx, sw]
    fin_cases k <;> norm_num [abs_of_pos]
  refine ⟨xQ, wQ, bQ, biasScale, made, fun i k => ?_⟩
  have sum : (∑ j, twoRows i j * twoNeurons k j) + ![1, 0] k =
      !![7 / 2, 11 / 4; -1, 1 / 2] i k := by
    fin_cases i <;> fin_cases k <;> norm_num [twoRows, twoNeurons, Fin.sum_univ_two]
  have bound := error bias i k
  rw [sum] at bound
  refine bound.trans ?_
  rw [sx, sw]
  fin_cases i <;> fin_cases k <;> norm_num [twoRows, twoNeurons, Fin.sum_univ_two, abs_of_pos]

end HftLatencyLab.LinearInt8
