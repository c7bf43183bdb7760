import HftLatencyLab.FixedWidth
import HftLatencyLab.BiasScale
import Mathlib.Algebra.Order.Group.MinMax

/-! What emulate_mlp_int8 and emulate_logreg_int8 of cpu_parity.py make of the exports of
quantize_models.py, over the rationals, beside the networks of train_baselines.py. A network is
trained on standardised rows, and its export runs on the raw rows it was calibrated with. The
two are apart by the fold, by the rounding of the tensors of each layer, and by that of the
activations between the layers; on a calibration row nothing is clipped. -/

namespace HftLatencyLab.MlpParity
open Matrix Rounding FixedWidth Fxp DotError NormFold LinearInt8 BiasScale

variable {n rows d hidden out : ℕ}

/-- `TinyMLP` -/
structure TinyMLP (d hidden : ℕ) where
  net0 : Layer ℚ hidden d
  net2 : Layer ℚ 1 hidden

def relu (y : Fin hidden → ℚ) : Fin hidden → ℚ := fun h => max (y h) 0

def TinyMLP.forward (m : TinyMLP d hidden) (x : Fin d → ℚ) : ℚ :=
  m.net2.apply (relu (m.net0.apply x)) 0

structure LogregExport (d : ℕ) where
  wInt8 : Matrix (Fin 1) (Fin d) ℤ
  wScale : ℚ
  bInt32 : Fin 1 → ℤ
  bScale : ℚ
  inScale : ℚ

def quantizeLogreg (l : Layer ℚ 1 d) (norm : NormMeta ℚ d) (x : Matrix (Fin n) (Fin d) ℚ) :
    Option (LogregExport d) := do
  let folded := foldNormIntoFirstLayer l norm
  let (xQ, wQ, bQ, biasScale) ← makeInt8LinearFromFp32 (calibrationRows x) folded.w0 folded.b0 8 8
  return { wInt8 := wQ.data
           wScale := wQ.scale
           bInt32 := bQ
           bScale := biasScale
           inScale := xQ.scale }

def int32 (n : ℤ) : ℤ := n.bmod (2 ^ 32)

/-- `np.round(x / scale).astype(np.int32)` and the clip. `none` where the cast has no value. -/
def quantizeInputs (scale : ℚ) (x : Matrix (Fin rows) (Fin d) ℚ) :
    Option (Matrix (Fin rows) (Fin d) ℤ) :=
  if ∀ i j, -2 ^ 31 ≤ roundHalfEven (x i j / scale) ∧ roundHalfEven (x i j / scale) < 2 ^ 31 then
    some fun i j => clampInt (roundHalfEven (x i j / scale)) (-128) 127
  else none

/-- `xi @ w.T`, and the bias added to each row. -/
def accumulate (xi : Matrix (Fin rows) (Fin d) ℤ) (w : Matrix (Fin out) (Fin d) ℤ)
    (b : Fin out → ℤ) : Matrix (Fin rows) (Fin out) ℤ :=
  fun i k => int32 (int32 (∑ j, xi i j * w k j) + b k)

def emulateLogregInt8 (spec : LogregExport d) (x : Matrix (Fin rows) (Fin d) ℚ) :
    Option (Fin rows → ℚ) := do
  let xi ← quantizeInputs spec.inScale x
  let acc := accumulate xi spec.wInt8 spec.bInt32
  return fun i => acc i 0 * (spec.inScale * spec.wScale)

def emulateMlpInt8 (spec : MlpExport d hidden 1) (x : Matrix (Fin rows) (Fin d) ℚ) :
    Option (Fin rows → ℚ) := do
  let xi ← quantizeInputs spec.inScale x
  let acc0 := accumulate xi spec.w0Int8 spec.b0Int32
  let y0F : Matrix (Fin rows) (Fin hidden) ℚ :=
    fun i h => max (acc0 i h * (spec.inScale * spec.w0Scale)) 0
  let y0I ← quantizeInputs spec.act0Scale y0F
  let acc1 := accumulate y0I spec.w1Int8 spec.b1Int32
  return fun i => acc1 i 0 * (spec.act0Scale * spec.w1Scale)

/-- `np.where(logits >= 0.0, 1, -1)` -/
def pred (logit : ℚ) : ℤ := if 0 ≤ logit then 1 else -1

/-- Each logit is within its bound of the trained one, and predicts the same wherever that is
further from zero. -/
def Near (logits trained bound : Fin rows → ℚ) : Prop :=
  ∀ i, |logits i - trained i| ≤ bound i ∧
    (bound i < |trained i| → pred (logits i) = pred (trained i))

theorem near_of_abs_sub_le {logits trained bound : Fin rows → ℚ}
    (close : ∀ i, |logits i - trained i| ≤ bound i) : Near logits trained bound := by
  intro i
  refine ⟨close i, fun margin => ?_⟩
  have span := abs_le.mp (close i)
  rcases le_or_gt 0 (trained i) with nonneg | neg
  · rw [abs_of_nonneg nonneg] at margin
    rw [pred, pred, if_pos nonneg, if_pos (by linarith)]
  · rw [abs_of_neg neg] at margin
    rw [pred, pred, if_neg (not_le.mpr neg), if_neg (by linarith)]

theorem int32_eq {n : ℤ} (inside : |n| ≤ 2 ^ 31 - 1) : int32 n = n := by
  have range := abs_le.mp inside
  exact bmod_inside (by omega) (by omega)

theorem abs_sum_mul_le {a b : Fin d → ℤ} (ha : ∀ j, -127 ≤ a j ∧ a j ≤ 127)
    (hb : ∀ j, -127 ≤ b j ∧ b j ≤ 127) : |∑ j, a j * b j| ≤ d * 127 ^ 2 := by
  have entry (j : Fin d) : |a j * b j| ≤ 127 ^ 2 := by
    rw [abs_mul, sq]
    exact mul_le_mul (abs_le.mpr (ha j)) (abs_le.mpr (hb j)) (abs_nonneg _) (by norm_num)
  calc |∑ j, a j * b j| ≤ ∑ j, |a j * b j| := Finset.abs_sum_le_sum_abs _ _
    _ ≤ ∑ _j : Fin d, 127 ^ 2 := Finset.sum_le_sum fun j _ => entry j
    _ = d * 127 ^ 2 := by simp

def BiasRoom (d : ℕ) (b scale : ℚ) : Prop := |b / scale| + d * 127 ^ 2 ≤ 2 ^ 31 - 1

instance (d : ℕ) (b scale : ℚ) : Decidable (BiasRoom d b scale) :=
  inferInstanceAs (Decidable (_ ≤ _))

theorem biasRoom_int {b scale : ℚ} (room : BiasRoom d b scale) :
    |roundHalfEven (b / scale)| + d * 127 ^ 2 ≤ 2 ^ 31 - 1 := by
  have fits : d * 127 ^ 2 ≤ 2 ^ 31 - 1 := by
    have wide : (d * 127 ^ 2 : ℚ) ≤ 2 ^ 31 - 1 :=
      (le_add_of_nonneg_left (abs_nonneg _)).trans room
    have wide' : (d * 127 ^ 2 : ℤ) ≤ 2 ^ 31 - 1 := by exact_mod_cast wide
    norm_num at wide' ⊢
    omega
  have span : |b / scale| ≤ ((2 ^ 31 - 1 - d * 127 ^ 2 : ℕ) : ℚ) := by
    rw [Nat.cast_sub fits]
    push_cast
    rw [BiasRoom] at room
    norm_num at room ⊢
    linarith
  have rounded := abs_le_of_dist (roundHalfEven_nearest (b / scale)).dist_le span
  rw [Nat.cast_sub fits] at rounded
  push_cast at rounded
  norm_num at rounded ⊢
  linarith

theorem quantizeBias_room {b : Fin out → ℚ} {s t : ℚ} {k : Fin out}
    (room : BiasRoom d (b k) (s * t)) :
    (quantizeBias b s t).1 k = roundHalfEven (b k / (s * t)) := by
  have inside := biasRoom_int room
  have span := abs_le.mp ((le_add_of_nonneg_right (by positivity)).trans inside)
  simp only [quantizeBias, clampInt]
  norm_num at span ⊢
  omega

theorem accumulate_eq {xi : Matrix (Fin rows) (Fin d) ℤ} {w : Matrix (Fin out) (Fin d) ℤ}
    {b : Fin out → ℚ} {s t : ℚ} {i : Fin rows} {k : Fin out}
    (inputs : ∀ j, -127 ≤ xi i j ∧ xi i j ≤ 127) (weights : ∀ j, -127 ≤ w k j ∧ w k j ≤ 127)
    (room : BiasRoom d (b k) (s * t)) :
    accumulate xi w (quantizeBias b s t).1 i k =
      (∑ j, xi i j * w k j) + (quantizeBias b s t).1 k := by
  have products := abs_sum_mul_le inputs weights
  have inside := biasRoom_int room
  rw [← quantizeBias_room room] at inside
  have alone : |∑ j, xi i j * w k j| ≤ 2 ^ 31 - 1 :=
    products.trans ((le_add_of_nonneg_left (abs_nonneg _)).trans inside)
  have total : |(∑ j, xi i j * w k j) + (quantizeBias b s t).1 k| ≤ 2 ^ 31 - 1 := by
    have sum := abs_add_le (∑ j, xi i j * w k j) ((quantizeBias b s t).1 k)
    linarith
  rw [accumulate, int32_eq alone, int32_eq total]

/-- What the rounding of weights at scale `t` and of the bias adds to inputs at scale `s` that are
within `δ` of the row `x`. -/
def layerError (δ : Fin d → ℚ) (s t : ℚ) (l : Layer ℚ out d) (x : Fin d → ℚ) (k : Fin out) : ℚ :=
  (∑ j, (δ j * |l.w0 k j| + t / 2 * |x j| + δ j * (t / 2))) + s * t / 2

theorem layer_error {xi : Matrix (Fin rows) (Fin d) ℤ} {l : Layer ℚ out d}
    {w : QuantMatrix out d} {s : ℚ} {δ x : Fin d → ℚ} {i : Fin rows} {k : Fin out} (pos : 0 < s)
    (inputs : ∀ j, -127 ≤ xi i j ∧ xi i j ≤ 127) (near : ∀ j, |s * xi i j - x j| ≤ δ j)
    (weights : Approximates w l.w0) (room : BiasRoom d (l.b0 k) (s * w.scale)) :
    |accumulate xi w.data (quantizeBias l.b0 s w.scale).1 i k * (s * w.scale) - l.apply x k| ≤
      layerError δ s w.scale l x k := by
  rw [accumulate_eq inputs (weights.range k) room]
  have dot := abs_dot_sub_dot_le_sum near (weights.error k)
  have range : |l.b0 k / (s * w.scale)| ≤ 2 ^ 31 - 1 :=
    (le_add_of_nonneg_right (by positivity)).trans room
  have shift := quantizeBias_error (mul_pos pos weights.pos) range
  have sum : (((∑ j, xi i j * w.data k j) + (quantizeBias l.b0 s w.scale).1 k : ℤ) : ℚ) *
      (s * w.scale) - l.apply x k =
        (∑ j, s * xi i j * (w.scale * w.data k j) - ∑ j, x j * l.w0 k j) +
          (s * w.scale * (quantizeBias l.b0 s w.scale).1 k - l.b0 k) := by
    have exact : l.apply x k = (∑ j, x j * l.w0 k j) + l.b0 k := by
      simp only [Layer.apply, Pi.add_apply, mulVec, dotProduct, mul_comm]
    rw [exact, ← mul_dot]
    push_cast
    ring
  rw [sum]
  exact (abs_add_le _ _).trans (add_le_add dot shift)

theorem quantizeInputs_calibrated {x : Matrix (Fin rows) (Fin d) ℚ} {m : QuantMatrix rows d}
    (made : quantizeMatrix x 8 = some m) : quantizeInputs m.scale x = some m.data := by
  obtain ⟨q, tensor, -, scale, data⟩ := entries_data made
  have fits (i : Fin rows) (j : Fin d) : -2 ^ 31 ≤ roundHalfEven (x i j / m.scale) ∧
      roundHalfEven (x i j / m.scale) < 2 ^ 31 := by
    have below := quantizeSymmetric_inside (by norm_num) tensor (mem_entries x i j)
    have within : |x i j / m.scale| ≤ ((127 : ℕ) : ℚ) := by
      rw [scale]
      norm_num at below ⊢
      exact below.le
    have range :=
      abs_le.mp (abs_le_of_dist (roundHalfEven_nearest (x i j / m.scale)).dist_le within)
    constructor <;> omega
  rw [quantizeInputs, if_pos fits, data]
  rfl

theorem approximates_of_made {x : Matrix (Fin rows) (Fin d) ℚ} {m : QuantMatrix rows d}
    (hr : 0 < rows) (hd : 0 < d) (made : quantizeMatrix x 8 = some m) : Approximates m x := by
  obtain ⟨m', made', approximates⟩ := quantizeMatrix_approximates hr hd x
  obtain rfl := Option.some.inj (made'.symm.trans made)
  exact approximates

def foldError (l : Layer ℚ hidden d) (norm : NormMeta ℚ d) (x : Fin d → ℚ) (h : Fin hidden) : ℚ :=
  |epsilon * (l.w0 *ᵥ overReg norm x) h|

theorem fold_near {norm : NormMeta ℚ d} (pos : ∀ j, 0 < norm.std j) (l : Layer ℚ hidden d)
    (x : Fin d → ℚ) (h : Fin hidden) :
    |(foldNormIntoFirstLayer l norm).apply x h - l.apply (norm.normalise x) h| =
      foldError l norm x h := by
  have missed := congrFun (apply_sub_fold_apply pos l x) h
  rw [Pi.sub_apply, Pi.smul_apply, smul_eq_mul] at missed
  rw [abs_sub_comm, missed, foldError]

theorem neuron_error {x : Matrix (Fin rows) (Fin d) ℚ} {xQ : QuantMatrix rows d}
    {l : Layer ℚ hidden d} {norm : NormMeta ℚ d} {wQ : QuantMatrix hidden d} {i : Fin rows}
    {h : Fin hidden} (std : ∀ j, 0 < norm.std j) (inputs : Approximates xQ x)
    (weights : Approximates wQ (foldNormIntoFirstLayer l norm).w0)
    (room : BiasRoom d ((foldNormIntoFirstLayer l norm).b0 h) (xQ.scale * wQ.scale)) :
    |accumulate xQ.data wQ.data
          (quantizeBias (foldNormIntoFirstLayer l norm).b0 xQ.scale wQ.scale).1 i h *
        (xQ.scale * wQ.scale) - l.apply (norm.normalise (x i)) h| ≤
      layerError (fun _ => xQ.scale / 2) xQ.scale wQ.scale (foldNormIntoFirstLayer l norm) (x i) h +
        foldError l norm (x i) h := by
  have layer := layer_error inputs.pos (inputs.range i) (inputs.error i) weights room
  have fold := fold_near std l (x i) h
  exact (abs_sub_le _ ((foldNormIntoFirstLayer l norm).apply (x i) h) _).trans
    (add_le_add layer fold.le)

def logregError (l : Layer ℚ 1 d) (norm : NormMeta ℚ d) (e : LogregExport d) (x : Fin d → ℚ) : ℚ :=
  layerError (fun _ => e.inScale / 2) e.inScale e.wScale (foldNormIntoFirstLayer l norm) x 0 +
    foldError l norm x 0

theorem std_pos {sqrt : ℚ → ℚ} (nonneg : ∀ v, 0 ≤ v → 0 ≤ sqrt v) {x z : Matrix (Fin n) (Fin d) ℚ}
    {norm : NormMeta ℚ d} (stored : standardize sqrt x x = some (z, norm)) (j : Fin d) :
    0 < norm.std j := by
  obtain ⟨-, -, deviation⟩ := standardize_spec stored
  rw [deviation]
  exact columnStd_pos nonneg x j

theorem calibrated_pos {sqrt : ℚ → ℚ} {x z : Matrix (Fin n) (Fin d) ℚ} {norm : NormMeta ℚ d}
    (stored : standardize sqrt x x = some (z, norm)) : 0 < min 100000 n := by
  by_contra empty
  obtain rfl : n = 0 := by omega
  simp [standardize] at stored

/-- On the rows it was calibrated with, the int8 regression is near the trained one. -/
theorem logreg_near_trained {sqrt : ℚ → ℚ} (nonneg : ∀ v, 0 ≤ v → 0 ≤ sqrt v) (columns : 0 < d)
    {x z : Matrix (Fin n) (Fin d) ℚ} {norm : NormMeta ℚ d}
    (stored : standardize sqrt x x = some (z, norm)) (l : Layer ℚ 1 d) :
    ∃ e, quantizeLogreg l norm x = some e ∧
      (BiasRoom d ((foldNormIntoFirstLayer l norm).b0 0) (e.inScale * e.wScale) →
        ∃ logits, emulateLogregInt8 e (calibrationRows x) = some logits ∧
          Near logits (fun i => l.apply (calibrationRows z i) 0)
            fun i => logregError l norm e (calibrationRows x i)) := by
  obtain ⟨normalised, -, -⟩ := standardize_spec stored
  obtain ⟨xQ, madeX, inputs⟩ :=
    quantizeMatrix_approximates (calibrated_pos stored) columns (calibrationRows x)
  obtain ⟨wQ, madeW, weights⟩ := quantizeMatrix_approximates one_pos columns
    (foldNormIntoFirstLayer l norm).w0
  let e : LogregExport d :=
    { wInt8 := wQ.data
      wScale := wQ.scale
      bInt32 := (quantizeBias (foldNormIntoFirstLayer l norm).b0 xQ.scale wQ.scale).1
      bScale := xQ.scale * wQ.scale
      inScale := xQ.scale }
  have made : quantizeLogreg l norm x = some e := by
    rw [quantizeLogreg, makeInt8LinearFromFp32, madeX, madeW]
    rfl
  have emulated : emulateLogregInt8 e (calibrationRows x) =
      some fun i => accumulate xQ.data wQ.data e.bInt32 i 0 * (xQ.scale * wQ.scale) := by
    rw [emulateLogregInt8, quantizeInputs_calibrated madeX]
    rfl
  refine ⟨e, made, fun room => ⟨_, emulated, near_of_abs_sub_le fun i => ?_⟩⟩
  have near := neuron_error (i := i) (std_pos nonneg stored) inputs weights room
  have row : norm.normalise (calibrationRows x i) = calibrationRows z i := (normalised _).symm
  rwa [row] at near

def twoRows : Matrix (Fin 2) (Fin 1) ℚ := fun i _ => 2 * i.val

def twoRowsNorm : NormMeta ℚ 1 where
  mean _ := 1
  std _ := 1 + epsilon

def twoRowsStd : Matrix (Fin 2) (Fin 1) ℚ := fun i => twoRowsNorm.normalise (twoRows i)

theorem standardize_twoRows :
    standardize (fun v : ℚ => v) twoRows twoRows = some (twoRowsStd, twoRowsNorm) := by
  have mean : columnMean twoRows = twoRowsNorm.mean := by decide +kernel
  have std : (fun j => columnStd (fun v : ℚ => v) twoRows j + epsilon) = twoRowsNorm.std := by
    decide +kernel
  rw [standardize, if_neg (by norm_num), mean, std]
  rfl

theorem logreg_near_trained_two :
    ∃ e logits, quantizeLogreg (neuron 1) twoRowsNorm twoRows = some e ∧
      emulateLogregInt8 e (calibrationRows twoRows) = some logits ∧
      Near logits (fun i => (neuron 1).apply (calibrationRows twoRowsStd i) 0)
        fun i => logregError (neuron 1) twoRowsNorm e (calibrationRows twoRows i) := by
  obtain ⟨e, made, near⟩ := logreg_near_trained (fun _ nonneg => nonneg) one_pos
    standardize_twoRows (neuron 1)
  have fits : (quantizeLogreg (neuron 1) twoRowsNorm twoRows).all (fun e =>
      decide (BiasRoom 1 ((foldNormIntoFirstLayer (neuron 1) twoRowsNorm).b0 0)
        (e.inScale * e.wScale))) = true := by
    decide +kernel
  rw [made, Option.all_some, decide_eq_true_iff] at fits
  obtain ⟨logits, emulated, close⟩ := near fits
  exact ⟨e, logits, made, emulated, close⟩

theorem quantizeMlp_tensors (columns : 0 < d) (neurons : 0 < hidden) (outputs : 0 < out)
    {l : Layer ℚ hidden d} {w1 : Matrix (Fin out) (Fin hidden) ℚ} {norm : NormMeta ℚ d}
    {x : Matrix (Fin n) (Fin d) ℚ} (calibrated : 0 < min 100000 n)
    (tensors : NoTinyTensor l w1 norm x) (b1 : Fin out → ℚ) :
    ∃ xQ w0Q act0Q w1Q, quantizeMatrix (calibrationRows x) 8 = some xQ ∧
      quantizeMatrix (foldNormIntoFirstLayer l norm).w0 8 = some w0Q ∧
      quantizeMatrix (y0F xQ w0Q
        (quantizeBias (foldNormIntoFirstLayer l norm).b0 xQ.scale w0Q.scale).1) 8 = some act0Q ∧
      quantizeMatrix w1 8 = some w1Q ∧
      quantizeMlp l w1 b1 norm x = some
        { inScale := xQ.scale
          w0Int8 := w0Q.data
          w0Scale := w0Q.scale
          b0Int32 := (quantizeBias (foldNormIntoFirstLayer l norm).b0 xQ.scale w0Q.scale).1
          b0Scale := xQ.scale * w0Q.scale
          act0Scale := act0Q.scale
          w1Int8 := w1Q.data
          w1Scale := w1Q.scale
          b1Int32 := (quantizeBias b1 act0Q.scale w1Q.scale).1
          b1Scale := act0Q.scale * w1Q.scale } := by
  obtain ⟨xQ, madeX, -, xFloor⟩ := quantizeMatrix_floor calibrated columns (calibrationRows x)
  obtain ⟨w0Q, madeW0, -, w0Floor⟩ := quantizeMatrix_floor neurons columns
    (foldNormIntoFirstLayer l norm).w0
  have large : scaleFloor ≤ xQ.scale ∧ scaleFloor ≤ w0Q.scale :=
    ⟨xFloor.mpr tensors.rows, w0Floor.mpr tensors.w0⟩
  have fires := (sizeable_y0F_iff madeX madeW0 large).mpr tensors.act0
  rw [max_eq_left large.1, max_eq_left large.2] at fires
  obtain ⟨act0Q, madeAct, -, actFloor⟩ := quantizeMatrix_floor calibrated neurons
    (y0F xQ w0Q (quantizeBias (foldNormIntoFirstLayer l norm).b0 xQ.scale w0Q.scale).1)
  obtain ⟨w1Q, madeW1, -, w1Floor⟩ := quantizeMatrix_floor outputs neurons w1
  refine ⟨xQ, w0Q, act0Q, w1Q, madeX, madeW0, madeAct, madeW1, ?_⟩
  simp only [quantizeMlp, madeX, madeW0, madeW1, Option.bind_eq_bind, Option.bind_some,
    max_eq_left large.1, max_eq_left large.2, madeAct, max_eq_left (actFloor.mpr fires),
    max_eq_left (w1Floor.mpr tensors.w1)]
  rfl

def hiddenError (l : Layer ℚ hidden d) (norm : NormMeta ℚ d) (e : MlpExport d hidden out)
    (x : Fin d → ℚ) (h : Fin hidden) : ℚ :=
  layerError (fun _ => e.inScale / 2) e.inScale e.w0Scale (foldNormIntoFirstLayer l norm) x h +
    foldError l norm x h + e.act0Scale / 2

def logitError (m : TinyMLP d hidden) (norm : NormMeta ℚ d) (e : MlpExport d hidden 1)
    (x z : Fin d → ℚ) : ℚ :=
  layerError (hiddenError m.net0 norm e x) e.act0Scale e.w1Scale m.net2
    (relu (m.net0.apply z)) 0

structure BiasesFit (m : TinyMLP d hidden) (norm : NormMeta ℚ d) (e : MlpExport d hidden 1) :
    Prop where
  b0 : ∀ h, BiasRoom d ((foldNormIntoFirstLayer m.net0 norm).b0 h) (e.inScale * e.w0Scale)
  b1 : BiasRoom hidden (m.net2.b0 0) (e.act0Scale * e.w1Scale)

theorem activation_error {y : Matrix (Fin rows) (Fin hidden) ℚ} {aQ : QuantMatrix rows hidden}
    {i : Fin rows} {h : Fin hidden} {acc trained bound : ℚ} (activations : Approximates aQ y)
    (rectified : y i h = max acc 0) (near : |acc - trained| ≤ bound) :
    |aQ.scale * aQ.data i h - max trained 0| ≤ bound + aQ.scale / 2 := by
  have rounded := activations.error i h
  have kept : |y i h - max trained 0| ≤ bound := by
    rw [rectified]
    exact (abs_max_sub_max_le_abs _ _ _).trans near
  rw [add_comm]
  exact (abs_sub_le _ (y i h) _).trans (add_le_add rounded kept)

/-- On the rows it was calibrated with, the int8 network is near the trained one. -/
theorem mlp_near_trained {sqrt : ℚ → ℚ} (nonneg : ∀ v, 0 ≤ v → 0 ≤ sqrt v) (columns : 0 < d)
    (neurons : 0 < hidden) {x z : Matrix (Fin n) (Fin d) ℚ} {norm : NormMeta ℚ d}
    (stored : standardize sqrt x x = some (z, norm)) (m : TinyMLP d hidden)
    (tensors : NoTinyTensor m.net0 m.net2.w0 norm x) :
    ∃ e, quantizeMlp m.net0 m.net2.w0 m.net2.b0 norm x = some e ∧
      (BiasesFit m norm e → ∃ logits, emulateMlpInt8 e (calibrationRows x) = some logits ∧
        Near logits (fun i => m.forward (calibrationRows z i))
          fun i => logitError m norm e (calibrationRows x i) (calibrationRows z i)) := by
  obtain ⟨normalised, -, -⟩ := standardize_spec stored
  have calibrated := calibrated_pos stored
  obtain ⟨xQ, w0Q, act0Q, w1Q, madeX, madeW0, madeAct, madeW1, made⟩ :=
    quantizeMlp_tensors columns neurons one_pos calibrated tensors m.net2.b0
  have inputs := approximates_of_made calibrated columns madeX
  have weights0 := approximates_of_made neurons columns madeW0
  have activations := approximates_of_made calibrated neurons madeAct
  have weights1 := approximates_of_made one_pos neurons madeW1
  refine ⟨_, made, fun fit => ?_⟩
  have first (i : Fin (min 100000 n)) (h : Fin hidden) :=
    accumulate_eq (inputs.range i) (weights0.range h) (fit.b0 h)
  have rectified : (fun i h => max (accumulate xQ.data w0Q.data
      (quantizeBias (foldNormIntoFirstLayer m.net0 norm).b0 xQ.scale w0Q.scale).1 i h *
        (xQ.scale * w0Q.scale)) 0) =
      y0F xQ w0Q (quantizeBias (foldNormIntoFirstLayer m.net0 norm).b0 xQ.scale w0Q.scale).1 := by
    funext i h
    rw [first, y0F, acc0]
  refine ⟨fun i => accumulate act0Q.data w1Q.data
    (quantizeBias m.net2.b0 act0Q.scale w1Q.scale).1 i 0 * (act0Q.scale * w1Q.scale), ?_,
    near_of_abs_sub_le fun i => ?_⟩
  · simp only [emulateMlpInt8, quantizeInputs_calibrated madeX, Option.bind_eq_bind,
      Option.bind_some, rectified, quantizeInputs_calibrated madeAct]
    rfl
  · have row : norm.normalise (calibrationRows x i) = calibrationRows z i := (normalised _).symm
    have hidden (h : Fin hidden) := activation_error activations
      (congrFun (congrFun rectified i) h).symm
      (neuron_error (std_pos nonneg stored) inputs weights0 (fit.b0 h))
    rw [row] at hidden
    exact layer_error activations.pos (activations.range i) hidden weights1 fit.b1

def oneNeuron : TinyMLP 1 1 where
  net0 := neuron 1
  net2 := neuron 1

theorem mlp_near_trained_two :
    ∃ e logits, quantizeMlp oneNeuron.net0 oneNeuron.net2.w0 oneNeuron.net2.b0 twoRowsNorm
        twoRows = some e ∧
      emulateMlpInt8 e (calibrationRows twoRows) = some logits ∧
      Near logits (fun i => oneNeuron.forward (calibrationRows twoRowsStd i))
        fun i => logitError oneNeuron twoRowsNorm e (calibrationRows twoRows i)
          (calibrationRows twoRowsStd i) := by
  have tensors : NoTinyTensor oneNeuron.net0 oneNeuron.net2.w0 twoRowsNorm twoRows :=
    { rows := ⟨⟨1, by decide⟩, 0, by decide +kernel⟩
      w0 := ⟨0, 0, by decide +kernel⟩
      act0 := ⟨⟨1, by decide⟩, 0, by decide +kernel⟩
      w1 := ⟨0, 0, by decide +kernel⟩ }
  obtain ⟨e, made, near⟩ := mlp_near_trained (fun _ nonneg => nonneg) one_pos one_pos
    standardize_twoRows oneNeuron tensors
  have fits : (quantizeMlp oneNeuron.net0 oneNeuron.net2.w0 oneNeuron.net2.b0 twoRowsNorm
      twoRows).all (fun e =>
        decide (BiasRoom 1 ((foldNormIntoFirstLayer oneNeuron.net0 twoRowsNorm).b0 0)
          (e.inScale * e.w0Scale) ∧ BiasRoom 1 (oneNeuron.net2.b0 0)
            (e.act0Scale * e.w1Scale))) = true := by
    decide +kernel
  rw [made, Option.all_some, decide_eq_true_iff] at fits
  have first (h : Fin 1) :
      BiasRoom 1 ((foldNormIntoFirstLayer oneNeuron.net0 twoRowsNorm).b0 h)
        (e.inScale * e.w0Scale) := by
    rw [Subsingleton.elim h 0]
    exact fits.1
  obtain ⟨logits, emulated, close⟩ := near ⟨first, fits.2⟩
  exact ⟨e, logits, made, emulated, close⟩

end HftLatencyLab.MlpParity
