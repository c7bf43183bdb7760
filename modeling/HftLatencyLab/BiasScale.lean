import HftLatencyLab.LinearInt8
import HftLatencyLab.NormFold

/-! quantize_mlp of quantize_models.py over the rationals. The biases are quantised at the
product of two scales, each raised to 1e-12 where it is smaller; the scales exported, by whose
product the accumulators are multiplied, are the ones before that. A tensor of zeros has
1e-12/127, so the two products are not always one. -/

namespace HftLatencyLab.BiasScale
open Matrix Rounding Fxp NormFold LinearInt8

variable {n d hidden out : ℕ}

def scaleFloor : ℚ := 1 / 10 ^ 12

/-- `X[: min(100000, X.shape[0]), :]` -/
def calibrationRows (x : Matrix (Fin n) (Fin d) ℚ) : Matrix (Fin (min 100000 n)) (Fin d) ℚ :=
  fun i => x (i.castLE (Nat.min_le_right _ _))

structure MlpExport (d hidden out : ℕ) where
  inScale : ℚ
  w0Int8 : Matrix (Fin hidden) (Fin d) ℤ
  w0Scale : ℚ
  b0Int32 : Fin hidden → ℤ
  b0Scale : ℚ
  act0Scale : ℚ
  w1Int8 : Matrix (Fin out) (Fin hidden) ℤ
  w1Scale : ℚ
  b1Int32 : Fin out → ℤ
  b1Scale : ℚ

/-- `x_q.data @ w0_q.data.T + b0_q` -/
def acc0 {rows : ℕ} (xQ : QuantMatrix rows d) (w0Q : QuantMatrix hidden d) (b0Q : Fin hidden → ℤ) :
    Matrix (Fin rows) (Fin hidden) ℤ := fun i h => (∑ j, xQ.data i j * w0Q.data h j) + b0Q h

def y0F {rows : ℕ} (xQ : QuantMatrix rows d) (w0Q : QuantMatrix hidden d) (b0Q : Fin hidden → ℤ) :
    Matrix (Fin rows) (Fin hidden) ℚ :=
  fun i h => max (acc0 xQ w0Q b0Q i h * (xQ.scale * w0Q.scale)) 0

def quantizeMlp (l : Layer ℚ hidden d) (w1 : Matrix (Fin out) (Fin hidden) ℚ) (b1 : Fin out → ℚ)
    (norm : NormMeta ℚ d) (x : Matrix (Fin n) (Fin d) ℚ) : Option (MlpExport d hidden out) := do
  let folded := foldNormIntoFirstLayer l norm
  let xQ ← quantizeMatrix (calibrationRows x) 8
  let w0Q ← quantizeMatrix folded.w0 8
  let sIn0 := max xQ.scale scaleFloor
  let sW0 := max w0Q.scale scaleFloor
  let (b0Q, b0Scale) := quantizeBias folded.b0 sIn0 sW0
  let act0Q ← quantizeMatrix (y0F xQ w0Q b0Q) 8
  let w1Q ← quantizeMatrix w1 8
  let sIn1 := max act0Q.scale scaleFloor
  let sW1 := max w1Q.scale scaleFloor
  let (b1Q, b1Scale) := quantizeBias b1 sIn1 sW1
  return { inScale := xQ.scale
           w0Int8 := w0Q.data
           w0Scale := w0Q.scale
           b0Int32 := b0Q
           b0Scale := b0Scale
           act0Scale := act0Q.scale
           w1Int8 := w1Q.data
           w1Scale := w1Q.scale
           b1Int32 := b1Q
           b1Scale := b1Scale }

/-- The biases are those of the folded layers, at the scales of the products they are added to. -/
structure BiasesInScale (l : Layer ℚ hidden d) (b1 : Fin out → ℚ) (norm : NormMeta ℚ d)
    (e : MlpExport d hidden out) : Prop where
  b0Scale : e.b0Scale = e.inScale * e.w0Scale
  b1Scale : e.b1Scale = e.act0Scale * e.w1Scale
  b0Int32 : e.b0Int32 =
    (quantizeBias (foldNormIntoFirstLayer l norm).b0 e.inScale e.w0Scale).1
  b1Int32 : e.b1Int32 = (quantizeBias b1 e.act0Scale e.w1Scale).1

def Sizeable {rows columns : ℕ} (x : Matrix (Fin rows) (Fin columns) ℚ) : Prop :=
  ∃ i j, 126 / 10 ^ 12 ≤ |x i j|

def scaleOf {rows columns : ℕ} (x : Matrix (Fin rows) (Fin columns) ℚ) : ℚ :=
  (((entries x).map abs).max?.getD 0 + 1 / 10 ^ 12) / 127

def int8Neuron {rows : ℕ} (x : Matrix (Fin rows) (Fin d) ℚ) (l : Layer ℚ hidden d) (i : Fin rows)
    (h : Fin hidden) : ℚ :=
  (((∑ j, quantizeEntry 8 (scaleOf x) (x i j) * quantizeEntry 8 (scaleOf l.w0) (l.w0 h j)) +
    (quantizeBias l.b0 (scaleOf x) (scaleOf l.w0)).1 h : ℤ) : ℚ) * (scaleOf x * scaleOf l.w0)

/-- No tensor of the network is next to zero: the calibration rows, the folded weights, what the
int8 layer makes of the rows, and the weights behind it. -/
structure NoTinyTensor (l : Layer ℚ hidden d) (w1 : Matrix (Fin out) (Fin hidden) ℚ)
    (norm : NormMeta ℚ d) (x : Matrix (Fin n) (Fin d) ℚ) : Prop where
  rows : Sizeable (calibrationRows x)
  w0 : Sizeable (foldNormIntoFirstLayer l norm).w0
  act0 : ∃ i h, 126 / 10 ^ 12 ≤ int8Neuron (calibrationRows x) (foldNormIntoFirstLayer l norm) i h
  w1 : Sizeable w1

theorem mem_entries_iff {rows columns : ℕ} {x : Matrix (Fin rows) (Fin columns) ℚ} {y : ℚ} :
    y ∈ entries x ↔ ∃ i j, x i j = y := by
  simp [entries]

theorem quantizeMatrix_scale {rows columns : ℕ} {x : Matrix (Fin rows) (Fin columns) ℚ}
    {m : QuantMatrix rows columns} (quantised : quantizeMatrix x 8 = some m) :
    m.scale = scaleOf x ∧ 0 < m.scale ∧ (scaleFloor ≤ m.scale ↔ Sizeable x) := by
  obtain ⟨q, tensor, -, scale, -⟩ := entries_data quantised
  have pos := quantizeSymmetric_scale_pos (by norm_num) tensor
  obtain ⟨y, mem, most, peak⟩ := quantizeSymmetric_scale tensor
  have largest : ((entries x).map abs).max? = some |y| := by
    refine List.max?_eq_some_iff.mpr ⟨List.mem_map_of_mem mem, fun z hz => ?_⟩
    obtain ⟨w, hw, rfl⟩ := List.mem_map.mp hz
    exact most w hw
  norm_num at peak
  refine ⟨?_, scale ▸ pos, ?_⟩
  · rw [scale, scaleOf, largest, peak]
    norm_num
  · rw [scale, peak, scaleFloor, le_div_iff₀ (by norm_num)]
    constructor
    · intro large
      obtain ⟨i, j, rfl⟩ := mem_entries_iff.mp mem
      exact ⟨i, j, by linarith⟩
    · rintro ⟨i, j, large⟩
      have below := most _ (mem_entries x i j)
      linarith

theorem quantizeMatrix_floor {rows columns : ℕ} (hr : 0 < rows) (hc : 0 < columns)
    (x : Matrix (Fin rows) (Fin columns) ℚ) :
    ∃ m, quantizeMatrix x 8 = some m ∧ 0 < m.scale ∧ (scaleFloor ≤ m.scale ↔ Sizeable x) := by
  obtain ⟨m, made, -⟩ := quantizeMatrix_approximates hr hc x
  exact ⟨m, made, (quantizeMatrix_scale made).2⟩

theorem max_mul_max_eq_iff {a b c : ℚ} (ha : 0 < a) (hb : 0 < b) :
    max a c * max b c = a * b ↔ c ≤ a ∧ c ≤ b := by
  constructor
  · intro same
    have la := le_max_left a c
    have lb := le_max_left b c
    by_contra small
    have larger : a * b < max a c * max b c := by
      rcases not_and_or.mp small with short | short
      · have above : a < max a c := lt_max_of_lt_right (not_le.mp short)
        exact mul_lt_mul above lb hb (ha.le.trans la)
      · have above : b < max b c := lt_max_of_lt_right (not_le.mp short)
        exact mul_lt_mul' la above hb.le (ha.trans_le la)
    exact larger.ne' same
  · rintro ⟨ha', hb'⟩
    rw [max_eq_left ha', max_eq_left hb']

theorem y0F_eq {rows : ℕ} {x : Matrix (Fin rows) (Fin d) ℚ} {l : Layer ℚ hidden d}
    {xQ : QuantMatrix rows d} {w0Q : QuantMatrix hidden d} (madeX : quantizeMatrix x 8 = some xQ)
    (madeW : quantizeMatrix l.w0 8 = some w0Q) :
    y0F xQ w0Q (quantizeBias l.b0 xQ.scale w0Q.scale).1 =
      fun i h => max (int8Neuron x l i h) 0 := by
  obtain ⟨-, -, -, -, dataX⟩ := entries_data madeX
  obtain ⟨-, -, -, -, dataW⟩ := entries_data madeW
  have sx := (quantizeMatrix_scale madeX).1
  have sw := (quantizeMatrix_scale madeW).1
  funext i h
  rw [y0F, acc0, int8Neuron, dataX, dataW, sx, sw]

theorem sizeable_max_zero_iff {rows columns : ℕ} (f : Fin rows → Fin columns → ℚ) :
    Sizeable (fun i h => max (f i h) 0) ↔ ∃ i h, 126 / 10 ^ 12 ≤ f i h := by
  refine exists_congr fun i => exists_congr fun h => ?_
  rw [abs_of_nonneg (le_max_right _ _), le_max_iff]
  constructor
  · rintro (large | zero)
    · exact large
    · norm_num at zero
  · exact Or.inl

theorem sizeable_y0F_iff {rows : ℕ} {x : Matrix (Fin rows) (Fin d) ℚ} {l : Layer ℚ hidden d}
    {xQ : QuantMatrix rows d} {w0Q : QuantMatrix hidden d} (madeX : quantizeMatrix x 8 = some xQ)
    (madeW : quantizeMatrix l.w0 8 = some w0Q)
    (large : scaleFloor ≤ xQ.scale ∧ scaleFloor ≤ w0Q.scale) :
    Sizeable (y0F xQ w0Q (quantizeBias l.b0 (max xQ.scale scaleFloor)
      (max w0Q.scale scaleFloor)).1) ↔ ∃ i h, 126 / 10 ^ 12 ≤ int8Neuron x l i h := by
  rw [max_eq_left large.1, max_eq_left large.2, y0F_eq madeX madeW]
  exact sizeable_max_zero_iff _

/-- The biases are at the scales of the accumulators exactly if no tensor is next to zero. -/
theorem biases_in_scale_iff (rows : 0 < n) (columns : 0 < d) (neurons : 0 < hidden)
    (outputs : 0 < out) (l : Layer ℚ hidden d) (w1 : Matrix (Fin out) (Fin hidden) ℚ)
    (b1 : Fin out → ℚ) (norm : NormMeta ℚ d) (x : Matrix (Fin n) (Fin d) ℚ) :
    ∃ e, quantizeMlp l w1 b1 norm x = some e ∧
      (BiasesInScale l b1 norm e ↔ NoTinyTensor l w1 norm x) := by
  have calibrated : 0 < min 100000 n := by omega
  obtain ⟨xQ, madeX, xPos, xFloor⟩ := quantizeMatrix_floor calibrated columns (calibrationRows x)
  obtain ⟨w0Q, madeW0, w0Pos, w0Floor⟩ := quantizeMatrix_floor neurons columns
    (foldNormIntoFirstLayer l norm).w0
  obtain ⟨act0Q, madeAct, actPos, actFloor⟩ := quantizeMatrix_floor calibrated neurons
    (y0F xQ w0Q (quantizeBias (foldNormIntoFirstLayer l norm).b0 (max xQ.scale scaleFloor)
      (max w0Q.scale scaleFloor)).1)
  obtain ⟨w1Q, madeW1, w1Pos, w1Floor⟩ := quantizeMatrix_floor outputs neurons w1
  have first := max_mul_max_eq_iff (c := scaleFloor) xPos w0Pos
  have second := max_mul_max_eq_iff (c := scaleFloor) actPos w1Pos
  have act (large : scaleFloor ≤ xQ.scale ∧ scaleFloor ≤ w0Q.scale) :
      scaleFloor ≤ act0Q.scale ↔ ∃ i h, 126 / 10 ^ 12 ≤
        int8Neuron (calibrationRows x) (foldNormIntoFirstLayer l norm) i h :=
    actFloor.trans (sizeable_y0F_iff madeX madeW0 large)
  rw [quantizeMlp]
  simp only [madeX, madeW0, madeW1, Option.bind_eq_bind, Option.bind_some]
  rw [madeAct]
  refine ⟨_, rfl, ?_, ?_⟩
  · intro inScale
    have large := first.mp inScale.b0Scale
    have large' := second.mp inScale.b1Scale
    exact ⟨xFloor.mp large.1, w0Floor.mp large.2, (act large).mp large'.1, w1Floor.mp large'.2⟩
  · intro tensors
    have large : scaleFloor ≤ xQ.scale ∧ scaleFloor ≤ w0Q.scale :=
      ⟨xFloor.mpr tensors.rows, w0Floor.mpr tensors.w0⟩
    have large' : scaleFloor ≤ act0Q.scale ∧ scaleFloor ≤ w1Q.scale :=
      ⟨(act large).mpr tensors.act0, w1Floor.mpr tensors.w1⟩
    refine ⟨first.mpr large, second.mpr large', ?_, ?_⟩
    · rw [max_eq_left large.1, max_eq_left large.2]
    · rw [max_eq_left large'.1, max_eq_left large'.2]

def neuron (weight : ℚ) : Layer ℚ 1 1 where
  w0 _ _ := weight
  b0 _ := 1 / 2

def plainNorm : NormMeta ℚ 1 where
  mean _ := 0
  std _ := 1

def ones : Matrix (Fin 1) (Fin 1) ℚ := fun _ _ => 1

theorem biases_in_scale_one :
    ∃ e, quantizeMlp (neuron 1) ones (fun _ => 1) plainNorm ones = some e ∧
      BiasesInScale (neuron 1) (fun _ => 1) plainNorm e := by
  obtain ⟨e, made, inScale⟩ := biases_in_scale_iff (by norm_num) (by norm_num) (by norm_num)
    (by norm_num) (neuron 1) ones (fun _ => 1) plainNorm ones
  have rows : Sizeable (calibrationRows ones) := ⟨⟨0, by decide⟩, 0, by decide +kernel⟩
  have w0 : Sizeable (foldNormIntoFirstLayer (neuron 1) plainNorm).w0 :=
    ⟨0, 0, by decide +kernel⟩
  have w1 : Sizeable ones := ⟨0, 0, by decide +kernel⟩
  exact ⟨e, made, inScale.mpr ⟨rows, w0, ⟨⟨0, by decide⟩, 0, by decide +kernel⟩, w1⟩⟩

/-- A neuron that never fires: its activations have 1e-12/127, the second bias 1e-12. -/
theorem silent_neuron_apart :
    ∃ e, quantizeMlp (neuron (-1)) ones (fun _ => 1) plainNorm ones = some e ∧
      e.act0Scale = 1 / 10 ^ 12 / 127 ∧ e.b1Scale = 1 / 10 ^ 12 * e.w1Scale ∧
      ¬BiasesInScale (neuron (-1)) (fun _ => 1) plainNorm e := by
  have scales : (quantizeMlp (neuron (-1)) ones (fun _ => 1) plainNorm ones).map
      (fun e => (e.act0Scale, e.b1Scale, e.w1Scale)) =
        some (1 / 10 ^ 12 / 127, 1 / 10 ^ 12 * ((1 + 1 / 10 ^ 12) / 127),
          (1 + 1 / 10 ^ 12) / 127) := by
    decide +kernel
  obtain ⟨e, made, values⟩ := Option.map_eq_some_iff.mp scales
  obtain ⟨act0, b1w1⟩ := Prod.mk.inj values
  obtain ⟨b1, w1⟩ := Prod.mk.inj b1w1
  refine ⟨e, made, act0, by rw [b1, w1], fun inScale => ?_⟩
  have same := inScale.b1Scale
  rw [act0, b1, w1] at same
  norm_num at same

end HftLatencyLab.BiasScale
