import HftLatencyLab.Fxp
import HftLatencyLab.FixedWidth

/-! How mlp_infer_stream brings an input or a ReLU output to an int8, over the
rationals, against emulate_mlp_int8. The fabric takes a half away from zero where
numpy takes it to the even neighbour, and a scale of at most 1e-12 as no scale. -/

namespace HftLatencyLab.Quantise
open Rounding Fxp FixedWidth

def clampToI8 (v : BitVec 32) : BitVec 8 :=
  if 127 < v.toInt then 127
  else if v.toInt < -128 then -128
  else v.setWidth 8

/-- `(scale > 1e-12f) ? (1.0f / scale) : 0.0f` -/
def inverse (scale : ℚ) : ℚ := if 1 / 10 ^ 12 < scale then 1 / scale else 0

/-- `(ap_int<32>) q` -/
def toI32 (q : ℚ) : BitVec 32 := BitVec.ofInt 32 (truncate q)

def quantiseInput (inScale x : ℚ) : BitVec 8 :=
  clampToI8 (toI32 (x * inverse inScale + if 0 ≤ x then 1 / 2 else -1 / 2))

def quantiseInputs (inScale : ℚ) (x : Vector ℚ 4) : Vector (BitVec 8) 4 :=
  x.map (quantiseInput inScale)

/-- One neuron: `val` is its accumulator times `s0`. -/
def quantiseAct (act0Scale val : ℚ) : BitVec 8 :=
  clampToI8 (toI32 ((if val < 0 then 0 else val) * inverse act0Scale + 1 / 2))

def quantiseHidden (acc : Vector (BitVec 32) 32) (inScale w0Scale act0Scale : ℚ) :
    Vector (BitVec 8) 32 :=
  acc.map (fun a => quantiseAct act0Scale (a.toInt * (inScale * w0Scale)))

/-- `np.clip(np.round(x / scale).astype(np.int32), -128, 127)` -/
def emulateQuant (scale x : ℚ) : ℤ :=
  clampInt (BitVec.ofInt 32 (roundHalfEven (x / scale))).toInt (-128) 127

def emulateInputs (inScale : ℚ) (x : Vector ℚ 4) : Vector ℤ 4 := x.map (emulateQuant inScale)

/-- `np.maximum(y0_f, 0.0)` of a neuron. -/
def relu (acc : BitVec 32) (inScale w0Scale : ℚ) : ℚ := max (acc.toInt * (inScale * w0Scale)) 0

def emulateHidden (acc : Vector (BitVec 32) 32) (inScale w0Scale act0Scale : ℚ) : Vector ℤ 32 :=
  acc.map (fun a => emulateQuant act0Scale (relu a inScale w0Scale))

theorem clampToI8_toInt (v : BitVec 32) : (clampToI8 v).toInt = clampInt v.toInt (-128) 127 := by
  unfold clampToI8 clampInt
  split_ifs with above below
  · have top : (127 : BitVec 8).toInt = 127 := by decide
    omega
  · have bottom : (-128 : BitVec 8).toInt = -128 := by decide
    omega
  · rw [setWidth_eq_ofInt v (by norm_num),
      BitVec.toInt_ofInt_eq_self (by norm_num) (by norm_num; omega) (by norm_num; omega)]
    omega

theorem quantiseAct_eq (act0Scale val : ℚ) :
    quantiseAct act0Scale val = quantiseInput act0Scale (max val 0) := by
  have rectified : (if val < 0 then 0 else val) = max val 0 := by
    split_ifs with neg
    · rw [max_eq_right neg.le]
    · rw [max_eq_left (not_lt.mp neg)]
  rw [quantiseAct, quantiseInput, rectified, if_pos (le_max_right val 0)]

theorem toInt_ofInt_of_near {y : ℚ} {n : ℤ} (near : |y - n| ≤ 1 / 2) (range : |y| < 2 ^ 31 - 1) :
    (BitVec.ofInt 32 n).toInt = n := by
  have inside : |y| < ((2 ^ 31 - 1 : ℕ) : ℚ) := by
    norm_num at range ⊢
    exact range
  have bound := abs_le.mp (abs_le_of_dist near inside.le)
  norm_num at bound
  exact BitVec.toInt_ofInt_eq_self (by norm_num) (by norm_num; omega) (by norm_num; omega)

theorem emulateQuant_eq {scale x : ℚ} (range : |x / scale| < 2 ^ 31 - 1) :
    emulateQuant scale x = clampInt (roundHalfEven (x / scale)) (-128) 127 := by
  rw [emulateQuant, toInt_ofInt_of_near (roundHalfEven_nearest _).dist_le range]

def roundedAway (scale x : ℚ) : ℤ :=
  if 1 / 10 ^ 12 < scale then clampInt (roundHalfAway (x / scale)) (-128) 127 else 0

theorem quantiseInput_toInt {scale x : ℚ} (pos : 0 < scale) (range : |x / scale| < 2 ^ 31 - 1) :
    (quantiseInput scale x).toInt = roundedAway scale x := by
  rw [quantiseInput, clampToI8_toInt, toI32, inverse, roundedAway]
  by_cases guard : 1 / 10 ^ 12 < scale
  · rw [if_pos guard, if_pos guard, mul_one_div]
    have rounded : truncate (x / scale + if 0 ≤ x then 1 / 2 else -1 / 2) =
        roundHalfAway (x / scale) := by
      split_ifs with nonneg
      · exact truncate_add_half (div_nonneg nonneg pos.le)
      · rw [neg_div, ← sub_eq_add_neg]
        exact truncate_sub_half (div_neg_of_neg_of_pos (not_le.mp nonneg) pos)
    rw [rounded, toInt_ofInt_of_near (roundHalfAway_dist _) range]
  · rw [if_neg guard, if_neg guard, mul_zero, zero_add]
    split_ifs <;> decide +kernel

/-- No tie between 2m and 2m+1 that the clamp leaves in sight; under the guard,
nothing that the reference rounds to anything but zero. -/
def SameRounding (scale x : ℚ) : Prop :=
  if 1 / 10 ^ 12 < scale then ∀ m : ℕ, m ≤ 63 → |x / scale| ≠ 2 * m + 1 / 2
  else |x / scale| ≤ 1 / 2

theorem clamp_away_iff (y : ℚ) :
    clampInt (roundHalfAway y) (-128) 127 = clampInt (roundHalfEven y) (-128) 127 ↔
      ∀ m : ℕ, m ≤ 63 → |y| ≠ 2 * m + 1 / 2 := by
  rcases halfAway_cases_abs y with ⟨same, noTie⟩ | ⟨m, tie, parted⟩
  · rw [same]
    exact ⟨fun _ m _ => noTie m, fun _ => rfl⟩
  · have value : clampInt (roundHalfAway y) (-128) 127 = clampInt (roundHalfEven y) (-128) 127 ↔
        63 < m := by
      unfold clampInt
      rcases parted with ⟨even, away⟩ | ⟨even, away⟩ <;> rw [even, away] <;> omega
    rw [value, tie]
    constructor
    · intro far k near equal
      have same : (m : ℚ) = k := by linarith
      have same' : m = k := by exact_mod_cast same
      omega
    · intro other
      by_contra near
      exact other m (by omega) rfl

theorem roundedAway_eq_iff {scale x : ℚ} (range : |x / scale| < 2 ^ 31 - 1) :
    roundedAway scale x = emulateQuant scale x ↔ SameRounding scale x := by
  rw [emulateQuant_eq range, roundedAway, SameRounding]
  split_ifs
  · exact clamp_away_iff (x / scale)
  · rw [← roundHalfEven_eq_zero_iff, clampInt]
    omega

/-- Every int8 of the fabric is the scaled value rounded half away from zero, and
zero under the guard; it is the reference's exactly where the two roundings agree. -/
theorem quantised_alike_iff {inScale w0Scale act0Scale : ℚ} (inPos : 0 < inScale)
    (actPos : 0 < act0Scale) (x : Vector ℚ 4) (acc : Vector (BitVec 32) 32)
    (xRange : ∀ i, |x.get i / inScale| < 2 ^ 31 - 1)
    (actRange : ∀ h, |relu (acc.get h) inScale w0Scale / act0Scale| < 2 ^ 31 - 1) :
    (∀ i, ((quantiseInputs inScale x).get i).toInt = roundedAway inScale (x.get i) ∧
      (((quantiseInputs inScale x).get i).toInt = (emulateInputs inScale x).get i ↔
        SameRounding inScale (x.get i))) ∧
    ∀ h, ((quantiseHidden acc inScale w0Scale act0Scale).get h).toInt =
        roundedAway act0Scale (relu (acc.get h) inScale w0Scale) ∧
      (((quantiseHidden acc inScale w0Scale act0Scale).get h).toInt =
          (emulateHidden acc inScale w0Scale act0Scale).get h ↔
        SameRounding act0Scale (relu (acc.get h) inScale w0Scale)) := by
  constructor
  · intro i
    have fabric : ((quantiseInputs inScale x).get i).toInt = roundedAway inScale (x.get i) := by
      rw [quantiseInputs, get_map, quantiseInput_toInt inPos (xRange i)]
    have reference : (emulateInputs inScale x).get i = emulateQuant inScale (x.get i) := by
      rw [emulateInputs, get_map]
    rw [fabric, reference]
    exact ⟨rfl, roundedAway_eq_iff (xRange i)⟩
  · intro h
    have fabric : ((quantiseHidden acc inScale w0Scale act0Scale).get h).toInt =
        roundedAway act0Scale (relu (acc.get h) inScale w0Scale) := by
      rw [quantiseHidden, get_map, quantiseAct_eq, ← relu,
        quantiseInput_toInt actPos (actRange h)]
    have reference : (emulateHidden acc inScale w0Scale act0Scale).get h =
        emulateQuant act0Scale (relu (acc.get h) inScale w0Scale) := by
      rw [emulateHidden, get_map]
    rw [fabric, reference]
    exact ⟨rfl, roundedAway_eq_iff (actRange h)⟩

def halfInputs : Vector ℚ 4 := #v[1 / 2, 3 / 2, -5 / 2, 1000]

def countingAcc : Vector (BitVec 32) 32 := Vector.ofFn (fun h => BitVec.ofNat 32 h)

/-- At scale 1 the half comes out as 1, and at scale 2 the fourth neuron as 2 on
both sides. -/
theorem quantised_alike_iff_half :
    (((quantiseInputs 1 halfInputs).get 0).toInt = 1 ∧
      ((quantiseInputs 1 halfInputs).get 0).toInt ≠ (emulateInputs 1 halfInputs).get 0) ∧
    ((quantiseHidden countingAcc 1 1 2).get 3).toInt = 2 ∧
      ((quantiseHidden countingAcc 1 1 2).get 3).toInt =
        (emulateHidden countingAcc 1 1 2).get 3 := by
  have layer := @quantised_alike_iff 1 1 2 (by norm_num)
    (by norm_num) halfInputs countingAcc (by decide +kernel) (by decide +kernel)
  have one := layer.1 0
  have two := layer.2 3
  refine ⟨⟨one.1.trans (by decide +kernel), fun same => ?_⟩, two.1.trans (by decide +kernel),
    two.2.mpr ?_⟩
  · have apart := one.2.mp same
    rw [SameRounding, if_pos (by norm_num)] at apart
    exact apart 0 (by norm_num) (by decide +kernel)
  · rw [SameRounding, if_pos (by norm_num)]
    intro m near tie
    have value : |relu (countingAcc.get 3) 1 1 / 2| = 3 / 2 := by decide +kernel
    rw [value] at tie
    have doubled : (2 * m : ℚ) = 1 := by linarith
    have doubled' : 2 * m = 1 := by exact_mod_cast doubled
    omega

/-- The tensor whose scale is 1 parts them at one half. -/
theorem half_quantised_apart :
    ¬∀ (xs : List ℚ) (q : QuantTensor) (x : ℚ), quantizeSymmetric xs 8 = some q →
      0 < q.scale → |x / q.scale| < 2 ^ 31 - 1 →
      (quantiseInput q.scale x).toInt = emulateQuant q.scale x := by
  intro always
  have alike := always [127 - 1 / 10 ^ 12] ⟨[127], 1, 0⟩ (1 / 2) (by decide +kernel)
    (by decide +kernel) (by decide +kernel)
  exact absurd alike (by decide +kernel)

end HftLatencyLab.Quantise
