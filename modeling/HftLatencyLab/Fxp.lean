import HftLatencyLab.Rounding
import Mathlib.Data.Rat.Floor

/-! quantize_symmetric of fxp.py over the rationals. A tensor is the list of its
entries; every caller leaves `max_abs` at its default. -/

namespace HftLatencyLab.Fxp
open Rounding

def clampInt (x minV maxV : ℤ) : ℤ := min (max x minV) maxV

structure QuantTensor where
  data : List ℤ
  scale : ℚ
  zeroPoint : ℤ
deriving DecidableEq

/-- `scale = max_abs / qmax if max_abs > 0 else 1.0` -/
def symmetricScale (maxAbs : ℚ) (qmax : ℤ) : ℚ := if 0 < maxAbs then maxAbs / qmax else 1

/-- `none` where `np.max` finds nothing to reduce. -/
def quantizeSymmetric (xs : List ℚ) (numBits : ℕ) : Option QuantTensor := do
  let qmin : ℤ := -2 ^ (numBits - 1)
  let qmax : ℤ := 2 ^ (numBits - 1) - 1
  let peak ← (xs.map abs).max?
  let scale := symmetricScale (peak + 1 / 10 ^ 12) qmax
  return { data := xs.map (fun x => clampInt (roundHalfEven (x / scale)) qmin qmax)
           scale := scale
           zeroPoint := 0 }

theorem quantizeSymmetric_scale {xs : List ℚ} {numBits : ℕ} {q : QuantTensor}
    (quantised : quantizeSymmetric xs numBits = some q) :
    ∃ x ∈ xs, (∀ y ∈ xs, |y| ≤ |x|) ∧
      q.scale = (|x| + 1 / 10 ^ 12) / ((2 ^ (numBits - 1) - 1 : ℤ) : ℚ) := by
  simp only [quantizeSymmetric, Option.bind_eq_bind, Option.pure_def, Option.bind_eq_some_iff,
    Option.some.injEq] at quantised
  obtain ⟨peak, largest, rfl⟩ := quantised
  obtain ⟨member, most⟩ := List.max?_eq_some_iff.mp largest
  obtain ⟨x, mem, rfl⟩ := List.mem_map.mp member
  have raised : 0 < |x| + 1 / 10 ^ 12 := by positivity
  refine ⟨x, mem, fun y hy => most |y| (List.mem_map_of_mem hy), ?_⟩
  rw [symmetricScale, if_pos raised]

theorem steps_pos {numBits : ℕ} (wide : 2 ≤ numBits) :
    (0 : ℚ) < ((2 ^ (numBits - 1) - 1 : ℤ) : ℚ) := by
  have two : 2 ^ 1 ≤ 2 ^ (numBits - 1) := Nat.pow_le_pow_right (by norm_num) (by omega)
  have two' : (2 : ℤ) ^ 1 ≤ 2 ^ (numBits - 1) := by exact_mod_cast two
  have steps : (0 : ℤ) < 2 ^ (numBits - 1) - 1 := by omega
  exact_mod_cast steps

theorem quantizeSymmetric_scale_pos {xs : List ℚ} {numBits : ℕ} {q : QuantTensor}
    (wide : 2 ≤ numBits) (quantised : quantizeSymmetric xs numBits = some q) : 0 < q.scale := by
  obtain ⟨x, -, -, scale⟩ := quantizeSymmetric_scale quantised
  have steps := steps_pos wide
  rw [scale]
  positivity

theorem quantizeSymmetric_isSome {xs : List ℚ} (some : xs ≠ []) (numBits : ℕ) :
    ∃ q, quantizeSymmetric xs numBits = .some q := by
  have there : (xs.map abs).max?.isSome := by
    rw [List.isSome_max?_iff]
    simpa using some
  obtain ⟨peak, largest⟩ := Option.isSome_iff_exists.mp there
  exact ⟨_, by rw [quantizeSymmetric, largest]; rfl⟩

theorem quantizeSymmetric_inside {xs : List ℚ} {numBits : ℕ} {q : QuantTensor}
    (wide : 2 ≤ numBits) (quantised : quantizeSymmetric xs numBits = some q) {x : ℚ}
    (mem : x ∈ xs) : |x / q.scale| < ((2 ^ (numBits - 1) - 1 : ℤ) : ℚ) := by
  have steps := steps_pos wide
  have pos := quantizeSymmetric_scale_pos wide quantised
  obtain ⟨y, -, most, scale⟩ := quantizeSymmetric_scale quantised
  rw [abs_div, abs_of_pos pos, div_lt_iff₀ pos, scale, mul_div_cancel₀ _ steps.ne']
  linarith [most x mem]

end HftLatencyLab.Fxp
