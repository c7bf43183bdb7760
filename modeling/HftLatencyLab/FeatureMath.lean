import HftLatencyLab.FeatureBook

/-! `compute_features` of feature_pipeline.cpp, and the exact integers its
registers hold. Division is that of `ap_int`, toward zero. Narrowing
assignments keep the low bits; which of them can lose any is read off the
statements below: only the 32-bit clamp of the gap and the 32-bit difference of
mids. -/

namespace HftLatencyLab.FeatureMath
open FeatureParser FeatureBook FixedWidth

structure Features where
  ofiQ32 : BitVec 32
  tobImbQ115 : BitVec 16
  rsv0 : BitVec 16
  burstQ1616 : BitVec 32
  volQ1616 : BitVec 32
deriving DecidableEq

/-- `dt`: zero before the first packet, and at most `0xFFFFFFFF` nanoseconds. -/
def packetGap (lastT tSendNs : BitVec 64) : BitVec 32 :=
  let dt64 := if lastT = 0 then 0 else tSendNs - lastT
  if dt64 > 0xFFFFFFFF then 0xFFFFFFFF else dt64.setWidth 32

def topImbalance (bestBidQty bestAskQty : BitVec 32) : BitVec 16 :=
  let num : BitVec 33 := bestBidQty.signExtend 33 - bestAskQty.signExtend 33
  let den : BitVec 33 := bestBidQty.signExtend 33 + bestAskQty.signExtend 33
  if den ≠ 0 then
    let numScaled : BitVec 48 := num.signExtend 48 <<< 15
    let q : BitVec 32 := BitVec.ofInt 32 (numScaled.toInt.tdiv den.toInt)
    if q.toInt > 0x7FFF then 0x7FFF
    else if q.toInt < -0x8000 then BitVec.ofInt 16 (-0x8000)
    else q.setWidth 16
  else 0

def clampU32 (v : BitVec 64) : BitVec 32 :=
  let v := if v.toInt < 0 then 0 else v
  let v := if v.toInt > 0xFFFFFFFF then 0xFFFFFFFF else v
  v.setWidth 32

def tauBurstNs : ℕ := 200000
def tauVolNs : ℕ := 2000000

def burstStep (burstQ1616 dt : BitVec 32) : BitVec 32 :=
  let decayB : BitVec 64 := BitVec.ofNat 64 (burstQ1616.toNat * dt.toNat / tauBurstNs)
  let vB : BitVec 64 := burstQ1616.setWidth 64 - decayB + (1 : BitVec 64) <<< 16
  clampU32 vB

def midNow (bestBidPx bestAskPx : BitVec 32) : BitVec 32 :=
  ((bestBidPx.signExtend 33 + bestAskPx.signExtend 33).sshiftRight 1).setWidth 32

def dpAbs (mid midPrev : BitVec 32) : BitVec 32 :=
  let diff := mid - midPrev
  if diff.toInt ≥ 0 then diff else -diff

def volStep (volQ1616 dt dp : BitVec 32) : BitVec 32 :=
  let numVol : BitVec 64 := (dp.setWidth 64 <<< 16) - volQ1616.setWidth 64
  let deltaV : BitVec 64 :=
    BitVec.ofInt 64 ((numVol.toInt * (dt.setWidth 64).toInt).tdiv tauVolNs)
  let vVol : BitVec 64 := volQ1616.setWidth 64 + deltaV
  clampU32 vVol

def computeFeatures (tSendNs : BitVec 64) (r : Regs) : Regs × Features :=
  let dt := packetGap r.lastT tSendNs
  let imbQ115 := topImbalance r.bestBidQty r.bestAskQty
  let burst := burstStep r.burstQ1616 dt
  let mid := midNow r.bestBidPx r.bestAskPx
  let vol := volStep r.volQ1616 dt (dpAbs mid r.midPrev)
  ({ r with lastT := tSendNs, burstQ1616 := burst, midPrev := mid, volQ1616 := vol },
   { ofiQ32 := r.ofiAccum, tobImbQ115 := imbQ115, rsv0 := 0, burstQ1616 := burst, volQ1616 := vol })

theorem clampU32_toNat (v : BitVec 64) : ((clampU32 v).toNat : ℤ) = saturateU32 v.toInt := by
  unfold clampU32 saturateU32
  have hv := v.isLt
  by_cases neg : v.toInt < 0
  · simp only [if_pos neg]
    rw [max_eq_left (by omega)]
    rfl
  · have value : v.toInt = v.toNat := by
      rw [BitVec.toInt_eq_toNat_cond] at neg ⊢
      split at neg <;> split <;> omega
    simp only [if_neg neg]
    by_cases high : v.toInt > 0xFFFFFFFF
    · rw [if_pos high, min_eq_right (by omega)]
      rfl
    · rw [if_neg high, min_eq_left (by omega), max_eq_right (by omega), BitVec.toNat_setWidth]
      omega

theorem packetGap_toNat (lastT tSendNs : BitVec 64) :
    (packetGap lastT tSendNs).toNat =
      if lastT = 0 then 0 else min (tSendNs - lastT).toNat 0xFFFFFFFF := by
  have top : (0xFFFFFFFF : BitVec 64).toNat = 0xFFFFFFFF := rfl
  unfold packetGap
  by_cases first : lastT = 0
  · simp [first]
  · simp only [if_neg first]
    split
    · next high =>
      rw [gt_iff_lt, BitVec.lt_def, top] at high
      rw [min_eq_right high.le]
      rfl
    · next low =>
      rw [gt_iff_lt, BitVec.lt_def, top, not_lt] at low
      rw [min_eq_left low, BitVec.toNat_setWidth]
      omega

theorem toInt_ofNat_of_lt {n : ℕ} (h : n < 2 ^ 63) : (BitVec.ofNat 64 n).toInt = n := by
  have value : (BitVec.ofNat 64 n).toNat = n := by
    rw [BitVec.toNat_ofNat, Nat.mod_eq_of_lt (by omega)]
  rw [BitVec.toInt_eq_toNat_of_lt (by omega), value]

theorem burstStep_toNat (burst dt : BitVec 32) :
    ((burstStep burst dt).toNat : ℤ) =
      saturateU32 (burst.toNat - (burst.toNat * dt.toNat / tauBurstNs : ℕ) + 65536) := by
  have hb := burst.isLt
  have product : burst.toNat * dt.toNat < 2 ^ 32 * 2 ^ 32 := Nat.mul_lt_mul'' hb dt.isLt
  have leak : burst.toNat * dt.toNat / tauBurstNs < 2 ^ 47 := by
    unfold tauBurstNs
    omega
  rw [burstStep, clampU32_toNat]
  generalize burst.toNat * dt.toNat / tauBurstNs = k at leak ⊢
  have stored := toInt_setWidth_of_lt burst (show 32 < 64 by norm_num)
  have leaked := toInt_ofNat_of_lt (show k < 2 ^ 63 by omega)
  have one : ((1 : BitVec 64) <<< 16).toInt = 65536 := by decide
  have drop := toInt_sub_of_range (x := burst.setWidth 64) (y := BitVec.ofNat 64 k)
    (by omega) (by omega)
  rw [toInt_add_of_range (by omega) (by omega), drop, stored, leaked, one]

theorem midNow_toInt (bestBidPx bestAskPx : BitVec 32) :
    (midNow bestBidPx bestAskPx).toInt = (bestBidPx.toInt + bestAskPx.toInt) / 2 := by
  have hb := BitVec.toInt_lt (x := bestBidPx)
  have hb' := BitVec.le_toInt bestBidPx
  have ha := BitVec.toInt_lt (x := bestAskPx)
  have ha' := BitVec.le_toInt bestAskPx
  have sum := toInt_signExtend_add bestBidPx bestAskPx
  have shifted : ((bestBidPx.signExtend 33 + bestAskPx.signExtend 33).sshiftRight 1).toInt =
      (bestBidPx.toInt + bestAskPx.toInt) / 2 := by
    rw [BitVec.toInt_sshiftRight, sum, Int.shiftRight_eq_div_pow]
    rfl
  rw [midNow, setWidth_eq_ofInt _ (by norm_num), shifted,
    BitVec.toInt_ofInt_eq_self (by norm_num) (by omega) (by omega)]

theorem dpAbs_toNat (mid midPrev : BitVec 32) :
    ((dpAbs mid midPrev).toNat : ℤ) = |(mid.toInt - midPrev.toInt).bmod (2 ^ 32)| := by
  rw [← BitVec.toInt_sub]
  unfold dpAbs
  dsimp only
  generalize mid - midPrev = diff
  have value := BitVec.toInt_eq_toNat_cond diff
  have hd := diff.isLt
  by_cases pos : diff.toInt ≥ 0
  · rw [if_pos pos, abs_of_nonneg pos]
    split at value <;> omega
  · rw [if_neg pos, abs_of_neg (by omega), BitVec.toNat_neg]
    split at value <;> omega

theorem volStep_toNat (vol dt dp : BitVec 32) :
    ((volStep vol dt dp).toNat : ℤ) =
      saturateU32 (vol.toNat + ((dp.toNat * 65536 - vol.toNat) * dt.toNat : ℤ).tdiv tauVolNs) := by
  have hv := vol.isLt
  have hd := dt.isLt
  have hp := dp.isLt
  have stored := toInt_setWidth_of_lt vol (show 32 < 64 by norm_num)
  have gap := toInt_setWidth_of_lt dt (show 32 < 64 by norm_num)
  have wide := toInt_setWidth_of_lt dp (show 32 < 64 by norm_num)
  have target : (dp.setWidth 64 <<< 16).toInt = dp.toNat * 65536 := by
    rw [toInt_shiftLeft_of_range (by norm_num) (by rw [wide]; norm_num; omega)
      (by rw [wide]; norm_num; omega), wide]
    norm_num
  have num : ((dp.setWidth 64 <<< 16) - vol.setWidth 64).toInt = dp.toNat * 65536 - vol.toNat := by
    rw [toInt_sub_of_range (by omega) (by omega), target, stored]
  have range : -(2 ^ 60) ≤ ((dp.toNat * 65536 - vol.toNat) * dt.toNat : ℤ).tdiv tauVolNs ∧
      ((dp.toNat * 65536 - vol.toNat) * dt.toNat : ℤ).tdiv tauVolNs ≤ 2 ^ 60 := by
    have product := mul_bounds (n := dp.toNat * 65536 - vol.toNat) (d := dt.toNat) (a := 2 ^ 48)
      (b := 2 ^ 32) (by omega) (by omega) (by norm_num) (by omega) (by omega)
    exact tdiv_bounds (by norm_num [tauVolNs]) (by norm_num [tauVolNs]; linarith [product.1])
      (by norm_num [tauVolNs]; linarith [product.2])
  have delta := BitVec.toInt_ofInt_eq_self (w := 64) (by norm_num)
    (n := ((dp.toNat * 65536 - vol.toNat) * dt.toNat : ℤ).tdiv tauVolNs)
    (by omega) (by omega)
  rw [volStep, clampU32_toNat, num, gap, toInt_add_of_range (by omega) (by omega), delta, stored]

section Imbalance

variable (bestBidQty bestAskQty : BitVec 32)

def imbNum : BitVec 33 := bestBidQty.signExtend 33 - bestAskQty.signExtend 33

def imbDen : BitVec 33 := bestBidQty.signExtend 33 + bestAskQty.signExtend 33

def imbNumScaled : BitVec 48 := (imbNum bestBidQty bestAskQty).signExtend 48 <<< 15

def imbQuotient : BitVec 32 :=
  BitVec.ofInt 32 ((imbNumScaled bestBidQty bestAskQty).toInt.tdiv
    (imbDen bestBidQty bestAskQty).toInt)

theorem topImbalance_registers :
    topImbalance bestBidQty bestAskQty =
      if imbDen bestBidQty bestAskQty ≠ 0 then
        if (imbQuotient bestBidQty bestAskQty).toInt > 0x7FFF then 0x7FFF
        else if (imbQuotient bestBidQty bestAskQty).toInt < -0x8000 then BitVec.ofInt 16 (-0x8000)
        else (imbQuotient bestBidQty bestAskQty).setWidth 16
      else 0 := rfl

theorem imbNum_toInt :
    (imbNum bestBidQty bestAskQty).toInt = bestBidQty.toInt - bestAskQty.toInt :=
  toInt_signExtend_sub bestBidQty bestAskQty

theorem imbDen_toInt :
    (imbDen bestBidQty bestAskQty).toInt = bestBidQty.toInt + bestAskQty.toInt :=
  toInt_signExtend_add bestBidQty bestAskQty

theorem imbNumScaled_toInt :
    (imbNumScaled bestBidQty bestAskQty).toInt =
      (bestBidQty.toInt - bestAskQty.toInt) * 32768 := by
  have hb := BitVec.le_toInt bestBidQty
  have hb' := BitVec.toInt_lt (x := bestBidQty)
  have ha := BitVec.le_toInt bestAskQty
  have ha' := BitVec.toInt_lt (x := bestAskQty)
  have wide : ((imbNum bestBidQty bestAskQty).signExtend 48).toInt =
      bestBidQty.toInt - bestAskQty.toInt := by
    rw [BitVec.toInt_signExtend_of_le (by norm_num), imbNum_toInt]
  rw [imbNumScaled, toInt_shiftLeft_of_range (by norm_num) (by rw [wide]; norm_num; omega)
    (by rw [wide]; norm_num; omega), wide]
  norm_num

theorem imbDen_eq_zero_iff :
    imbDen bestBidQty bestAskQty = 0 ↔ bestBidQty.toInt + bestAskQty.toInt = 0 := by
  have den := imbDen_toInt bestBidQty bestAskQty
  constructor
  · intro zero
    rw [zero] at den
    exact den.symm
  · intro empty
    exact BitVec.eq_of_toInt_eq (by rw [den, empty]; rfl)

variable {bestBidQty bestAskQty} (hb : 0 ≤ bestBidQty.toInt) (ha : 0 ≤ bestAskQty.toInt)
  (some_qty : bestBidQty.toInt + bestAskQty.toInt ≠ 0)
include hb ha some_qty

theorem imbalance_bounds :
    -32768 ≤ ((bestBidQty.toInt - bestAskQty.toInt) * 32768).tdiv
        (bestBidQty.toInt + bestAskQty.toInt) ∧
      ((bestBidQty.toInt - bestAskQty.toInt) * 32768).tdiv
        (bestBidQty.toInt + bestAskQty.toInt) ≤ 32768 :=
  tdiv_bounds (by omega) (by omega) (by omega)

theorem imbQuotient_toInt :
    (imbQuotient bestBidQty bestAskQty).toInt =
      ((bestBidQty.toInt - bestAskQty.toInt) * 32768).tdiv
        (bestBidQty.toInt + bestAskQty.toInt) := by
  have quotient := imbalance_bounds hb ha some_qty
  rw [imbQuotient, imbNumScaled_toInt, imbDen_toInt]
  exact BitVec.toInt_ofInt_eq_self (by norm_num) (by omega) (by omega)

end Imbalance

theorem topImbalance_toInt {bestBidQty bestAskQty : BitVec 32} (hb : 0 ≤ bestBidQty.toInt)
    (ha : 0 ≤ bestAskQty.toInt) :
    (topImbalance bestBidQty bestAskQty).toInt =
      if bestBidQty.toInt + bestAskQty.toInt = 0 then 0
      else min 0x7FFF (((bestBidQty.toInt - bestAskQty.toInt) * 32768).tdiv
        (bestBidQty.toInt + bestAskQty.toInt)) := by
  rw [topImbalance_registers]
  by_cases empty : bestBidQty.toInt + bestAskQty.toInt = 0
  · rw [if_pos empty, if_neg (not_not.mpr ((imbDen_eq_zero_iff _ _).mpr empty))]
    rfl
  · have quotient := imbalance_bounds hb ha empty
    have value := imbQuotient_toInt hb ha empty
    rw [if_neg empty, if_pos (mt (imbDen_eq_zero_iff _ _).mp empty), value]
    generalize ((bestBidQty.toInt - bestAskQty.toInt) * 32768).tdiv
      (bestBidQty.toInt + bestAskQty.toInt) = q at quotient value ⊢
    by_cases high : q > 0x7FFF
    · rw [if_pos high, min_eq_left (by omega)]
      rfl
    · rw [if_neg high, if_neg (by omega), min_eq_right (by omega),
        setWidth_eq_ofInt _ (by norm_num), value,
        BitVec.toInt_ofInt_eq_self (by norm_num) (by omega) (by omega)]

theorem packetGap_eq_zero_iff (lastT t : BitVec 64) :
    packetGap lastT t = 0 ↔ lastT = 0 ∨ t = lastT := by
  have value := packetGap_toNat lastT t
  rw [← BitVec.toNat_inj, value]
  by_cases first : lastT = 0
  · simp [first]
  · have same : (t - lastT).toNat = 0 ↔ t = lastT := by
      have ht := t.isLt
      have hl := lastT.isLt
      rw [BitVec.toNat_sub, ← BitVec.toNat_inj]
      omega
    rw [if_neg first, ← same]
    simp only [first, false_or]
    change min _ _ = 0 ↔ _
    omega

theorem packetGap_same (lastT : BitVec 64) : packetGap lastT lastT = 0 :=
  (packetGap_eq_zero_iff _ _).mpr (Or.inr rfl)

theorem packetGap_after {lastT : BitVec 64} (h : lastT ≠ 0) (n : BitVec 32) :
    packetGap lastT (lastT + n.setWidth 64) = n := by
  have hn := n.isLt
  have gap : (lastT + n.setWidth 64 - lastT).toNat = n.toNat := by
    rw [BitVec.add_comm, BitVec.add_sub_cancel, BitVec.toNat_setWidth]
    omega
  apply BitVec.eq_of_toNat_eq
  rw [packetGap_toNat, if_neg h, gap]
  omega

theorem exists_gap {l₁ l₂ : BitVec 64} (h : l₁ ≠ l₂) :
    ∃ t, (packetGap l₁ t = 0 ∧ packetGap l₂ t ≠ 0) ∨ (packetGap l₂ t = 0 ∧ packetGap l₁ t ≠ 0) := by
  have one (l : BitVec 64) (hl : l ≠ 0) : packetGap l (l + 1) ≠ 0 := by
    rw [show l + 1 = l + (1 : BitVec 32).setWidth 64 from rfl, packetGap_after hl]
    decide
  by_cases h₁ : l₁ = 0
  · have h₂ : l₂ ≠ 0 := fun zero => h (h₁.trans zero.symm)
    exact ⟨l₂ + 1, Or.inl ⟨(packetGap_eq_zero_iff _ _).mpr (Or.inl h₁), one l₂ h₂⟩⟩
  · by_cases h₂ : l₂ = 0
    · exact ⟨l₁ + 1, Or.inr ⟨(packetGap_eq_zero_iff _ _).mpr (Or.inl h₂), one l₁ h₁⟩⟩
    · refine ⟨l₁, Or.inl ⟨(packetGap_eq_zero_iff _ _).mpr (Or.inr rfl), ?_⟩⟩
      rw [Ne, packetGap_eq_zero_iff, not_or]
      exact ⟨h₂, h⟩

theorem burstStep_still (burst : BitVec 32) :
    (burstStep burst 0).toNat = min (burst.toNat + 65536) 0xFFFFFFFF := by
  have value := burstStep_toNat burst 0
  have none : (0 : BitVec 32).toNat = 0 := rfl
  rw [none, mul_zero, Nat.zero_div, saturateU32] at value
  omega

theorem burstStep_short (burst : BitVec 32) (n k : ℕ) (hn : 0 < n) (hn' : n < 2 ^ 32)
    (hk : k * n = tauBurstNs) :
    (burstStep burst (BitVec.ofNat 32 n)).toNat =
      min (burst.toNat - burst.toNat / k + 65536) 0xFFFFFFFF := by
  have value := burstStep_toNat burst (BitVec.ofNat 32 n)
  have part : burst.toNat / k ≤ burst.toNat := Nat.div_le_self _ _
  rw [BitVec.toNat_ofNat, Nat.mod_eq_of_lt hn', ← hk, Nat.mul_div_mul_right _ _ hn,
    saturateU32] at value
  omega

theorem midNow_self (x : BitVec 32) : midNow x x = x := by
  apply BitVec.eq_of_toInt_eq
  rw [midNow_toInt]
  omega

theorem midNow_inj {b b' : BitVec 32} (even : midNow b 0 = midNow b' 0)
    (odd : midNow b 1 = midNow b' 1) : b = b' := by
  have one : (1 : BitVec 32).toInt = 1 := rfl
  have none : (0 : BitVec 32).toInt = 0 := rfl
  have even' := congrArg BitVec.toInt even
  have odd' := congrArg BitVec.toInt odd
  rw [midNow_toInt, midNow_toInt, none] at even'
  rw [midNow_toInt, midNow_toInt, one] at odd'
  exact BitVec.eq_of_toInt_eq (by omega)

theorem midNow_comm (a b : BitVec 32) : midNow a b = midNow b a := by
  apply BitVec.eq_of_toInt_eq
  rw [midNow_toInt, midNow_toInt, add_comm]

theorem dpAbs_self (m : BitVec 32) : dpAbs m m = 0 := by
  simp [dpAbs]

theorem dpAbs_eq_zero {mid midPrev : BitVec 32} (h : dpAbs mid midPrev = 0) : mid = midPrev := by
  have diff : mid - midPrev = 0 := by
    unfold dpAbs at h
    dsimp only at h
    split at h
    · exact h
    · exact BitVec.neg_eq_zero_iff.mp h
  exact (BitVec.sub_eq_iff_eq_add.mp diff).trans (BitVec.zero_add midPrev)

theorem dpAbs_far (m : BitVec 32) : dpAbs (m + 0x80000000) m = 0x80000000 := by
  have diff : m + 0x80000000 - m = 0x80000000 := by
    rw [BitVec.add_comm, BitVec.add_sub_cancel]
  rw [dpAbs, diff]
  rfl

theorem volStep_still (vol dp : BitVec 32) : volStep vol 0 dp = vol := by
  have value := volStep_toNat vol 0 dp
  have hv := vol.isLt
  have none : ((0 : BitVec 32).toNat : ℤ) = 0 := rfl
  rw [none, mul_zero, Int.zero_tdiv, add_zero, saturateU32_of_range (by omega) (by omega)] at value
  exact BitVec.eq_of_toNat_eq (by omega)

theorem volStep_moves (vol dt : BitVec 32) (h : dt ≠ 0) :
    volStep vol dt 0 ≠ volStep vol dt 0x80000000 := by
  intro same
  have hv := vol.isLt
  have hd := dt.isLt
  have pos : 0 < dt.toNat := Nat.pos_of_ne_zero (fun zero => h (BitVec.eq_of_toNat_eq zero))
  have low := volStep_toNat vol dt 0
  have high := volStep_toNat vol dt 0x80000000
  have near : ((0 : BitVec 32).toNat : ℤ) = 0 := rfl
  have far : ((0x80000000 : BitVec 32).toNat : ℤ) = 2 ^ 31 := rfl
  have some : (1 : ℤ) ≤ dt.toNat := by omega
  have leak : (vol.toNat : ℤ) ≤ vol.toNat * dt.toNat :=
    le_mul_of_one_le_right (Int.natCast_nonneg _) some
  have rise : (2 : ℤ) ^ 46 ≤ (2 ^ 31 * 65536 - vol.toNat) * dt.toNat := by
    have distance : (2 : ℤ) ^ 46 ≤ 2 ^ 31 * 65536 - vol.toNat := by omega
    exact distance.trans (le_mul_of_one_le_right (by omega) some)
  rw [near, tdiv_of_nonpos _ (by linarith), tauVolNs] at low
  rw [← same, low, far, tauVolNs, Int.tdiv_eq_ediv_of_nonneg (by linarith)] at high
  have down : -((0 * 65536 - vol.toNat) * dt.toNat : ℤ) = vol.toNat * dt.toNat := by ring
  rw [down] at high
  generalize (vol.toNat * dt.toNat : ℤ) = p at leak high
  generalize ((2 ^ 31 * 65536 - vol.toNat) * dt.toNat : ℤ) = q at rise high
  unfold saturateU32 at high
  omega

theorem volStep_tau (vol dp : BitVec 32) :
    ((volStep vol 2000000 dp).toNat : ℤ) = saturateU32 (dp.toNat * 65536) := by
  have gap : ((2000000 : BitVec 32).toNat : ℤ) = 2000000 := rfl
  rw [volStep_toNat, gap, tauVolNs, Nat.cast_ofNat, Int.mul_tdiv_cancel _ (by norm_num)]
  congr 1
  ring

theorem topImbalance_bid {q : BitVec 32} (hq : 0 ≤ q.toInt) :
    (topImbalance q 0).toInt = if q.toInt = 0 then 0 else 0x7FFF := by
  have none : (0 : BitVec 32).toInt = 0 := rfl
  rw [topImbalance_toInt hq (by rw [none]), none, add_zero, sub_zero]
  by_cases empty : q.toInt = 0
  · rw [if_pos empty, if_pos empty]
  · rw [if_neg empty, if_neg empty, Int.mul_tdiv_cancel_left _ empty]
    norm_num

theorem topImbalance_ask {q : BitVec 32} (hq : 0 ≤ q.toInt) :
    (topImbalance 0 q).toInt = if q.toInt = 0 then 0 else -0x8000 := by
  have none : (0 : BitVec 32).toInt = 0 := rfl
  rw [topImbalance_toInt (by rw [none]) hq, none, zero_add, zero_sub]
  by_cases empty : q.toInt = 0
  · rw [if_pos empty, if_pos empty]
  · rw [if_neg empty, if_neg empty, neg_mul, Int.neg_tdiv, Int.mul_tdiv_cancel_left _ empty]
    norm_num

end HftLatencyLab.FeatureMath
