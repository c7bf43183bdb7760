import HftLatencyLab.Relaxation
import HftLatencyLab.RestingPrice

/-! The burst and the volatility from one packet to the next. `compute_features` takes the
share `dt / tau` of whatever the gap is: a gap beyond the time constant can leak more than
the burst holds, the packet just received with it, and take the volatility past its target. -/

namespace HftLatencyLab.DecayOvershoot
open FeatureParser FeatureBook FeatureMath FeaturePipeline RestingPrice Relaxation FixedWidth

def gap (r : Regs) (tSendNs : BitVec 64) : ℤ := (packetGap r.lastT tSendNs).toNat

def midMove (r : Regs) : ℤ := |(midNow r.bestBidPx r.bestAskPx).toInt - r.midPrev.toInt|

def volTarget (r : Regs) : ℤ := min (midMove r * 65536) 0xFFFFFFFF

/-- The burst keeps the packet just received, and the volatility stays between where it was
and its target. -/
structure NoOvershoot (r : Regs) (tSendNs : BitVec 64) : Prop where
  burst : 65536 ≤ (computeFeatures tSendNs r).1.burstQ1616.toNat
  vol : min (r.volQ1616.toNat : ℤ) (volTarget r) ≤ (computeFeatures tSendNs r).1.volQ1616.toNat ∧
    (computeFeatures tSendNs r).1.volQ1616.toNat ≤ max (r.volQ1616.toNat : ℤ) (volTarget r)

/-- The leak is within what the burst holds. -/
def BurstInTime (burst dt : ℤ) : Prop := burst * dt < (burst + 1) * tauBurstNs

/-- So is the step of the volatility within its distance, unless the target is an end of the
range. A move beyond 2^31 is seen from the other side, and must not lower the volatility. -/
def VolInTime (vol move dt : ℤ) : Prop :=
  if move ≤ 2 ^ 31 then
    move = 0 ∨ 65536 ≤ move ∨
      |move * 65536 - vol| * dt < (|move * 65536 - vol| + 1) * tauVolNs
  else vol ≤ (2 ^ 32 - move) * 65536 ∨ (vol - (2 ^ 32 - move) * 65536) * dt < tauVolNs

structure InTime (r : Regs) (tSendNs : BitVec 64) : Prop where
  burst : BurstInTime r.burstQ1616.toNat (gap r tSendNs)
  vol : VolInTime r.volQ1616.toNat (midMove r) (gap r tSendNs)

def OnEmit (C : Regs → BitVec 64 → Prop) (r : Regs) : PumpStep → Prop
  | .emit tSendNs => C r tSendNs
  | _ => True

theorem burst_kept_iff (burst dt : BitVec 32) :
    65536 ≤ (burstStep burst dt).toNat ↔ BurstInTime burst.toNat dt.toNat := by
  have value := burstStep_toNat burst dt
  have small := burst.isLt
  have leak : ((burst.toNat * dt.toNat / FeatureMath.tauBurstNs : ℕ) : ℤ) =
      share burst.toNat dt.toNat FeatureMath.tauBurstNs := by
    rw [share]
    push_cast
    rfl
  rw [BurstInTime, ← share_le_iff (by decide), ← leak]
  unfold saturateU32 at value
  omega

theorem gap_nonneg (r : Regs) (tSendNs : BitVec 64) : 0 ≤ gap r tSendNs := Int.natCast_nonneg _

section Volatility

variable {vol p dt : ℤ} (low : 0 ≤ vol) (high : vol ≤ 0xFFFFFFFF) (hp : 0 ≤ p) (hd : 0 ≤ dt)
include low high hp hd

theorem vol_between_iff :
    (min vol (min (p * 65536) 0xFFFFFFFF) ≤ saturateU32 (relax vol (p * 65536) dt tauVolNs) ∧
      saturateU32 (relax vol (p * 65536) dt tauVolNs) ≤
        max vol (min (p * 65536) 0xFFFFFFFF)) ↔
    p = 0 ∨ 65536 ≤ p ∨
      |p * 65536 - vol| * dt < (|p * 65536 - vol| + 1) * tauVolNs := by
  have tau : (0 : ℤ) < tauVolNs := by decide
  rw [← share_le_iff tau]
  unfold saturateU32
  rcases le_total vol (p * 65536) with up | down
  · have step := share_nonneg (show 0 ≤ p * 65536 - vol by omega) hd tau
    have there (still : p * 65536 - vol = 0) : share (p * 65536 - vol) dt tauVolNs = 0 := by
      rw [still, share_zero]
    rw [relax_up up hd, abs_of_nonneg (by omega)]
    generalize share (p * 65536 - vol) dt tauVolNs = k at step there ⊢
    omega
  · have step := share_nonneg (show 0 ≤ vol - p * 65536 by omega) hd tau
    rw [relax_down down hd, abs_sub_comm, abs_of_nonneg (by omega)]
    generalize share (vol - p * 65536) dt tauVolNs = k at step ⊢
    omega

theorem vol_between_far_iff :
    (min vol 0xFFFFFFFF ≤ saturateU32 (relax vol (p * 65536) dt tauVolNs) ∧
      saturateU32 (relax vol (p * 65536) dt tauVolNs) ≤ max vol 0xFFFFFFFF) ↔
    vol ≤ p * 65536 ∨ (vol - p * 65536) * dt < tauVolNs := by
  have tau : (0 : ℤ) < tauVolNs := by decide
  unfold saturateU32
  rcases le_or_gt vol (p * 65536) with up | down
  · have step := share_nonneg (show 0 ≤ p * 65536 - vol by omega) hd tau
    rw [relax_up up hd]
    generalize share (p * 65536 - vol) dt tauVolNs = k at step ⊢
    omega
  · have step := share_nonneg (show 0 ≤ vol - p * 65536 by omega) hd tau
    rw [← share_eq_zero_iff (by omega) hd tau, relax_down down.le hd]
    generalize share (vol - p * 65536) dt tauVolNs = k at step ⊢
    omega

end Volatility

theorem midMove_lt (r : Regs) : midMove r < 2 ^ 32 := by
  have lo := BitVec.le_toInt (midNow r.bestBidPx r.bestAskPx)
  have hi := BitVec.toInt_lt (x := midNow r.bestBidPx r.bestAskPx)
  have lo' := BitVec.le_toInt r.midPrev
  have hi' := BitVec.toInt_lt (x := r.midPrev)
  rw [midMove, abs_lt]
  omega

theorem dpAbs_midMove (r : Regs) :
    ((dpAbs (midNow r.bestBidPx r.bestAskPx) r.midPrev).toNat : ℤ) =
      if midMove r ≤ 2 ^ 31 then midMove r else 2 ^ 32 - midMove r := by
  rw [dpAbs_toNat, abs_bmod (midMove_lt r)]
  rfl

theorem vol_kept_iff (r : Regs) (tSendNs : BitVec 64) :
    (min (r.volQ1616.toNat : ℤ) (volTarget r) ≤ (computeFeatures tSendNs r).1.volQ1616.toNat ∧
      (computeFeatures tSendNs r).1.volQ1616.toNat ≤ max (r.volQ1616.toNat : ℤ) (volTarget r)) ↔
    VolInTime r.volQ1616.toNat (midMove r) (gap r tSendNs) := by
  have value : ((computeFeatures tSendNs r).1.volQ1616.toNat : ℤ) = saturateU32
      (relax r.volQ1616.toNat
        ((dpAbs (midNow r.bestBidPx r.bestAskPx) r.midPrev).toNat * 65536) (gap r tSendNs)
        tauVolNs) :=
    volStep_toNat _ _ _
  have low : (0 : ℤ) ≤ r.volQ1616.toNat := Int.natCast_nonneg _
  have high : (r.volQ1616.toNat : ℤ) ≤ 0xFFFFFFFF := by
    have := r.volQ1616.isLt
    omega
  have moved : 0 ≤ midMove r := abs_nonneg _
  have limit := midMove_lt r
  rw [value, dpAbs_midMove, VolInTime, volTarget]
  by_cases near : midMove r ≤ 2 ^ 31
  · rw [if_pos near, if_pos near]
    exact vol_between_iff low high moved (gap_nonneg r tSendNs)
  · have top : min (midMove r * 65536) 0xFFFFFFFF = 0xFFFFFFFF := by omega
    rw [if_neg near, if_neg near, top]
    exact vol_between_far_iff low high (by omega) (gap_nonneg r tSendNs)

theorem no_overshoot_iff (r : Regs) (tSendNs : BitVec 64) :
    NoOvershoot r tSendNs ↔ InTime r tSendNs := by
  have burst := burst_kept_iff r.burstQ1616 (packetGap r.lastT tSendNs)
  have vol := vol_kept_iff r tSendNs
  constructor
  · intro h
    exact ⟨burst.mp h.burst, vol.mp h.vol⟩
  · intro h
    exact ⟨burst.mpr h.burst, vol.mpr h.vol⟩

theorem inTime_of_short {r : Regs} {tSendNs : BitVec 64} (short : gap r tSendNs ≤ tauBurstNs)
    (near : midMove r ≤ 2 ^ 31) : InTime r tSendNs where
  burst := (share_le_iff (by decide)).mp (share_le (Int.natCast_nonneg _) (by decide) short)
  vol := by
    have shorter : gap r tSendNs ≤ tauVolNs := short.trans (by decide)
    rw [VolInTime, if_pos near]
    exact Or.inr (Or.inr ((share_le_iff (by decide)).mp
      (share_le (abs_nonneg _) (by decide) shorter)))

/-- No packet of a run overshoots exactly as long as every gap is in time for what the
registers hold. -/
theorem decay_within_iff (xs : List PumpStep) :
    pumpMachine.Along (OnEmit NoOvershoot) .powerOn xs ↔
      pumpMachine.Along (OnEmit InTime) .powerOn xs := by
  refine Mealy.along_iff_along fun r x => ?_
  cases x with
  | start => rfl
  | delta d => rfl
  | emit tSendNs => exact no_overshoot_iff r tSendNs

/-- Half a millisecond between the first two packets: the second is not in the burst. -/
theorem second_packet_lost :
    (pumpMachine.final .powerOn [.start, .emit 1, .start, .emit 500001]).burstQ1616 = 0 ∧
      ¬pumpMachine.Along (OnEmit NoOvershoot) .powerOn
        [.start, .emit 1, .start, .emit 500001] := by
  refine ⟨by decide, fun along => ?_⟩
  exact absurd along.2.2.2.1.burst (by decide)

end HftLatencyLab.DecayOvershoot
