import HftLatencyLab.RestingPrice
import HftLatencyLab.FeaturesRef

/-! What `update_book` makes of sums its registers have no room for. features_ref.py and the
packet validator saturate the order flow; the fabric wraps it, and a quantity that wraps is
negative, so the clamp behind it empties the level. -/

namespace HftLatencyLab.BookSaturation
open FeatureParser FeatureBook TopOfBook RestingPrice FixedWidth FeaturesRef

def oldQty (r : Regs) (d : Delta) (k : Fin 16) : ℤ := ((levels r d.side).qty.get k).toInt

def newQty (r : Regs) (d : Delta) (k : Fin 16) : ℤ :=
  ((levels (updateBook r d) d.side).qty.get k).toInt

def signedAmt (d : Delta) : ℤ := if d.side = 0 then d.qty.toInt else -d.qty.toInt

structure Saturated (r : Regs) (d : Delta) : Prop where
  qty : ∀ k : Fin 16, d.level.toNat = k.val →
    newQty r d k = max 0 (min (oldQty r d k + d.qty.toInt) (2 ^ 31 - 1))
  ofi : (updateBook r d).ofiAccum.toInt = clamp32 (r.ofiAccum.toInt + signedAmt d)

structure SumsFit (r : Regs) (d : Delta) : Prop where
  qty : ∀ k : Fin 16, d.level.toNat = k.val → oldQty r d k + d.qty.toInt < 2 ^ 31
  ofi : -2 ^ 31 ≤ r.ofiAccum.toInt + signedAmt d ∧ r.ofiAccum.toInt + signedAmt d < 2 ^ 31

def OnSums (C : Regs → Delta → Prop) (r : Regs) : PumpStep → Prop
  | .delta d => d.action = 1 ∨ d.action = 2 → C r d
  | _ => True

theorem Saturated.rises {r : Regs} {d : Delta} (h : Saturated r d) {k : Fin 16}
    (level : d.level.toNat = k.val) (more : 0 ≤ d.qty.toInt) : oldQty r d k ≤ newQty r d k := by
  have top : oldQty r d k < 2 ^ 31 := BitVec.toInt_lt
  rw [h.qty k level]
  omega

theorem newQty_eq {r : Regs} {d : Delta} (sums : d.action = 1 ∨ d.action = 2) {k : Fin 16}
    (level : d.level.toNat = k.val) :
    newQty r d k = max 0 ((oldQty r d k + d.qty.toInt).bmod (2 ^ 32)) := by
  have set : d.action ≠ 0 := by
    rcases sums with h | h <;> simp [h]
  have remove : d.action ≠ 3 := by
    rcases sums with h | h <;> simp [h]
  rw [newQty, levels_updateBook, if_pos rfl, updateSide_qty, if_pos level, clampNonneg_toInt,
    actionQty, if_neg set, if_neg remove, BitVec.toInt_add, oldQty]

theorem ofi_eq {r : Regs} {d : Delta} (sums : d.action = 1 ∨ d.action = 2) :
    (updateBook r d).ofiAccum.toInt = (r.ofiAccum.toInt + signedAmt d).bmod (2 ^ 32) := by
  change (updateOfi d r.ofiAccum).toInt = _
  rw [updateOfi, if_pos sums, signedAmt]
  by_cases bid : d.side = 0
  · rw [if_pos bid, if_pos bid, BitVec.toInt_add]
  · rw [if_neg bid, if_neg bid, BitVec.toInt_sub, sub_eq_add_neg]

theorem clamped_bmod_iff {x : ℤ} (lo : -2 ^ 31 ≤ x) (hi : x < 2 ^ 32) :
    max 0 (x.bmod (2 ^ 32)) = max 0 (min x (2 ^ 31 - 1)) ↔ x < 2 ^ 31 := by
  rcases lt_or_ge x (2 ^ 31) with inside | beyond
  · rw [bmod_inside lo inside]
    omega
  · rw [bmod_above beyond hi]
    omega

theorem saturated_iff {r : Regs} (kept : BookKept r) {d : Delta}
    (sums : d.action = 1 ∨ d.action = 2) : Saturated r d ↔ SumsFit r d := by
  have lo := BitVec.le_toInt d.qty
  have hi := BitVec.toInt_lt (x := d.qty)
  have qty (k : Fin 16) (level : d.level.toNat = k.val) :
      newQty r d k = max 0 (min (oldQty r d k + d.qty.toInt) (2 ^ 31 - 1)) ↔
        oldQty r d k + d.qty.toInt < 2 ^ 31 := by
    have nonneg : 0 ≤ oldQty r d k := levels_nonneg kept d.side k
    have top : oldQty r d k < 2 ^ 31 := BitVec.toInt_lt
    rw [newQty_eq sums level]
    exact clamped_bmod_iff (by omega) (by omega)
  have ofi : (updateBook r d).ofiAccum.toInt = clamp32 (r.ofiAccum.toInt + signedAmt d) ↔
      -2 ^ 31 ≤ r.ofiAccum.toInt + signedAmt d ∧ r.ofiAccum.toInt + signedAmt d < 2 ^ 31 := by
    have low := BitVec.le_toInt r.ofiAccum
    have high := BitVec.toInt_lt (x := r.ofiAccum)
    have amt : -2 ^ 31 ≤ signedAmt d ∧ signedAmt d ≤ 2 ^ 31 := by
      unfold signedAmt
      split_ifs <;> omega
    rw [ofi_eq sums]
    exact bmod_eq_saturated_iff (by omega) (by omega)
  constructor
  · intro h
    exact ⟨fun k level => (qty k level).mp (h.qty k level), ofi.mp h.ofi⟩
  · intro h
    exact ⟨fun k level => (qty k level).mpr (h.qty k level), ofi.mpr h.ofi⟩

/-- The adds and updates of a run leave saturated sums exactly as long as none of
the exact sums leaves the int32 range. -/
theorem sums_saturated_iff (xs : List PumpStep) :
    pumpMachine.Along (OnSums Saturated) .powerOn xs ↔
      pumpMachine.Along (OnSums SumsFit) .powerOn xs := by
  have keep (r : Regs) (x : PumpStep) (kept : BookKept r) : BookKept (pumpMachine.next r x) :=
    bookKept_pumpStep kept x
  refine Mealy.along_congr keep (fun r x kept => ?_) idle_powerOn.book xs
  cases x with
  | start => rfl
  | delta d => exact imp_congr_right fun sums => saturated_iff kept sums
  | emit tSendNs => rfl

def bidAdd (qty : BitVec 32) : Delta where
  priceTicks := 1000
  qty := qty
  level := 0
  side := 0
  action := 1
  tSendNs := 0
  lastInPkt := true

/-- One more than an int32 holds: the level is empty and the order flow turns negative. -/
theorem second_add_wraps :
    (pumpMachine.final .powerOn [.start, .delta (bidAdd 0x7FFFFFFF)]).bestBidQty = 0x7FFFFFFF ∧
      newQty (pumpMachine.final .powerOn [.start, .delta (bidAdd 0x7FFFFFFF)]) (bidAdd 1) 0 = 0 ∧
      ¬pumpMachine.Along (OnSums Saturated) .powerOn
        [.start, .delta (bidAdd 0x7FFFFFFF), .delta (bidAdd 1)] := by
  refine ⟨by decide, by decide, fun along => ?_⟩
  have saturated := along.2.2.1 (Or.inl rfl)
  exact absurd (saturated.qty 0 rfl) (by decide)

end HftLatencyLab.BookSaturation
