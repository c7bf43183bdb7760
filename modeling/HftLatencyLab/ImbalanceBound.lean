import HftLatencyLab.RestingPrice
import Mathlib.Data.Int.ConditionallyCompleteOrder
import Mathlib.Order.Interval.Set.Defs
import Mathlib.Order.Monotone.Defs

/-! The top-of-book imbalance in every state of a run. No quantity of the book is negative, so
the registers of `compute_features` hold the exact numerator, denominator and quotient, and
the quotient follows the fraction of the two best quantities. -/

namespace HftLatencyLab.ImbalanceBound
open FeatureParser FeatureBook FeatureMath TopOfBook RestingPrice FixedWidth

def exactImbalance (b a : ℤ) : ℤ :=
  if b + a = 0 then 0 else min 0x7FFF (((b - a) * 32768).tdiv (b + a))

theorem exactImbalance_pos {b a : ℤ} (quoted : 0 < b + a) :
    exactImbalance b a = min 0x7FFF (((b - a) * 32768).tdiv (b + a)) := if_neg quoted.ne'

theorem exactImbalance_ask {a : ℤ} (ha : 0 ≤ a) : exactImbalance 0 a ≤ 0 := by
  rcases ha.eq_or_lt with rfl | quoted
  · rfl
  · rw [exactImbalance_pos (by omega), tdiv_of_nonpos _ (by omega)]
    have share : 0 ≤ -((0 - a) * 32768) / (0 + a) := Int.ediv_nonneg (by omega) (by omega)
    omega

theorem exactImbalance_bid {b : ℤ} (hb : 0 ≤ b) : 0 ≤ exactImbalance b 0 := by
  rcases hb.eq_or_lt with rfl | quoted
  · rfl
  · rw [exactImbalance_pos (by omega)]
    have share : 0 ≤ ((b - 0) * 32768).tdiv (b + 0) := Int.tdiv_nonneg (by omega) (by omega)
    omega

theorem exactImbalance_le {b a b' a' : ℤ} (quoted : 0 < b + a) (quoted' : 0 < b' + a')
    (order : b * a' ≤ b' * a) : exactImbalance b a ≤ exactImbalance b' a' := by
  rw [exactImbalance_pos quoted, exactImbalance_pos quoted']
  have fractions : (b - a) * 32768 * (b' + a') ≤ (b' - a') * 32768 * (b + a) := by
    have cross : (b' - a') * 32768 * (b + a) - (b - a) * 32768 * (b' + a') =
        65536 * (b' * a - b * a') := by ring
    linarith
  exact min_le_min_left _ (tdiv_le_tdiv quoted quoted' fractions)

theorem exactImbalance_monotoneOn {a : ℤ} (ha : 0 ≤ a) :
    MonotoneOn (fun b => exactImbalance b a) (Set.Ici 0) := by
  intro b hb b' _ more
  change 0 ≤ b at hb
  change exactImbalance b a ≤ exactImbalance b' a
  rcases ha.eq_or_lt with rfl | quoted
  · rcases hb.eq_or_lt with rfl | pos
    · exact (exactImbalance_ask le_rfl).trans (exactImbalance_bid more)
    · exact exactImbalance_le (by omega) (by omega) (by omega)
  · exact exactImbalance_le (by omega) (by omega) (mul_le_mul_of_nonneg_right more ha)

theorem exactImbalance_antitoneOn {b : ℤ} (hb : 0 ≤ b) :
    AntitoneOn (exactImbalance b) (Set.Ici 0) := by
  intro a ha a' _ more
  change 0 ≤ a at ha
  rcases hb.eq_or_lt with rfl | quoted
  · rcases ha.eq_or_lt with rfl | pos
    · exact (exactImbalance_ask more).trans (exactImbalance_bid le_rfl)
    · exact exactImbalance_le (by omega) (by omega) (by omega)
  · exact exactImbalance_le (by omega) (by omega) (mul_le_mul_of_nonneg_left more hb)

def bidQty0 (r : Regs) : ℤ := (r.bid.qty.get 0).toInt

def askQty0 (r : Regs) : ℤ := (r.ask.qty.get 0).toInt

def tobImbQ115 (r : Regs) (tSendNs : BitVec 64) : ℤ :=
  (computeFeatures tSendNs r).2.tobImbQ115.toInt

structure Exact (r : Regs) : Prop where
  num : (imbNum r.bestBidQty r.bestAskQty).toInt = bidQty0 r - askQty0 r
  den : (imbDen r.bestBidQty r.bestAskQty).toInt = bidQty0 r + askQty0 r
  divides : imbDen r.bestBidQty r.bestAskQty ≠ 0 ↔ bidQty0 r + askQty0 r ≠ 0
  numScaled : (imbNumScaled r.bestBidQty r.bestAskQty).toInt = (bidQty0 r - askQty0 r) * 32768
  quotient : bidQty0 r + askQty0 r ≠ 0 → (imbQuotient r.bestBidQty r.bestAskQty).toInt =
    ((bidQty0 r - askQty0 r) * 32768).tdiv (bidQty0 r + askQty0 r)
  value : ∀ tSendNs, tobImbQ115 r tSendNs =
    if bidQty0 r + askQty0 r = 0 then 0
    else min 0x7FFF (((bidQty0 r - askQty0 r) * 32768).tdiv (bidQty0 r + askQty0 r))

/-- Of two states that differ in one best quantity, how their imbalances compare. -/
structure Ordered (r s : Regs) : Prop where
  bid : askQty0 r = askQty0 s → bidQty0 r ≤ bidQty0 s →
    ∀ t u, tobImbQ115 r t ≤ tobImbQ115 s u
  ask : bidQty0 r = bidQty0 s → askQty0 r ≤ askQty0 s →
    ∀ t u, tobImbQ115 s u ≤ tobImbQ115 r t

theorem exact_of_kept {r : Regs} (kept : BookKept r) : Exact r := by
  have hb : 0 ≤ r.bestBidQty.toInt := by
    rw [kept.bestBidQty]
    exact kept.bidQty 0
  have ha : 0 ≤ r.bestAskQty.toInt := by
    rw [kept.bestAskQty]
    exact kept.askQty 0
  have bid : bidQty0 r = r.bestBidQty.toInt := congrArg BitVec.toInt kept.bestBidQty.symm
  have ask : askQty0 r = r.bestAskQty.toInt := congrArg BitVec.toInt kept.bestAskQty.symm
  constructor
  · rw [bid, ask, imbNum_toInt]
  · rw [bid, ask, imbDen_toInt]
  · rw [bid, ask, Ne, imbDen_eq_zero_iff]
  · rw [bid, ask, imbNumScaled_toInt]
  · rw [bid, ask]
    exact imbQuotient_toInt hb ha
  · intro tSendNs
    rw [bid, ask]
    exact topImbalance_toInt hb ha

theorem ordered_of_kept {r s : Regs} (hr : BookKept r) (hs : BookKept s) : Ordered r s := by
  have exact_r (t : BitVec 64) : tobImbQ115 r t = exactImbalance (bidQty0 r) (askQty0 r) :=
    (exact_of_kept hr).value t
  have exact_s (u : BitVec 64) : tobImbQ115 s u = exactImbalance (bidQty0 s) (askQty0 s) :=
    (exact_of_kept hs).value u
  constructor
  · intro ask bid t u
    rw [exact_r, exact_s, ask]
    exact exactImbalance_monotoneOn (hs.askQty 0) (hr.bidQty 0) (hs.bidQty 0) bid
  · intro bid ask t u
    rw [exact_r, exact_s, bid]
    exact exactImbalance_antitoneOn (hs.bidQty 0) (hr.askQty 0) (hs.askQty 0) ask

/-- After any steps the imbalance is exact, and after any two it is ordered as the best
quantities are. -/
theorem imbalance_exact (xs ys : List PumpStep) :
    Exact (pumpMachine.final .powerOn xs) ∧
      Ordered (pumpMachine.final .powerOn xs) (pumpMachine.final .powerOn ys) :=
  ⟨exact_of_kept (bookKept_pump xs), ordered_of_kept (bookKept_pump xs) (bookKept_pump ys)⟩

end HftLatencyLab.ImbalanceBound
