import HftLatencyLab.PumpTurns
import HftLatencyLab.Relaxation

/-! The burst of feature_pipeline under a least gap between packets. It leaks in every gap at
least what the least gap leaks, so it settles below the packets of one time constant, and
from gaps of four nanoseconds on below its register. -/

namespace HftLatencyLab.BurstBound
open FeatureBook FeatureMath FeaturePipeline PumpTurns Relaxation FixedWidth

def decay (burst dt : BitVec 32) : ℤ := share burst.toNat dt.toNat tauBurstNs

def burstSum (burst dt : BitVec 32) : ℤ := burst.toNat - decay burst dt + 65536

structure BurstFits (burst dt : BitVec 32) : Prop where
  product : burst.toNat * dt.toNat < 2 ^ 64
  unsigned : 0 ≤ decay burst dt ∧ decay burst dt < 2 ^ 64
  signed : decay burst dt < 2 ^ 63
  difference : -2 ^ 63 ≤ burst.toNat - decay burst dt ∧ burst.toNat - decay burst dt < 2 ^ 63
  sum : -2 ^ 63 ≤ burstSum burst dt ∧ burstSum burst dt < 2 ^ 63

theorem burstFits (burst dt : BitVec 32) : BurstFits burst dt := by
  have hb := burst.isLt
  have product : burst.toNat * dt.toNat < 2 ^ 32 * 2 ^ 32 := Nat.mul_lt_mul'' hb dt.isLt
  have quotient : burst.toNat * dt.toNat / tauBurstNs < 2 ^ 47 := by
    unfold tauBurstNs
    omega
  have exact_decay : decay burst dt = (burst.toNat * dt.toNat / tauBurstNs : ℕ) := by
    rw [decay, share]
    push_cast
    rfl
  have nonneg : 0 ≤ decay burst dt := exact_decay ▸ Int.natCast_nonneg _
  rw [← pow_add] at product
  constructor
  · exact product
  · omega
  · omega
  · omega
  · unfold burstSum
    omega

theorem burstStep_eq (burst dt : BitVec 32) :
    ((burstStep burst dt).toNat : ℤ) = saturateU32 (burstSum burst dt) := by
  rw [burstStep_toNat, burstSum, decay, share]
  push_cast
  rfl

/-- The packets come at most one in `d` nanoseconds. -/
def GapAtLeast (d : ℕ) (r : Regs) (x : Turn) : Prop := d ≤ (packetGap r.lastT x.tSendNs).toNat

instance (d : ℕ) (r : Regs) (x : Turn) : Decidable (GapAtLeast d r x) :=
  inferInstanceAs (Decidable (_ ≤ _))

/-- What one packet in `d` nanoseconds makes of a time constant, with one over. -/
def Bounded (d : ℕ) (r : Regs) : Prop := r.burstQ1616.toNat * d ≤ 65537 * 200000

/-- A turn updates the burst within its widths, and between its clamps from `d` = 4 on. -/
structure Unclamped (d : ℕ) (r : Regs) (x : Turn) : Prop where
  fits : BurstFits r.burstQ1616 (packetGap r.lastT x.tSendNs)
  top : 4 ≤ d → burstSum r.burstQ1616 (packetGap r.lastT x.tSendNs) ≤ 0xFFFFFFFF

theorem first_gap (x : Turn) : packetGap Regs.powerOn.lastT x.tSendNs = 0 := rfl

variable {d : ℕ}

theorem bounded_of_sum {burst dt : BitVec 32} (bound : burstSum burst dt * d ≤ 65537 * 200000) :
    (burstStep burst dt).toNat * d ≤ 65537 * 200000 := by
  have value := burstStep_eq burst dt
  have below : ((burstStep burst dt).toNat : ℤ) ≤ max 0 (burstSum burst dt) := by
    rw [value]
    unfold saturateU32
    omega
  have scaled : ((burstStep burst dt).toNat : ℤ) * d ≤ 65537 * 200000 := by
    rcases le_total (burstSum burst dt) 0 with neg | pos
    · have zero : ((burstStep burst dt).toNat : ℤ) = 0 := by omega
      rw [zero, zero_mul]
      norm_num
    · rw [max_eq_right pos] at below
      exact (mul_le_mul_of_nonneg_right below (Int.natCast_nonneg d)).trans bound
  exact_mod_cast scaled

section Rate

variable (short : d ≤ 200000)
include short

theorem sum_bounded {r : Regs} (bounded : Bounded d r) {x : Turn} (gap : GapAtLeast d r x) :
    burstSum r.burstQ1616 (packetGap r.lastT x.tSendNs) * d ≤ 65537 * 200000 := by
  have bound : (r.burstQ1616.toNat : ℤ) * d ≤ (65536 + 1) * tauBurstNs := by exact_mod_cast bounded
  have leak := bucket_bound_of_le (Int.natCast_nonneg d) (show (d : ℤ) ≤ tauBurstNs by
    exact_mod_cast short) (by decide) (Int.natCast_nonneg _)
    (show (d : ℤ) ≤ (packetGap r.lastT x.tSendNs).toNat by exact_mod_cast gap) bound
  exact leak

theorem bounded_next {r : Regs} (bounded : Bounded d r) {x : Turn} (gap : GapAtLeast d r x) :
    Bounded d (turnMachine.next r x) := by
  rw [Bounded, turn_burst]
  exact bounded_of_sum (sum_bounded short bounded gap)

theorem bounded_first (x : Turn) : Bounded d (turnMachine.next .powerOn x) := by
  have one : burstStep Regs.powerOn.burstQ1616 0 = 65536 := by decide
  rw [Bounded, turn_burst, first_gap, one]
  change 65536 * d ≤ _
  omega

theorem unclamped {r : Regs} (bounded : Bounded d r) {x : Turn} (gap : GapAtLeast d r x) :
    Unclamped d r x where
  fits := burstFits _ _
  top four := by
    have bound := sum_bounded short bounded gap
    have wide : (4 : ℤ) ≤ d := by exact_mod_cast four
    by_contra above
    have many : (0xFFFFFFFF : ℤ) * 4 ≤ burstSum r.burstQ1616 (packetGap r.lastT x.tSendNs) * d :=
      mul_le_mul (by omega) wide (by norm_num) (by omega)
    omega

end Rate

/-- At most a packet in `d` nanoseconds after the first keeps the burst times `d` within
the packets of one time constant, in every turn on the way. -/
theorem burst_bounded (short : d ≤ 200000) (x : Turn) (xs : List Turn)
    (gaps : turnMachine.Along (GapAtLeast d) (turnMachine.next .powerOn x) xs) :
    (∀ pre, pre <+: x :: xs →
      (turnMachine.final .powerOn pre).burstQ1616.toNat * d ≤ 65537 * 200000) ∧
      turnMachine.Along (Unclamped d) .powerOn (x :: xs) := by
  have keep (r : Regs) (y : Turn) : Bounded d r → GapAtLeast d r y →
      Bounded d (turnMachine.next r y) := fun bounded gap => bounded_next short bounded gap
  have first := bounded_first short x
  constructor
  · intro pre before
    rcases List.prefix_cons_iff.mp before with rfl | ⟨rest, rfl, shorter⟩
    · change 0 * d ≤ _
      omega
    · exact gaps.prefixes keep first shorter
  · have start : burstSum Regs.powerOn.burstQ1616 0 ≤ 0xFFFFFFFF := by decide
    refine ⟨⟨burstFits _ _, fun _ => start⟩, ?_⟩
    exact (gaps.invariant keep first).imp fun r y h => unclamped short h.1 h.2

/-- Three packets four nanoseconds apart. -/
theorem burst_bounded_three :
    (∀ pre, pre <+: [⟨[], 1⟩, ⟨[], 5⟩, ⟨[], 9⟩] →
      (turnMachine.final .powerOn pre).burstQ1616.toNat * 4 ≤ 65537 * 200000) ∧
      turnMachine.Along (Unclamped 4) .powerOn [⟨[], 1⟩, ⟨[], 5⟩, ⟨[], 9⟩] :=
  burst_bounded (by decide) ⟨[], 1⟩ [⟨[], 5⟩, ⟨[], 9⟩] (by decide)

end HftLatencyLab.BurstBound
