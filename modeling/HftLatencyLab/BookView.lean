import HftLatencyLab.MealyRun
import Mathlib.Data.Int.Order.Lemmas

/-! A two-sided book of sixteen levels as quantities and an order flow, and what a delta means
to one: a side, a level or none, an action, and whether it counts as order flow. Readers of a
delta may take these differently; two of them leave the same book behind when they agree on
it, and otherwise only where each leaves the book as it was. -/

namespace HftLatencyLab

inductive BookSide where
  | bid
  | ask
deriving DecidableEq

namespace BookSide

def signed : BookSide → ℤ → ℤ
  | .bid, v => v
  | .ask, v => -v

@[simp] theorem signed_zero (side : BookSide) : side.signed 0 = 0 := by
  cases side <;> rfl

theorem signed_eq_zero_iff {side : BookSide} {v : ℤ} : side.signed v = 0 ↔ v = 0 := by
  cases side <;> simp [signed]

theorem signed_of_ne {s t : BookSide} (other : s ≠ t) (v : ℤ) : s.signed v = -t.signed v := by
  cases s <;> cases t <;> simp_all [signed]

end BookSide

@[ext] structure BookView where
  qty : BookSide → Fin 16 → ℤ
  ofi : ℤ

structure DeltaReading where
  side : BookSide
  level : Option (Fin 16)
  action : ℕ
  counts : Bool
  counted : level.isSome → counts = true

namespace BookView

def Nonneg (b : BookView) : Prop := ∀ side k, 0 ≤ b.qty side k

end BookView

namespace DeltaReading

variable (m n : DeltaReading) (b : BookView) (v : ℤ)

def qtyAfter (old : ℤ) : ℤ :=
  max 0 (if m.action = 0 then v
    else if m.action = 1 ∨ m.action = 2 then old + v
    else if m.action = 3 then 0
    else old)

def flow : ℤ :=
  if m.counts ∧ (m.action = 1 ∨ m.action = 2) then m.side.signed v else 0

def apply : BookView where
  qty side k := if side = m.side ∧ m.level = some k then m.qtyAfter v (b.qty side k)
    else b.qty side k
  ofi := b.ofi + m.flow v

structure Fits : Prop where
  qty : m.action = 1 ∨ m.action = 2 → ∀ k ∈ m.level,
    -2 ^ 31 ≤ b.qty m.side k + v ∧ b.qty m.side k + v < 2 ^ 31
  ofi : -2 ^ 31 ≤ b.ofi + m.flow v ∧ b.ofi + m.flow v < 2 ^ 31

/-- Nothing is left to do: the level already holds what is set, what is added is 0, what is
removed is gone. -/
structure Idle : Prop where
  set : m.action = 0 → ∀ k ∈ m.level, b.qty m.side k = max 0 v
  sum : m.counts → m.action = 1 ∨ m.action = 2 → v = 0
  remove : m.action = 3 → ∀ k ∈ m.level, b.qty m.side k = 0

instance : Decidable (m.Fits b v) :=
  decidable_of_iff ((m.action = 1 ∨ m.action = 2 → ∀ k ∈ m.level,
      -2 ^ 31 ≤ b.qty m.side k + v ∧ b.qty m.side k + v < 2 ^ 31) ∧
      -2 ^ 31 ≤ b.ofi + m.flow v ∧ b.ofi + m.flow v < 2 ^ 31)
    ⟨fun h => ⟨h.1, h.2⟩, fun h => ⟨h.qty, h.ofi⟩⟩

variable {m n b v}

theorem apply_nonneg (h : b.Nonneg) : (m.apply b v).Nonneg := by
  intro side k
  rw [apply]
  dsimp only
  split
  · exact le_max_left _ _
  · exact h side k

theorem apply_other {side : BookSide} (other : side ≠ m.side) (k : Fin 16) :
    (m.apply b v).qty side k = b.qty side k := by
  simp [apply, other]

theorem apply_touched {k : Fin 16} (level : m.level = some k) :
    (m.apply b v).qty m.side k = m.qtyAfter v (b.qty m.side k) := by
  simp [apply, level]

theorem flow_of_counts (counts : m.counts = true) :
    m.flow v = if m.action = 1 ∨ m.action = 2 then m.side.signed v else 0 := by
  rw [flow, counts]
  exact if_congr (and_iff_right rfl) rfl rfl

theorem Idle.flow_eq_zero (idle : m.Idle b v) : m.flow v = 0 := by
  unfold flow
  split_ifs with sums
  · rw [idle.sum sums.1 sums.2, BookSide.signed_zero]
  · rfl

theorem Idle.qtyAfter_eq (idle : m.Idle b v) (h : b.Nonneg) {k : Fin 16}
    (level : m.level = some k) : m.qtyAfter v (b.qty m.side k) = b.qty m.side k := by
  have counts : m.counts = true := m.counted (by rw [level]; rfl)
  have nonneg := h m.side k
  have set := fun isSet => idle.set isSet k level
  have remove := fun isRemove => idle.remove isRemove k level
  have sum := idle.sum counts
  unfold qtyAfter
  split_ifs with isSet sums isRemove
  · exact (set isSet).symm
  · rw [sum sums, add_zero, max_eq_right nonneg]
  · rw [remove isRemove, max_self]
  · exact max_eq_right nonneg

theorem apply_eq_self_iff (h : b.Nonneg) : m.apply b v = b ↔ m.Idle b v := by
  constructor
  · intro same
    have qty (k : Fin 16) (level : m.level = some k) :
        m.qtyAfter v (b.qty m.side k) = b.qty m.side k := by
      rw [← apply_touched level, same]
    have ofi : b.ofi + m.flow v = b.ofi := congrArg BookView.ofi same
    refine ⟨fun set k level => ?_, fun counts sums => ?_, fun remove k level => ?_⟩
    · rw [← qty k level, qtyAfter, if_pos set]
    · rw [flow, if_pos ⟨counts, sums⟩] at ofi
      have unmoved : m.side.signed v = 0 := by omega
      exact BookSide.signed_eq_zero_iff.mp unmoved
    · have kept := qty k level
      rw [qtyAfter, remove] at kept
      simpa using kept.symm
  · intro idle
    ext side k
    · rw [apply]
      dsimp only
      split_ifs with touched
      · obtain ⟨rfl, level⟩ := touched
        exact idle.qtyAfter_eq h level
      · rfl
    · change b.ofi + m.flow v = b.ofi
      rw [idle.flow_eq_zero, add_zero]

theorem apply_eq_apply_iff_of_sides (h : b.Nonneg) (sides : m.side ≠ n.side)
    (action : m.action = n.action) (counts : m.counts = n.counts) :
    m.apply b v = n.apply b v ↔ m.Idle b v ∧ n.Idle b v := by
  rw [← apply_eq_self_iff h, ← apply_eq_self_iff h]
  constructor
  · intro same
    have opposite : m.flow v = -n.flow v := by
      rw [flow, flow, action, counts]
      split_ifs with sums
      · exact BookSide.signed_of_ne sides v
      · rfl
    have flows : b.ofi + m.flow v = b.ofi + n.flow v := congrArg BookView.ofi same
    have left : m.apply b v = b := by
      ext side k
      · by_cases here : side = m.side
        · rw [same, apply_other (fun there => sides (here.symm.trans there))]
        · rw [apply_other here]
      · change b.ofi + m.flow v = b.ofi
        omega
    exact ⟨left, same ▸ left⟩
  · rintro ⟨left, right⟩
    rw [left, right]

end DeltaReading

end HftLatencyLab
