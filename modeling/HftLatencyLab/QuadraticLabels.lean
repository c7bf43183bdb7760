import HftLatencyLab.BuildLabels
import Mathlib.Algebra.Order.Group.Basic
import Mathlib.Algebra.Order.Ring.Rat

/-! The labels as the docstring of build_labels has them: for each row a search through all the
rows after it for the first that is at least the horizon later. With timestamps that do not go
back, and taken as exact numbers, the queue writes these and nothing else. -/

namespace HftLatencyLab.QuadraticLabels
open DueQueue BuildLabels

section Exact

variable {κ ρ : Type} [AddCommGroup ρ] [LinearOrder ρ]

/-- `(ts_s - p.start_ts_s) >= horizon_s`, without rounding. -/
def exactSettings (horizonS : ρ) (sumThreshold1e4 : ℤ) : Settings ρ where
  due tsS startTsS := horizonS ≤ tsS - startTsS
  sumThreshold1e4 := sumThreshold1e4

/-- Among the valid rows, `e` is the first after `w` that is at least the horizon later. -/
structure Closes (horizonS : ρ) (vs : List (PendingLabel ρ)) (w e : PendingLabel ρ) (i j : ℕ) :
    Prop where
  row : vs[i]? = some w
  future : vs[j]? = some e
  later : i < j
  reached : horizonS ≤ e.startTsS - w.startTsS
  first : ∀ k, i < k → k < j → ∀ x, vs[k]? = some x → x.startTsS - w.startTsS < horizonS

structure Labels (sumThreshold1e4 : ℤ) (w e : PendingLabel ρ) (l : LabelRow ρ) : Prop where
  tsS : l.tsS = w.startTsS
  rowIndex : l.rowIndex = w.rowIndex
  midSumT : l.midSumT = w.midSum1e4
  midSumTH : l.midSumTH = e.midSum1e4
  move : sumThreshold1e4 ≤ |e.midSum1e4 - w.midSum1e4|
  label : l.label = (e.midSum1e4 - w.midSum1e4).sign

variable {horizonS : ρ} {sumThreshold1e4 : ℤ}

theorem labelRow_eq_some_iff (threshold : 0 < sumThreshold1e4) {w e : PendingLabel ρ}
    {l : LabelRow ρ} :
    labelRow (exactSettings horizonS sumThreshold1e4) e.midSum1e4 w = some l ↔
      Labels sumThreshold1e4 w e l := by
  have sign (move : sumThreshold1e4 ≤ |e.midSum1e4 - w.midSum1e4|) :
      (if 0 < e.midSum1e4 - w.midSum1e4 then 1 else -1) = (e.midSum1e4 - w.midSum1e4).sign := by
    split_ifs with up
    · exact (Int.sign_eq_one_of_pos up).symm
    · have moved : e.midSum1e4 - w.midSum1e4 ≠ 0 := by
        intro still
        rw [still, abs_zero] at move
        omega
      exact (Int.sign_eq_neg_one_of_neg (by omega)).symm
  have noise : (exactSettings horizonS sumThreshold1e4).sumThreshold1e4 = sumThreshold1e4 := rfl
  simp only [labelRow, Option.ite_none_right_eq_some, Option.some.injEq]
  rw [noise]
  constructor
  · rintro ⟨move, rfl⟩
    exact ⟨rfl, rfl, rfl, rfl, move, sign move⟩
  · intro h
    refine ⟨h.move, ?_⟩
    rw [sign h.move, ← h.label, ← h.tsS, ← h.rowIndex, ← h.midSumT, ← h.midSumTH]

variable [IsOrderedAddMonoid ρ]

theorem ordered_of_sorted (sumThreshold1e4 : ℤ) (horizon : 0 < horizonS)
    {vs : List (PendingLabel ρ)} (sorted : vs.Pairwise (fun a b => a.startTsS ≤ b.startTsS)) :
    Ordered (exactSettings horizonS sumThreshold1e4).dueRow vs := by
  have times {i k : ℕ} {a b : PendingLabel ρ} (le : i ≤ k) (at_i : vs[i]? = some a)
      (at_k : vs[k]? = some b) : a.startTsS ≤ b.startTsS := by
    obtain ⟨insideI, rfl⟩ := List.getElem?_eq_some_iff.mp at_i
    obtain ⟨insideK, rfl⟩ := List.getElem?_eq_some_iff.mp at_k
    rcases le.lt_or_eq with before | rfl
    · exact List.pairwise_iff_getElem.mp sorted i k insideI insideK before
    · exact le_rfl
  constructor
  · intro i k e w le at_i at_k
    have none : ¬horizonS ≤ e.startTsS - w.startTsS := by
      have back := sub_nonpos.mpr (times le at_i at_k)
      exact not_le.mpr (back.trans_lt horizon)
    exact decide_eq_false none
  · intro i k e w w' le at_i at_k isDue
    have reached : horizonS ≤ e.startTsS - w'.startTsS := of_decide_eq_true isDue
    have longer : e.startTsS - w'.startTsS ≤ e.startTsS - w.startTsS :=
      sub_le_sub_left (times le at_i at_k) _
    exact decide_eq_true (reached.trans longer)

theorem release_eq_some_iff (sumThreshold1e4 : ℤ) (horizon : 0 < horizonS)
    {vs : List (PendingLabel ρ)} (sorted : vs.Pairwise (fun a b => a.startTsS ≤ b.startTsS))
    {i : ℕ} {w e : PendingLabel ρ} :
    release (exactSettings horizonS sumThreshold1e4).dueRow vs i = some (w, e) ↔
      ∃ j, Closes horizonS vs w e i j := by
  have ordered := ordered_of_sorted sumThreshold1e4 horizon sorted
  have isDue (x w : PendingLabel ρ) :
      (exactSettings horizonS sumThreshold1e4).dueRow x w = true ↔
        horizonS ≤ x.startTsS - w.startTsS := decide_eq_true_iff
  constructor
  · intro released
    obtain ⟨row, j, at_j, future⟩ := release_some released
    rw [ordered.releasedAt_eq row, firstDue_eq_some_iff] at at_j
    obtain ⟨later, ⟨e', here, due⟩, before⟩ := at_j
    rw [future] at here
    obtain rfl := Option.some.inj here
    refine ⟨j, row, future, later, (isDue _ _).mp due, fun k after early x at_k => ?_⟩
    exact not_le.mp (of_decide_eq_false (before k after early x at_k))
  · rintro ⟨j, closes⟩
    have released : releasedAt (exactSettings horizonS sumThreshold1e4).dueRow vs i = some j := by
      rw [ordered.releasedAt_eq closes.row, firstDue_eq_some_iff]
      refine ⟨closes.later, ⟨e, closes.future, (isDue _ _).mpr closes.reached⟩,
        fun k after early x at_k => ?_⟩
      exact decide_eq_false (not_le.mpr (closes.first k after early x at_k))
    simp [release, closes.row, released, closes.future]

omit [AddCommGroup ρ] [LinearOrder ρ] [IsOrderedAddMonoid ρ] in
theorem validRows_increasing (cv : FieldConv κ ρ) (msgs obs : List (List κ)) :
    (validRows cv msgs obs).Pairwise (fun a b => a.rowIndex < b.rowIndex) := by
  have number {pair : (List κ × List κ) × ℕ} {p : PendingLabel ρ}
      (valid : validRow cv pair = some p) : p.rowIndex = pair.2 := by
    rw [validRow, Option.map_eq_some_iff] at valid
    obtain ⟨row, -, rfl⟩ := valid
    rfl
  rw [validRows, List.pairwise_filterMap, List.pairwise_iff_getElem]
  intro i j insideI insideJ before a validA b validB
  rw [number validA, number validB, List.getElem_zipIdx, List.getElem_zipIdx]
  dsimp only
  omega

omit [AddCommGroup ρ] [LinearOrder ρ] [IsOrderedAddMonoid ρ] in
theorem labelOf_row {set : Settings ρ} {vs : List (PendingLabel ρ)} {k : ℕ} {l : LabelRow ρ}
    (label : labelOf set vs k = some l) : ∃ w, vs[k]? = some w ∧ l.rowIndex = w.rowIndex := by
  rw [labelOf, Option.bind_eq_some_iff] at label
  obtain ⟨⟨w, e⟩, released, written⟩ := label
  exact ⟨w, (release_some released).1, (labelRow_some written).1⟩

/-- The rows written, in order of row index, are those a search for the first row past the
horizon labels. -/
theorem labels_exact (cv : FieldConv κ ρ) (horizon : 0 < horizonS)
    (threshold : 0 < sumThreshold1e4) (msgs obs : List (List κ))
    (sorted : (validRows cv msgs obs).Pairwise (fun a b => a.startTsS ≤ b.startTsS)) :
    (buildLabels cv (exactSettings horizonS sumThreshold1e4) msgs obs).Pairwise
        (fun a b => a.rowIndex < b.rowIndex) ∧
      ∀ l, l ∈ buildLabels cv (exactSettings horizonS sumThreshold1e4) msgs obs ↔
        ∃ w e i j, Closes horizonS (validRows cv msgs obs) w e i j ∧
          Labels sumThreshold1e4 w e l := by
  constructor
  · rw [buildLabels_eq, List.pairwise_filterMap]
    refine List.pairwise_lt_range.imp fun {a b} before l labelA l' labelB => ?_
    obtain ⟨w, at_a, number⟩ := labelOf_row labelA
    obtain ⟨w', at_b, number'⟩ := labelOf_row labelB
    obtain ⟨insideA, rfl⟩ := List.getElem?_eq_some_iff.mp at_a
    obtain ⟨insideB, rfl⟩ := List.getElem?_eq_some_iff.mp at_b
    rw [number, number']
    exact List.pairwise_iff_getElem.mp (validRows_increasing cv msgs obs) a b insideA insideB before
  · intro l
    rw [mem_buildLabels]
    constructor
    · rintro ⟨i, label⟩
      rw [labelOf, Option.bind_eq_some_iff] at label
      obtain ⟨⟨w, e⟩, released, written⟩ := label
      obtain ⟨j, closes⟩ := (release_eq_some_iff sumThreshold1e4 horizon sorted).mp released
      exact ⟨w, e, i, j, closes, (labelRow_eq_some_iff threshold).mp written⟩
    · rintro ⟨w, e, i, j, closes, labels⟩
      have released := (release_eq_some_iff sumThreshold1e4 horizon sorted).mpr ⟨j, closes⟩
      refine ⟨i, ?_⟩
      rw [labelOf, released, Option.bind_some]
      exact (labelRow_eq_some_iff threshold).mpr labels

end Exact

def spelled : FieldConv ℚ ℚ where
  float := some
  int q := if q.den = 1 then some q.num else none

def messages : List (List ℚ) :=
  [[34200], [34200 + 1 / 100], [34200 + 3 / 100], [34200 + 5 / 100], [34200 + 8 / 100]]

def orderbook : List (List ℚ) :=
  [[5859400, 200, 5853300, 18], [9999999999, 0, 5853300, 18], [5859700, 200, 5853300, 18],
    [5859200, 200, 5853300, 18], [5859600, 200, 5853300, 18]]

/-- With a horizon of 20 ms each readable row is closed by the next one. -/
theorem labels_exact_halted :
    buildLabels spelled (exactSettings (1 / 50) 200) messages orderbook =
        [⟨34200, 0, 11712700, 11713000, 1⟩, ⟨34200 + 3 / 100, 2, 11713000, 11712500, -1⟩,
          ⟨34200 + 5 / 100, 3, 11712500, 11712900, 1⟩] ∧
      ∃ w e i j, Closes (1 / 50) (validRows spelled messages orderbook) w e i j ∧
        Labels 200 w e ⟨34200 + 3 / 100, 2, 11713000, 11712500, -1⟩ := by
  have written : buildLabels spelled (exactSettings (1 / 50) 200) messages orderbook =
      [⟨34200, 0, 11712700, 11713000, 1⟩, ⟨34200 + 3 / 100, 2, 11713000, 11712500, -1⟩,
        ⟨34200 + 5 / 100, 3, 11712500, 11712900, 1⟩] := by decide +kernel
  have exact := labels_exact spelled (show (0 : ℚ) < 1 / 50 by decide +kernel)
    (show (0 : ℤ) < 200 by decide) messages orderbook (by decide +kernel)
  exact ⟨written, (exact.2 _).mp (by rw [written]; simp)⟩

end HftLatencyLab.QuadraticLabels
