import HftLatencyLab.QuadraticLabels
import Mathlib.Algebra.Order.Field.Basic
import Mathlib.Tactic.Linarith
import Mathlib.Tactic.Ring

/-! time_splits of models/train/train_baselines.py on the labels of build_labels. The three parts
are consecutive pieces of the file, but a label of the training part may be made of a price that is
only known after it: exactly when no row comes between its horizon and the end of that part. Times
are exact numbers. -/

namespace HftLatencyLab.TrainingSplits
open BuildLabels QuadraticLabels

/-- `np.nonzero(mask)[0]` -/
def nonzero (mask : List Bool) : List ℕ := (mask.zipIdx.filter Prod.fst).map Prod.snd

structure SplitIdx where
  train : List ℕ
  val : List ℕ
  test : List ℕ

section Splits

variable {ρ : Type} [Field ρ] [LinearOrder ρ]

/-- `t1` and `t2`, of times of which there is at least one. -/
def splitTimes (t : ρ) (ts : List ρ) (trainFrac valFrac : ρ) : ρ × ρ :=
  let tmin := ts.foldl min t
  let tmax := ts.foldl max t
  (tmin + (tmax - tmin) * trainFrac, tmin + (tmax - tmin) * (trainFrac + valFrac))

/-- `np.min` raises where there is no time. -/
def timeSplits (trainFrac valFrac : ρ) : List ρ → Option SplitIdx
  | [] => none
  | t :: ts =>
    let (t1, t2) := splitTimes t ts trainFrac valFrac
    some {
      train := nonzero ((t :: ts).map fun x => x ≤ t1)
      val := nonzero ((t :: ts).map fun x => t1 < x ∧ x ≤ t2)
      test := nonzero ((t :: ts).map fun x => t2 < x) }

end Splits

theorem filter_append_filter {α : Type} {p q : α → Bool} (other : ∀ x, q x = !p x) {xs : List α}
    (falling : xs.Pairwise fun a b => p b = true → p a = true) :
    xs.filter p ++ xs.filter q = xs := by
  induction xs with
  | nil => rfl
  | cons x xs ih =>
    obtain ⟨first, rest⟩ := List.pairwise_cons.mp falling
    cases here : p x with
    | true =>
      have left : q x = false := by rw [other, here, Bool.not_true]
      rw [List.filter_cons_of_pos here, List.filter_cons_of_neg (by rw [left]; decide),
        List.cons_append, ih rest]
    | false =>
      have behind : ∀ y ∈ x :: xs, p y = false := by
        refine List.forall_mem_cons.mpr ⟨here, fun y mem => ?_⟩
        by_contra above
        rw [first y mem (eq_true_of_ne_false above)] at here
        cases here
      have none : (x :: xs).filter p = [] :=
        List.filter_eq_nil_iff.mpr fun y mem => by rw [behind y mem]; decide
      have all : (x :: xs).filter q = x :: xs :=
        List.filter_eq_self.mpr fun y mem => by rw [other, behind y mem, Bool.not_false]
      rw [none, all, List.nil_append]

section Order

variable {ρ : Type}

theorem nonzero_map (ts : List ρ) (p : ρ → Bool) :
    nonzero (ts.map p) = (ts.zipIdx.filter fun x => p x.1).map Prod.snd := by
  rw [nonzero, List.zipIdx_map, List.filter_map, List.map_map]
  rfl

theorem mem_nonzero {mask : List Bool} {i : ℕ} : i ∈ nonzero mask ↔ mask[i]? = some true := by
  simp only [nonzero, List.mem_map, List.mem_filter, List.mem_zipIdx_iff_getElem?]
  constructor
  · rintro ⟨⟨b, i⟩, ⟨found, rfl⟩, rfl⟩
    exact found
  · exact fun found => ⟨(true, i), ⟨found, rfl⟩, rfl⟩

variable [LinearOrder ρ]

theorem nonzero_pieces {ts : List ρ} (sorted : ts.Pairwise (· ≤ ·)) {t1 t2 : ρ} (le : t1 ≤ t2) :
    nonzero (ts.map fun x => x ≤ t1) ++
        (nonzero (ts.map fun x => t1 < x ∧ x ≤ t2) ++ nonzero (ts.map fun x => t2 < x)) =
      List.range ts.length := by
  have numbered : ts.zipIdx.Pairwise fun a b => a.1 ≤ b.1 := by
    have times : (ts.zipIdx.map Prod.fst).Pairwise (· ≤ ·) := by rwa [List.zipIdx_map_fst]
    exact List.pairwise_map.mp times
  have falling (t : ρ) {xs : List (ρ × ℕ)} (kept : xs.Pairwise fun a b => a.1 ≤ b.1) :
      xs.filter (fun x => decide (x.1 ≤ t)) ++ xs.filter (fun x => decide (t < x.1)) = xs := by
    refine filter_append_filter (fun x => ?_) (kept.imp fun {a b} before up => ?_)
    · rw [← decide_not]
      exact decide_eq_decide.mpr not_le.symm
    · exact decide_eq_true (before.trans (of_decide_eq_true up))
  have middle : ts.zipIdx.filter (fun x => decide (t1 < x.1 ∧ x.1 ≤ t2)) =
      (ts.zipIdx.filter fun x => decide (t1 < x.1)).filter fun x => decide (x.1 ≤ t2) := by
    rw [List.filter_filter]
    exact List.filter_congr fun x _ => by rw [Bool.decide_and, Bool.and_comm]
  have last : ts.zipIdx.filter (fun x => decide (t2 < x.1)) =
      (ts.zipIdx.filter fun x => decide (t1 < x.1)).filter fun x => decide (t2 < x.1) := by
    rw [List.filter_filter]
    refine List.filter_congr fun x _ => ?_
    by_cases late : t2 < x.1
    · simp [late, le.trans_lt late]
    · simp [late]
  rw [nonzero_map, nonzero_map, nonzero_map, middle, last, ← List.map_append, ← List.map_append,
    falling t2 (numbered.filter _), falling t1 numbered, List.zipIdx_map_snd]
  exact List.range_eq_range'.symm

end Order

section Labels

variable {κ ρ : Type} [Field ρ] [LinearOrder ρ] [IsStrictOrderedRing ρ] {horizonS : ρ}

theorem splitTimes_le {t : ρ} {ts : List ρ} (first : ∀ x ∈ ts, t ≤ x) {trainFrac valFrac : ρ}
    (train : 0 ≤ trainFrac) (val : 0 ≤ valFrac) :
    t ≤ (splitTimes t ts trainFrac valFrac).1 ∧
      (splitTimes t ts trainFrac valFrac).1 ≤ (splitTimes t ts trainFrac valFrac).2 := by
  have least : ts.foldl min t = t := by
    induction ts with
    | nil => rfl
    | cons x ts ih =>
      rw [List.forall_mem_cons] at first
      rw [List.foldl_cons, min_eq_left first.1]
      exact ih first.2
  have most (xs : List ρ) (x : ρ) : x ≤ xs.foldl max x := by
    induction xs generalizing x with
    | nil => exact le_rfl
    | cons y xs ih => exact (le_max_left x y).trans (ih _)
  have range : 0 ≤ ts.foldl max t - t := sub_nonneg.mpr (most ts t)
  have split : (ts.foldl max t - t) * (trainFrac + valFrac) =
      (ts.foldl max t - t) * trainFrac + (ts.foldl max t - t) * valFrac := mul_add _ _ _
  rw [splitTimes, least]
  dsimp only
  rw [split]
  have := mul_nonneg range train
  have := mul_nonneg range val
  exact ⟨by linarith, by linarith⟩

omit [Field ρ] [LinearOrder ρ] [IsStrictOrderedRing ρ] in
theorem labelOf_time {set : Settings ρ} {vs : List (PendingLabel ρ)} {k : ℕ} {l : LabelRow ρ}
    (label : labelOf set vs k = some l) : ∃ w, vs[k]? = some w ∧ l.tsS = w.startTsS := by
  rw [labelOf, Option.bind_eq_some_iff] at label
  obtain ⟨⟨w, e⟩, released, written⟩ := label
  exact ⟨w, (DueQueue.release_some released).1, (labelRow_some written).2.1⟩

omit [Field ρ] [IsStrictOrderedRing ρ] in
theorem labels_sorted {cv : FieldConv κ ρ} {set : Settings ρ} {msgs obs : List (List κ)}
    (sorted : (validRows cv msgs obs).Pairwise fun a b => a.startTsS ≤ b.startTsS) :
    ((buildLabels cv set msgs obs).map LabelRow.tsS).Pairwise (· ≤ ·) := by
  rw [List.pairwise_map, buildLabels_eq, List.pairwise_filterMap]
  refine List.pairwise_lt_range.imp fun {a b} before l labelA l' labelB => ?_
  obtain ⟨w, at_a, time⟩ := labelOf_time labelA
  obtain ⟨w', at_b, time'⟩ := labelOf_time labelB
  obtain ⟨insideA, rfl⟩ := List.getElem?_eq_some_iff.mp at_a
  obtain ⟨insideB, rfl⟩ := List.getElem?_eq_some_iff.mp at_b
  rw [time, time']
  exact List.pairwise_iff_getElem.mp sorted a b insideA insideB before

/-- The row that closes another is the first at its horizon, so it is beyond a bound exactly if
all that are at the horizon are. -/
theorem beyond_iff {vs : List (PendingLabel ρ)} {w e : PendingLabel ρ} {i j : ℕ}
    (closes : Closes horizonS vs w e i j) (horizon : 0 < horizonS)
    (sorted : vs.Pairwise fun a b => a.startTsS ≤ b.startTsS) (bound : ρ) :
    bound < e.startTsS ↔ ∀ v ∈ vs, w.startTsS + horizonS ≤ v.startTsS → bound < v.startTsS := by
  have times {i k : ℕ} {a b : PendingLabel ρ} (before : i ≤ k) (at_i : vs[i]? = some a)
      (at_k : vs[k]? = some b) : a.startTsS ≤ b.startTsS := by
    obtain ⟨insideI, rfl⟩ := List.getElem?_eq_some_iff.mp at_i
    obtain ⟨insideK, rfl⟩ := List.getElem?_eq_some_iff.mp at_k
    rcases before.lt_or_eq with less | rfl
    · exact List.pairwise_iff_getElem.mp sorted i k insideI insideK less
    · exact le_rfl
  constructor
  · intro beyond v mem reached
    obtain ⟨k, at_k⟩ := List.mem_iff_getElem?.mp mem
    have after : j ≤ k := by
      by_contra early
      rcases Nat.lt_or_ge i k with later | earlier
      · have := closes.first k later (not_le.mp early) v at_k
        linarith
      · have := times earlier at_k closes.row
        linarith
    exact beyond.trans_le (times after closes.future at_k)
  · intro all
    have reached := closes.reached
    exact all e (List.mem_of_getElem? closes.future) (by linarith)

/-- The parts follow each other in the file and the training part is not empty. A label of the
training part is made of a price from after that part exactly if no row of the data lies between
the horizon of the label and the end of the part. -/
theorem splits_of_labels (cv : FieldConv κ ρ) (horizon : 0 < horizonS) {sumThreshold1e4 : ℤ}
    (threshold : 0 < sumThreshold1e4) (msgs obs : List (List κ))
    (sorted : (validRows cv msgs obs).Pairwise fun a b => a.startTsS ≤ b.startTsS)
    {trainFrac valFrac : ρ} (train : 0 ≤ trainFrac) (val : 0 ≤ valFrac) :
    let ls := buildLabels cv (exactSettings horizonS sumThreshold1e4) msgs obs
    ∀ t ts, ls.map LabelRow.tsS = t :: ts →
      ∃ s, timeSplits trainFrac valFrac (ls.map LabelRow.tsS) = some s ∧
        s.train ++ (s.val ++ s.test) = List.range ls.length ∧ 0 ∈ s.train ∧
        ∀ i ∈ s.train, ∃ l w e k j, ls[i]? = some l ∧
          Closes horizonS (validRows cv msgs obs) w e k j ∧ Labels sumThreshold1e4 w e l ∧
          ((splitTimes t ts trainFrac valFrac).1 < e.startTsS ↔
            ∀ v ∈ validRows cv msgs obs, l.tsS + horizonS ≤ v.startTsS →
              (splitTimes t ts trainFrac valFrac).1 < v.startTsS) := by
  intro ls t ts times
  have inOrder : (t :: ts).Pairwise (· ≤ ·) := by
    rw [← times]
    exact labels_sorted sorted
  obtain ⟨start, le⟩ := splitTimes_le (List.pairwise_cons.mp inOrder).1 train val
  have size : ls.length = (t :: ts).length := by rw [← times, List.length_map]
  refine ⟨_, by rw [times, timeSplits], ?_, ?_, fun i mem => ?_⟩
  · rw [size]
    exact nonzero_pieces inOrder le
  · exact mem_nonzero.mpr (congrArg some (decide_eq_true start))
  · have found := mem_nonzero.mp mem
    rw [← times, List.map_map, List.getElem?_map, Option.map_eq_some_iff] at found
    obtain ⟨l, row, -⟩ := found
    obtain ⟨k, label⟩ := mem_buildLabels.mp (List.mem_of_getElem? row)
    rw [labelOf, Option.bind_eq_some_iff] at label
    obtain ⟨⟨w, e⟩, released, written⟩ := label
    obtain ⟨j, closes⟩ := (release_eq_some_iff sumThreshold1e4 horizon sorted).mp released
    have labels := (labelRow_eq_some_iff threshold).mp written
    refine ⟨l, w, e, k, j, row, closes, labels, ?_⟩
    rw [labels.tsS]
    exact beyond_iff closes horizon sorted _

end Labels

/-- Two of three labels are for training. The price of the first is from within that part, and the
price of the second is from behind it. -/
theorem splits_of_labels_halted :
    let ls := buildLabels spelled (exactSettings (1 / 50) 200) messages orderbook
    ∃ s, timeSplits (3 / 5) (1 / 5) (ls.map LabelRow.tsS) = some s ∧ s.train = [0, 1] ∧
      (∃ l w e k j, ls[0]? = some l ∧
        Closes (1 / 50) (validRows spelled messages orderbook) w e k j ∧ Labels 200 w e l ∧
        ¬34200 + 3 / 100 < e.startTsS) ∧
      ∃ l w e k j, ls[1]? = some l ∧
        Closes (1 / 50) (validRows spelled messages orderbook) w e k j ∧ Labels 200 w e l ∧
        34200 + 3 / 100 < e.startTsS := by
  intro ls
  have times : ls.map LabelRow.tsS = [34200, 34200 + 3 / 100, 34200 + 5 / 100] := by
    decide +kernel
  have cut : (splitTimes (34200 : ℚ) [34200 + 3 / 100, 34200 + 5 / 100] (3 / 5) (1 / 5)).1 =
      34200 + 3 / 100 := by decide +kernel
  have split : (timeSplits (3 / 5) (1 / 5) (ls.map LabelRow.tsS)).map SplitIdx.train =
      some [0, 1] := by decide +kernel
  obtain ⟨s, parts, -, -, labels⟩ := splits_of_labels spelled
    (show (0 : ℚ) < 1 / 50 by decide +kernel) (show (0 : ℤ) < 200 by decide) messages orderbook
    (by decide +kernel) (show (0 : ℚ) ≤ 3 / 5 by decide +kernel)
    (show (0 : ℚ) ≤ 1 / 5 by decide +kernel) _ _ times
  have train : s.train = [0, 1] := by
    rw [parts] at split
    exact Option.some.inj split
  rw [cut] at labels
  have time {i : ℕ} {l : LabelRow ℚ} (row : ls[i]? = some l) :
      [34200, 34200 + 3 / 100, 34200 + 5 / 100][i]? = some l.tsS := by
    rw [← times, List.getElem?_map, row, Option.map_some]
  refine ⟨s, parts, train, ?_, ?_⟩
  · obtain ⟨l, w, e, k, j, row, closes, label, leaks⟩ := labels 0 (by rw [train]; simp)
    have first : 34200 = l.tsS := Option.some.inj (time row)
    refine ⟨l, w, e, k, j, row, closes, label, mt leaks.mp ?_⟩
    rw [← first]
    decide +kernel
  · obtain ⟨l, w, e, k, j, row, closes, label, leaks⟩ := labels 1 (by rw [train]; simp)
    have second : 34200 + 3 / 100 = l.tsS := Option.some.inj (time row)
    refine ⟨l, w, e, k, j, row, closes, label, leaks.mpr ?_⟩
    rw [← second]
    decide +kernel

end HftLatencyLab.TrainingSplits
