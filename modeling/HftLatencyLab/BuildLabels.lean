import HftLatencyLab.DueQueue
import Mathlib.Algebra.Order.Group.Unbundled.Int
import Mathlib.Data.List.Enum

/-! build_labels of datasets/build_labels.py. The message and the orderbook rows are read in
pairs; a queue of pending rows holds every row of the pair counter that could be read, until
one at least the horizon later closes it. -/

namespace HftLatencyLab.BuildLabels
open DueQueue

variable {κ ρ : Type}

/-- Python's float and int of a CSV field, which may raise; `κ` stands for the text and
`ρ` for the doubles. -/
structure FieldConv (κ ρ : Type) where
  float : κ → Option ρ
  int : κ → Option ℤ

structure Settings (ρ : Type) where
  /-- `(ts_s - start_ts_s) >= horizon_s` -/
  due : ρ → ρ → Bool
  sumThreshold1e4 : ℤ

structure PendingLabel (ρ : Type) where
  startTsS : ρ
  midSum1e4 : ℤ
  rowIndex : ℕ
deriving DecidableEq

structure LabelRow (ρ : Type) where
  tsS : ρ
  rowIndex : ℕ
  midSumT : ℤ
  midSumTH : ℤ
  label : ℤ
deriving DecidableEq

/-- The time and the sum of the best prices, where neither is missing nor a sentinel. -/
def readPair (cv : FieldConv κ ρ) (msgRow obRow : List κ) : Option (ρ × ℤ) := do
  let tsS ← cv.float (← msgRow[0]?)
  let ask1 ← cv.int (← obRow[0]?)
  let bid1 ← cv.int (← obRow[2]?)
  if 9999999999 ≤ ask1 ∨ bid1 ≤ -9999999999 then none else some (tsS, ask1 + bid1)

def labelRow (set : Settings ρ) (midSum : ℤ) (p : PendingLabel ρ) : Option (LabelRow ρ) :=
  let deltaSum := midSum - p.midSum1e4
  if set.sumThreshold1e4 ≤ |deltaSum| then
    some { tsS := p.startTsS
           rowIndex := p.rowIndex
           midSumT := p.midSum1e4
           midSumTH := midSum
           label := if 0 < deltaSum then 1 else -1 }
  else none

structure Loop (ρ : Type) where
  pending : List (PendingLabel ρ)
  idx : ℕ
  written : List (LabelRow ρ)

def pass (cv : FieldConv κ ρ) (set : Settings ρ) (s : Loop ρ) (rows : List κ × List κ) : Loop ρ :=
  match readPair cv rows.1 rows.2 with
  | none => { s with idx := s.idx + 1 }
  | some (tsS, midSum) =>
    let pending := s.pending ++ [{ startTsS := tsS, midSum1e4 := midSum, rowIndex := s.idx }]
    let isDue (p : PendingLabel ρ) : Bool := set.due tsS p.startTsS
    { pending := pending.dropWhile isDue
      idx := s.idx + 1
      written := s.written ++ (pending.takeWhile isDue).filterMap (labelRow set midSum) }

def buildLabels (cv : FieldConv κ ρ) (set : Settings ρ) (msgs obs : List (List κ)) :
    List (LabelRow ρ) :=
  ((msgs.zip obs).foldl (pass cv set) ⟨[], 0, []⟩).written

def validRow (cv : FieldConv κ ρ) (rows : (List κ × List κ) × ℕ) : Option (PendingLabel ρ) :=
  (readPair cv rows.1.1 rows.1.2).map (fun (tsS, midSum) => ⟨tsS, midSum, rows.2⟩)

def validRows (cv : FieldConv κ ρ) (msgs obs : List (List κ)) : List (PendingLabel ρ) :=
  (msgs.zip obs).zipIdx.filterMap (validRow cv)

def Settings.dueRow (set : Settings ρ) (e w : PendingLabel ρ) : Bool :=
  set.due e.startTsS w.startTsS

def labelOf (set : Settings ρ) (vs : List (PendingLabel ρ)) (k : ℕ) : Option (LabelRow ρ) :=
  (release set.dueRow vs k).bind (fun (w, e) => labelRow set e.midSum1e4 w)

variable {cv : FieldConv κ ρ} {set : Settings ρ}

theorem pass_loop (rows : List (List κ × List κ)) (s : Loop ρ) :
    (rows.foldl (pass cv set) s).written = s.written ++
      ((queue set.dueRow).outputs s.pending
        ((rows.zipIdx s.idx).filterMap (validRow cv))).flatten.filterMap
          (fun (w, e) => labelRow set e.midSum1e4 w) := by
  induction rows generalizing s with
  | nil => simp
  | cons pair rows ih =>
    rw [List.foldl_cons, ih, List.zipIdx_cons]
    cases read : readPair cv pair.1 pair.2 with
    | none =>
      have skipped : validRow cv (pair, s.idx) = none := by rw [validRow, read, Option.map_none]
      rw [List.filterMap_cons_none skipped, pass, read]
    | some row =>
      have entered : validRow cv (pair, s.idx) = some ⟨row.1, row.2, s.idx⟩ := by
        rw [validRow, read, Option.map_some]
      rw [List.filterMap_cons_some entered, Mealy.outputs_cons, List.flatten_cons,
        List.filterMap_append, pass, read, List.append_assoc]
      simp only [Mealy.out, Mealy.next, queue, List.filterMap_map, Function.comp_def]
      rfl

theorem buildLabels_eq (cv : FieldConv κ ρ) (set : Settings ρ) (msgs obs : List (List κ)) :
    buildLabels cv set msgs obs =
      (List.range (validRows cv msgs obs).length).filterMap
        (labelOf set (validRows cv msgs obs)) := by
  rw [buildLabels, pass_loop, List.nil_append]
  change ((queue set.dueRow).outputs [] (validRows cv msgs obs)).flatten.filterMap _ = _
  rw [queue_released, List.filterMap_filterMap]
  rfl

theorem mem_buildLabels {msgs obs : List (List κ)} {l : LabelRow ρ} :
    l ∈ buildLabels cv set msgs obs ↔ ∃ k, labelOf set (validRows cv msgs obs) k = some l := by
  rw [buildLabels_eq, List.mem_filterMap]
  constructor
  · rintro ⟨k, -, written⟩
    exact ⟨k, written⟩
  · rintro ⟨k, written⟩
    refine ⟨k, List.mem_range.mpr ?_, written⟩
    by_contra outside
    have missing : (validRows cv msgs obs)[k]? = none := List.getElem?_eq_none (by omega)
    simp [labelOf, release, missing] at written

theorem mem_validRows {msgs obs : List (List κ)} {p : PendingLabel ρ}
    (mem : p ∈ validRows cv msgs obs) :
    ∃ msgRow obRow, msgs[p.rowIndex]? = some msgRow ∧ obs[p.rowIndex]? = some obRow ∧
      readPair cv msgRow obRow = some (p.startTsS, p.midSum1e4) := by
  simp only [validRows, List.mem_filterMap, validRow, Option.map_eq_some_iff] at mem
  obtain ⟨⟨⟨msgRow, obRow⟩, i⟩, paired, ⟨tsS, midSum⟩, read, rfl⟩ := mem
  have place := List.mem_zipIdx_iff_getElem?.mp paired
  obtain ⟨msgAt, obAt⟩ := List.getElem?_zip_eq_some.mp place
  exact ⟨msgRow, obRow, msgAt, obAt, read⟩

theorem readPair_eq_some_iff {msgRow obRow : List κ} {tsS : ρ} {midSum : ℤ} :
    readPair cv msgRow obRow = some (tsS, midSum) ↔
      msgRow[0]?.bind cv.float = some tsS ∧
        ∃ ask1 bid1, obRow[0]?.bind cv.int = some ask1 ∧ obRow[2]?.bind cv.int = some bid1 ∧
          ask1 < 9999999999 ∧ -9999999999 < bid1 ∧ midSum = ask1 + bid1 := by
  simp only [readPair, Option.bind_eq_bind, Option.bind_eq_some_iff, Option.ite_none_left_eq_some,
    Option.some.injEq, Prod.mk.injEq, not_or, not_le]
  constructor
  · rintro ⟨time, atTime, _, readTime, ask, atAsk, ask1, readAsk, bid, atBid, bid1, readBid,
      ⟨low, high⟩, rfl, rfl⟩
    exact ⟨⟨time, atTime, readTime⟩, ask1, bid1, ⟨ask, atAsk, readAsk⟩, ⟨bid, atBid, readBid⟩, low,
      high, rfl⟩
  · rintro ⟨⟨time, atTime, readTime⟩, ask1, bid1, ⟨ask, atAsk, readAsk⟩, ⟨bid, atBid, readBid⟩, low,
      high, rfl⟩
    exact ⟨time, atTime, tsS, readTime, ask, atAsk, ask1, readAsk, bid, atBid, bid1, readBid,
      ⟨low, high⟩, rfl, rfl⟩

theorem readPair_time {msgRow obRow : List κ} {tsS : ρ} {midSum : ℤ}
    (read : readPair cv msgRow obRow = some (tsS, midSum)) :
    msgRow[0]?.bind cv.float = some tsS := (readPair_eq_some_iff.mp read).1

theorem labelRow_some {midSum : ℤ} {p : PendingLabel ρ} {l : LabelRow ρ}
    (written : labelRow set midSum p = some l) :
    l.rowIndex = p.rowIndex ∧ l.tsS = p.startTsS ∧
      set.sumThreshold1e4 ≤ |midSum - p.midSum1e4| := by
  simp only [labelRow, Option.ite_none_right_eq_some, Option.some.injEq] at written
  obtain ⟨move, rfl⟩ := written
  exact ⟨rfl, rfl, move⟩

end HftLatencyLab.BuildLabels
