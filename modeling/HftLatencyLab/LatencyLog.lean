import HftLatencyLab.EntryDict
import HftLatencyLab.LobStream
import HftLatencyLab.SocLogs

/-! The CSV of test_lob_stream and what analyze_latency.py (host/udp/analyze_latency.py) makes of
it: every column is read back as it was written, and the bars of the breakdown add up to the round
trip, though the DMA is in two of them and taken off the third. Times are exact numbers. -/

namespace HftLatencyLab.LatencyLog
open SocLogs EntryDict LossyNet ReflexLane LobStream

def header : List Text :=
  ["seq", "t1_host_ns", "t5_host_ns", "rtt_ns",
    "t2_pynq_ns", "t3_pynq_ns", "t4_pynq_ns", "t5_pynq_ns", "t6_pynq_ns",
    "pynq_total_ns", "dma_ns", "net_est_ns",
    "ofi", "imb_q15", "burst_q16", "vol_q16"].map String.toList

def cells (r : Row) : List (Option ℤ) :=
  [some r.seq, some r.t1HostNs, some r.t5HostNs, some r.rttNs,
    r.timing.map (·.t2), r.timing.map (·.t3), r.timing.map (·.t4), r.timing.map (·.t5Pynq),
    r.timing.map (·.t6),
    r.pynqTotalNs, r.dmaNs, r.netEstNs,
    r.features.map (·.ofi), r.features.map (·.imb), r.features.map (·.burst),
    r.features.map (·.vol)]

/-- None is an empty cell. -/
def cellText : Option ℤ → Text
  | none => []
  | some z => intText z

def csvTable (rs : List Row) : List (List Text) :=
  header :: rs.map fun r => (cells r).map cellText

def pyNat (t : Text) : Option ℤ :=
  if t ≠ [] ∧ t.all Char.isDigit then some (Nat.ofDigitChars 10 t 0) else none

/-- `int(val)`, for cells without blanks and underscores. -/
def pyInt : Text → Option ℤ
  | '-' :: t => (pyNat t).map (- ·)
  | '+' :: t => pyNat t
  | t => pyNat t

/-- None for a cell that is missing, empty or no number. -/
def cellValue : Option Text → Option ℤ
  | none => none
  | some [] => none
  | some val => pyInt val

/-- A key of `data`; every one of them is read with `int`. -/
def loadLatencyData (table : List (List Text)) (key : String) : List ℤ :=
  match table with
  | [] => []
  | names :: lines =>
    let values := (lines.filter (· ≠ [])).map fun line =>
      cellValue ((ofEntries (names.zip line)).lookup key.toList)
    values.reduceOption

/-- `np.mean(xs) / 1000.0`; nothing has no mean. -/
def meanUs (xs : List ℤ) : Option ℚ :=
  if xs = [] then none else some (((xs.sum : ℤ) : ℚ) / xs.length / 1000)

structure Breakdown where
  rttMean : Option ℚ
  netMean : Option ℚ
  pynqOverhead : Option ℚ
  dmaMean : Option ℚ
deriving DecidableEq

def latencyBreakdown (data : String → List ℤ) : Option Breakdown :=
  if data "pynq_total_ns" = [] then none
  else
    let dmaMean := meanUs (data "dma_ns")
    some {
      rttMean := meanUs (data "rtt_ns")
      netMean := meanUs (data "net_est_ns")
      pynqOverhead := Option.map₂ (· - ·) (meanUs (data "pynq_total_ns")) dmaMean
      dmaMean := dmaMean }

def Breakdown.top (b : Breakdown) : Option ℚ :=
  Option.map₂ (· + ·) (Option.map₂ (· + ·) b.netMean b.pynqOverhead) b.dmaMean

theorem pyNat_natText (n : ℕ) : pyNat (natText n) = some (n : ℤ) := by
  have digits : (natText n).all Char.isDigit = true := List.all_eq_true.mpr (digits_natText n)
  rw [pyNat, if_pos ⟨natText_ne_nil n, digits⟩, natText, Nat.ofDigitChars_ten_toDigits]

theorem pyInt_intText (z : ℤ) : pyInt (intText z) = some z := by
  by_cases negative : z < 0
  · have signed : intText z = '-' :: natText z.natAbs := by
      rw [intText, if_pos negative]
      rfl
    rw [signed, pyInt, pyNat_natText, Option.map_some]
    congr 1
    omega
  · have nonneg := not_lt.mp negative
    have read : pyInt (natText z.natAbs) = pyNat (natText z.natAbs) := by
      have digits := digits_natText z.natAbs
      cases text : natText z.natAbs with
      | nil => rfl
      | cons c t =>
        have digit := digits c (by rw [text]; exact List.mem_cons_self)
        unfold pyInt
        split
        · next same =>
          obtain ⟨rfl, -⟩ := List.cons.inj same
          cases digit
        · next same =>
          obtain ⟨rfl, -⟩ := List.cons.inj same
          cases digit
        · rfl
    rw [intText_of_nonneg nonneg, read, pyNat_natText, Int.natAbs_of_nonneg nonneg]

theorem cellValue_cellText (z : Option ℤ) : cellValue (some (cellText z)) = z := by
  cases z with
  | none => rfl
  | some z =>
    have filled : intText z ≠ [] := by
      rw [intText]
      exact List.append_ne_nil_of_right_ne_nil _ (natText_ne_nil _)
    have read := pyInt_intText z
    rw [cellText]
    cases text : intText z with
    | nil => exact absurd text filled
    | cons c t =>
      rw [text] at read
      exact read

theorem loadLatencyData_csvTable (rs : List Row) {i : ℕ} {key : String}
    (named : header[i]? = some key.toList) :
    loadLatencyData (csvTable rs) key = rs.filterMap fun r => (cells r)[i]?.join := by
  have cell (r : Row) : (ofEntries (header.zip ((cells r).map cellText))).lookup key.toList =
      ((cells r)[i]?).map cellText := by
    have names : (header.zip ((cells r).map cellText)).map Prod.fst = header :=
      List.map_fst_zip (le_of_eq rfl)
    have distinct : ((header.zip ((cells r).map cellText)).map Prod.fst).Nodup := by
      rw [names]
      decide
    have short : i < (cells r).length := (List.getElem?_eq_some_iff.mp named).1
    rw [List.getElem?_eq_getElem short, Option.map_some, lookup_iff distinct]
    refine List.mem_of_getElem? (i := i) ?_
    rw [List.getElem?_zip_eq_some, List.getElem?_map, List.getElem?_eq_getElem short]
    exact ⟨named, rfl⟩
  have filled : (rs.map fun r => (cells r).map cellText).filter (· ≠ []) =
      rs.map fun r => (cells r).map cellText := by
    refine List.filter_eq_self.mpr fun line mem => ?_
    obtain ⟨r, -, rfl⟩ := List.mem_map.mp mem
    rfl
  rw [csvTable, loadLatencyData, filled, List.map_map, List.reduceOption, List.filterMap_map]
  refine List.filterMap_congr fun r _ => ?_
  change cellValue ((ofEntries (header.zip ((cells r).map cellText))).lookup key.toList) = _
  rw [cell]
  cases (cells r)[i]? with
  | none => rfl
  | some z => exact cellValue_cellText z

theorem meanUs_add {α : Type} (rs : List α) (f g : α → ℤ) :
    Option.map₂ (· + ·) (meanUs (rs.map f)) (meanUs (rs.map g)) =
      meanUs (rs.map fun r => f r + g r) := by
  by_cases none : rs = []
  · rw [none]
    rfl
  · have sum : (rs.map fun r => f r + g r).sum = (rs.map f).sum + (rs.map g).sum := List.sum_map_add
    have some' (h : α → ℤ) : rs.map h ≠ [] := by simpa using none
    rw [meanUs, meanUs, meanUs, if_neg (some' _), if_neg (some' _), if_neg (some' _), sum,
      Option.map₂_some_some, List.length_map, List.length_map, List.length_map, Int.cast_add,
      add_div, add_div]

theorem column_of_rows {rs : List Row} {f : Row → Option ℤ} {g : Row → ℤ}
    (every : ∀ r ∈ rs, f r = some (g r)) : rs.filterMap f = rs.map g := by
  rw [List.filterMap_congr every, List.filterMap_eq_map']

theorem top_eq {net pynq dma : Option ℚ} (rtt : Option ℚ) (b : Breakdown)
    (bars : b = ⟨rtt, net, Option.map₂ (· - ·) pynq dma, dma⟩) :
    b.top = b.dmaMean.bind fun _ => Option.map₂ (· + ·) net pynq := by
  subst bars
  unfold Breakdown.top
  cases net <;> cases pynq <;> cases dma <;> simp
  ring

/-- Whatever is lost, repeated or reordered, every column is read back, the plots of
analyze_latency.py pair every packet with its own round trip, and the bars of the breakdown, if
there is a DMA time, reach up to the mean round trip. But the server's part ends with the reflex:
the DMA is in the network bar, is shown again as its own, and is taken off the bar for the server's
overhead. -/
theorem breakdown_of_run {cfg : LobStream.Config} {moves : List (Move Event Turn)}
    (clocked : ∀ i x, Move.serve i x ∈ moves → Clocked x) :
    let rs := rows (logOf cfg true moves)
    let data := loadLatencyData (csvTable rs)
    (∀ (i : ℕ) (key : String), header[i]? = some key.toList →
      data key = rs.filterMap fun r => (cells r)[i]?.join) ∧
      data "seq" = rs.map (fun r => (r.seq : ℤ)) ∧ data "rtt_ns" = rs.map Row.rttNs ∧
      (latencyBreakdown data = none ↔ rs = []) ∧
      ∃ early : Row → ℤ,
        (∀ r ∈ rs, ∃ x, OnTurn cfg moves r x ∧
          early r = (x.reads.tReflex.toNat : ℤ) - x.reads.t2.toNat) ∧
        ∀ b ∈ latencyBreakdown data,
          b.rttMean = meanUs (rs.map Row.rttNs) ∧
          b.netMean = meanUs (rs.map fun r => r.rttNs - early r) ∧
          b.dmaMean = meanUs (rs.filterMap Row.dmaNs) ∧
          b.pynqOverhead = Option.map₂ (· - ·) (meanUs (rs.map early)) b.dmaMean ∧
          b.top = b.dmaMean.bind fun _ => b.rttMean := by
  intro rs data
  let early (r : Row) : ℤ := r.pynqTotalNs.getD 0
  have turns (r : Row) (logged : r ∈ rs) : ∃ x, OnTurn cfg moves r x ∧
      early r = (x.reads.tReflex.toNat : ℤ) - x.reads.t2.toNat ∧
      r.pynqTotalNs = some (early r) ∧ r.netEstNs = some (r.rttNs - early r) := by
    obtain ⟨x, onTurn, reply, t3, t4, t5', own, timing⟩ := row_of_turn logged
    have read := rowOf_clocked (onTurn.clocked clocked) timing r.seq r.t1HostNs r.t5HostNs
    rw [← own] at read
    have value : early r = (x.reads.tReflex.toNat : ℤ) - x.reads.t2.toNat := by
      change r.pynqTotalNs.getD 0 = _
      rw [read.1, Option.getD_some]
    exact ⟨x, onTurn, value, value ▸ read.1, value ▸ read.2⟩
  have columns (i : ℕ) (key : String) (named : header[i]? = some key.toList) :
      data key = rs.filterMap fun r => (cells r)[i]?.join := loadLatencyData_csvTable rs named
  have rtt : data "rtt_ns" = rs.map Row.rttNs :=
    (columns 3 _ rfl).trans (column_of_rows fun _ _ => rfl)
  have dma : data "dma_ns" = rs.filterMap Row.dmaNs := columns 10 _ rfl
  have total : data "pynq_total_ns" = rs.map early := by
    refine (columns 9 _ rfl).trans (column_of_rows fun r logged => ?_)
    obtain ⟨x, -, -, total, -⟩ := turns r logged
    exact total
  have net : data "net_est_ns" = rs.map fun r => r.rttNs - early r := by
    refine (columns 11 _ rfl).trans (column_of_rows fun r logged => ?_)
    obtain ⟨x, -, -, -, net⟩ := turns r logged
    exact net
  refine ⟨columns, (columns 0 _ rfl).trans (column_of_rows fun _ _ => rfl), rtt, ?_, early,
    fun r logged => ?_, fun b plotted => ?_⟩
  · rw [latencyBreakdown, total]
    simp
  · obtain ⟨x, onTurn, value, -⟩ := turns r logged
    exact ⟨x, onTurn, value⟩
  · have filled : ¬rs.map early = [] := by
      intro none
      rw [latencyBreakdown, total, if_pos none] at plotted
      cases plotted
    rw [latencyBreakdown, total, if_neg filled, rtt, net, dma] at plotted
    have bars := (Option.some.inj plotted).symm
    have top := top_eq _ b bars
    have whole : (rs.map fun r => r.rttNs - early r + early r) = rs.map Row.rttNs := by
      simp only [Int.sub_add_cancel]
    rw [meanUs_add, whole] at top
    subst bars
    exact ⟨rfl, rfl, rfl, rfl, top⟩

/-- The server's overhead is shown as less than nothing. -/
theorem breakdown_answeredTwice :
    ∃ b, latencyBreakdown (loadLatencyData (csvTable (rows (logOf ⟨none, true⟩ true
        answeredTwice)))) = some b ∧
      b.netMean = some (9 / 100) ∧ b.pynqOverhead = some (-1 / 100) ∧ b.dmaMean = some (1 / 50) ∧
      b.top = b.rttMean := by
  have plotted : latencyBreakdown (loadLatencyData (csvTable (rows (logOf ⟨none, true⟩ true
      answeredTwice)))) = some ⟨some (1 / 10), some (9 / 100), some (-1 / 100), some (1 / 50)⟩ := by
    decide +kernel
  obtain ⟨-, -, -, -, early, -, bars⟩ := breakdown_of_run clocked_answeredTwice
  obtain ⟨-, -, -, -, top⟩ := bars _ plotted
  exact ⟨_, plotted, rfl, rfl, rfl, top⟩

end HftLatencyLab.LatencyLog
