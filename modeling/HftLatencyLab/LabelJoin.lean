import HftLatencyLab.BuildLabels
import HftLatencyLab.FeaturesRef
import HftLatencyLab.PartialFold
import HftLatencyLab.Rounding
import Mathlib.Data.Rat.Floor

/-! The join of labels and features in train_baselines.py. features_ref writes one record for
every message it accepts, build_labels counts every pair of rows: row numbers and record
numbers agree up to the first message that features_ref skips. -/

namespace HftLatencyLab.LabelJoin
open BuildLabels PythonBook FeaturesRef

variable {κ ρ : Type}

structure RefConv (κ ρ : Type) extends FieldConv κ ρ where
  /-- `int(round((t_s - first_ts_s) * 1e9))` -/
  tsNs : ρ → ρ → Option ℤ
  /-- `int(round(price / price_tick))` -/
  priceTicks : ρ → Option ℤ

structure Message (ρ : Type) where
  tS : ρ
  typ : ℤ
  size : ℤ
  price : ρ
  direction : ℤ

/-- The try block; `none` where it raises and the row is passed over. -/
def parseMessage (cv : RefConv κ ρ) (row : List κ) : Option (Message ρ) := do
  let tS ← cv.float (← row[0]?)
  let typ ← cv.int (← row[1]?)
  let size ← cv.int (← row[3]?)
  let price ← cv.float (← row[4]?)
  let direction ← cv.int (← row[5]?)
  return { tS, typ, size, price, direction }

/-- The locals of run; each record stands with the number of the row it is emitted for. -/
structure Scan (ρ : Type) where
  firstTsS : Option ρ
  ref : RefState
  records : List (ℕ × Snapshot)

def scanRow (cv : RefConv κ ρ) (tauBurstNs tauVolNs : ℤ) (s : Scan ρ) (row : List κ × ℕ) :
    Option (Scan ρ) :=
  match parseMessage cv row.1 with
  | none => some s
  | some m => do
    let firstTsS := s.firstTsS.getD m.tS
    let tsNs ← cv.tsNs m.tS firstTsS
    match refAction m.typ m.size with
    | none => return { s with firstTsS := some firstTsS }
    | some (action, qty) =>
      let priceTicks ← cv.priceTicks m.price
      let side := if m.direction = 1 then 0 else 1
      let (ref, snapshot) := (refMachine tauBurstNs tauVolNs).step s.ref
        ⟨tsNs, ⟨priceTicks, qty, 0, side, action⟩⟩
      return { firstTsS := some firstTsS, ref := ref, records := s.records ++ [(row.2, snapshot)] }

/-- features.bin, its records in order; `none` where a conversion outside the try block raises. -/
def featuresFile (cv : RefConv κ ρ) (tauBurstNs tauVolNs : ℤ) (msgs : List (List κ)) :
    Option (List (ℕ × Snapshot)) :=
  (msgs.zipIdx.foldlM (scanRow cv tauBurstNs tauVolNs) ⟨none, .start, []⟩).map Scan.records

/-- `features[indices, :]`; `none` where an index is out of bounds. -/
def selectRowsByIndices {α : Type} (features : List α) (indices : List ℕ) : Option (List α) :=
  indices.mapM (features[·]?)

def rowMessage (row : Row ρ) : Message ρ :=
  ⟨row.tS, row.typ, row.size.toInt, row.price, row.direction⟩

/-- The conversions outside the try block are those of `conv`. -/
structure Total (cv : RefConv κ ρ) (conv : Conv ρ) : Prop where
  tsNs : ∀ t first, cv.tsNs t first = some (conv.tsNs t first)
  priceTicks : ∀ price, cv.priceTicks price = some (conv.priceTicks price)

def eventsFrom (conv : Conv ρ) : Option ρ → List (Row ρ) → List Event
  | none, rows => events conv rows
  | some firstTsS, rows => rows.filterMap (refEvent conv firstTsS)

theorem eventsFrom_cons (conv : Conv ρ) (first : Option ρ) (row : Row ρ) (rows : List (Row ρ)) :
    eventsFrom conv first (row :: rows) =
      (refEvent conv (first.getD row.tS) row).toList ++
        eventsFrom conv (some (first.getD row.tS)) rows := by
  cases first with
  | none =>
    simp only [eventsFrom, events, Option.getD_none, List.filterMap_cons]
    cases refEvent conv row.tS row <;> rfl
  | some firstTsS =>
    simp only [eventsFrom, Option.getD_some, List.filterMap_cons]
    cases refEvent conv firstTsS row <;> rfl

section Conversions

variable {cv : RefConv κ ρ} {conv : Conv ρ} (total : Total cv conv) (tauBurstNs tauVolNs : ℤ)
include total

theorem scanRow_total {msg : List κ × ℕ} {row : Row ρ}
    (parsed : parseMessage cv msg.1 = some (rowMessage row)) (s : Scan ρ) :
    let es := (refEvent conv (s.firstTsS.getD row.tS) row).toList
    ∃ s', scanRow cv tauBurstNs tauVolNs s msg = some s' ∧
      s'.firstTsS = some (s.firstTsS.getD row.tS) ∧
      s'.ref = (refMachine tauBurstNs tauVolNs).final s.ref es ∧
      s'.records.map Prod.snd =
        s.records.map Prod.snd ++ (refMachine tauBurstNs tauVolNs).outputs s.ref es := by
  unfold scanRow refEvent
  simp only [parsed, rowMessage, total.tsNs, total.priceTicks]
  cases refAction row.typ row.size.toInt with
  | none => exact ⟨_, rfl, rfl, rfl, (List.append_nil _).symm⟩
  | some delta =>
    refine ⟨_, rfl, rfl, rfl, ?_⟩
    rw [List.map_append]
    rfl

theorem scan_run {msgs : List (List κ × ℕ)} {rows : List (Row ρ)}
    (parsed : (msgs.map Prod.fst).filterMap (parseMessage cv) = rows.map rowMessage)
    (s : Scan ρ) :
    ∃ s', msgs.foldlM (scanRow cv tauBurstNs tauVolNs) s = some s' ∧
      s'.records.map Prod.snd = s.records.map Prod.snd ++
        (refMachine tauBurstNs tauVolNs).outputs s.ref (eventsFrom conv s.firstTsS rows) := by
  induction msgs generalizing rows s with
  | nil =>
    obtain rfl : rows = [] := by simpa using parsed.symm
    have ended : eventsFrom conv s.firstTsS [] = [] := by cases s.firstTsS <;> rfl
    rw [ended]
    exact ⟨s, rfl, (List.append_nil _).symm⟩
  | cons msg msgs ih =>
    rw [List.map_cons, List.filterMap_cons] at parsed
    rw [List.foldlM_cons]
    cases read : parseMessage cv msg.1 with
    | none =>
      rw [read] at parsed
      have skipped : scanRow cv tauBurstNs tauVolNs s msg = some s := by rw [scanRow, read]
      rw [skipped]
      exact ih parsed s
    | some m =>
      rw [read] at parsed
      obtain ⟨row, rows, rfl, rfl, later⟩ := List.map_eq_cons_iff.mp parsed.symm
      obtain ⟨next, scanned, first, ref, records⟩ := scanRow_total total tauBurstNs tauVolNs read s
      obtain ⟨s', run, shown⟩ := ih later.symm next
      rw [scanned]
      refine ⟨s', run, ?_⟩
      rw [shown, records, first, ref, eventsFrom_cons, Mealy.outputs_append, List.append_assoc]

theorem featuresFile_run {msgs : List (List κ)} {rows : List (Row ρ)}
    (parsed : msgs.filterMap (parseMessage cv) = rows.map rowMessage) :
    ∃ records, featuresFile cv tauBurstNs tauVolNs msgs = some records ∧
      records.map Prod.snd = run conv tauBurstNs tauVolNs rows := by
  have numbered : (msgs.zipIdx.map Prod.fst).filterMap (parseMessage cv) = rows.map rowMessage := by
    rw [List.zipIdx_map_fst, parsed]
  obtain ⟨s, scanned, shown⟩ :=
    scan_run total tauBurstNs tauVolNs numbered ⟨none, .start, []⟩
  refine ⟨s.records, ?_, shown⟩
  rw [featuresFile, scanned, Option.map_some]

end Conversions

def Accepted (cv : RefConv κ ρ) (row : List κ) : Prop :=
  ∃ m, parseMessage cv row = some m ∧ (refAction m.typ m.size).isSome

def acceptedRow (cv : RefConv κ ρ) (row : List κ) : Bool :=
  (parseMessage cv row).any (fun m => (refAction m.typ m.size).isSome)

theorem acceptedRow_iff {cv : RefConv κ ρ} {row : List κ} :
    acceptedRow cv row ↔ Accepted cv row := by
  rw [acceptedRow, Option.any_eq_true]
  rfl

def acceptedNumbers (cv : RefConv κ ρ) (rows : List (List κ × ℕ)) : List ℕ :=
  (rows.filter (fun row => acceptedRow cv row.1)).map Prod.snd

theorem scanRow_numbers {cv : RefConv κ ρ} {tauBurstNs tauVolNs : ℤ} {s s' : Scan ρ}
    {row : List κ × ℕ} (scanned : scanRow cv tauBurstNs tauVolNs s row = some s') :
    s'.records.map Prod.fst = s.records.map Prod.fst ++ acceptedNumbers cv [row] := by
  have numbers : acceptedNumbers cv [row] = if acceptedRow cv row.1 then [row.2] else [] := by
    rw [acceptedNumbers, List.filter_singleton]
    cases acceptedRow cv row.1 <;> rfl
  rw [numbers, acceptedRow]
  unfold scanRow at scanned
  cases parsed : parseMessage cv row.1 with
  | none =>
    rw [parsed] at scanned
    obtain rfl := Option.some.inj scanned
    simp
  | some m =>
    simp only [parsed, Option.bind_eq_bind, Option.bind_eq_some_iff] at scanned
    obtain ⟨tsNs, -, rest⟩ := scanned
    cases action : refAction m.typ m.size with
    | none =>
      rw [action] at rest
      obtain rfl := Option.some.inj rest
      simp [action]
    | some delta =>
      simp only [action, Option.bind_eq_some_iff] at rest
      obtain ⟨priceTicks, -, last⟩ := rest
      obtain rfl := Option.some.inj last
      simp [action]

theorem featuresFile_numbers {cv : RefConv κ ρ} {tauBurstNs tauVolNs : ℤ} {msgs : List (List κ)}
    {records : List (ℕ × Snapshot)}
    (produced : featuresFile cv tauBurstNs tauVolNs msgs = some records) :
    records.map Prod.fst = acceptedNumbers cv msgs.zipIdx := by
  obtain ⟨s, scanned, rfl⟩ := Option.map_eq_some_iff.mp produced
  change s.records.map Prod.fst = acceptedNumbers cv ([] ++ msgs.zipIdx)
  refine foldlM_invariant
    (I := fun before s => s.records.map Prod.fst = acceptedNumbers cv before) ?_ ?_ scanned
  · intro before row s s' numbers now
    rw [scanRow_numbers now, numbers]
    simp only [acceptedNumbers, List.filter_append, List.map_append]
  · rfl

theorem acceptedNumbers_cons (cv : RefConv κ ρ) (row : List κ) (msgs : List (List κ)) (first : ℕ) :
    acceptedNumbers cv ((row :: msgs).zipIdx first) =
      if acceptedRow cv row then first :: acceptedNumbers cv (msgs.zipIdx (first + 1))
      else acceptedNumbers cv (msgs.zipIdx (first + 1)) := by
  rw [List.zipIdx_cons, acceptedNumbers, List.filter_cons]
  split_ifs <;> rfl

theorem acceptedNumbers_ge {cv : RefConv κ ρ} {msgs : List (List κ)} {first r x : ℕ}
    (found : (acceptedNumbers cv (msgs.zipIdx first))[r]? = some x) : first + r ≤ x := by
  induction msgs generalizing first r with
  | nil => simp [acceptedNumbers] at found
  | cons row msgs ih =>
    rw [acceptedNumbers_cons] at found
    split_ifs at found with accepted
    · cases r with
      | zero =>
        obtain rfl : first = x := by simpa using found
        omega
      | succ r =>
        have later := ih found
        omega
    · have later := ih found
      omega

theorem acceptedNumbers_at_iff {cv : RefConv κ ρ} {msgs : List (List κ)} {first r : ℕ} :
    (acceptedNumbers cv (msgs.zipIdx first))[r]? = some (first + r) ↔
      r < msgs.length ∧ ∀ row ∈ msgs.take (r + 1), Accepted cv row := by
  induction msgs generalizing first r with
  | nil => simp [acceptedNumbers]
  | cons row msgs ih =>
    rw [List.take_succ_cons, List.forall_mem_cons, ← acceptedRow_iff, List.length_cons,
      acceptedNumbers_cons]
    split_ifs with accepted
    · cases r with
      | zero => simp [accepted]
      | succ r =>
        have shift : first + (r + 1) = first + 1 + r := by omega
        rw [List.getElem?_cons_succ, shift, ih]
        simp [accepted]
    · constructor
      · intro found
        have late := acceptedNumbers_ge found
        omega
      · intro all
        exact absurd all.2.1 accepted

theorem selectRowsByIndices_iff {α β : Type} {features : List α} {labels : List β} {index : β → ℕ}
    {R : β → α → Prop} :
    (∃ rows, selectRowsByIndices features (labels.map index) = some rows ∧
        List.Forall₂ R labels rows) ↔
      ∀ l ∈ labels, ∃ row, features[index l]? = some row ∧ R l row := by
  induction labels with
  | nil => simp [selectRowsByIndices]
  | cons l labels ih =>
    rw [List.forall_mem_cons, ← ih]
    simp only [selectRowsByIndices, List.map_cons, List.mapM_cons, Option.bind_eq_bind,
      Option.pure_def, Option.bind_eq_some_iff, Option.some.injEq]
    constructor
    · rintro ⟨rows, ⟨row, found, rest, selected, rfl⟩, related⟩
      obtain ⟨here, later⟩ := List.forall₂_cons.mp related
      exact ⟨⟨row, found, here⟩, rest, selected, later⟩
    · rintro ⟨⟨row, found, here⟩, rest, selected, later⟩
      exact ⟨row :: rest, ⟨row, found, rest, selected, rfl⟩, List.Forall₂.cons here later⟩

def OwnEvent (cv : RefConv κ ρ) (msgs : List (List κ)) (l : LabelRow ρ)
    (record : ℕ × Snapshot) : Prop :=
  record.1 = l.rowIndex ∧
    ∃ row, msgs[l.rowIndex]? = some row ∧ row[0]?.bind cv.float = some l.tsS

/-- Row `r` has a label: it is closed, on a move as large as the threshold. -/
def Labelled (cv : FieldConv κ ρ) (set : Settings ρ) (msgs obs : List (List κ)) (r : ℕ) : Prop :=
  ∃ k w e, DueQueue.release set.dueRow (validRows cv msgs obs) k = some (w, e) ∧ w.rowIndex = r ∧
    set.sumThreshold1e4 ≤ |e.midSum1e4 - w.midSum1e4|

theorem buildLabels_time {cv : FieldConv κ ρ} {set : Settings ρ} {msgs obs : List (List κ)}
    {l : LabelRow ρ} (written : l ∈ buildLabels cv set msgs obs) :
    ∃ row, msgs[l.rowIndex]? = some row ∧ row[0]?.bind cv.float = some l.tsS := by
  obtain ⟨k, label⟩ := mem_buildLabels.mp written
  obtain ⟨⟨w, e⟩, released, row⟩ := Option.bind_eq_some_iff.mp label
  obtain ⟨number, time, -⟩ := labelRow_some row
  obtain ⟨waiting, -⟩ := DueQueue.release_some released
  obtain ⟨msgRow, obRow, msgAt, -, read⟩ := mem_validRows (List.mem_of_getElem? waiting)
  rw [number, time]
  exact ⟨msgRow, msgAt, readPair_time read⟩

theorem labelled_iff {cv : FieldConv κ ρ} {set : Settings ρ} {msgs obs : List (List κ)} {r : ℕ} :
    Labelled cv set msgs obs r ↔ ∃ l ∈ buildLabels cv set msgs obs, l.rowIndex = r := by
  simp only [mem_buildLabels, labelOf, Option.bind_eq_some_iff, Labelled]
  constructor
  · rintro ⟨k, w, e, released, number, move⟩
    obtain ⟨l, row⟩ : ∃ l, labelRow set e.midSum1e4 w = some l := ⟨_, if_pos move⟩
    exact ⟨l, ⟨k, (w, e), released, row⟩, (labelRow_some row).1.trans number⟩
  · rintro ⟨l, ⟨k, ⟨w, e⟩, released, row⟩, number⟩
    obtain ⟨same, -, move⟩ := labelRow_some row
    exact ⟨k, w, e, released, same.symm.trans number, move⟩

/-- Every label meets the record of its own message exactly when features_ref skips no
message up to a labelled row. -/
theorem join_own_event_iff (cv : RefConv κ ρ) (tauBurstNs tauVolNs : ℤ) (set : Settings ρ)
    (msgs obs : List (List κ)) {records : List (ℕ × Snapshot)}
    (produced : featuresFile cv tauBurstNs tauVolNs msgs = some records) :
    (∃ rows, selectRowsByIndices records
          ((buildLabels cv.toFieldConv set msgs obs).map LabelRow.rowIndex) = some rows ∧
        List.Forall₂ (OwnEvent cv msgs) (buildLabels cv.toFieldConv set msgs obs) rows) ↔
      ∀ r, Labelled cv.toFieldConv set msgs obs r → ∀ row ∈ msgs.take (r + 1), Accepted cv row := by
  have numbers := featuresFile_numbers produced
  have record_iff (r : ℕ) : (∃ record, records[r]? = some record ∧ record.1 = r) ↔
      r < msgs.length ∧ ∀ row ∈ msgs.take (r + 1), Accepted cv row := by
    have place := @acceptedNumbers_at_iff _ _ cv msgs 0 r
    rwa [← numbers, List.getElem?_map, Option.map_eq_some_iff, Nat.zero_add] at place
  rw [selectRowsByIndices_iff]
  simp only [labelled_iff]
  constructor
  · rintro every r ⟨l, written, rfl⟩
    obtain ⟨record, found, own⟩ := every l written
    exact ((record_iff l.rowIndex).mp ⟨record, found, own.1⟩).2
  · intro accepted l written
    have time := buildLabels_time written
    obtain ⟨row, msgAt, -⟩ := id time
    have inside : l.rowIndex < msgs.length := (List.getElem?_eq_some_iff.mp msgAt).1
    obtain ⟨record, found, number⟩ :=
      (record_iff l.rowIndex).mpr ⟨inside, accepted l.rowIndex ⟨l, written, rfl⟩⟩
    exact ⟨record, found, number, time⟩

def exactConv : RefConv ℚ ℚ where
  float := some
  int q := if q.den = 1 then some q.num else none
  tsNs t first := some (Rounding.roundHalfEven ((t - first) * 10 ^ 9))
  priceTicks price := some (Rounding.roundHalfEven (price / (1 / 100)))

def defaults : Settings ℚ where
  due t start := decide (1 / 50 ≤ t - start)
  sumThreshold1e4 := 200

def quietRows : List (List ℚ) :=
  [[34200, 1, 16, 18, 5853300, 1], [34200 + 3 / 100, 1, 17, 5, 5853600, 1],
    [34201, 7, 0, 0, -1, -1]]

def haltedRows : List (List ℚ) :=
  [[34199, 7, 0, 0, -1, -1], [34200, 1, 16, 18, 5853300, 1],
    [34200 + 3 / 100, 1, 17, 5, 5853600, 1]]

def risingBook : List (List ℚ) :=
  [[5859400, 200, 5853300, 18], [5859700, 200, 5853300, 18], [5860000, 200, 5853300, 18]]

theorem quiet_labels :
    (buildLabels exactConv.toFieldConv defaults quietRows risingBook).map LabelRow.rowIndex =
      [0, 1] := by
  decide +kernel

theorem halted_labels :
    (buildLabels exactConv.toFieldConv defaults haltedRows risingBook).map LabelRow.rowIndex =
      [0, 1] := by
  decide +kernel

/-- Labels before the halt are joined right. -/
theorem join_own_event_iff_quiet :
    ∃ records, featuresFile exactConv 200000 2000000 quietRows = some records ∧
      ∃ rows, selectRowsByIndices records
          ((buildLabels exactConv.toFieldConv defaults quietRows risingBook).map
            LabelRow.rowIndex) = some rows ∧
        List.Forall₂ (OwnEvent exactConv quietRows)
          (buildLabels exactConv.toFieldConv defaults quietRows risingBook) rows := by
  have scanned : (featuresFile exactConv 200000 2000000 quietRows).isSome := by decide +kernel
  obtain ⟨records, produced⟩ := Option.isSome_iff_exists.mp scanned
  refine ⟨records, produced, (join_own_event_iff exactConv 200000 2000000 defaults quietRows
    risingBook produced).mpr fun r labelled row mem => ?_⟩
  obtain ⟨l, written, rfl⟩ := labelled_iff.mp labelled
  have number := List.mem_map_of_mem (f := LabelRow.rowIndex) written
  rw [quiet_labels] at number
  have early : row ∈ quietRows.take 2 := by
    refine List.take_subset_take_left _ ?_ mem
    simp only [List.mem_cons, List.not_mem_nil, or_false] at number
    omega
  have accepted : ∀ row ∈ quietRows.take 2, acceptedRow exactConv row := by decide +kernel
  exact acceptedRow_iff.mp (accepted row early)

/-- Behind the halt the first label takes the features of the next message. -/
theorem halt_shifts_features :
    ¬∀ (msgs obs : List (List ℚ)) (records : List (ℕ × Snapshot)),
      featuresFile exactConv 200000 2000000 msgs = some records →
      ∃ rows, selectRowsByIndices records
          ((buildLabels exactConv.toFieldConv defaults msgs obs).map LabelRow.rowIndex) =
            some rows ∧
        List.Forall₂ (OwnEvent exactConv msgs)
          (buildLabels exactConv.toFieldConv defaults msgs obs) rows := by
  intro always
  have scanned : (featuresFile exactConv 200000 2000000 haltedRows).map (·.map Prod.fst) =
      some [1, 2] := by decide +kernel
  obtain ⟨records, produced, numbers⟩ := Option.map_eq_some_iff.mp scanned
  have joined := selectRowsByIndices_iff.mp (always haltedRows risingBook records produced)
  have first : 0 ∈ (buildLabels exactConv.toFieldConv defaults haltedRows risingBook).map
      LabelRow.rowIndex := by
    rw [halted_labels]
    decide
  obtain ⟨l, written, zero⟩ := List.mem_map.mp first
  obtain ⟨record, found, own, -⟩ := joined l written
  have shifted : (records.map Prod.fst)[0]? = some 0 := by
    rw [List.getElem?_map, ← zero, found, Option.map_some, own]
  rw [numbers] at shifted
  exact absurd shifted (by decide)

end HftLatencyLab.LabelJoin
