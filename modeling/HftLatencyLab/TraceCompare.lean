import HftLatencyLab.FeatureDump
import HftLatencyLab.FeaturesRef
import HftLatencyLab.ServerReply

/-! The two programs under tests that check a dump of counts and features against the CSV:
trace_compare.py keeps the quantities of level 0 itself and divides as Python does,
validate_features_offline.py takes the snapshots of features_ref.py. Both compare the first six
bytes, the order flow and the imbalance. -/

namespace HftLatencyLab.TraceCompare
open ByteOrder LobWire FeatureReply FeatureDump LobPacket PythonBook FeatureMath FeatureFeed
  ExactBook FeaturesRef ServerFallback

variable {ρ : Type}

/-- The quantities at level 0, which is all of the book that is ever looked at. -/
structure Trace where
  bid0Q : ℤ
  ask0Q : ℤ
  ofi : ℤ
  idx : ℕ

def Trace.start : Trace := ⟨0, 0, 0, 0⟩

/-- Any other type is taken for a submission. -/
def traceAction (typ size : ℤ) : ℕ × ℤ :=
  match typ with
  | 1 => (1, size)
  | 2 => (2, -size)
  | 3 => (2, -size)
  | 4 => (3, 0)
  | 5 => (2, 0)
  | _ => (1, size)

def bookQ (q : ℤ) (action : ℕ) (qty : ℤ) : ℤ :=
  let q :=
    if action = 0 then qty
    else if action = 1 then q + qty
    else if action = 2 then q + qty
    else if action = 3 then 0
    else q
  if q < 0 then 0 else q

def event (s : Trace) (row : Row ρ) : Trace :=
  let (action, qty) := traceAction row.typ row.size.toInt
  let side := if row.direction = 1 then 0 else 1
  let sgn : ℤ := if side = 0 then 1 else -1
  { bid0Q := if side = 0 then bookQ s.bid0Q action qty else s.bid0Q
    ask0Q := if side = 0 then s.ask0Q else bookQ s.ask0Q action qty
    ofi := if action = 1 ∨ action = 2 then clamp32 (s.ofi + sgn * qty) else s.ofi
    idx := s.idx + 1 }

/-- `cnt` rows from `idx` on; one that does not parse only counts. -/
def stepThrough (rows : List (Option (Row ρ))) : ℕ → Trace → Trace
  | 0, s => s
  | cnt + 1, s =>
    match rows[s.idx]? with
    | none => s
    | some none => stepThrough rows cnt { s with idx := s.idx + 1 }
    | some (some row) => stepThrough rows cnt (event s row)

def traceImbalance (bid0Q ask0Q : ℤ) : ℤ :=
  let den := bid0Q + ask0Q
  if den ≠ 0 then clamp16 (((bid0Q - ask0Q) * 2 ^ 15).fdiv den) else 0

def Trace.expected (s : Trace) : List Byte :=
  toBE 4 (BitVec.ofInt 32 s.ofi).toNat ++
    toBE 2 (BitVec.ofInt 16 (traceImbalance s.bid0Q s.ask0Q)).toNat

def mismatches (rows : List (Option (Row ρ))) (maxMismatches : ℕ) : Trace → ℕ → List Record → ℕ
  | _, found, [] => found
  | s, found, r :: records =>
    let s := stepThrough rows r.cnt s
    if r.rxFeat.take 6 ≠ s.expected then
      if found + 1 ≥ maxMismatches then found + 1
      else mismatches rows maxMismatches s (found + 1) records
    else mismatches rows maxMismatches s found records

/-- "OK", "FAIL", or none for a file of another length. -/
def verdict (rows : List (Option (Row ρ))) (maxMismatches : ℕ) (rx : List Byte) : Option Bool :=
  (traceCompare rx).map fun records =>
    decide (mismatches rows maxMismatches .start 0 records = 0)

/-- `struct.pack(">ihHII", ...)`, every field of which has been clamped to its range. -/
def feat (s : Snapshot) : List Byte :=
  toBE 4 (BitVec.ofInt 32 s.ofi).toNat ++ toBE 2 (BitVec.ofInt 16 s.imbQ115).toNat ++ toBE 2 0 ++
    toBE 4 (BitVec.ofInt 32 s.burst).toNat ++ toBE 4 (BitVec.ofInt 32 s.vol).toNat

/-- The loop of validate_features_offline.py, at the snapshots still to come. A record that finds
none, or asks for none, ends it. -/
def offlineMismatches : List Snapshot → ℕ → List Record → ℕ
  | _, mismatches, [] => mismatches
  | gen, mismatches, r :: records =>
    let mismatches := if gen.length < r.cnt then mismatches + 1 else mismatches
    match (gen.take r.cnt).getLast? with
    | none => mismatches
    | some lastFeat =>
      let mismatches :=
        if r.rxFeat.take 6 ≠ (feat lastFeat).take 6 then mismatches + 1 else mismatches
      offlineMismatches (gen.drop r.cnt) mismatches records

def offlineVerdict (conv : Conv ρ) (rows : List (Row ρ)) (rx : List Byte) : Option Bool :=
  (offline rx).map fun records =>
    decide (offlineMismatches (run conv 200000 2000000 rows) 0 records = 0)

def afterRecords (rows : List (Option (Row ρ))) (s : Trace) (records : List Record) : Trace :=
  records.foldl (fun s r => stepThrough rows r.cnt s) s

theorem mismatches_pos (rows : List (Option (Row ρ))) (maxMismatches : ℕ) (s : Trace) {found : ℕ}
    (some : 0 < found) (records : List Record) :
    0 < mismatches rows maxMismatches s found records := by
  induction records generalizing s found with
  | nil => exact some
  | cons r records ih =>
    rw [mismatches]
    split
    · split
      · exact Nat.succ_pos found
      · exact ih _ (Nat.succ_pos found)
    · exact ih _ some

theorem mismatches_eq_zero_iff (rows : List (Option (Row ρ))) (maxMismatches : ℕ) (s : Trace)
    (records : List Record) : mismatches rows maxMismatches s 0 records = 0 ↔
      ∀ i (hi : i < records.length), records[i].rxFeat.take 6 =
        (afterRecords rows s (records.take (i + 1))).expected := by
  induction records generalizing s with
  | nil => simp [mismatches]
  | cons r records ih =>
    have rest := ih (stepThrough rows r.cnt s)
    rw [mismatches]
    by_cases same : r.rxFeat.take 6 = (stepThrough rows r.cnt s).expected
    · rw [if_neg (not_not.mpr same), rest]
      constructor
      · intro later i hi
        cases i with
        | zero => exact same
        | succ i => exact later i (Nat.lt_of_succ_lt_succ hi)
      · exact fun every i hi => every (i + 1) (Nat.succ_lt_succ hi)
    · rw [if_pos same]
      have first : ¬∀ i (hi : i < (r :: records).length), (r :: records)[i].rxFeat.take 6 =
          (afterRecords rows s ((r :: records).take (i + 1))).expected :=
        fun every => same (every 0 (Nat.succ_pos _))
      refine iff_of_false ?_ first
      split
      · exact Nat.succ_ne_zero 0
      · exact (mismatches_pos rows maxMismatches _ one_pos records).ne'

theorem idx_event (s : Trace) (row : Row ρ) : (event s row).idx = s.idx + 1 := rfl

theorem idx_foldl (s : Trace) (rows : List (Row ρ)) :
    (rows.foldl event s).idx = s.idx + rows.length := by
  induction rows generalizing s with
  | nil => rfl
  | cons row rows ih =>
    rw [List.foldl_cons, ih, idx_event, List.length_cons]
    omega

theorem stepThrough_taken (rows : List (Row ρ)) (k cnt : ℕ) :
    stepThrough (rows.map some) cnt ((rows.take k).foldl event .start) =
      (rows.take (k + cnt)).foldl event .start := by
  induction cnt generalizing k with
  | zero => rfl
  | succ cnt ih =>
    have idx : ((rows.take k).foldl event .start).idx = min k rows.length := by
      rw [idx_foldl, List.length_take]
      exact Nat.zero_add _
    by_cases inside : k < rows.length
    · have row : (rows.map some)[((rows.take k).foldl event .start).idx]? =
          some (some rows[k]) := by
        rw [idx, min_eq_left inside.le, List.getElem?_map, List.getElem?_eq_getElem inside]
        rfl
      have more : event ((rows.take k).foldl event .start) rows[k] =
          (rows.take (k + 1)).foldl event .start := by
        rw [List.take_succ_eq_append_getElem inside, List.foldl_append]
        rfl
      rw [stepThrough, row]
      dsimp only
      rw [more, ih (k + 1), Nat.add_right_comm, Nat.add_assoc]
    · have row : (rows.map some)[((rows.take k).foldl event .start).idx]? = none := by
        rw [idx, min_eq_right (by omega)]
        exact List.getElem?_eq_none (by rw [List.length_map])
      rw [stepThrough, row, List.take_of_length_le (by omega), List.take_of_length_le (by omega)]

def counted (records : List Record) (n : ℕ) : ℕ := ((records.take n).map Record.cnt).sum

theorem afterRecords_taken (rows : List (Row ρ)) (records : List Record) :
    afterRecords (rows.map some) .start records =
      (rows.take (records.map Record.cnt).sum).foldl event .start := by
  induction records using List.reverseRecOn with
  | nil => rfl
  | append_singleton records r ih =>
    rw [List.map_append, List.sum_append, List.map_singleton, List.sum_singleton, afterRecords,
      List.foldl_append]
    change stepThrough (rows.map some) r.cnt (afterRecords (rows.map some) .start records) = _
    rw [ih, stepThrough_taken]

theorem counted_le (records : List Record) (n : ℕ) :
    counted records n ≤ (records.map Record.cnt).sum := by
  rw [counted, List.map_take]
  exact List.Sublist.sum_le_sum (List.take_sublist _ _) fun _ _ => Nat.zero_le _

theorem counted_pos {records : List Record} (counts : ∀ r ∈ records, 0 < r.cnt) {i : ℕ}
    (hi : i < records.length) : 0 < counted records (i + 1) := by
  have pos := counts _ (List.getElem_mem hi)
  rw [counted, List.take_succ_eq_append_getElem hi, List.map_append, List.sum_append,
    List.map_singleton, List.sum_singleton]
  omega

theorem offlineMismatches_pos (gen : List Snapshot) {mismatches : ℕ} (some : 0 < mismatches)
    (records : List Record) : 0 < offlineMismatches gen mismatches records := by
  induction records generalizing gen mismatches with
  | nil => exact some
  | cons r records ih =>
    have more (c : Prop) [Decidable c] {n : ℕ} (pos : 0 < n) : 0 < if c then n + 1 else n := by
      split
      · exact Nat.succ_pos n
      · exact pos
    rw [offlineMismatches]
    dsimp only
    split
    · exact more _ some
    · exact ih _ (more _ (more _ some))

theorem lastSnapshot_drop {gen : List Snapshot} {c n : ℕ} (pos : 0 < n) (inside : c < gen.length) :
    lastSnapshot (gen.drop c) n = lastSnapshot gen (c + n) := by
  have here : (gen.drop c).take n ≠ [] := by
    intro none
    have := congrArg List.length none
    rw [List.length_take, List.length_drop, List.length_nil] at this
    omega
  rw [lastSnapshot, lastSnapshot, List.take_add, List.getLast?_append_of_ne_nil _ here]

/-- The offline check finds nothing if there are as many messages as the records count, and every
record has the snapshot of the last one it counts. -/
theorem offlineMismatches_eq_zero_iff {records : List Record} (counts : ∀ r ∈ records, 0 < r.cnt)
    (gen : List Snapshot) : offlineMismatches gen 0 records = 0 ↔
      (records.map Record.cnt).sum ≤ gen.length ∧
        ∀ i (hi : i < records.length), ∃ last,
          lastSnapshot gen (counted records (i + 1)) = some last ∧
            records[i].rxFeat.take 6 = (feat last).take 6 := by
  induction records generalizing gen with
  | nil => simp [offlineMismatches]
  | cons r records ih =>
    have pos := counts r List.mem_cons_self
    have counts' : ∀ r ∈ records, 0 < r.cnt := fun r mem => counts r (List.mem_cons_of_mem _ mem)
    have rest := ih counts' (gen.drop r.cnt)
    have first : counted (r :: records) 1 = r.cnt := by simp [counted]
    rw [offlineMismatches, List.map_cons, List.sum_cons]
    dsimp only
    by_cases short : gen.length < r.cnt
    · refine iff_of_false ?_ (by omega)
      rw [if_pos short]
      split
      · exact Nat.succ_ne_zero 0
      · refine (offlineMismatches_pos _ ?_ records).ne'
        split <;> omega
    · have here : gen.take r.cnt ≠ [] := by
        intro none
        have := congrArg List.length none
        rw [List.length_take, List.length_nil] at this
        omega
      have last : lastSnapshot gen r.cnt = some ((gen.take r.cnt).getLast here) :=
        List.getLast?_eq_some_getLast here
      generalize (gen.take r.cnt).getLast here = lastFeat at last
      have found : (gen.take r.cnt).getLast? = some lastFeat := last
      rw [if_neg short, found]
      dsimp only
      by_cases same : r.rxFeat.take 6 = (feat lastFeat).take 6
      · rw [if_neg (not_not.mpr same), rest, List.length_drop]
        have later (i : ℕ) (hi : i < records.length)
            (enough : r.cnt + (records.map Record.cnt).sum ≤ gen.length) :
            lastSnapshot (gen.drop r.cnt) (counted records (i + 1)) =
              lastSnapshot gen (counted (r :: records) (i + 2)) := by
          have some := counted_pos counts' hi
          have part := counted_le records (i + 1)
          rw [lastSnapshot_drop some (by omega)]
          rfl
        constructor
        · rintro ⟨enough, every⟩
          refine ⟨by omega, fun i hi => ?_⟩
          cases i with
          | zero =>
            rw [first]
            exact ⟨lastFeat, last, same⟩
          | succ i =>
            have inside := Nat.lt_of_succ_lt_succ hi
            rw [← later i inside (by omega)]
            exact every i inside
        · rintro ⟨enough, every⟩
          refine ⟨by omega, fun i hi => ?_⟩
          rw [later i hi enough]
          exact every (i + 1) (Nat.succ_lt_succ hi)
      · refine iff_of_false ?_ fun ⟨_, every⟩ => ?_
        · rw [if_pos same]
          exact (offlineMismatches_pos _ one_pos records).ne'
        · obtain ⟨last', here', matched⟩ := every 0 (Nat.succ_pos _)
          rw [first, last, Option.some.injEq] at here'
          exact same (here' ▸ matched)

structure Holds (s : Trace) (r : RefState) : Prop where
  bid : s.bid0Q = (r.bid.get 0).q
  ask : s.ask0Q = (r.ask.get 0).q
  ofi : s.ofi = r.ofi
  bidNonneg : 0 ≤ s.bid0Q
  askNonneg : 0 ≤ s.ask0Q
  int32 : -2 ^ 31 ≤ s.ofi ∧ s.ofi ≤ 2 ^ 31 - 1

theorem traceAction_of_refAction {typ size : ℤ} {action : ℕ} {qty : ℤ}
    (accepted : refAction typ size = some (action, qty)) :
    traceAction typ size = (action, qty) := by
  unfold refAction at accepted
  split at accepted
  · cases accepted
    rfl
  · cases accepted
    rfl
  · cases accepted
    rfl
  · cases accepted
    rfl
  · cases accepted
    rfl
  · cases accepted

theorem bookQ_eq (l : Level) (d : UnpackedDelta) :
    bookQ l.q d.action d.qty = (l.apply d).clamp.q := by
  rw [clamp_q, apply_q, bookQ]
  split_ifs <;> omega

theorem bookQ_nonneg (q : ℤ) (action : ℕ) (qty : ℤ) : 0 ≤ bookQ q action qty := by
  unfold bookQ
  dsimp only
  split_ifs <;> omega

theorem Holds.delta {s : Trace} {r : RefState} (holds : Holds s r) {e : UnpackedDelta}
    (level : e.level = 0) (idx : ℕ) :
    Holds
      { bid0Q := if e.side = 0 then bookQ s.bid0Q e.action e.qty else s.bid0Q
        ask0Q := if e.side = 0 then s.ask0Q else bookQ s.ask0Q e.action e.qty
        ofi :=
          if e.action = 1 ∨ e.action = 2 then
            clamp32 (s.ofi + (if e.side = 0 then 1 else -1) * e.qty)
          else s.ofi
        idx := idx } (refBook r e) := by
  obtain ⟨bid, ask, ofi, bidNonneg, askNonneg, low, high⟩ := holds
  have quantity (side : Vector Level 16) :
      ((setLevel side e.level fun l => (l.apply e).clamp).get 0).q =
        bookQ (side.get 0).q e.action e.qty := by
    rw [setLevel_get, level]
    exact (bookQ_eq (side.get 0) e).symm
  constructor
  · change _ = ((bidAfter r.bid e).get 0).q
    unfold bidAfter
    by_cases isBid : e.side = 0
    · simp only [isBid, if_true, quantity, bid]
    · simp only [isBid, if_false, bid]
  · change _ = ((askAfter r.ask e).get 0).q
    unfold askAfter
    by_cases isBid : e.side = 0
    · simp only [isBid, if_true, ask]
    · simp only [isBid, if_false, quantity, ask]
  · dsimp only [refBook]
    rw [← ofi]
    by_cases counts : e.action = 1 ∨ e.action = 2
    · simp only [counts, if_true]
    · -- a deletion counts nothing, and the clamp of the snapshots is idle
      simp only [counts, if_false, mul_zero, add_zero, clamp32]
      omega
  · dsimp only
    split
    · exact bookQ_nonneg _ _ _
    · exact bidNonneg
  · dsimp only
    split
    · exact askNonneg
    · exact bookQ_nonneg _ _ _
  · dsimp only
    split
    · unfold clamp32
      omega
    · exact ⟨low, high⟩

theorem Holds.event {s : Trace} {r : RefState} (holds : Holds s r) {conv : Conv ρ} {firstTsS : ρ}
    {row : Row ρ} {e : Event} (accepted : refEvent conv firstTsS row = some e) (tauB tauV : ℤ) :
    Holds (event s row) ((refMachine tauB tauV).next r e) := by
  obtain ⟨⟨action, qty⟩, ref, rfl⟩ := Option.map_eq_some_iff.mp accepted
  have traced := traceAction_of_refAction ref
  have next := holds.delta (e := ⟨conv.priceTicks row.price, qty, 0,
    if row.direction = 1 then 0 else 1, action⟩) rfl (s.idx + 1)
  unfold TraceCompare.event
  rw [traced]
  exact ⟨next.bid, next.ask, next.ofi, next.bidNonneg, next.askNonneg, next.int32⟩

def Accepts (conv : Conv ρ) (row : Row ρ) (e : Event) : Prop :=
  ∃ firstTsS, refEvent conv firstTsS row = some e

theorem Holds.foldl {conv : Conv ρ} {rows : List (Row ρ)} {es : List Event}
    (accepted : List.Forall₂ (Accepts conv) rows es) (tauB tauV : ℤ) {s : Trace} {r : RefState}
    (holds : Holds s r) :
    Holds (rows.foldl TraceCompare.event s) ((refMachine tauB tauV).final r es) := by
  induction accepted generalizing s r with
  | nil => exact holds
  | cons head _ ih =>
    obtain ⟨firstTsS, accepted⟩ := head
    exact ih (holds.event accepted tauB tauV)

theorem accepts_events (conv : Conv ρ) {rows : List (Row ρ)}
    (messages : ∀ row ∈ rows, 1 ≤ row.typ ∧ row.typ ≤ 5) :
    List.Forall₂ (Accepts conv) rows (events conv rows) := by
  have all (firstTsS : ρ) (rows : List (Row ρ))
      (messages : ∀ row ∈ rows, 1 ≤ row.typ ∧ row.typ ≤ 5) :
      List.Forall₂ (Accepts conv) rows (rows.filterMap (refEvent conv firstTsS)) := by
    induction rows with
    | nil => exact List.Forall₂.nil
    | cons row rows ih =>
      have rest := ih fun row' mem => messages row' (List.mem_cons_of_mem row mem)
      obtain ⟨low, high⟩ := messages row List.mem_cons_self
      have known : (refAction row.typ row.size.toInt).isSome := by
        have typ : row.typ = 1 ∨ row.typ = 2 ∨ row.typ = 3 ∨ row.typ = 4 ∨ row.typ = 5 := by omega
        rcases typ with typ | typ | typ | typ | typ <;> rw [typ] <;> rfl
      obtain ⟨acted, ref⟩ := Option.isSome_iff_exists.mp known
      obtain ⟨e, accepted⟩ : ∃ e, refEvent conv firstTsS row = some e := by
        rw [refEvent, ref]
        exact ⟨_, rfl⟩
      rw [List.filterMap_cons_some accepted]
      exact List.Forall₂.cons ⟨firstTsS, accepted⟩ rest
  cases rows with
  | nil => exact List.Forall₂.nil
  | cons row rows => exact all row.tS (row :: rows) messages

theorem length_run (conv : Conv ρ) {rows : List (Row ρ)}
    (messages : ∀ row ∈ rows, 1 ≤ row.typ ∧ row.typ ≤ 5) (tauB tauV : ℤ) :
    (run conv tauB tauV rows).length = rows.length := by
  rw [run, Mealy.length_outputs, ← (accepts_events conv messages).length_eq]

theorem traceImbalance_eq {b a : ℤ} (hb : 0 ≤ b) (ha : 0 ≤ a) :
    traceImbalance b a = psImbalance b a := by
  unfold traceImbalance psImbalance clamp16
  dsimp only
  have scale : (2 : ℤ) ^ 15 = 32768 := by norm_num
  rw [scale]
  split_ifs <;> omega

def Exact (s : Trace) : Prop :=
  s.ask0Q ≤ s.bid0Q ∨ s.bid0Q + s.ask0Q ∣ (s.bid0Q - s.ask0Q) * 32768

instance (s : Trace) : Decidable (Exact s) := inferInstanceAs (Decidable (_ ∨ _))

theorem toBE_inj {n x y : ℕ} (hx : x < 256 ^ n) (hy : y < 256 ^ n) :
    toBE n x = toBE n y ↔ x = y := by
  refine ⟨fun same => ?_, fun same => by rw [same]⟩
  rw [← ofBE_toBE hx, same, ofBE_toBE hy]

theorem take_feat (s : Snapshot) : (feat s).take 6 =
    toBE 4 (BitVec.ofInt 32 s.ofi).toNat ++ toBE 2 (BitVec.ofInt 16 s.imbQ115).toNat := by
  simp [feat, List.take_append, List.take_of_length_le]

theorem imbalance_int16 (b a : ℤ) : -2 ^ 15 ≤ imbalance b a ∧ imbalance b a < 2 ^ 15 := by
  unfold imbalance clamp16
  dsimp only
  split_ifs <;> omega

theorem expected_iff {s : Trace} {r : RefState} (holds : Holds s r) {last : Snapshot}
    (ofi : last.ofi = r.ofi) (imb : last.imbQ115 = imbalance (r.bid.get 0).q (r.ask.get 0).q) :
    (feat last).take 6 = s.expected ↔ Exact s := by
  obtain ⟨bid, ask, flow, bidNonneg, askNonneg, -⟩ := holds
  obtain ⟨low, high⟩ := ServerReply.psImbalance_int16 s.bid0Q s.ask0Q
  obtain ⟨low', high'⟩ := imbalance_int16 s.bid0Q s.ask0Q
  rw [take_feat, Trace.expected, ofi, imb, ← flow, ← bid, ← ask, List.append_cancel_left_eq,
    traceImbalance_eq bidNonneg askNonneg, toBE_inj (BitVec.isLt _) (BitVec.isLt _),
    BitVec.toNat_inj, ← BitVec.toInt_inj, BitVec.toInt_ofInt_eq_self (by norm_num) low' high',
    BitVec.toInt_ofInt_eq_self (by norm_num) low high, eq_comm]
  exact psImbalance_eq_iff bidNonneg askNonneg

theorem lastSnapshot_iff {conv : Conv ρ} {rows : List (Row ρ)}
    (messages : ∀ row ∈ rows, 1 ≤ row.typ ∧ row.typ ≤ 5) {tauB tauV : ℤ} {n : ℕ} {last : Snapshot}
    (shown : lastSnapshot (run conv tauB tauV rows) n = some last) :
    (feat last).take 6 = ((rows.take n).foldl TraceCompare.event .start).expected ↔
      Exact ((rows.take n).foldl TraceCompare.event .start) := by
  have start : Holds .start .start := ⟨rfl, rfl, rfl, le_rfl, le_rfl, by decide⟩
  have holds := start.foldl (List.forall₂_take n (accepts_events conv messages)) tauB tauV
  have ofi := (refMachine tauB tauV).getLast?_outputs (v := RefState.ofi) (r := Snapshot.ofi)
    (fun _ _ => rfl) .start ((events conv rows).take n)
  have imb := (refMachine tauB tauV).getLast?_outputs
    (v := fun s => imbalance (s.bid.get 0).q (s.ask.get 0).q) (r := Snapshot.imbQ115)
    (fun _ _ => rfl) .start ((events conv rows).take n)
  rw [lastSnapshot, run, Mealy.outputs_take] at shown
  rw [shown] at ofi imb
  exact expected_iff holds ofi imb

section Dump

variable {rows : List (Row ρ)} {records : List Record} {rx : List Byte}
  (messages : ∀ row ∈ rows, 1 ≤ row.typ ∧ row.typ ≤ 5) (read : countedRecords rx = some records)

def afterRecord (rows : List (Row ρ)) (records : List Record) (i : ℕ) : Trace :=
  (rows.take (counted records (i + 1))).foldl event .start

include read

theorem verdict_iff (maxMismatches : ℕ) :
    verdict (rows.map some) maxMismatches rx = some true ↔
      ∀ i (hi : i < records.length),
        records[i].rxFeat.take 6 = (afterRecord rows records i).expected := by
  rw [verdict, traceCompare, read, Option.map_some, Option.some.injEq, decide_eq_true_iff,
    mismatches_eq_zero_iff]
  simp only [afterRecords_taken]
  rfl

include messages

theorem offlineVerdict_iff (counts : ∀ r ∈ records, 0 < r.cnt) (conv : Conv ρ) :
    offlineVerdict conv rows rx = some true ↔
      (records.map Record.cnt).sum ≤ rows.length ∧
        ∀ i (hi : i < records.length), ∃ last,
          lastSnapshot (run conv 200000 2000000 rows) (counted records (i + 1)) = some last ∧
            records[i].rxFeat.take 6 = (feat last).take 6 := by
  rw [offlineVerdict, offline, read, Option.map_some, Option.some.injEq, decide_eq_true_iff,
    offlineMismatches_eq_zero_iff counts, length_run conv messages]

/-- Where one of the two programs passes a file, so does the other, unless an imbalance below zero
is rounded: trace_compare.py rounds it down and the snapshots round it towards zero. A file that
counts more messages than there are is passed by trace_compare.py alone. -/
theorem checks_agree_iff (counts : ∀ r ∈ records, 0 < r.cnt) (conv : Conv ρ) (maxMismatches : ℕ) :
    let exact := ∀ i < records.length, Exact (afterRecord rows records i)
    (offlineVerdict conv rows rx = some true →
        (verdict (rows.map some) maxMismatches rx = some true ↔ exact)) ∧
      (verdict (rows.map some) maxMismatches rx = some true →
        (offlineVerdict conv rows rx = some true ↔
          (records.map Record.cnt).sum ≤ rows.length ∧ exact)) := by
  intro exact
  rw [verdict_iff read, offlineVerdict_iff messages read counts]
  constructor
  · rintro ⟨-, shown⟩
    refine forall₂_congr fun i hi => ?_
    obtain ⟨last, snapshot, matched⟩ := shown i hi
    rw [matched]
    exact lastSnapshot_iff messages snapshot
  · intro expected
    refine and_congr_right fun enough => forall₂_congr fun i hi => ?_
    obtain ⟨last, snapshot⟩ : ∃ last, lastSnapshot (run conv 200000 2000000 rows)
        (counted records (i + 1)) = some last := by
      have some := counted_pos counts hi
      have part := counted_le records (i + 1)
      have long := length_run conv messages 200000 2000000
      have here : (run conv 200000 2000000 rows).take (counted records (i + 1)) ≠ [] := by
        intro none
        have := congrArg List.length none
        rw [List.length_take, List.length_nil] at this
        omega
      exact ⟨_, List.getLast?_eq_some_getLast here⟩
    have same := lastSnapshot_iff messages snapshot
    rw [snapshot, expected i hi]
    constructor
    · rintro ⟨last', here, matched⟩
      cases here
      exact same.mp matched.symm
    · exact fun whole => ⟨last, rfl, (same.mpr whole).symm⟩

end Dump

def ownSnapshots : List Byte :=
  (run wholeUnits 200000 2000000 (sampleRows.take 3)).flatMap fun s => toBE 2 1 ++ feat s

theorem ownSnapshots_rejected :
    offlineVerdict wholeUnits (sampleRows.take 3) ownSnapshots = some true ∧
      verdict ((sampleRows.take 3).map some) 1 ownSnapshots ≠ some true := by
  have passed : offlineVerdict wholeUnits (sampleRows.take 3) ownSnapshots = some true := by
    decide +kernel
  obtain ⟨records, read⟩ : ∃ records, countedRecords ownSnapshots = some records ∧
      (∀ r ∈ records, 0 < r.cnt) ∧ records.length = 3 ∧
        ¬Exact (afterRecord (sampleRows.take 3) records 2) := by
    refine ⟨_, rfl, ?_⟩
    decide +kernel
  obtain ⟨read, counts, three, rounded⟩ := read
  refine ⟨passed, fun passes => rounded ?_⟩
  exact ((checks_agree_iff (by decide) read counts wholeUnits 1).1 passed).mp passes 2 (by omega)

end HftLatencyLab.TraceCompare
