import HftLatencyLab.ExactBook

/-! models/features_ref.py, which yields a snapshot for every LOBSTER message, and
the deltas replay-udp makes of the same messages. The fabric answers packets,
but its order flow and imbalance are those of the snapshot of the last message
it has seen. -/

namespace HftLatencyLab.FeaturesRef
open LobWire LobPacket FeatureMath FeaturePipeline PythonBook FeatureFeed ExactBook

variable {ρ : Type}

/-- The columns of a message the programs read; `ρ` stands for the doubles. -/
structure Row (ρ : Type) where
  tS : ρ
  typ : ℤ
  size : BitVec 32
  price : ρ
  direction : ℤ

structure Conv (ρ : Type) where
  /-- `int(round((t_s - first_ts_s) * 1e9))` -/
  tsNs : ρ → ρ → ℤ
  /-- `int(round(price / price_tick))` -/
  priceTicks : ρ → ℤ
  /-- `(int32_t)llround(price / price_tick)` -/
  llroundTicks : ρ → BitVec 32

def replayAction (typ : ℤ) (size : BitVec 32) : Option (BitVec 8 × BitVec 32) :=
  match typ with
  | 1 => some (1, size)
  | 2 => some (2, -size)
  | 3 => some (2, -size)
  | 4 => some (3, 0)
  | 5 => some (2, 0)
  | _ => none

def replayDelta (conv : Conv ρ) (row : Row ρ) : Option LobV1Delta :=
  (replayAction row.typ row.size).map (fun (action, qty) =>
    { priceTicks := conv.llroundTicks row.price
      qty := qty
      level := 0
      side := if row.direction = 1 then 0 else 1
      action := action
      reserved := 0 })

def refAction (typ size : ℤ) : Option (ℕ × ℤ) :=
  match typ with
  | 1 => some (1, size)
  | 2 => some (2, -size)
  | 3 => some (2, -size)
  | 4 => some (3, 0)
  | 5 => some (2, 0)
  | _ => none

structure Event where
  tsNs : ℤ
  delta : UnpackedDelta

def refEvent (conv : Conv ρ) (firstTsS : ρ) (row : Row ρ) : Option Event :=
  (refAction row.typ row.size.toInt).map (fun (action, qty) =>
    { tsNs := conv.tsNs row.tS firstTsS
      delta :=
        { priceTicks := conv.priceTicks row.price
          qty := qty
          level := 0
          side := if row.direction = 1 then 0 else 1
          action := action } })

/-- The accepted messages; the first row of all sets the origin of time. -/
def events (conv : Conv ρ) : List (Row ρ) → List Event
  | [] => []
  | row :: rows => (row :: rows).filterMap (refEvent conv row.tS)

structure RefState where
  bid : Vector Level 16
  ask : Vector Level 16
  ofi : ℤ
  burst : ℤ
  vol : ℤ
  lastT : Option ℤ
  midPrev : ℤ
deriving DecidableEq

def RefState.start : RefState where
  bid := emptySide
  ask := emptySide
  ofi := 0
  burst := 0
  vol := 0
  lastT := none
  midPrev := 0

structure Snapshot where
  tsNs : ℤ
  ofi : ℤ
  imbQ115 : ℤ
  burst : ℤ
  vol : ℤ
deriving DecidableEq

def clamp32 (x : ℤ) : ℤ := max (min x (2 ^ 31 - 1)) (-2 ^ 31)

def refBook (s : RefState) (d : UnpackedDelta) : RefState :=
  let sgn := if d.side = 0 then 1 else -1
  let amt := if d.action = 1 ∨ d.action = 2 then d.qty else 0
  { s with
    bid := bidAfter s.bid d
    ask := askAfter s.ask d
    ofi := clamp32 (s.ofi + sgn * amt) }

def refSnapshot (tauBurstNs tauVolNs : ℤ) (s : RefState) (tsNs : ℤ) : RefState × Snapshot :=
  let imbQ115 := imbalance (s.bid.get 0).q (s.ask.get 0).q
  let dt := match s.lastT with
    | none => 0
    | some last => max 0 (tsNs - last)
  let burst := s.burst - (s.burst * dt).fdiv tauBurstNs + 2 ^ 16
  let burst := max 0 (min burst 0xFFFFFFFF)
  let midNow := ((s.bid.get 0).p + (s.ask.get 0).p).fdiv 2
  let dp := |midNow - s.midPrev|
  let vol := s.vol + ((dp * 2 ^ 16 - s.vol) * dt).fdiv tauVolNs
  let vol := max 0 (min vol 0xFFFFFFFF)
  ({ s with burst := burst, vol := vol, lastT := some tsNs, midPrev := midNow },
   { tsNs := tsNs, ofi := s.ofi, imbQ115 := imbQ115, burst := burst, vol := vol })

def refMachine (tauBurstNs tauVolNs : ℤ) : Mealy RefState Event Snapshot where
  step s e := refSnapshot tauBurstNs tauVolNs (refBook s e.delta) e.tsNs

def run (conv : Conv ρ) (tauBurstNs tauVolNs : ℤ) (rows : List (Row ρ)) : List Snapshot :=
  (refMachine tauBurstNs tauVolNs).outputs .start (events conv rows)

def lastSnapshot (snapshots : List Snapshot) (n : ℕ) : Option Snapshot :=
  (snapshots.take n).getLast?

/-- The book after `n` accepted events, before any clamp to 32 bits. -/
def exactBook (conv : Conv ρ) (rows : List (Row ρ)) (n : ℕ) : Book :=
  Book.empty.after (((events conv rows).map Event.delta).take n)

theorem action_cases (typ : ℤ) (size : BitVec 32) :
    replayAction typ size = none ∧ refAction typ size.toInt = none ∨
      ∃ action qty exactQty, replayAction typ size = some (action, qty) ∧
        refAction typ size.toInt = some (action.toNat, exactQty) ∧ action.toNat < 4 ∧
        qty = BitVec.ofInt 32 exactQty ∧ -2 ^ 31 ≤ exactQty := by
  have low := BitVec.le_toInt size
  have high := BitVec.toInt_lt (x := size)
  have same : size = BitVec.ofInt 32 size.toInt := BitVec.ofInt_toInt.symm
  have minus : -size = BitVec.ofInt 32 (-size.toInt) := by rw [BitVec.ofInt_neg, ← same]
  unfold replayAction refAction
  split
  · exact Or.inr ⟨1, size, size.toInt, rfl, rfl, by decide, same, by omega⟩
  · exact Or.inr ⟨2, -size, -size.toInt, rfl, rfl, by decide, minus, by omega⟩
  · exact Or.inr ⟨2, -size, -size.toInt, rfl, rfl, by decide, minus, by omega⟩
  · exact Or.inr ⟨3, 0, 0, rfl, rfl, by decide, rfl, by decide⟩
  · exact Or.inr ⟨2, 0, 0, rfl, rfl, by decide, rfl, by decide⟩
  · exact Or.inl ⟨rfl, rfl⟩

theorem replayDelta_cases (conv : Conv ρ) (firstTsS : ρ) (row : Row ρ) :
    replayDelta conv row = none ∧ refEvent conv firstTsS row = none ∨
      ∃ d e, replayDelta conv row = some d ∧ refEvent conv firstTsS row = some e ∧
        WellFormed d ∧ Encodes d e.delta := by
  have side : (if row.direction = 1 then 0 else 1 : BitVec 8).toNat =
      if row.direction = 1 then 0 else 1 := by split <;> rfl
  rcases action_cases row.typ row.size with ⟨host, ref⟩ | ⟨action, qty, exactQty, host, ref, small,
    encoded, low⟩
  · rw [replayDelta, refEvent, host, ref]
    exact Or.inl ⟨rfl, rfl⟩
  · rw [replayDelta, refEvent, host, ref]
    refine Or.inr ⟨_, _, rfl, rfl, ⟨Nat.succ_pos 15, ?_, small⟩, ⟨rfl, side, rfl, encoded, low⟩⟩
    dsimp only
    split <;> decide

theorem encodesAll_rows (conv : Conv ρ) (firstTsS : ρ) (rows : List (Row ρ)) :
    EncodesAll (rows.filterMap (replayDelta conv))
      ((rows.filterMap (refEvent conv firstTsS)).map Event.delta) := by
  induction rows with
  | nil => exact List.Forall₂.nil
  | cons row rows ih =>
    rcases replayDelta_cases conv firstTsS row with ⟨host, ref⟩ | ⟨d, e, host, ref, wf, enc⟩
    · rw [List.filterMap_cons_none host, List.filterMap_cons_none ref]
      exact ih
    · rw [List.filterMap_cons_some host, List.filterMap_cons_some ref]
      exact List.Forall₂.cons ⟨wf, enc⟩ ih

theorem encodesAll_events (conv : Conv ρ) (rows : List (Row ρ)) :
    EncodesAll (rows.filterMap (replayDelta conv)) ((events conv rows).map Event.delta) := by
  cases rows with
  | nil => exact List.Forall₂.nil
  | cons row rows => exact encodesAll_rows conv row.tS (row :: rows)

def RefState.book (s : RefState) : Book where
  bid := s.bid
  ask := s.ask
  ofi := s.ofi

theorem refBook_book {s : RefState} {d : UnpackedDelta} (range : (s.book.delta d).InRange) :
    (refBook s d).book = s.book.delta d := by
  have amount : (if d.side = 0 then 1 else -1) *
      (if d.action = 1 ∨ d.action = 2 then d.qty else 0) = flow d := by
    unfold flow
    split_ifs <;> omega
  obtain ⟨lo, hi⟩ := range.ofi
  have idle : clamp32 (s.ofi + flow d) = s.ofi + flow d := by
    change -2 ^ 31 ≤ s.ofi + flow d at lo
    change s.ofi + flow d < 2 ^ 31 at hi
    unfold clamp32
    omega
  rw [RefState.book, refBook]
  dsimp only
  rw [amount, idle]
  rfl

theorem final_book (tauBurstNs tauVolNs : ℤ) (s : RefState) (es : List Event)
    (range : ∀ i, (s.book.after ((es.map Event.delta).take i)).InRange) :
    ((refMachine tauBurstNs tauVolNs).final s es).book = s.book.after (es.map Event.delta) := by
  induction es generalizing s with
  | nil => rfl
  | cons e es ih =>
    have one : ((refMachine tauBurstNs tauVolNs).next s e).book = s.book.delta e.delta :=
      refBook_book (range 1)
    have rest := ih ((refMachine tauBurstNs tauVolNs).next s e) (fun i => by
      rw [one]
      exact range (i + 1))
    rw [one] at rest
    exact rest

theorem lastSnapshot_book (conv : Conv ρ) (tauBurstNs tauVolNs : ℤ) (rows : List (Row ρ))
    (range : ∀ i, (exactBook conv rows i).InRange) (n : ℕ) :
    let last := lastSnapshot (run conv tauBurstNs tauVolNs rows) n
    last.elim 0 Snapshot.ofi = (exactBook conv rows n).ofi ∧
      last.elim 0 Snapshot.imbQ115 = (exactBook conv rows n).imbalance := by
  have book := final_book tauBurstNs tauVolNs .start ((events conv rows).take n) (fun i => by
    rw [List.map_take, List.take_take]
    exact range _)
  have ofi := (refMachine tauBurstNs tauVolNs).getLast?_outputs
    (v := fun s => s.book.ofi) (r := Snapshot.ofi) (fun _ _ => rfl) .start
    ((events conv rows).take n)
  have imbalance := (refMachine tauBurstNs tauVolNs).getLast?_outputs
    (v := fun s => s.book.imbalance) (r := Snapshot.imbQ115) (fun _ _ => rfl) .start
    ((events conv rows).take n)
  rw [book, List.map_take] at ofi imbalance
  rw [lastSnapshot, run, Mealy.outputs_take]
  exact ⟨ofi, imbalance⟩

theorem packFeatures_fields (f : Features) :
    (packFeatures f).extractLsb' 0 32 = f.ofiQ32 ∧
      (packFeatures f).extractLsb' 32 16 = f.tobImbQ115 := by
  have ofi := f.ofiQ32.isLt
  have imb := f.tobImbQ115.isLt
  constructor <;> apply BitVec.eq_of_toNat_eq <;>
    rw [BitVec.extractLsb'_toNat, Nat.shiftRight_eq_div_pow] <;>
    simp only [packFeatures, ByteOrder.toNat_append] <;> omega

/-- However the deltas of the messages are split, the `i`-th beat carries the order
flow and the imbalance of the snapshot of the last message sent so far. -/
theorem ofi_imbalance_agree (conv : Conv ρ) (tauBurstNs tauVolNs : ℤ) (rows : List (Row ρ))
    {ms : List Datagram} (split : ms.flatMap Datagram.deltas = rows.filterMap (replayDelta conv))
    (counts : ∀ m ∈ ms, m.deltas.length ≤ 128)
    (range : ∀ i, (exactBook conv rows i).InRange) :
    featWords none .powerOn (feedBeats ms) = (feedFeatures ms).map packFeatures ∧
      ∀ i (hi : i < (feedFeatures ms).length),
        let last := lastSnapshot (run conv tauBurstNs tauVolNs rows)
          ((ms.take (i + 1)).flatMap Datagram.deltas).length
        let word := packFeatures (feedFeatures ms)[i]
        (feedFeatures ms)[i].ofiQ32.toInt = last.elim 0 Snapshot.ofi ∧
          (feedFeatures ms)[i].tobImbQ115.toInt = last.elim 0 Snapshot.imbQ115 ∧
          (word.extractLsb' 0 32).toInt = last.elim 0 Snapshot.ofi ∧
          (word.extractLsb' 32 16).toInt = last.elim 0 Snapshot.imbQ115 := by
  refine ⟨featWords_feedBeats ms counts, fun i hi => ?_⟩
  have enc := encodesAll_events conv rows
  rw [← split] at enc
  obtain ⟨ofi, imbalance⟩ := lastSnapshot_book conv tauBurstNs tauVolNs rows range
    ((ms.take (i + 1)).flatMap Datagram.deltas).length
  obtain ⟨flow, imb⟩ := feed_refines enc range i hi
  obtain ⟨ofiBits, imbBits⟩ := packFeatures_fields (feedFeatures ms)[i]
  dsimp only
  rw [ofi, imbalance, ofiBits, imbBits]
  exact ⟨flow, imb, flow, imb⟩

def wholeUnits : Conv ℤ where
  tsNs t first := (t - first) * 1000000000
  priceTicks price := price
  llroundTicks price := BitVec.ofInt 32 price

def sampleRows : List (Row ℤ) :=
  [⟨34200, 1, 10, 5853, 1⟩, ⟨34200, 1, 30, 5860, -1⟩, ⟨34201, 3, 4, 5853, 1⟩, ⟨34201, 7, 0, -1, -1⟩]

def samplePackets : List Datagram :=
  [⟨true, 0, 1, [⟨5853, 10, 0, 0, 1, 0⟩, ⟨5860, 30, 0, 1, 1, 0⟩], by decide⟩,
    ⟨false, 1, 2, [], by decide⟩, ⟨false, 2, 3, [⟨5853, -4, 0, 0, 2, 0⟩], by decide⟩]

theorem ofi_imbalance_agree_sample :
    featWords none .powerOn (feedBeats samplePackets) =
        (feedFeatures samplePackets).map packFeatures ∧
      ∀ i (hi : i < (feedFeatures samplePackets).length),
        let last := lastSnapshot (run wholeUnits 200000 2000000 sampleRows)
          ((samplePackets.take (i + 1)).flatMap Datagram.deltas).length
        let word := packFeatures (feedFeatures samplePackets)[i]
        (feedFeatures samplePackets)[i].ofiQ32.toInt = last.elim 0 Snapshot.ofi ∧
          (feedFeatures samplePackets)[i].tobImbQ115.toInt = last.elim 0 Snapshot.imbQ115 ∧
          (word.extractLsb' 0 32).toInt = last.elim 0 Snapshot.ofi ∧
          (word.extractLsb' 32 16).toInt = last.elim 0 Snapshot.imbQ115 :=
  ofi_imbalance_agree wholeUnits 200000 2000000 sampleRows (by decide) (by decide)
    (Book.inRange_of_le (by decide +kernel))

end HftLatencyLab.FeaturesRef
