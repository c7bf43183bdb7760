import HftLatencyLab.FeatureFeed

/-! The book in unbounded integers, which is what the software references hold.
The fabric refines it for as long as its numbers are int32, whatever packets the
deltas come in. -/

namespace HftLatencyLab.ExactBook
open LobWire LobPacket FeatureBook FeatureMath FeaturePipeline TopOfBook PythonBook FeatureFeed
  FixedWidth

structure Book where
  bid : Vector Level 16
  ask : Vector Level 16
  ofi : ℤ
deriving DecidableEq

def flow (e : UnpackedDelta) : ℤ :=
  if e.action = 1 ∨ e.action = 2 then if e.side = 0 then e.qty else -e.qty else 0

namespace Book

def empty : Book where
  bid := emptySide
  ask := emptySide
  ofi := 0

def delta (b : Book) (e : UnpackedDelta) : Book where
  bid := bidAfter b.bid e
  ask := askAfter b.ask e
  ofi := b.ofi + flow e

def after (b : Book) (es : List UnpackedDelta) : Book := es.foldl delta b

def imbalance (b : Book) : ℤ := PythonBook.imbalance (b.bid.get 0).q (b.ask.get 0).q

structure InRange (b : Book) : Prop where
  ofi : -2 ^ 31 ≤ b.ofi ∧ b.ofi < 2 ^ 31
  bid : ∀ k, (b.bid.get k).q < 2 ^ 31
  ask : ∀ k, (b.ask.get k).q < 2 ^ 31

instance (b : Book) : Decidable b.InRange :=
  decidable_of_iff ((-2 ^ 31 ≤ b.ofi ∧ b.ofi < 2 ^ 31) ∧ (∀ k, (b.bid.get k).q < 2 ^ 31) ∧
      ∀ k, (b.ask.get k).q < 2 ^ 31)
    ⟨fun ⟨o, hb, ha⟩ => ⟨o, hb, ha⟩, fun h => ⟨h.ofi, h.bid, h.ask⟩⟩

theorem inRange_of_le {b : Book} {es : List UnpackedDelta}
    (range : ∀ i ≤ es.length, (b.after (es.take i)).InRange) (i : ℕ) :
    (b.after (es.take i)).InRange := by
  rcases le_total i es.length with inside | past
  · exact range i inside
  · have whole := range es.length le_rfl
    rw [List.take_length] at whole
    rw [List.take_of_length_le past]
    exact whole

end Book

structure Tracks (r : Regs) (b : Book) : Prop where
  kept : BookKept r
  bid : QtyTracks r.bid b.bid
  ask : QtyTracks r.ask b.ask
  ofi : r.ofiAccum.toInt = b.ofi

theorem tracks_powerOn : Tracks .powerOn .empty where
  kept := idle_powerOn.book
  bid := qtyTracks_empty
  ask := qtyTracks_empty
  ofi := rfl

theorem qtyFits_of_range {levels : Vector Level 16} {e : UnpackedDelta} (low : -2 ^ 31 ≤ e.qty)
    (nonneg : ∀ k, 0 ≤ (levels.get k).q)
    (range : ∀ k, ((setLevel levels e.level (fun l => (l.apply e).clamp)).get k).q < 2 ^ 31) :
    QtyFits levels e := by
  intro k here
  have old := nonneg k
  have new := range k
  rw [setLevel_get, if_pos here, clamp_q] at new
  refine ⟨?_, lt_of_le_of_lt (le_max_right _ _) new⟩
  rw [apply_q]
  split_ifs <;> omega

theorem updateOfi_toInt {d : LobV1Delta} (wf : WellFormed d) {e : UnpackedDelta}
    (enc : Encodes d e) (t : BitVec 64) (last : Bool) {ofi : BitVec 32}
    (lo : -2 ^ 31 ≤ ofi.toInt + flow e) (hi : ofi.toInt + flow e < 2 ^ 31) :
    (updateOfi (parsedDelta d t last) ofi).toInt = ofi.toInt + flow e := by
  have add := parsed_action wf t last 1
  have update := parsed_action wf t last 2
  have side := parsed_side wf t last
  have qty : (parsedDelta d t last).qty = BitVec.ofInt 32 e.qty := enc.qty
  have sameAction : d.unpacked.action = e.action := enc.action
  have sameSide : d.unpacked.side = e.side := enc.side
  have counts : (parsedDelta d t last).action = 1 ∨ (parsedDelta d t last).action = 2 ↔
      e.action = 1 ∨ e.action = 2 := by
    rw [add, update, sameAction]
    rfl
  rw [sameSide] at side
  unfold flow at lo hi ⊢
  unfold updateOfi
  by_cases counted : e.action = 1 ∨ e.action = 2
  · rw [if_pos counted] at lo hi ⊢
    rw [if_pos (counts.mpr counted)]
    by_cases isBid : e.side = 0
    · rw [if_pos isBid] at lo hi ⊢
      rw [if_pos (side.mpr isBid), qty, toInt_add_ofInt lo hi]
    · rw [if_neg isBid] at lo hi ⊢
      rw [if_neg (fun h => isBid (side.mp h)), qty, toInt_sub_ofInt lo hi, sub_eq_add_neg]
  · rw [if_neg counted, if_neg (fun h => counted (counts.mp h)), add_zero]

theorem Tracks.delta {r : Regs} {b : Book} (h : Tracks r b) {d : LobV1Delta} (wf : WellFormed d)
    {e : UnpackedDelta} (enc : Encodes d e) (t : BitVec 64) (last : Bool)
    (range : (b.delta e).InRange) : Tracks (updateBook r (parsedDelta d t last)) (b.delta e) := by
  have bidNonneg : ∀ k, 0 ≤ (b.bid.get k).q := fun k => h.bid k ▸ h.kept.bidQty k
  have askNonneg : ∀ k, 0 ≤ (b.ask.get k).q := fun k => h.ask k ▸ h.kept.askQty k
  have fits : if e.side = 0 then QtyFits b.bid e else QtyFits b.ask e := by
    have bid := range.bid
    have ask := range.ask
    unfold Book.delta bidAfter askAfter at bid ask
    dsimp only at bid ask
    by_cases isBid : e.side = 0
    · rw [if_pos isBid] at bid ⊢
      exact qtyFits_of_range enc.low bidNonneg bid
    · rw [if_neg isBid] at ask ⊢
      exact qtyFits_of_range enc.low askNonneg ask
  obtain ⟨bid, ask⟩ := qtyTracks_updateBook h.bid h.ask wf enc t last fits
  obtain ⟨lo, hi⟩ := range.ofi
  unfold Book.delta at lo hi
  rw [← h.ofi] at lo hi
  exact
    { kept := h.kept.updateBook _
      bid := bid
      ask := ask
      ofi := by rw [Book.delta, ← h.ofi]; exact updateOfi_toInt wf enc t last lo hi }

theorem Tracks.startMeasure {r : Regs} {b : Book} (h : Tracks r b) :
    Tracks (FeaturePipeline.startMeasure r) b := by
  have kept := h.kept.startMeasure
  rw [startMeasure_eq] at kept ⊢
  exact ⟨kept, h.bid, h.ask, h.ofi⟩

def EncodesAll (ds : List LobV1Delta) (es : List UnpackedDelta) : Prop :=
  List.Forall₂ (fun d e => WellFormed d ∧ Encodes d e) ds es

theorem encodesAll_unpacked {ds : List LobV1Delta} (wf : ∀ d ∈ ds, WellFormed d) :
    EncodesAll ds (ds.map LobV1Delta.unpacked) := by
  rw [EncodesAll, List.forall₂_map_right_iff, List.forall₂_same]
  exact fun d hd => ⟨wf d hd, encodes_unpacked d⟩

theorem Tracks.deltas {r : Regs} {b : Book} (h : Tracks r b) {ds : List LobV1Delta}
    {es : List UnpackedDelta} (enc : EncodesAll ds es) (t : BitVec 64)
    (range : ∀ i, (b.after (es.take i)).InRange) :
    Tracks ((parsedDeltas t ds).foldl updateBook r) (b.after es) := by
  induction enc generalizing r b with
  | nil => exact h
  | cons head _ ih => exact ih (h.delta head.1 head.2 t _ (range 1)) (fun i => range (i + 1))

theorem Tracks.next {r : Regs} {b : Book} (h : Tracks r b) {m : Datagram}
    {es : List UnpackedDelta} (enc : EncodesAll m.deltas es)
    (range : ∀ i, (b.after (es.take i)).InRange) : Tracks (feedMachine.next r m) (b.after es) := by
  have after := h.startMeasure.deltas enc m.tSend range
  rw [feedMachine_next]
  exact ⟨⟨after.kept.bestBidPx, after.kept.bestAskPx, after.kept.bestBidQty, after.kept.bestAskQty,
    after.kept.bidQty, after.kept.askQty⟩, after.bid, after.ask, after.ofi⟩

theorem Tracks.final {r : Regs} {b : Book} (h : Tracks r b) (ms : List Datagram)
    {es : List UnpackedDelta} (enc : EncodesAll (ms.flatMap Datagram.deltas) es)
    (range : ∀ i, (b.after (es.take i)).InRange) :
    Tracks (feedMachine.final r ms) (b.after es) := by
  induction ms generalizing r b es with
  | nil =>
    have none := List.forall₂_nil_left_iff.mp enc
    rw [none]
    exact h
  | cons m ms ih =>
    have front := List.forall₂_take m.deltas.length enc
    have rest := List.forall₂_drop m.deltas.length enc
    rw [List.flatMap_cons] at front rest
    rw [List.take_left] at front
    rw [List.drop_left] at rest
    have split : b.after es =
        (b.after (es.take m.deltas.length)).after (es.drop m.deltas.length) := by
      rw [Book.after, Book.after, Book.after, ← List.foldl_append, List.take_append_drop]
    rw [split]
    refine ih (h.next front (fun i => ?_)) rest (fun i => ?_)
    · rw [List.take_take]
      exact range _
    · have more := range (m.deltas.length + i)
      rw [List.take_add, Book.after, List.foldl_append] at more
      exact more

theorem features_of_next {r : Regs} {b : Book} {m : Datagram}
    (h : Tracks (feedMachine.next r m) b) :
    (feedMachine.out r m).ofiQ32.toInt = b.ofi ∧
      (feedMachine.out r m).tobImbQ115.toInt = b.imbalance := by
  have bid := h.kept.bidQty 0
  have ask := h.kept.askQty 0
  have imbalance := topImbalance_eq bid ask
  rw [h.bid 0, h.ask 0, ← h.kept.bestBidQty, ← h.kept.bestAskQty] at imbalance
  refine ⟨h.ofi, ?_⟩
  rw [Book.imbalance, ← imbalance, feedMachine_next, feedMachine_out]
  rfl

/-- Order flow and imbalance after packets `0..i` are those of the exact book
after as many deltas as these hold, however the deltas are split. -/
theorem feed_refines {ms : List Datagram} {es : List UnpackedDelta}
    (enc : EncodesAll (ms.flatMap Datagram.deltas) es)
    (range : ∀ i, (Book.empty.after (es.take i)).InRange) (i : ℕ)
    (hi : i < (feedFeatures ms).length) :
    let b := Book.empty.after (es.take ((ms.take (i + 1)).flatMap Datagram.deltas).length)
    (feedFeatures ms)[i].ofiQ32.toInt = b.ofi ∧
      (feedFeatures ms)[i].tobImbQ115.toInt = b.imbalance := by
  have inside : i < ms.length := by simpa [feedFeatures] using hi
  have cut : (ms.take (i + 1)).flatMap Datagram.deltas =
      (ms.flatMap Datagram.deltas).take ((ms.take (i + 1)).flatMap Datagram.deltas).length := by
    have split := congrArg (List.flatMap Datagram.deltas) (List.take_append_drop (i + 1) ms)
    rw [← split, List.flatMap_append, List.take_left]
  have front := List.forall₂_take ((ms.take (i + 1)).flatMap Datagram.deltas).length enc
  rw [← cut] at front
  have tracks := tracks_powerOn.final (ms.take (i + 1)) front (fun k => by
    rw [List.take_take]
    exact range _)
  rw [feedMachine.final_take_succ _ _ _ inside] at tracks
  have features := features_of_next tracks
  rw [← feedMachine.outputs_getElem _ _ _ hi inside] at features
  exact features

end HftLatencyLab.ExactBook
