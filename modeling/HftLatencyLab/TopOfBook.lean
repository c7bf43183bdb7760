import HftLatencyLab.FeaturePipeline

/-! What of the registers a feature can show: level 0 of either side, the order
flow and the accumulators. The levels below, the copies of level 0 and the cycle
counter drop out, and the machine on the rest answers as the pipeline does. -/

namespace HftLatencyLab.TopOfBook
open FeatureParser FeatureBook FeatureMath FeaturePipeline

structure BookKept (r : Regs) : Prop where
  bestBidPx : r.bestBidPx = r.bid.price.get 0
  bestAskPx : r.bestAskPx = r.ask.price.get 0
  bestBidQty : r.bestBidQty = r.bid.qty.get 0
  bestAskQty : r.bestAskQty = r.ask.qty.get 0
  bidQty : ∀ k, 0 ≤ (r.bid.qty.get k).toInt
  askQty : ∀ k, 0 ≤ (r.ask.qty.get k).toInt

structure Idle (r : Regs) : Prop where
  book : BookKept r
  stopped : r.measuring = false

theorem zero_qty (k : Fin 16) : (LevelState.zero.qty.get k).toInt = 0 := by
  have value : LevelState.zero.qty.get k = 0 := Vector.getElem_replicate k.isLt
  rw [value]
  rfl

theorem idle_powerOn : Idle .powerOn where
  stopped := rfl
  book :=
    { bestBidPx := rfl
      bestAskPx := rfl
      bestBidQty := rfl
      bestAskQty := rfl
      bidQty := fun k => (zero_qty k).ge
      askQty := fun k => (zero_qty k).ge }

theorem updateSide_nonneg (d : Delta) (side : LevelState)
    (h : ∀ k, 0 ≤ (side.qty.get k).toInt) (k : Fin 16) :
    0 ≤ ((updateSide d side).qty.get k).toInt := by
  rw [updateSide_qty]
  split
  · exact clampNonneg_nonneg _
  · exact h k

theorem BookKept.updateBook {r : Regs} (h : BookKept r) (d : Delta) :
    BookKept (updateBook r d) where
  bestBidPx := rfl
  bestAskPx := rfl
  bestBidQty := rfl
  bestAskQty := rfl
  bidQty k := by
    unfold FeatureBook.updateBook
    dsimp only
    split
    · exact updateSide_nonneg d r.bid h.bidQty k
    · exact h.bidQty k
  askQty k := by
    unfold FeatureBook.updateBook
    dsimp only
    split
    · exact h.askQty k
    · exact updateSide_nonneg d r.ask h.askQty k

theorem startMeasure_eq (r : Regs) :
    startMeasure r = { r with cyc := if r.measuring then r.cyc + 1 else 1, measuring := true } := by
  unfold startMeasure
  by_cases running : r.measuring = true <;> simp [running]

theorem BookKept.startMeasure {r : Regs} (h : BookKept r) : BookKept (startMeasure r) := by
  rw [startMeasure_eq]
  exact ⟨h.bestBidPx, h.bestAskPx, h.bestBidQty, h.bestAskQty, h.bidQty, h.askQty⟩

theorem BookKept.deltas {r : Regs} (h : BookKept r) (ds : List Delta) :
    BookKept (ds.foldl FeatureBook.updateBook r) := by
  induction ds generalizing r with
  | nil => exact h
  | cons d ds ih => exact ih (h.updateBook d)

theorem idle_emit {r : Regs} (h : BookKept r) (tSendNs : BitVec 64) : Idle (emit r tSendNs).1 where
  stopped := rfl
  book := ⟨h.bestBidPx, h.bestAskPx, h.bestBidQty, h.bestAskQty, h.bidQty, h.askQty⟩

theorem idle_next {r : Regs} (h : Idle r) (p : Packet) : Idle (packetMachine.next r p) :=
  idle_emit (h.book.startMeasure.deltas p.deltas) p.tSendNs

structure Visible where
  bidPx : BitVec 32
  askPx : BitVec 32
  bidQty : BitVec 32
  askQty : BitVec 32
  ofi : BitVec 32
  lastT : BitVec 64
  burst : BitVec 32
  vol : BitVec 32
  midPrev : BitVec 32
deriving DecidableEq

def visible (r : Regs) : Visible where
  bidPx := r.bid.price.get 0
  askPx := r.ask.price.get 0
  bidQty := r.bid.qty.get 0
  askQty := r.ask.qty.get 0
  ofi := r.ofiAccum
  lastT := r.lastT
  burst := r.burstQ1616
  vol := r.volQ1616
  midPrev := r.midPrev

def topUpdate (v : Visible) (d : Delta) : Visible :=
  let top := d.level.toNat = 0
  { v with
    bidPx := if d.side = 0 ∧ top then actionPrice d v.bidPx else v.bidPx
    askPx := if d.side ≠ 0 ∧ top then actionPrice d v.askPx else v.askPx
    bidQty := if d.side = 0 ∧ top then clampNonneg (actionQty d v.bidQty) else v.bidQty
    askQty := if d.side ≠ 0 ∧ top then clampNonneg (actionQty d v.askQty) else v.askQty
    ofi := updateOfi d v.ofi }

def features (v : Visible) (tSendNs : BitVec 64) : Features :=
  let dt := packetGap v.lastT tSendNs
  { ofiQ32 := v.ofi
    tobImbQ115 := topImbalance v.bidQty v.askQty
    rsv0 := 0
    burstQ1616 := burstStep v.burst dt
    volQ1616 := volStep v.vol dt (dpAbs (midNow v.bidPx v.askPx) v.midPrev) }

def record (v : Visible) (tSendNs : BitVec 64) : Visible :=
  { v with
    lastT := tSendNs
    burst := (features v tSendNs).burstQ1616
    vol := (features v tSendNs).volQ1616
    midPrev := midNow v.bidPx v.askPx }

def beatOf (f : Features) : FeatureBeat where
  axo := { data := packFeatures f, keep := 0xFFFF, strb := 0xFFFF, last := true }
  featDonePulse := true
  featDbgCycles := 1

def topMachine : Mealy Visible Packet FeatureBeat where
  step v p :=
    let v := p.deltas.foldl topUpdate v
    (record v p.tSendNs, beatOf (features v p.tSendNs))

theorem topMachine_next (v : Visible) (p : Packet) :
    topMachine.next v p = record (p.deltas.foldl topUpdate v) p.tSendNs := rfl

theorem topMachine_out (v : Visible) (p : Packet) :
    topMachine.out v p = beatOf (features (p.deltas.foldl topUpdate v) p.tSendNs) := rfl

theorem side_cases (s : BitVec 1) : s = 0 ∨ s = 1 := by
  revert s
  decide

theorem visible_updateBook (r : Regs) (d : Delta) :
    visible (updateBook r d) = topUpdate (visible r) d := by
  have qty (side : LevelState) := updateSide_qty d side 0
  have price (side : LevelState) := updateSide_price d side 0
  simp only [visible, updateBook, topUpdate, Visible.mk.injEq]
  rcases side_cases d.side with side | side <;> by_cases top : d.level.toNat = 0 <;>
    simp [side, top, qty, price]

theorem visible_deltas (r : Regs) (ds : List Delta) :
    visible (ds.foldl updateBook r) = ds.foldl topUpdate (visible r) := by
  induction ds generalizing r with
  | nil => rfl
  | cons d ds ih => rw [List.foldl_cons, List.foldl_cons, ih, visible_updateBook]

theorem visible_startMeasure (r : Regs) : visible (startMeasure r) = visible r := by
  rw [startMeasure_eq]
  rfl

theorem cyc_deltas (r : Regs) (ds : List Delta) : (ds.foldl updateBook r).cyc = r.cyc := by
  induction ds generalizing r with
  | nil => rfl
  | cons d ds ih => exact ih _

theorem updateBook_frame (r : Regs) (ds : List Delta) :
    (ds.foldl updateBook r).lastT = r.lastT ∧ (ds.foldl updateBook r).burstQ1616 = r.burstQ1616 ∧
      (ds.foldl updateBook r).volQ1616 = r.volQ1616 ∧
      (ds.foldl updateBook r).midPrev = r.midPrev := by
  induction ds generalizing r with
  | nil => exact ⟨rfl, rfl, rfl, rfl⟩
  | cons d ds ih => exact ih (updateBook r d)

theorem cyc_startMeasure {r : Regs} (h : r.measuring = false) : (startMeasure r).cyc = 1 := by
  simp [startMeasure_eq, h]

theorem visible_emit {r : Regs} (h : BookKept r) (tSendNs : BitVec 64) :
    visible (emit r tSendNs).1 = record (visible r) tSendNs := by
  simp only [emit, computeFeatures, visible, record, features, h.bestBidPx, h.bestAskPx]

theorem beat_emit {r : Regs} (h : BookKept r) (measured : r.cyc = 1) (tSendNs : BitVec 64) :
    (emit r tSendNs).2 = beatOf (features (visible r) tSendNs) := by
  simp only [emit, computeFeatures, visible, features, beatOf, h.bestBidPx, h.bestAskPx,
    h.bestBidQty, h.bestAskQty, measured]

theorem packetMachine_step {r : Regs} (h : Idle r) (p : Packet) :
    visible (packetMachine.next r p) = topMachine.next (visible r) p ∧
      packetMachine.out r p = topMachine.out (visible r) p := by
  have kept := h.book.startMeasure.deltas p.deltas
  have seen : visible (p.deltas.foldl updateBook (startMeasure r)) =
      p.deltas.foldl topUpdate (visible r) := by
    rw [visible_deltas, visible_startMeasure]
  have measured : (p.deltas.foldl updateBook (startMeasure r)).cyc = 1 := by
    rw [cyc_deltas, cyc_startMeasure h.stopped]
  have state := visible_emit kept p.tSendNs
  have beat := beat_emit kept measured p.tSendNs
  rw [seen] at state beat
  exact ⟨state, beat⟩

theorem outputs_visible {r : Regs} (h : Idle r) (ps : List Packet) :
    packetMachine.outputs r ps = topMachine.outputs (visible r) ps := by
  refine packetMachine.outputs_eq topMachine (R := fun r v => Idle r ∧ visible r = v) ?_ r _ ps
    ⟨h, rfl⟩
  rintro r v p ⟨idle, rfl⟩
  have step := packetMachine_step idle p
  exact ⟨⟨idle_next idle p, step.1⟩, step.2⟩

theorem idle_final {r : Regs} (h : Idle r) (ps : List Packet) : Idle (packetMachine.final r ps) :=
  packetMachine.final_invariant (I := Idle) (fun _ p idle => idle_next idle p) r ps h

end HftLatencyLab.TopOfBook
