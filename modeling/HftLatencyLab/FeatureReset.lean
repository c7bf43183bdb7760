import HftLatencyLab.LobPacket
import HftLatencyLab.TopOfBook

/-! Bit 15 of the flags in the fabric. The parser masks it off, so a reset packet
is a packet like any other, and what follows it shows exactly as much of the
history before it as `Indistinct` lists: two histories lead to the same beats
from every reset packet on only if they agree on all of it. -/

namespace HftLatencyLab.FeatureReset
open ByteOrder LobWire FeatureParser LobPacket FeatureBook FeatureMath FeaturePipeline TopOfBook
  FixedWidth

/-- LOB_V1_FLAG_RESET -/
def hasReset (p : Packet) : Prop := (headerFlags p.hdr0.data).toNat.testBit 15 = true

def beatsAfter (hist ps : List Packet) : List FeatureBeat :=
  ((featurePipeline none .powerOn ((hist ++ ps).flatMap Packet.beats)).fired.drop
    hist.length).map Prod.snd

def ResetCuts (hist₁ hist₂ : List Packet) : Prop :=
  ∀ p s, hasReset p → (∀ q ∈ p :: s, q.InLimit) →
    beatsAfter hist₁ (p :: s) = beatsAfter hist₂ (p :: s)

def stateAfter (hist : List Packet) : Visible := visible (packetMachine.final .powerOn hist)

theorem beatsAfter_eq (hist ps : List Packet) (hh : ∀ p ∈ hist, p.InLimit)
    (hp : ∀ p ∈ ps, p.InLimit) :
    beatsAfter hist ps = topMachine.outputs (stateAfter hist) ps := by
  have limits (p : Packet) (h : p ∈ hist ++ ps) : p.InLimit := by
    rcases List.mem_append.mp h with h | h
    · exact hh p h
    · exact hp p h
  rw [beatsAfter, featurePipeline_all none _ _ (fun p h => ⟨limits p h, by simp⟩)]
  have beats : (expectedBeats .powerOn (hist ++ ps)).map Prod.snd =
      packetMachine.outputs .powerOn (hist ++ ps) :=
    List.map_snd_zip (by simp)
  rw [List.map_drop, beats, Mealy.outputs_append, List.drop_left' (Mealy.length_outputs _ _ _),
    outputs_visible (idle_final idle_powerOn hist), stateAfter]

/-- Before the first timestamp no gap is counted, so there the last mid does not
show, and the burst only as far as the next packet does not saturate it. -/
structure Indistinct (v w : Visible) : Prop where
  bidPx : v.bidPx = w.bidPx
  askPx : v.askPx = w.askPx
  bidQty : v.bidQty = w.bidQty
  askQty : v.askQty = w.askQty
  ofi : v.ofi = w.ofi
  lastT : v.lastT = w.lastT
  vol : v.vol = w.vol
  burst : v.lastT ≠ 0 → v.burst = w.burst
  midPrev : v.lastT ≠ 0 → v.midPrev = w.midPrev
  burstFirst : min (v.burst.toNat + 65536) 0xFFFFFFFF = min (w.burst.toNat + 65536) 0xFFFFFFFF

theorem Indistinct.topUpdate {v w : Visible} (h : Indistinct v w) (d : Delta) :
    Indistinct (topUpdate v d) (topUpdate w d) where
  bidPx := by simp only [TopOfBook.topUpdate, h.bidPx]
  askPx := by simp only [TopOfBook.topUpdate, h.askPx]
  bidQty := by simp only [TopOfBook.topUpdate, h.bidQty]
  askQty := by simp only [TopOfBook.topUpdate, h.askQty]
  ofi := by simp only [TopOfBook.topUpdate, h.ofi]
  lastT := h.lastT
  vol := h.vol
  burst := h.burst
  midPrev := h.midPrev
  burstFirst := h.burstFirst

theorem Indistinct.deltas {v w : Visible} (h : Indistinct v w) (ds : List Delta) :
    Indistinct (ds.foldl TopOfBook.topUpdate v) (ds.foldl TopOfBook.topUpdate w) := by
  induction ds generalizing v w with
  | nil => exact h
  | cons d ds ih => exact ih (h.topUpdate d)

theorem Indistinct.features {v w : Visible} (h : Indistinct v w) (t : BitVec 64) :
    features v t = features w t := by
  by_cases first : v.lastT = 0
  · have gap : packetGap v.lastT t = 0 := (packetGap_eq_zero_iff _ _).mpr (Or.inl first)
    have burst : burstStep v.burst 0 = burstStep w.burst 0 := by
      apply BitVec.eq_of_toNat_eq
      rw [burstStep_still, burstStep_still, h.burstFirst]
    simp only [TopOfBook.features, ← h.lastT, gap, burst, volStep_still, h.ofi, h.bidQty, h.askQty,
      h.vol]
  · simp only [TopOfBook.features, h.lastT, h.burst first, h.midPrev first, h.ofi, h.bidQty,
      h.askQty, h.vol, h.bidPx, h.askPx]

theorem Indistinct.record {v w : Visible} (h : Indistinct v w) (t : BitVec 64) :
    Indistinct (record v t) (record w t) where
  bidPx := h.bidPx
  askPx := h.askPx
  bidQty := h.bidQty
  askQty := h.askQty
  ofi := h.ofi
  lastT := rfl
  vol := by simp only [TopOfBook.record, h.features t]
  burst _ := by simp only [TopOfBook.record, h.features t]
  midPrev _ := by simp only [TopOfBook.record, h.bidPx, h.askPx]
  burstFirst := by simp only [TopOfBook.record, h.features t]

theorem Indistinct.outputs {v w : Visible} (h : Indistinct v w) (ps : List Packet) :
    topMachine.outputs v ps = topMachine.outputs w ps := by
  refine topMachine.outputs_eq topMachine (R := Indistinct) ?_ v w ps h
  intro v w p same
  have moved := same.deltas p.deltas
  exact ⟨moved.record p.tSendNs, congrArg beatOf (moved.features p.tSendNs)⟩

def Cut (v w : Visible) : Prop :=
  ∀ p s, hasReset p → (∀ q ∈ p :: s, q.InLimit) →
    topMachine.outputs v (p :: s) = topMachine.outputs w (p :: s)

def topApply (v : Visible) (d : LobV1Delta) : Visible := topUpdate v (parsedDelta d 0 false)

theorem foldl_parsedDeltas (t : BitVec 64) (ds : List LobV1Delta) (v : Visible) :
    (parsedDeltas t ds).foldl topUpdate v = ds.foldl topApply v := by
  induction ds generalizing v with
  | nil => rfl
  | cons d ds ih =>
    rw [parsedDeltas, List.foldl_cons, List.foldl_cons, ih]
    rfl

def probeData (t : BitVec 64) (ds : List LobV1Delta) (h : ds.length ≤ 128) : Datagram where
  reset := true
  seq := 0
  tSend := t
  deltas := ds
  fits := by omega

def probe (t : BitVec 64) (ds : List LobV1Delta) (h : ds.length ≤ 128) : Packet :=
  (probeData t ds h).packet

theorem probe_deltas (v : Visible) (t : BitVec 64) (ds : List LobV1Delta) (h : ds.length ≤ 128) :
    (probe t ds h).deltas.foldl topUpdate v = ds.foldl topApply v := by
  rw [probe, packet_deltas, foldl_parsedDeltas]
  rfl

theorem probe_tSendNs (t : BitVec 64) (ds : List LobV1Delta) (h : ds.length ≤ 128) :
    (probe t ds h).tSendNs = t := packet_tSendNs (probeData t ds h)

theorem probe_next (v : Visible) (t : BitVec 64) (ds : List LobV1Delta) (h : ds.length ≤ 128) :
    topMachine.next v (probe t ds h) = record (ds.foldl topApply v) t := by
  rw [topMachine_next, probe_deltas, probe_tSendNs]

theorem probe_out (v : Visible) (t : BitVec 64) (ds : List LobV1Delta) (h : ds.length ≤ 128) :
    topMachine.out v (probe t ds h) = beatOf (features (ds.foldl topApply v) t) := by
  rw [topMachine_out, probe_deltas, probe_tSendNs]

theorem probe_reset (t : BitVec 64) (ds : List LobV1Delta) (h : ds.length ≤ 128) :
    hasReset (probe t ds h) := packet_reset (probeData t ds h)

theorem probe_inLimit (t : BitVec 64) (ds : List LobV1Delta) (h : ds.length ≤ 128) :
    (probe t ds h).InLimit := by
  rw [Packet.InLimit, probe, packet_count]
  exact h

theorem beatOf_injective {f g : Features} (h : beatOf f = beatOf g) :
    f.ofiQ32 = g.ofiQ32 ∧ f.tobImbQ115 = g.tobImbQ115 ∧ f.burstQ1616 = g.burstQ1616 ∧
      f.volQ1616 = g.volQ1616 := by
  have words : packFeatures f = packFeatures g := congrArg (fun b => b.axo.data) h
  obtain ⟨words, ofi⟩ := append_inj words
  obtain ⟨words, imb⟩ := append_inj words
  obtain ⟨words, -⟩ := append_inj words
  obtain ⟨vol, burst⟩ := append_inj words
  exact ⟨ofi, imb, burst, vol⟩

theorem Cut.symm {v w : Visible} (h : Cut v w) : Cut w v :=
  fun p s reset limit => (h p s reset limit).symm

theorem Cut.features {v w : Visible} (h : Cut v w) (t : BitVec 64) (ds : List LobV1Delta)
    (hd : ds.length ≤ 128) :
    let f := features (ds.foldl topApply v) t
    let g := features (ds.foldl topApply w) t
    f.ofiQ32 = g.ofiQ32 ∧ f.tobImbQ115 = g.tobImbQ115 ∧ f.burstQ1616 = g.burstQ1616 ∧
      f.volQ1616 = g.volQ1616 := by
  have same := h (probe t ds hd) [] (probe_reset t ds hd) (by simpa using probe_inLimit t ds hd)
  simp only [Mealy.outputs_cons, Mealy.outputs_nil, probe_out, List.cons.injEq, and_true] at same
  exact beatOf_injective same

theorem Cut.next {v w : Visible} (h : Cut v w) (t : BitVec 64) (ds : List LobV1Delta)
    (hd : ds.length ≤ 128) :
    Cut (record (ds.foldl topApply v) t) (record (ds.foldl topApply w) t) := by
  intro p s _ limit
  have same := h (probe t ds hd) (p :: s) (probe_reset t ds hd) (by
    intro q hq
    rcases List.mem_cons.mp hq with rfl | hq
    · exact probe_inLimit t ds hd
    · exact limit q hq)
  rw [Mealy.outputs_cons _ v, Mealy.outputs_cons _ w, probe_next, probe_next,
    List.cons.injEq] at same
  exact same.2

def setLevel0 (side : BitVec 8) (price qty : BitVec 32) : LobV1Delta := ⟨price, qty, 0, side, 0, 0⟩

def addLevel0 (side : BitVec 8) (qty : BitVec 32) : LobV1Delta := ⟨0, qty, 0, side, 1, 0⟩

theorem Cut.ofi {v w : Visible} (h : Cut v w) : v.ofi = w.ofi := (h.features 0 [] (by simp)).1

theorem Cut.burst {v w : Visible} (h : Cut v w) (t : BitVec 64) :
    burstStep v.burst (packetGap v.lastT t) = burstStep w.burst (packetGap w.lastT t) :=
  (h.features t [] (by simp)).2.2.1

theorem Cut.vol {v w : Visible} (h : Cut v w) (t : BitVec 64) (x : BitVec 32) :
    volStep v.vol (packetGap v.lastT t) (dpAbs x v.midPrev) =
      volStep w.vol (packetGap w.lastT t) (dpAbs x w.midPrev) := by
  have same := (h.features t [setLevel0 0 x 0, setLevel0 1 x 0] (by simp)).2.2.2
  simpa [TopOfBook.features, topApply, topUpdate, setLevel0, parsedDelta, actionPrice,
    midNow_self] using same

-- Timestamps and mids of a probe are free, so each accumulator can be brought
-- to a place where it decides the feature.

theorem Cut.no_lone_gap {v w : Visible} (h : Cut v w) (t : BitVec 64)
    (still : packetGap v.lastT t = 0) : packetGap w.lastT t = 0 := by
  by_contra moves
  have near := h.vol t w.midPrev
  have far := h.vol t (w.midPrev + 0x80000000)
  rw [still, volStep_still, dpAbs_self] at near
  rw [still, volStep_still, dpAbs_far] at far
  exact volStep_moves _ _ moves (near.symm.trans far)

theorem Cut.lastT {v w : Visible} (h : Cut v w) : v.lastT = w.lastT := by
  by_contra different
  obtain ⟨t, ⟨still, moves⟩ | ⟨still, moves⟩⟩ := exists_gap different
  · exact moves (h.no_lone_gap t still)
  · exact moves (h.symm.no_lone_gap t still)

theorem Cut.volEq {v w : Visible} (h : Cut v w) : v.vol = w.vol := by
  have same := h.vol v.lastT 0
  rwa [← h.lastT, packetGap_same, volStep_still, volStep_still] at same

theorem Cut.burstFirst {v w : Visible} (h : Cut v w) :
    min (v.burst.toNat + 65536) 0xFFFFFFFF = min (w.burst.toNat + 65536) 0xFFFFFFFF := by
  have same := h.burst v.lastT
  rw [← h.lastT, packetGap_same, ← BitVec.toNat_inj, burstStep_still, burstStep_still] at same
  exact same

/-- Bursts that a gapless packet saturates alike leak different amounts over 4 or
over 5 ns: a multiple of 50000 near the top is no multiple of 40000. -/
theorem leaks_differ {a b : ℕ} (top : 4294901759 ≤ a) (less : a < b) (hb : b < 2 ^ 32)
    (four : a - a / 50000 = b - b / 50000) : a - a / 40000 ≠ b - b / 40000 := by
  have high : b / 50000 ≤ 85899 := by omega
  have low : 85898 ≤ a / 50000 := by omega
  have next : b = a + 1 := by omega
  have tick : b = 4294950000 := by omega
  have before : a = 4294949999 := by omega
  rw [before, tick]
  norm_num

theorem eq_of_leaks {a b : ℕ} (ha : a < 2 ^ 32) (hb : b < 2 ^ 32)
    (first : min (a + 65536) 0xFFFFFFFF = min (b + 65536) 0xFFFFFFFF)
    (four : min (a - a / 50000 + 65536) 0xFFFFFFFF = min (b - b / 50000 + 65536) 0xFFFFFFFF)
    (five : min (a - a / 40000 + 65536) 0xFFFFFFFF = min (b - b / 40000 + 65536) 0xFFFFFFFF) :
    a = b := by
  by_cases low : a + 65536 < 0xFFFFFFFF
  · clear four five
    omega
  · have topA : 4294901759 ≤ a := by omega
    have topB : 4294901759 ≤ b := by omega
    have leak4 : a - a / 50000 = b - b / 50000 := by omega
    have leak5 : a - a / 40000 = b - b / 40000 := by omega
    rcases lt_trichotomy a b with less | same | less
    · exact absurd leak5 (leaks_differ topA less hb leak4)
    · exact same
    · exact absurd leak5.symm (leaks_differ topB less ha leak4.symm)

theorem Cut.burstEq {v w : Visible} (h : Cut v w) (started : v.lastT ≠ 0) : v.burst = w.burst := by
  have after (n : BitVec 32) : (burstStep v.burst n).toNat = (burstStep w.burst n).toNat := by
    have same := h.burst (v.lastT + n.setWidth 64)
    rw [← h.lastT, packetGap_after started] at same
    rw [same]
  have four := after (BitVec.ofNat 32 4)
  have five := after (BitVec.ofNat 32 5)
  rw [burstStep_short _ 4 50000 (by norm_num) (by norm_num) rfl,
    burstStep_short _ 4 50000 (by norm_num) (by norm_num) rfl] at four
  rw [burstStep_short _ 5 40000 (by norm_num) (by norm_num) rfl,
    burstStep_short _ 5 40000 (by norm_num) (by norm_num) rfl] at five
  exact BitVec.eq_of_toNat_eq (eq_of_leaks v.burst.isLt w.burst.isLt h.burstFirst four five)

theorem Cut.midPrev {v w : Visible} (h : Cut v w) (started : v.lastT ≠ 0) :
    v.midPrev = w.midPrev := by
  have same := h.vol (v.lastT + (2000000 : BitVec 32).setWidth 64) w.midPrev
  rw [← h.lastT, packetGap_after started, dpAbs_self, ← BitVec.toNat_inj] at same
  have near := volStep_tau w.vol 0
  have far := volStep_tau v.vol (dpAbs w.midPrev v.midPrev)
  have still : ((0 : BitVec 32).toNat : ℤ) = 0 := rfl
  rw [still, zero_mul] at near
  rw [same, near] at far
  unfold saturateU32 at far
  have none : (dpAbs w.midPrev v.midPrev).toNat = 0 := by omega
  exact (dpAbs_eq_zero (BitVec.eq_of_toNat_eq none)).symm

theorem Cut.mid {v w : Visible} (h : Cut v w) (ds : List LobV1Delta) (hd : ds.length ≤ 128) :
    midNow (ds.foldl topApply v).bidPx (ds.foldl topApply v).askPx =
      midNow (ds.foldl topApply w).bidPx (ds.foldl topApply w).askPx :=
  (h.next 1 ds hd).midPrev (show (1 : BitVec 64) ≠ 0 by decide)

theorem Cut.bidPx {v w : Visible} (h : Cut v w) : v.bidPx = w.bidPx := by
  have ask (y : BitVec 32) : midNow v.bidPx y = midNow w.bidPx y := by
    have same := h.mid [setLevel0 1 y 0] (by simp)
    simpa [topApply, topUpdate, setLevel0, parsedDelta, actionPrice] using same
  exact midNow_inj (ask 0) (ask 1)

theorem Cut.askPx {v w : Visible} (h : Cut v w) : v.askPx = w.askPx := by
  have bid (y : BitVec 32) : midNow v.askPx y = midNow w.askPx y := by
    have same := h.mid [setLevel0 0 y 0] (by simp)
    rw [midNow_comm v.askPx, midNow_comm w.askPx]
    simpa [topApply, topUpdate, setLevel0, parsedDelta, actionPrice] using same
  exact midNow_inj (bid 0) (bid 1)

def QtyKept (v : Visible) : Prop := 0 ≤ v.bidQty.toInt ∧ 0 ≤ v.askQty.toInt

theorem qtyKept_visible {r : Regs} (h : Idle r) : QtyKept (visible r) :=
  ⟨h.book.bidQty 0, h.book.askQty 0⟩

theorem lone_qty {a b : BitVec 32} (ha : 0 ≤ a.toInt) (hb : 0 ≤ b.toInt) :
    (clampNonneg (b + -a)).toInt = max 0 (b.toInt - a.toInt) := by
  have ha' := BitVec.toInt_lt (x := a)
  have hb' := BitVec.toInt_lt (x := b)
  rw [clampNonneg_toInt, ← BitVec.sub_eq_add_neg, toInt_sub_of_range (by omega) (by omega)]

theorem Cut.bidQty_le {v w : Visible} (h : Cut v w) (hv : 0 ≤ v.bidQty.toInt)
    (hw : 0 ≤ w.bidQty.toInt) : w.bidQty.toInt ≤ v.bidQty.toInt := by
  have same := (h.features 0 [setLevel0 1 0 0, addLevel0 0 (-v.bidQty)] (by simp)).2.1
  have probed (u : Visible) :
      (TopOfBook.features ([setLevel0 1 0 0, addLevel0 0 (-v.bidQty)].foldl topApply u)
        0).tobImbQ115 = topImbalance (clampNonneg (u.bidQty + -v.bidQty)) 0 := by
    simp [TopOfBook.features, topApply, topUpdate, setLevel0, addLevel0, parsedDelta, actionQty,
      clampNonneg]
  rw [probed, probed] at same
  have value := congrArg BitVec.toInt same
  rw [topImbalance_bid (clampNonneg_nonneg _), topImbalance_bid (clampNonneg_nonneg _),
    lone_qty hv hv, lone_qty hv hw] at value
  split at value <;> split at value <;> omega

theorem Cut.askQty_le {v w : Visible} (h : Cut v w) (hv : 0 ≤ v.askQty.toInt)
    (hw : 0 ≤ w.askQty.toInt) : w.askQty.toInt ≤ v.askQty.toInt := by
  have same := (h.features 0 [setLevel0 0 0 0, addLevel0 1 (-v.askQty)] (by simp)).2.1
  have probed (u : Visible) :
      (TopOfBook.features ([setLevel0 0 0 0, addLevel0 1 (-v.askQty)].foldl topApply u)
        0).tobImbQ115 = topImbalance 0 (clampNonneg (u.askQty + -v.askQty)) := by
    simp [TopOfBook.features, topApply, topUpdate, setLevel0, addLevel0, parsedDelta, actionQty,
      clampNonneg]
  rw [probed, probed] at same
  have value := congrArg BitVec.toInt same
  rw [topImbalance_ask (clampNonneg_nonneg _), topImbalance_ask (clampNonneg_nonneg _),
    lone_qty hv hv, lone_qty hv hw] at value
  split at value <;> split at value <;> omega

theorem Cut.indistinct {v w : Visible} (h : Cut v w) (hv : QtyKept v) (hw : QtyKept w) :
    Indistinct v w where
  bidPx := h.bidPx
  askPx := h.askPx
  bidQty := BitVec.eq_of_toInt_eq
    (le_antisymm (h.symm.bidQty_le hw.1 hv.1) (h.bidQty_le hv.1 hw.1))
  askQty := BitVec.eq_of_toInt_eq
    (le_antisymm (h.symm.askQty_le hw.2 hv.2) (h.askQty_le hv.2 hw.2))
  ofi := h.ofi
  lastT := h.lastT
  vol := h.volEq
  burst := h.burstEq
  midPrev := h.midPrev
  burstFirst := h.burstFirst

theorem cut_of_resetCuts {hist₁ hist₂ : List Packet} (h₁ : ∀ p ∈ hist₁, p.InLimit)
    (h₂ : ∀ p ∈ hist₂, p.InLimit) (cuts : ResetCuts hist₁ hist₂) :
    Cut (stateAfter hist₁) (stateAfter hist₂) := by
  intro p s reset limit
  have same := cuts p s reset limit
  rwa [beatsAfter_eq hist₁ _ h₁ limit, beatsAfter_eq hist₂ _ h₂ limit] at same

theorem qtyKept_stateAfter (hist : List Packet) : QtyKept (stateAfter hist) :=
  qtyKept_visible (idle_final idle_powerOn hist)

/-- A reset packet cuts off just those histories that no beat tells apart anyway. -/
theorem reset_cuts_iff (hist₁ hist₂ : List Packet) (h₁ : ∀ p ∈ hist₁, p.InLimit)
    (h₂ : ∀ p ∈ hist₂, p.InLimit) :
    ResetCuts hist₁ hist₂ ↔ Indistinct (stateAfter hist₁) (stateAfter hist₂) := by
  constructor
  · intro cuts
    exact (cut_of_resetCuts h₁ h₂ cuts).indistinct (qtyKept_stateAfter hist₁)
      (qtyKept_stateAfter hist₂)
  · intro same p s _ limit
    rw [beatsAfter_eq hist₁ _ h₁ limit, beatsAfter_eq hist₂ _ h₂ limit, same.outputs]

def addFive : Packet := probe 1 [addLevel0 0 5] (by decide)

theorem addFive_inLimit : ∀ p ∈ [addFive], p.InLimit := by
  intro p hp
  rw [List.mem_singleton.mp hp]
  exact probe_inLimit 1 _ _

theorem reset_cuts_add_five :
    ResetCuts [] [addFive] ↔ Indistinct (stateAfter []) (stateAfter [addFive]) :=
  reset_cuts_iff [] [addFive] (by simp) addFive_inLimit

/-- An order flow of five survives every reset. -/
theorem add_five_not_cut : ¬ResetCuts [] [addFive] := by
  intro cuts
  have flow := (cut_of_resetCuts (by simp) addFive_inLimit cuts).ofi
  revert flow
  decide

end HftLatencyLab.FeatureReset
