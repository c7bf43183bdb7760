import HftLatencyLab.ExactBook
import HftLatencyLab.ServerHeader

/-! The features processor_thread (fpga/pynq/feature_echo_mt.py) computes itself
when no DMA result arrives. Order flow is the fabric's; the imbalance rounds down
where the fabric rounds toward zero; the accumulators rest on a packet without a
time gap, which the first one always is. -/

namespace HftLatencyLab.ServerFallback
open ByteOrder LobWire ServerHeader LobPacket FeatureBook FeatureMath TopOfBook PythonBook
  FeatureFeed ExactBook FixedWidth

structure PsState where
  bid : Vector Level 16
  ask : Vector Level 16
  ofi : ℤ
  burst : ℤ
  vol : ℤ
  lastT : Option ℤ
  midPrev : ℤ
deriving DecidableEq

def PsState.start : PsState where
  bid := emptySide
  ask := emptySide
  ofi := 0
  burst := 0
  vol := 0
  lastT := none
  midPrev := 0

structure Reply where
  ofi : ℤ
  imbQ115 : ℤ
  burst : ℤ
  vol : ℤ
deriving DecidableEq

structure Received where
  hdr : DeltasHdr
  data : List Byte

/-- A delta outside the book is dropped, its order flow with it. -/
def psDelta (s : PsState) (d : UnpackedDelta) : PsState :=
  if d.level < 16 then
    { s with
      bid := bidAfter s.bid d
      ask := askAfter s.ask d
      ofi := if d.action = 1 ∨ d.action = 2
        then s.ofi + if d.side = 0 then d.qty else -d.qty else s.ofi }
  else s

def psBook (s : PsState) (x : Received) : PsState :=
  let s := if x.hdr.reset then .start else s
  let cnt := min x.hdr.cnt ((x.data.length - lobV1HdrLen) / lobV1DeltaLen)
  (readDeltas x.data cnt lobV1HdrLen).foldl psDelta s

def psImbalance (bestBidQ bestAskQ : ℤ) : ℤ :=
  let denom := bestBidQ + bestAskQ
  if denom > 0 then max (-32768) (min 32767 (((bestBidQ - bestAskQ) * 32768).fdiv denom)) else 0

def tauBurstNs : ℤ := 200000
def tauVolNs : ℤ := 2000000

/-- `if dt_ns > 0:` -/
def psAccumulate (s : PsState) (dtNs : ℤ) : PsState :=
  let decay := (s.burst * dtNs).fdiv tauBurstNs
  let burst := max 0 (s.burst - decay + 65536)
  let burst := if burst > 0xFFFFFFFF then 0xFFFFFFFF else burst
  let mid := ((s.bid.get 0).p + (s.ask.get 0).p).fdiv 2
  let dp := |mid - s.midPrev|
  let deltaV := ((dp * 65536 - s.vol) * dtNs).fdiv tauVolNs
  let vol := max 0 (s.vol + deltaV)
  let vol := if vol > 0xFFFFFFFF then 0xFFFFFFFF else vol
  { s with burst := burst, vol := vol, midPrev := mid }

def psGap (s : PsState) (tSendNs : ℤ) : ℤ :=
  match s.lastT with
  | none => 0
  | some last => max 0 (tSendNs - last)

def psFeatures (s : PsState) (tSendNs : ℤ) : PsState × Reply :=
  let dtNs := psGap s tSendNs
  let s := { s with lastT := some tSendNs }
  let imbQ115 := psImbalance (s.bid.get 0).q (s.ask.get 0).q
  let s := if dtNs > 0 then psAccumulate s dtNs else s
  (s, { ofi := s.ofi, imbQ115 := imbQ115, burst := s.burst, vol := s.vol })

def processor : Mealy PsState Received Reply where
  step s x := psFeatures (psBook s x) x.hdr.tSendNs

def received (m : Datagram) : Received where
  hdr := { reset := m.reset, cnt := m.deltas.length, tSendNs := m.tSend.toNat }
  data := m.bytes

def feedProcessor : Mealy PsState Datagram Reply := processor.on received

def psReplies (ms : List Datagram) : List Reply := feedProcessor.outputs .start ms

theorem psBook_received (s : PsState) (m : Datagram) :
    psBook s (received m) =
      (m.deltas.map LobV1Delta.unpacked).foldl psDelta (if m.reset then .start else s) := by
  have header : (replayHdr m.fcnt m.seq m.tSend).bytes.length = lobV1HdrLen := by
    rw [replayHdr_bytes, length_packHdr]
    rfl
  have body : (m.deltas.flatMap LobV1Delta.wire).length = m.deltas.length * lobV1DeltaLen := by
    rw [List.length_flatMap, List.map_congr_left (fun d _ => length_wire d), List.map_const',
      List.sum_replicate]
    rfl
  have total : (m.bytes.length - lobV1HdrLen) / lobV1DeltaLen = m.deltas.length := by
    rw [Datagram.bytes, List.length_append, header, body, Nat.add_sub_cancel_left]
    exact Nat.mul_div_cancel _ (by decide)
  have deltas := readDeltas_wires (replayHdr m.fcnt m.seq m.tSend).bytes m.deltas
  rw [header] at deltas
  rw [psBook, received]
  dsimp only
  rw [total, min_self]
  exact congrArg _ deltas

theorem psDelta_frame (s : PsState) (ds : List UnpackedDelta) :
    (ds.foldl psDelta s).lastT = s.lastT ∧ (ds.foldl psDelta s).burst = s.burst := by
  induction ds generalizing s with
  | nil => exact ⟨rfl, rfl⟩
  | cons d ds ih =>
    have one : (psDelta s d).lastT = s.lastT ∧ (psDelta s d).burst = s.burst := by
      unfold psDelta
      split <;> exact ⟨rfl, rfl⟩
    rw [List.foldl_cons, (ih (psDelta s d)).1, (ih (psDelta s d)).2]
    exact one

structure Agrees (p : Reply) (f : Features) : Prop where
  ofi : p.ofi = f.ofiQ32.toInt
  imbalance : p.imbQ115 = f.tobImbQ115.toInt
  burst : p.burst = f.burstQ1616.toNat
  vol : p.vol = f.volQ1616.toNat

theorem psFeatures_still {s : PsState} {tSendNs : ℤ} (h : psGap s tSendNs = 0) :
    (psFeatures s tSendNs).2.burst = s.burst := by
  simp [psFeatures, h]

theorem first_burst (m : Datagram) : (feedProcessor.out .start m).burst = 0 := by
  have initial : (if m.reset then PsState.start else PsState.start) = .start := ite_self _
  obtain ⟨lastT, burst⟩ := psDelta_frame .start (m.deltas.map LobV1Delta.unpacked)
  rw [← initial, ← psBook_received, initial] at lastT burst
  have gap : psGap (psBook .start (received m)) m.tSend.toNat = 0 := by
    rw [psGap, lastT]
    rfl
  exact (psFeatures_still gap).trans burst

theorem first_burstQ1616 (m : Datagram) :
    (feedMachine.out .powerOn m).burstQ1616 = 65536 := by
  obtain ⟨lastT, burst, -, -⟩ := afterDeltas_frame .powerOn m
  have gap : packetGap Regs.powerOn.lastT m.tSend = 0 := rfl
  rw [feedMachine_out]
  change burstStep (afterDeltas .powerOn m).burstQ1616
    (packetGap (afterDeltas .powerOn m).lastT m.tSend) = 65536
  rw [lastT, burst, gap]
  rfl

/-- From power-on the two never answer alike. -/
theorem fallback_agrees_iff (ms : List Datagram) :
    List.Forall₂ Agrees (psReplies ms) (feedFeatures ms) ↔ ms = [] := by
  cases ms with
  | nil => simp [psReplies, feedFeatures]
  | cons m ms =>
    simp only [psReplies, feedFeatures, Mealy.outputs_cons, List.forall₂_cons, reduceCtorEq,
      iff_false, not_and]
    intro agrees
    have burst := agrees.burst
    rw [first_burst, first_burstQ1616] at burst
    exact absurd burst (by decide)

theorem emptyPacket_fits : ([] : List LobV1Delta).length < 2 ^ 15 := by decide

def emptyPacket : Datagram where
  reset := true
  seq := 1
  tSend := 1
  deltas := []
  fits := emptyPacket_fits

/-- A single packet already tells them apart. -/
theorem fallback_differs_at_first :
    Feed [emptyPacket] ∧
      ¬List.Forall₂ Agrees (psReplies [emptyPacket]) (feedFeatures [emptyPacket]) := by
  refine ⟨by decide +kernel, fun agrees => ?_⟩
  rw [psReplies, feedFeatures, Mealy.outputs_cons, Mealy.outputs_cons, List.forall₂_cons] at agrees
  have burst := agrees.1.burst
  rw [first_burst, first_burstQ1616] at burst
  exact absurd burst (by decide)

def PsState.book (s : PsState) : Book where
  bid := s.bid
  ask := s.ask
  ofi := s.ofi

theorem psDelta_book (s : PsState) {d : LobV1Delta} (wf : WellFormed d) :
    (psDelta s d.unpacked).book = s.book.delta d.unpacked := by
  have level : d.unpacked.level < 16 := wf.level
  rw [psDelta, if_pos level, PsState.book, Book.delta, PsState.book, flow]
  split_ifs <;> simp

theorem psDelta_book_all (s : PsState) {ds : List LobV1Delta} (wf : ∀ d ∈ ds, WellFormed d) :
    ((ds.map LobV1Delta.unpacked).foldl psDelta s).book =
      s.book.after (ds.map LobV1Delta.unpacked) := by
  induction ds generalizing s with
  | nil => rfl
  | cons d ds ih =>
    have rest := ih (psDelta s d.unpacked) (fun e he => wf e (List.mem_cons_of_mem d he))
    rw [psDelta_book s (wf d (List.mem_cons_self ..))] at rest
    exact rest

def BookFits (s : PsState) (m : Datagram) : Prop :=
  ∀ i, (s.book.after ((m.deltas.map LobV1Delta.unpacked).take i)).InRange

def ImbalanceExact (s : PsState) (m : Datagram) : Prop :=
  let b := (psBook s (received m)).book
  let bidQ := (b.bid.get 0).q
  let askQ := (b.ask.get 0).q
  askQ ≤ bidQ ∨ bidQ + askQ ∣ (bidQ - askQ) * 32768

theorem psImbalance_eq_iff {b a : ℤ} (hb : 0 ≤ b) (ha : 0 ≤ a) :
    psImbalance b a = imbalance b a ↔ a ≤ b ∨ b + a ∣ (b - a) * 32768 := by
  rw [imbalance_eq hb ha, psImbalance]
  by_cases empty : b + a = 0
  · have both : a ≤ b := by omega
    simp [empty, both]
  · have den : 0 < b + a := by omega
    have bounds := tdiv_bounds (n := (b - a) * 32768) (m := 32768) den (by omega) (by omega)
    have sign : 0 ≤ (b - a) * 32768 ↔ a ≤ b := by omega
    simp only [empty, den, if_true, if_false]
    by_cases whole : 0 ≤ (b - a) * 32768 ∨ b + a ∣ (b - a) * 32768
    · rw [fdiv_eq_tdiv den whole, ← sign]
      simp only [whole, iff_true]
      omega
    · have down := fdiv_eq_tdiv_sub_one den whole
      have floor : -32768 ≤ ((b - a) * 32768).fdiv (b + a) := by
        rw [Int.fdiv_eq_ediv_of_nonneg _ den.le]
        exact (Int.le_ediv_iff_mul_le den).mpr (by omega)
      rw [← sign]
      simp only [whole, iff_false]
      rw [not_or] at whole
      have below : ((b - a) * 32768).tdiv (b + a) ≤ 0 := by
        have quotient := tdiv_of_nonpos (b + a) (show (b - a) * 32768 ≤ 0 by omega)
        have small : 0 ≤ -((b - a) * 32768) / (b + a) := Int.ediv_nonneg (by omega) den.le
        omega
      omega

theorem psFeatures_book (s : PsState) (tSendNs : ℤ) :
    (psFeatures s tSendNs).1.book = s.book ∧ (psFeatures s tSendNs).2.ofi = s.book.ofi ∧
      (psFeatures s tSendNs).2.imbQ115 = psImbalance (s.book.bid.get 0).q (s.book.ask.get 0).q := by
  unfold psFeatures
  dsimp only
  split <;> exact ⟨rfl, rfl, rfl⟩

theorem psBook_book {s : PsState} {m : Datagram} (fed : Fed .start PsState.lastT s m) :
    (psBook s (received m)).book = s.book.after (m.deltas.map LobV1Delta.unpacked) := by
  have start : (if m.reset then PsState.start else s) = s := by
    rcases fed.reset with none | initial
    · simp [none]
    · simp [initial]
  rw [psBook_received, start, psDelta_book_all s fed.fields]

theorem last_next (s : PsState) (m : Datagram) :
    (feedProcessor.next s m).lastT = some (m.tSend.toNat : ℤ) := by
  change (psFeatures (psBook s (received m)) m.tSend.toNat).1.lastT = _
  unfold psFeatures
  dsimp only
  split <;> rfl

theorem processor_step {r : Regs} {s : PsState} (h : ExactBook.Tracks r s.book) {m : Datagram}
    (fed : Fed .start PsState.lastT s m) (fits : BookFits s m) :
    ExactBook.Tracks (feedMachine.next r m) (feedProcessor.next s m).book ∧
      (feedProcessor.out s m).ofi = (feedMachine.out r m).ofiQ32.toInt ∧
      ((feedProcessor.out s m).imbQ115 = (feedMachine.out r m).tobImbQ115.toInt ↔
        ImbalanceExact s m) := by
  have after := h.next (encodesAll_unpacked fed.fields) fits
  rw [← psBook_book fed] at after
  obtain ⟨book, ofi, imbalance⟩ := psFeatures_book (psBook s (received m)) m.tSend.toNat
  obtain ⟨fabricOfi, fabricImbalance⟩ := features_of_next after
  have bidNonneg := after.kept.bidQty 0
  have askNonneg := after.kept.askQty 0
  rw [after.bid 0] at bidNonneg
  rw [after.ask 0] at askNonneg
  have rounding := psImbalance_eq_iff bidNonneg askNonneg
  rw [fabricOfi, fabricImbalance]
  refine ⟨?_, ofi, (Eq.congr_left imbalance).trans rounding⟩
  change ExactBook.Tracks _ (psFeatures (psBook s (received m)) m.tSend.toNat).1.book
  rw [book]
  exact after

variable {ms : List Datagram} (feed : Feed ms) (fits : feedProcessor.Along BookFits .start ms)
include feed fits

theorem order_flow_agrees :
    List.Forall₂ (fun p f => p.ofi = f.ofiQ32.toInt) (psReplies ms) (feedFeatures ms) := by
  refine feedProcessor.outputs_related feedMachine (R := fun s r => ExactBook.Tracks r s.book)
    (C := fun s m => Fed .start PsState.lastT s m ∧ BookFits s m) ?_ _ _ ms
    ExactBook.tracks_powerOn ((feed.along last_next rfl).and fits)
  rintro s r m tracks ⟨fed, fits⟩
  have step := processor_step tracks fed fits
  exact ⟨step.1, step.2.1⟩

theorem imbalances_agree_iff :
    List.Forall₂ (fun p f => p.imbQ115 = f.tobImbQ115.toInt) (psReplies ms) (feedFeatures ms) ↔
      feedProcessor.Along ImbalanceExact .start ms := by
  refine feedProcessor.outputs_related_iff feedMachine
    (R := fun s r => ExactBook.Tracks r s.book)
    (C := fun s m => Fed .start PsState.lastT s m ∧ BookFits s m) ?_ ?_ _ _ ms
    ExactBook.tracks_powerOn ((feed.along last_next rfl).and fits)
  · rintro s r m tracks ⟨fed, fits⟩
    exact (processor_step tracks fed fits).2.2
  · rintro s r m tracks ⟨fed, fits⟩ -
    exact (processor_step tracks fed fits).1

end HftLatencyLab.ServerFallback
