import HftLatencyLab.FeatureBeat
import HftLatencyLab.ServerReply
import HftLatencyLab.TimingTrailer

/-! processor_thread and sender_thread (fpga/pynq/feature_echo_mt.py) with the reflex lane and,
beside the features, whatever the DMA brings: the book is the server's own in either case, so
what the reflex says is read off the datagrams. -/

namespace HftLatencyLab.ReflexLane
open ByteOrder LobWire ServerHeader PythonBook ServerFallback FeatureReply FeatureBeat ServerReply
  TimingTrailer

structure ClockReads where
  t2 : BitVec 64
  tReflex : BitVec 64
  t3 : BitVec 64
  t4 : BitVec 64
  t5 : BitVec 64
  t6 : BitVec 64

inductive PlPath
  /-- No DMA, or nothing before T3. -/
  | off
  /-- No completion: an error bit, the timeout, an exception. -/
  | started
  /-- `scored`: the score transfer was seen off and T5 taken. `result`: `out_buf`, and the
  score if `timing_data` gets one, else 0. -/
  | completed (scored : Bool) (result : Option (List Byte × BitVec 32))

structure Turn where
  now : BitVec 64
  reads : ClockReads
  pl : PlPath

/-- NONE, TAKE_LIQUIDITY or WIDEN_SPREADS. -/
def reflexAct (s : PsState) : ℕ :=
  let bestBid := s.bid.get 0
  let bestAsk := s.ask.get 0
  if bestBid.q > 0 ∧ bestAsk.q > 0 then
    if bestBid.p ≥ bestAsk.p then 2
    else if bestAsk.p - bestBid.p > 1000 then 3
    else 0
  else 0

def PlPath.score : PlPath → BitVec 32
  | .completed _ (some (_, mlpScore)) => mlpScore
  | _ => 0

/-- `timing_data` with the defaults of the sender, and T6. -/
def timingData (reads : ClockReads) (reflex : ℕ) (pl : PlPath) : TimingData where
  t2 := reads.t2
  t3 := match pl with
    | .off => 0
    | _ => reads.t3
  t4 := match pl with
    | .completed .. => reads.t4
    | _ => 0
  t5 := match pl with
    | .completed true _ => reads.t5
    | _ => 0
  tReflex := reads.tReflex
  t6 := reads.t6
  reflexAct := BitVec.ofNat 32 reflex
  mlpScore := pl.score

def plFeatures (s : PsState) (f : ServerFallback.Reply) : PlPath → PsState × ServerFallback.Reply
  | .completed _ (some (outBuf, _)) =>
    let r := plDecode outBuf
    ({ s with ofi := r.ofi, burst := r.burst, vol := r.vol }, ⟨r.ofi, r.imbQ115, r.burst, r.vol⟩)
  | _ => (s, f)

def processorTurn (enableTiming : Bool) (s : PsState) (data : List Byte) (x : Turn) :
    PsState × Option (List Byte) :=
  match parseRequest data with
  | .skip => (s, none)
  | .ping h => (s, some (packHdr lobV1MsgPing (BitVec.ofNat 16 h.flagsBe)
      (BitVec.ofNat 32 h.seqBe) (BitVec.ofNat 64 h.tSendBe) x.now))
  | .deltas h d =>
    let s := psBook s ⟨d, data⟩
    let reflex := reflexAct s
    let (s, f) := psFeatures s d.tSendNs
    let (s, f) := plFeatures s f x.pl
    (s, (packFeat f.ofi f.imbQ115 f.burst f.vol).map fun feat =>
      senderThread enableTiming (featReply enableTiming (BitVec.ofNat 16 h.flagsBe)
        (BitVec.ofNat 32 h.seqBe) (BitVec.ofNat 64 h.tSendBe) x.now feat).bytes
        (if enableTiming then some (timingData x.reads reflex x.pl) else none))

theorem processorTurn_off (s : PsState) (data : List Byte) (x : Turn) (off : x.pl = .off) :
    processorTurn false s data x = respond false s data x.now := by
  unfold processorTurn respond
  cases parseRequest data with
  | skip => rfl
  | ping h => rfl
  | deltas h d =>
    rw [off]
    rfl

def deltasOf (data : List Byte) : List UnpackedDelta :=
  match parseRequest data with
  | .deltas _ d =>
    readDeltas data (min d.cnt ((data.length - lobV1HdrLen) / lobV1DeltaLen)) lobV1HdrLen
  | _ => []

theorem psBook_deltasOf (s : PsState) {data : List Byte} {h : UnpackedHdr} {d : DeltasHdr}
    (request : parseRequest data = .deltas h d) :
    psBook s ⟨d, data⟩ = (deltasOf data).foldl psDelta (if d.reset then .start else s) := by
  rw [psBook, deltasOf, request]

abbrev Sides : Type := Vector Level 16 → Vector Level 16 → Prop

theorem foldl_psDelta_sides {I : Sides} {D : UnpackedDelta → Prop}
    (keep : ∀ s d, I s.bid s.ask → D d → I (psDelta s d).bid (psDelta s d).ask) {s : PsState}
    {ds : List UnpackedDelta} (start : I s.bid s.ask) (all : ∀ d ∈ ds, D d) :
    I (ds.foldl psDelta s).bid (ds.foldl psDelta s).ask := by
  induction ds generalizing s with
  | nil => exact start
  | cons d ds ih =>
    exact ih (keep s d start (all d List.mem_cons_self))
      (fun e mem => all e (List.mem_cons_of_mem d mem))

theorem psFeatures_sides (s : PsState) (tSendNs : ℤ) :
    (psFeatures s tSendNs).1.bid = s.bid ∧ (psFeatures s tSendNs).1.ask = s.ask := by
  unfold psFeatures
  dsimp only
  split <;> exact ⟨rfl, rfl⟩

theorem plFeatures_sides (s : PsState) (f : ServerFallback.Reply) (pl : PlPath) :
    (plFeatures s f pl).1.bid = s.bid ∧ (plFeatures s f pl).1.ask = s.ask := by
  unfold plFeatures
  split <;> exact ⟨rfl, rfl⟩

theorem processorTurn_book (enableTiming : Bool) (s : PsState) {data : List Byte}
    {h : UnpackedHdr} {d : DeltasHdr} (request : parseRequest data = .deltas h d) (x : Turn) :
    (processorTurn enableTiming s data x).1.bid = (psBook s ⟨d, data⟩).bid ∧
      (processorTurn enableTiming s data x).1.ask = (psBook s ⟨d, data⟩).ask := by
  unfold processorTurn
  rw [request]
  dsimp only
  obtain ⟨bid, ask⟩ := plFeatures_sides (psFeatures (psBook s ⟨d, data⟩) d.tSendNs).1
    (psFeatures (psBook s ⟨d, data⟩) d.tSendNs).2 x.pl
  obtain ⟨bid', ask'⟩ := psFeatures_sides (psBook s ⟨d, data⟩) d.tSendNs
  rw [bid, ask, bid', ask']
  exact ⟨rfl, rfl⟩

theorem processorTurn_sides (enableTiming : Bool) {I : Sides} {D : UnpackedDelta → Prop}
    (empty : I emptySide emptySide)
    (keep : ∀ s d, I s.bid s.ask → D d → I (psDelta s d).bid (psDelta s d).ask)
    {s : PsState} {data : List Byte} (start : I s.bid s.ask)
    (all : ∀ d ∈ deltasOf data, D d) (x : Turn) :
    I (processorTurn enableTiming s data x).1.bid (processorTurn enableTiming s data x).1.ask ∧
      ∀ h d, parseRequest data = .deltas h d →
        I (psBook s ⟨d, data⟩).bid (psBook s ⟨d, data⟩).ask := by
  have read : ∀ h d, parseRequest data = .deltas h d →
      I (psBook s ⟨d, data⟩).bid (psBook s ⟨d, data⟩).ask := by
    intro h d request
    rw [psBook_deltasOf s request]
    refine foldl_psDelta_sides keep ?_ all
    cases d.reset with
    | false => exact start
    | true => exact empty
  refine ⟨?_, read⟩
  cases request : parseRequest data with
  | skip =>
    unfold processorTurn
    rw [request]
    exact start
  | ping h =>
    unfold processorTurn
    rw [request]
    exact start
  | deltas h d =>
    obtain ⟨bid, ask⟩ := processorTurn_book enableTiming s request x
    rw [bid, ask]
    exact read h d request

theorem senderThread_append (enableTiming : Bool) (reply : List Byte)
    (timingData : Option TimingData) :
    ∃ more, senderThread enableTiming reply timingData = reply ++ more := by
  unfold senderThread
  split
  · exact ⟨_, rfl⟩
  · exact ⟨[], (List.append_nil _).symm⟩

theorem telemetry_of_turn {enableTiming : Bool} {s : PsState} {data reply : List Byte} {x : Turn}
    {m : Telemetry} (sent : reply ∈ (processorTurn enableTiming s data x).2)
    (read : m ∈ socTelemetry reply) :
    ∃ h d, parseRequest data = .deltas h d ∧
      m = (timingData x.reads (reflexAct (psBook s ⟨d, data⟩)) x.pl).telemetry := by
  unfold processorTurn at sent
  cases request : parseRequest data with
  | skip => simp [request] at sent
  | ping h =>
    simp only [request, Option.mem_def, Option.some.injEq] at sent
    have short : socTelemetry reply = none := by
      rw [socTelemetry, if_neg]
      rw [← sent, length_packHdr]
      decide
    rw [short] at read
    cases read
  | deltas h d =>
    refine ⟨h, d, rfl, ?_⟩
    simp only [request, Option.mem_def] at sent
    obtain ⟨feat, -, rfl⟩ := Option.map_eq_some_iff.mp sent
    cases enableTiming with
    | false =>
      have short (r : FeatureReply.Reply) : socTelemetry r.bytes = none := by
        rw [socTelemetry, Reply.length_bytes, if_neg (by decide)]
      simp [senderThread, short] at read
    | true =>
      have trailer := socTelemetry_timed (BitVec.ofNat 16 h.flagsBe) (BitVec.ofNat 32 h.seqBe)
        (BitVec.ofNat 64 h.tSendBe) x.now feat
        (timingData x.reads (reflexAct (psBook s ⟨d, data⟩)) x.pl)
      rw [timed] at trailer
      simp only [if_true, trailer, Option.mem_def, Option.some.injEq] at read
      exact read.symm

theorem reflexAct_lt (s : PsState) : reflexAct s < 2 ^ 32 := by
  unfold reflexAct
  dsimp only
  split_ifs <;> decide

def bidPacket (seq : BitVec 32) (tSendNs : BitVec 64) (price qty : BitVec 32) : List Byte :=
  packHdr lobV1MsgDeltas 0x8001 seq tSendNs 0 ++ packDelta ⟨price, qty, 0, 0, 1, 0⟩

theorem parseRequest_bidPacket (seq : BitVec 32) (tSendNs : BitVec 64) (price qty : BitVec 32) :
    parseRequest (bidPacket seq tSendNs price qty) =
      .deltas (unpackHdr (bidPacket seq tSendNs price qty))
        { reset := false, cnt := 384, tSendNs := byteSwap 8 tSendNs.toNat } := by
  rw [bidPacket, parseRequest_packHdr]
  rfl

theorem deltasOf_bidPacket (seq : BitVec 32) (tSendNs : BitVec 64) (price qty : BitVec 32) :
    deltasOf (bidPacket seq tSendNs price qty) = [⟨price.toInt, qty.toInt, 0, 0, 1⟩] := by
  have delta := readDeltas_wires (packHdr lobV1MsgDeltas 0x8001 seq tSendNs 0)
    [⟨price, qty, 0, 0, 1, 0⟩]
  have one : min 384 (((bidPacket seq tSendNs price qty).length - lobV1HdrLen) / lobV1DeltaLen) =
      1 := by
    rw [bidPacket, List.length_append, length_packHdr, ← wire_eq_packDelta, LobPacket.length_wire]
    rfl
  rw [List.flatMap_singleton, wire_eq_packDelta, length_packHdr] at delta
  rw [deltasOf, parseRequest_bidPacket]
  dsimp only
  rw [one]
  exact delta

def NoAsk : Sides := fun _ ask => (ask.get 0).q = 0

theorem noAsk_empty : NoAsk emptySide emptySide := by
  rw [NoAsk, emptySide_get]

theorem noAsk_psDelta (s : PsState) (d : UnpackedDelta) (h : NoAsk s.bid s.ask)
    (bid : d.side = 0) : NoAsk (psDelta s d).bid (psDelta s d).ask := by
  unfold psDelta askAfter
  split_ifs <;> exact h

theorem reflexAct_of_noAsk {s : PsState} (h : NoAsk s.bid s.ask) : reflexAct s = 0 := by
  have none : (s.ask.get 0).q = 0 := h
  unfold reflexAct
  dsimp only
  rw [if_neg (by omega)]

end HftLatencyLab.ReflexLane
