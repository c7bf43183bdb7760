import HftLatencyLab.FeatureFeed
import HftLatencyLab.ReplayLoop

/-! A lob run of replay-udp through feature_pipeline, from the event file to the feature words.
How the run batches and paces its deltas is not seen in the lower half of the words, the order
flow and the imbalance, and the volatility stays zero: no event is encoded with the action that
sets a price. -/

namespace HftLatencyLab.ReplayedFeatures
open AxiStream ByteOrder LobWire FeatureParser LobPacket FeatureBook FeatureMath FeaturePipeline
  TopOfBook FeatureFeed FeaturesRef ReplayLoop

structure Quotes where
  bidPx : BitVec 32
  askPx : BitVec 32
  bidQty : BitVec 32
  askQty : BitVec 32
  ofi : BitVec 32
deriving DecidableEq

def quotes (v : Visible) : Quotes := ⟨v.bidPx, v.askPx, v.bidQty, v.askQty, v.ofi⟩

def Quotes.powerOn : Quotes := ⟨0, 0, 0, 0, 0⟩

def Quotes.update (q : Quotes) (d : LobV1Delta) : Quotes :=
  let d := parsedDelta d 0 true
  let top := d.level.toNat = 0
  { bidPx := if d.side = 0 ∧ top then actionPrice d q.bidPx else q.bidPx
    askPx := if d.side ≠ 0 ∧ top then actionPrice d q.askPx else q.askPx
    bidQty := if d.side = 0 ∧ top then clampNonneg (actionQty d q.bidQty) else q.bidQty
    askQty := if d.side ≠ 0 ∧ top then clampNonneg (actionQty d q.askQty) else q.askQty
    ofi := updateOfi d q.ofi }

theorem quotes_parsed (v : Visible) (tSendNs : BitVec 64) (ds : List LobV1Delta) :
    quotes ((parsedDeltas tSendNs ds).foldl topUpdate v) = ds.foldl Quotes.update (quotes v) := by
  induction ds generalizing v with
  | nil => rfl
  | cons d ds ih => exact ih _

theorem quotes_record (v : Visible) (tSendNs : BitVec 64) : quotes (record v tSendNs) = quotes v :=
  rfl

theorem quotes_final (v : Visible) (ms : List Datagram) :
    quotes (topMachine.final v (ms.map Datagram.packet)) =
      (ms.flatMap Datagram.deltas).foldl Quotes.update (quotes v) := by
  induction ms generalizing v with
  | nil => rfl
  | cons m ms ih =>
    rw [List.map_cons, Mealy.final_cons, ih, topMachine_next, quotes_record, packet_deltas,
      quotes_parsed, List.flatMap_cons, List.foldl_append]

def lowHalf (word : BitVec 128) : BitVec 64 := word.setWidth 64

def Quotes.lowHalf (q : Quotes) : BitVec 64 :=
  (0 : BitVec 16) ++ topImbalance q.bidQty q.askQty ++ q.ofi

theorem lowHalf_packFeatures (f : Features) :
    lowHalf (packFeatures f) = f.rsv0 ++ f.tobImbQ115 ++ f.ofiQ32 := by
  have ofi := f.ofiQ32.isLt
  have imb := f.tobImbQ115.isLt
  have rsv := f.rsv0.isLt
  apply BitVec.eq_of_toNat_eq
  simp only [lowHalf, packFeatures, BitVec.toNat_setWidth, toNat_append]
  omega

theorem lowHalf_word (v : Visible) (tSendNs : BitVec 64) :
    lowHalf (packFeatures (features v tSendNs)) = (quotes v).lowHalf := by
  rw [lowHalf_packFeatures]
  rfl

def volField (word : BitVec 128) : BitVec 32 := word.extractLsb' 96 32

theorem volField_packFeatures (f : Features) : volField (packFeatures f) = f.volQ1616 := by
  have vol := f.volQ1616.isLt
  have burst := f.burstQ1616.isLt
  have ofi := f.ofiQ32.isLt
  have imb := f.tobImbQ115.isLt
  have rsv := f.rsv0.isLt
  apply BitVec.eq_of_toNat_eq
  rw [volField, BitVec.extractLsb'_toNat, Nat.shiftRight_eq_div_pow]
  simp only [packFeatures, toNat_append]
  omega

structure Unpriced (v : Visible) : Prop where
  bidPx : v.bidPx = 0
  askPx : v.askPx = 0
  midPrev : v.midPrev = 0
  vol : v.vol = 0

theorem volStep_zero (dt : BitVec 32) : volStep 0 dt 0 = 0 := by
  simp [volStep, clampU32]

theorem Unpriced.deltas {v : Visible} (h : Unpriced v) {ds : List Delta}
    (moves : ∀ d ∈ ds, d.action ≠ 0) : Unpriced (ds.foldl topUpdate v) := by
  induction ds generalizing v with
  | nil => exact h
  | cons d ds ih =>
    have kept : d.action ≠ 0 := moves d List.mem_cons_self
    refine ih ?_ (fun e mem => moves e (List.mem_cons_of_mem d mem))
    have price (old : BitVec 32) : actionPrice d old = old := if_neg kept
    exact ⟨by simp only [topUpdate, price, ite_self, h.bidPx],
      by simp only [topUpdate, price, ite_self, h.askPx], h.midPrev, h.vol⟩

theorem Unpriced.features_vol {v : Visible} (h : Unpriced v) (tSendNs : BitVec 64) :
    (features v tSendNs).volQ1616 = 0 := by
  have mid : midNow v.bidPx v.askPx = 0 := by
    rw [h.bidPx, h.askPx]
    decide
  have still : dpAbs (midNow v.bidPx v.askPx) v.midPrev = 0 := by
    rw [mid, h.midPrev]
    decide
  change volStep v.vol _ (dpAbs (midNow v.bidPx v.askPx) v.midPrev) = 0
  rw [still, h.vol, volStep_zero]

theorem Unpriced.record {v : Visible} (h : Unpriced v) (tSendNs : BitVec 64) :
    Unpriced (record v tSendNs) where
  bidPx := h.bidPx
  askPx := h.askPx
  midPrev := by
    change midNow v.bidPx v.askPx = 0
    rw [h.bidPx, h.askPx]
    decide
  vol := h.features_vol tSendNs

theorem vol_of_unpriced {v : Visible} (h : Unpriced v) {ps : List FeatureParser.Packet}
    (moves : ∀ p ∈ ps, ∀ d ∈ p.deltas, d.action ≠ 0) :
    ∀ beat ∈ topMachine.outputs v ps, volField beat.axo.data = 0 := by
  induction ps generalizing v with
  | nil => simp
  | cons p ps ih =>
    have read := h.deltas (moves p List.mem_cons_self)
    rw [Mealy.outputs_cons, topMachine_next, topMachine_out]
    intro beat mem
    rcases List.mem_cons.mp mem with rfl | later
    · rw [beatOf, volField_packFeatures]
      exact read.features_vol p.tSendNs
    · exact ih (read.record p.tSendNs) (fun q hq => moves q (List.mem_cons_of_mem p hq)) beat later

variable {ρ : Type} {cfg : Config ρ} {file : List Byte} {clk : Clock} {r : Sender}

theorem sent_batching (pos : 1 ≤ cfg.batch) (limit : cfg.batch ≤ 32767)
    (run : cfg.lobMode file clk = some r) :
    r.sent.flatMap ReplayLoop.Packet.deltas = cfg.encodings (fgetsLines file) ∧
      ∀ i (h : i < r.sent.length), WellSent cfg.batch i r.sent[i] := by
  obtain ⟨s, loop, done⟩ := Option.bind_eq_some_iff.mp run
  obtain ⟨room, inv⟩ := readLoop_kept pos limit loop
  rcases finish_cases done with ⟨empty, rfl⟩ | ⟨left, tSend, rfl⟩
  · refine ⟨?_, inv.packets⟩
    rw [← inv.kept, empty, List.append_nil]
  · refine ⟨?_, inv.sent limit left (by omega) tSend⟩
    rw [← inv.kept]
    simp [Sender.flush, Sender.packet]

theorem datagram_of_wellSent {batch i : ℕ} {p : ReplayLoop.Packet} (sent : WellSent batch i p)
    (limit : batch ≤ 32767) :
    ∃ m : Datagram, m.bytes = p.bytes ∧ m.deltas = p.deltas ∧ m.tSend = p.tSend := by
  have room := sent.atMost
  let m : Datagram := ⟨decide (i = 0), p.seq, p.tSend, p.deltas, by omega⟩
  have count := fcnt_count m
  have high := fcnt_reset m
  have flags : m.fcnt = p.fcnt := by
    apply BitVec.eq_of_toNat_eq
    have low (f : BitVec 16) : (f &&& 0x7FFF).toNat = f.toNat % 2 ^ 15 := by
      rw [BitVec.toNat_and]
      exact Nat.and_two_pow_sub_one_eq_mod _ 15
    have same : m.fcnt.toNat % 2 ^ 15 = p.fcnt.toNat % 2 ^ 15 := by
      rw [← low, ← low, count, sent.count]
    have top : m.fcnt.toNat.testBit 15 = p.fcnt.toNat.testBit 15 := high.trans sent.reset.symm
    rw [Nat.testBit_eq_decide_div_mod_eq, Nat.testBit_eq_decide_div_mod_eq, decide_eq_decide] at top
    have mLt := m.fcnt.isLt
    have pLt := p.fcnt.isLt
    omega
  refine ⟨m, ?_, rfl, rfl⟩
  rw [Datagram.bytes, ReplayLoop.Packet.bytes, flags]

theorem datagrams_of_sent {batch : ℕ} (limit : batch ≤ 32767) {ps : List ReplayLoop.Packet}
    (sent : ∀ i (h : i < ps.length), WellSent batch i ps[i]) :
    ∃ ms : List Datagram, ms.map Datagram.bytes = ps.map ReplayLoop.Packet.bytes ∧
      ms.map Datagram.deltas = ps.map ReplayLoop.Packet.deltas := by
  have each (p : ReplayLoop.Packet) (mem : p ∈ ps) :
      ∃ m : Datagram, m.bytes = p.bytes ∧ m.deltas = p.deltas := by
    obtain ⟨i, inside, rfl⟩ := List.mem_iff_getElem.mp mem
    obtain ⟨m, bytes, deltas, -⟩ := datagram_of_wellSent (sent i inside) limit
    exact ⟨m, bytes, deltas⟩
  clear sent
  induction ps with
  | nil => exact ⟨[], rfl, rfl⟩
  | cons p ps ih =>
    obtain ⟨m, bytes, deltas⟩ := each p List.mem_cons_self
    obtain ⟨ms, allBytes, allDeltas⟩ := ih fun q mem => each q (List.mem_cons_of_mem p mem)
    exact ⟨m :: ms, by simp [bytes, allBytes], by simp [deltas, allDeltas]⟩

def replayedBeats (depth : Option ℕ) (r : Sender) : List FeatureBeat :=
  (featurePipeline depth .powerOn (r.sent.flatMap fun p => toBeats p.bytes)).fired.map Prod.snd

def replayedWords (depth : Option ℕ) (r : Sender) : List (BitVec 128) :=
  (replayedBeats depth r).map fun beat => beat.axo.data

theorem replayedBeats_eq {depth : Option ℕ} {ms : List Datagram}
    (bytes : ms.map Datagram.bytes = r.sent.map ReplayLoop.Packet.bytes)
    (fits : ∀ m ∈ ms, m.deltas.length ≤ 128 ∧ ∀ n ∈ depth, m.deltas.length ≤ n) :
    replayedBeats depth r = topMachine.outputs (visible .powerOn) (ms.map Datagram.packet) := by
  have beats : (r.sent.flatMap fun p => toBeats p.bytes) =
      (ms.map Datagram.packet).flatMap Packet.beats := by
    have sent : (r.sent.flatMap fun p => toBeats p.bytes) =
        (r.sent.map ReplayLoop.Packet.bytes).flatMap toBeats := by
      rw [List.flatMap_map]
    rw [sent, ← bytes, List.flatMap_map, List.flatMap_map]
    exact List.flatMap_congr fun m _ => toBeats_bytes m
  have inside : ∀ p ∈ ms.map Datagram.packet, p.InLimit ∧ ∀ n ∈ depth, p.count ≤ n := by
    intro p mem
    obtain ⟨m, hm, rfl⟩ := List.mem_map.mp mem
    rw [FeatureParser.Packet.InLimit, packet_count]
    exact fits m hm
  have fired : (expectedBeats .powerOn (ms.map Datagram.packet)).map Prod.snd =
      packetMachine.outputs .powerOn (ms.map Datagram.packet) :=
    List.map_snd_zip (by simp)
  rw [replayedBeats, beats, featurePipeline_all depth _ _ inside, fired,
    outputs_visible idle_powerOn]

theorem quotes_powerOn : quotes (visible .powerOn) = .powerOn := rfl

theorem unpriced_powerOn : Unpriced (visible .powerOn) := ⟨rfl, rfl, rfl, rfl⟩

theorem replayDelta_action {conv : Conv ρ} {row : Row ρ} {d : LobV1Delta}
    (encoded : replayDelta conv row = some d) : d.action.setWidth 2 ≠ (0 : BitVec 2) := by
  obtain ⟨⟨action, qty⟩, chosen, rfl⟩ := Option.map_eq_some_iff.mp encoded
  have codes : action = 1 ∨ action = 2 ∨ action = 3 := by
    unfold replayAction at chosen
    split at chosen <;> cases chosen <;> simp
  change action.setWidth 2 ≠ (0 : BitVec 2)
  rcases codes with rfl | rfl | rfl <;> decide

theorem action_of_encodings {d : LobV1Delta} {lines : List (List Byte)}
    (mem : d ∈ cfg.encodings lines) : d.action.setWidth 2 ≠ (0 : BitVec 2) := by
  obtain ⟨line, -, encoded⟩ := List.mem_filterMap.mp mem
  obtain ⟨row, -, encoded⟩ := Option.bind_eq_some_iff.mp encoded
  exact replayDelta_action encoded

theorem mem_parsedDeltas {tSendNs : BitVec 64} {ds : List LobV1Delta} {d : Delta}
    (mem : d ∈ parsedDeltas tSendNs ds) :
    ∃ e ∈ ds, d.action = e.action.setWidth 2 ∧ d.level = e.level := by
  induction ds with
  | nil => simp [parsedDeltas] at mem
  | cons e ds ih =>
    rcases List.mem_cons.mp mem with rfl | later
    · exact ⟨e, List.mem_cons_self, rfl, rfl⟩
    · obtain ⟨e', mem', same⟩ := ih later
      exact ⟨e', List.mem_cons_of_mem e mem', same⟩

section Run

variable {depth : Option ℕ} (pos : 1 ≤ cfg.batch) (limit : cfg.batch ≤ 128)
  (room : ∀ n ∈ depth, cfg.batch ≤ n) (run : cfg.lobMode file clk = some r)
include pos limit room run

theorem beats_of_run :
    ∃ ms : List Datagram, ms.map Datagram.deltas = r.sent.map ReplayLoop.Packet.deltas ∧
      ms.flatMap Datagram.deltas = cfg.encodings (fgetsLines file) ∧
      replayedBeats depth r =
        topMachine.outputs (visible .powerOn) (ms.map Datagram.packet) := by
  obtain ⟨kept, sent⟩ := sent_batching pos (by omega) run
  obtain ⟨ms, bytes, deltas⟩ := datagrams_of_sent (by omega) sent
  refine ⟨ms, deltas, ?_, replayedBeats_eq bytes fun m mem => ?_⟩
  · rw [← kept, List.flatMap_def, List.flatMap_def, deltas]
  · have here : m.deltas ∈ r.sent.map ReplayLoop.Packet.deltas := by
      rw [← deltas]
      exact List.mem_map_of_mem mem
    obtain ⟨p, inSent, same⟩ := List.mem_map.mp here
    obtain ⟨i, inside, rfl⟩ := List.mem_iff_getElem.mp inSent
    have atMost := (sent i inside).atMost
    rw [← same]
    exact ⟨by omega, fun n hn => atMost.trans (room n hn)⟩

theorem replayed_last : ∀ beat ∈ replayedBeats depth r, beat.axo.last = true := by
  obtain ⟨ms, -, -, beats⟩ := beats_of_run pos limit room run
  rw [beats]
  intro beat mem
  obtain ⟨pre, p, post, -, rfl⟩ := (Mealy.mem_outputs _ _ _ _).mp mem
  rfl

/-- Replayed market data has no volatility: whatever the file, the batches and the clock, there
is one word for each packet, and its volatility is zero. -/
theorem replayed_vol_zero :
    (replayedWords depth r).length = r.sent.length ∧
      ∀ word ∈ replayedWords depth r, volField word = 0 := by
  obtain ⟨ms, deltas, kept, beats⟩ := beats_of_run pos limit room run
  have count : ms.length = r.sent.length := by
    have mapped := congrArg List.length deltas
    rwa [List.length_map, List.length_map] at mapped
  rw [replayedWords, beats]
  refine ⟨by simp [count], fun word mem => ?_⟩
  obtain ⟨beat, fired, rfl⟩ := List.mem_map.mp mem
  refine vol_of_unpriced unpriced_powerOn (fun p hp d hd => ?_) beat fired
  obtain ⟨m, hm, rfl⟩ := List.mem_map.mp hp
  rw [packet_deltas] at hd
  obtain ⟨e, he, action, -⟩ := mem_parsedDeltas hd
  have encoded : e ∈ cfg.encodings (fgetsLines file) := by
    rw [← kept]
    exact List.mem_flatMap.mpr ⟨m, hm, he⟩
  rw [action]
  exact action_of_encodings encoded

omit pos limit room run in
theorem replayed_vol_zero_sample :
    ∃ r, sampleConfig.lobMode sampleFile [1000, 0, 10, 20, 21, 22, 30, 40] = some r ∧
      ∀ word ∈ replayedWords (some 8) r, volField word = 0 := by
  have ends : (sampleConfig.lobMode sampleFile [1000, 0, 10, 20, 21, 22, 30, 40]).isSome := by
    decide +kernel
  obtain ⟨r, run⟩ := Option.isSome_iff_exists.mp ends
  exact ⟨r, run, (replayed_vol_zero (by decide) (by decide) (by decide) run).2⟩

theorem lowHalf_replayed {i : ℕ} (inside : i < r.sent.length) :
    (replayedWords depth r)[i]?.map lowHalf =
      some (((cfg.encodings (fgetsLines file)).take
        ((r.sent.take (i + 1)).flatMap ReplayLoop.Packet.deltas).length).foldl Quotes.update
          .powerOn).lowHalf := by
  obtain ⟨ms, deltas, kept, beats⟩ := beats_of_run pos limit room run
  have count : ms.length = r.sent.length := by
    have mapped := congrArg List.length deltas
    rwa [List.length_map, List.length_map] at mapped
  -- What has been sent is the same taken packet by packet.
  have sofar : (r.sent.take (i + 1)).flatMap ReplayLoop.Packet.deltas =
      (ms.take (i + 1)).flatMap Datagram.deltas := by
    rw [List.flatMap_def, List.flatMap_def, List.map_take, List.map_take, deltas]
  have taken : (cfg.encodings (fgetsLines file)).take
      ((ms.take (i + 1)).flatMap Datagram.deltas).length =
        (ms.take (i + 1)).flatMap Datagram.deltas := by
    rw [← kept]
    conv_lhs => rw [← List.take_append_drop (i + 1) ms, List.flatMap_append]
    exact List.take_left' (by simp)
  have here : i < (ms.map Datagram.packet).length := by
    rw [List.length_map, count]
    exact inside
  have final := quotes_final (visible .powerOn) (ms.take (i + 1))
  rw [List.map_take, Mealy.final_take_succ _ _ _ _ here, topMachine_next, quotes_record] at final
  have fired : i < (topMachine.outputs (visible .powerOn) (ms.map Datagram.packet)).length := by
    rw [Mealy.length_outputs]
    exact here
  rw [sofar, taken, replayedWords, beats, List.getElem?_map, List.getElem?_eq_getElem fired,
    Mealy.outputs_getElem _ _ _ _ fired here, topMachine_out, Option.map_some, Option.map_some,
    beatOf, lowHalf_word, final, quotes_powerOn]

end Run

/-- Two runs on one file, however either batches and paces: where the same number of deltas has
been sent, the words have the same order flow and the same imbalance. -/
theorem words_batching_free {cfg' : Config ρ} {clk' : Clock} {r' : Sender} {depth : Option ℕ}
    (pos : 1 ≤ cfg.batch ∧ 1 ≤ cfg'.batch) (limit : cfg.batch ≤ 128 ∧ cfg'.batch ≤ 128)
    (room : ∀ n ∈ depth, cfg.batch ≤ n ∧ cfg'.batch ≤ n)
    (alike : cfg'.scan = cfg.scan ∧ cfg'.conv = cfg.conv)
    (run : cfg.lobMode file clk = some r) (run' : cfg'.lobMode file clk' = some r') {i j : ℕ}
    (inside : i < r.sent.length) (inside' : j < r'.sent.length)
    (abreast : ((r.sent.take (i + 1)).flatMap ReplayLoop.Packet.deltas).length =
      ((r'.sent.take (j + 1)).flatMap ReplayLoop.Packet.deltas).length) :
    (replayedWords depth r)[i]?.map lowHalf = (replayedWords depth r')[j]?.map lowHalf := by
  have first := lowHalf_replayed pos.1 limit.1 (fun n hn => (room n hn).1) run inside
  have second := lowHalf_replayed pos.2 limit.2 (fun n hn => (room n hn).2) run' inside'
  have encoded : cfg'.encodings = cfg.encodings := by
    unfold Config.encodings Config.lineDelta
    rw [alike.1, alike.2]
  rw [first, second, abreast, encoded]

def singleConfig : Config ℤ := { sampleConfig with batch := 1 }

/-- The last words of a run in two packets and of one in three. -/
theorem words_batching_free_sample :
    ∃ r r', sampleConfig.lobMode sampleFile [1000, 0, 10, 20, 21, 22, 30, 40] = some r ∧
      singleConfig.lobMode sampleFile [1000, 0, 10, 11, 12, 20, 21, 22, 30, 31, 32] = some r' ∧
      (replayedWords (some 8) r)[1]?.map lowHalf = (replayedWords (some 8) r')[2]?.map lowHalf := by
  have runs : (sampleConfig.lobMode sampleFile [1000, 0, 10, 20, 21, 22, 30, 40]).any (fun r =>
      (singleConfig.lobMode sampleFile [1000, 0, 10, 11, 12, 20, 21, 22, 30, 31, 32]).any (fun r' =>
        decide (1 < r.sent.length ∧ 2 < r'.sent.length ∧
          ((r.sent.take 2).flatMap ReplayLoop.Packet.deltas).length =
            ((r'.sent.take 3).flatMap ReplayLoop.Packet.deltas).length))) = true := by
    decide +kernel
  obtain ⟨r, run, rest⟩ := (Option.any_eq_true _ _).mp runs
  obtain ⟨r', run', counts⟩ := (Option.any_eq_true _ _).mp rest
  obtain ⟨inside, inside', abreast⟩ := of_decide_eq_true counts
  have pos : 1 ≤ sampleConfig.batch ∧ 1 ≤ singleConfig.batch := by decide
  have limit : sampleConfig.batch ≤ 128 ∧ singleConfig.batch ≤ 128 := by decide
  have room : ∀ n ∈ some 8, sampleConfig.batch ≤ n ∧ singleConfig.batch ≤ n := by decide
  exact ⟨r, r', run, run', words_batching_free pos limit room ⟨rfl, rfl⟩ run run' inside inside'
    abreast⟩

end HftLatencyLab.ReplayedFeatures
