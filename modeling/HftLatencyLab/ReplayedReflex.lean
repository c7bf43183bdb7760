import HftLatencyLab.ReflexLane
import HftLatencyLab.ReplayedFeatures

/-! The reflex lane of the threaded server on the packets of a replay-udp lob run. No event sets
a price, so every book that has quantity on both sides is crossed at zero. -/

namespace HftLatencyLab.ReplayedReflex
open ByteOrder LobWire LobPacket ServerHeader PythonBook ServerFallback FeaturesRef ReplayLoop
  ReplayedFeatures TimingTrailer ReflexLane

def turns (enableTiming : Bool) : Mealy PsState (List Byte × Turn) (Option (List Byte)) where
  step s arrived := processorTurn enableTiming s arrived.1 arrived.2

def NoPrice : Sides := fun bid ask => (bid.get 0).p = 0 ∧ (ask.get 0).p = 0

theorem noPrice_empty : NoPrice emptySide emptySide := by
  simp [NoPrice, emptySide_get]

theorem setLevel_apply_p {side : Vector Level 16} {d : UnpackedDelta} (moves : d.action ≠ 0)
    (k : Fin 16) :
    ((setLevel side d.level (fun l => (l.apply d).clamp)).get k).p = (side.get k).p := by
  rw [setLevel_get]
  split
  · rw [clamp_p, apply_p, if_neg moves]
  · rfl

theorem noPrice_psDelta (s : PsState) (d : UnpackedDelta) (h : NoPrice s.bid s.ask)
    (moves : d.action ≠ 0) : NoPrice (psDelta s d).bid (psDelta s d).ask := by
  by_cases inside : d.level < 16
  · rw [psDelta, if_pos inside, NoPrice, bidAfter, askAfter]
    by_cases side : d.side = 0
    · rw [if_pos side, if_pos side, setLevel_apply_p moves]
      exact h
    · rw [if_neg side, if_neg side, setLevel_apply_p moves]
      exact h
  · rw [psDelta, if_neg inside]
    exact h

theorem reflexAct_of_noPrice {s : PsState} (h : NoPrice s.bid s.ask) :
    reflexAct s = if 0 < (s.bid.get 0).q ∧ 0 < (s.ask.get 0).q then 2 else 0 := by
  obtain ⟨bid, ask⟩ := h
  unfold reflexAct
  dsimp only
  rw [bid, ask]
  rfl

theorem readDeltas_fewer (data : List Byte) (n more pos : ℕ) :
    readDeltas data n pos <+: readDeltas data (n + more) pos := by
  induction n generalizing pos with
  | zero => exact List.nil_prefix
  | succ n ih =>
    rw [Nat.succ_add, readDeltas, readDeltas]
    split
    · exact List.prefix_rfl
    · exact List.cons_prefix_cons.mpr ⟨rfl, ih _⟩

theorem readDeltas_append (data rest : List Byte) (n pos : ℕ) :
    readDeltas data n pos <+: readDeltas (data ++ rest) n pos := by
  induction n generalizing pos with
  | zero => exact List.prefix_rfl
  | succ n ih =>
    by_cases inside : pos + lobV1DeltaLen > data.length
    · rw [readDeltas, if_pos inside]
      exact List.nil_prefix
    · have enough : ¬pos + lobV1DeltaLen > (data ++ rest).length := by
        rw [List.length_append]
        omega
      have same : slice (data ++ rest) pos (pos + lobV1DeltaLen) =
          slice data pos (pos + lobV1DeltaLen) := by
        rw [slice, slice, List.drop_append_of_le_length (by omega), List.take_append_of_le_length]
        rw [List.length_drop]
        omega
      rw [readDeltas, readDeltas, if_neg inside, if_neg enough, same]
      exact List.cons_prefix_cons.mpr ⟨rfl, ih _⟩

theorem deltasOf_datagram (m : Datagram) {data : List Byte} (cut : data <+: m.bytes)
    {d : UnpackedDelta} (mem : d ∈ deltasOf data) : ∃ e ∈ m.deltas, d = e.unpacked := by
  obtain ⟨rest, whole⟩ := cut
  have bytes : m.bytes =
      packHdr lobV1MsgDeltas m.fcnt m.seq m.tSend 0 ++ m.deltas.flatMap LobV1Delta.wire := by
    rw [Datagram.bytes, replayHdr_bytes]
  have body : (m.deltas.flatMap LobV1Delta.wire).length = m.deltas.length * lobV1DeltaLen := by
    rw [List.length_flatMap, List.map_congr_left (fun d _ => length_wire d), List.map_const',
      List.sum_replicate]
    rfl
  have long : data.length + rest.length = lobV1HdrLen + m.deltas.length * lobV1DeltaLen := by
    rw [← List.length_append, whole, bytes, List.length_append, length_packHdr, body]
    rfl
  have all := readDeltas_wires (packHdr lobV1MsgDeltas m.fcnt m.seq m.tSend 0) m.deltas
  rw [length_packHdr, ← bytes] at all
  unfold deltasOf at mem
  split at mem
  · rename_i dec _
    generalize counted : min dec.cnt ((data.length - lobV1HdrLen) / lobV1DeltaLen) = n at mem
    have few : n ≤ m.deltas.length := by
      have room : (data.length - lobV1HdrLen) / lobV1DeltaLen ≤ m.deltas.length :=
        Nat.div_le_of_le_mul (by rw [Nat.mul_comm]; omega)
      exact counted ▸ (min_le_right _ _).trans room
    obtain ⟨more, total⟩ := Nat.exists_eq_add_of_le few
    have short := (readDeltas_append data rest n lobV1HdrLen).trans
      (readDeltas_fewer (data ++ rest) n more lobV1HdrLen)
    rw [← total, whole] at short
    have among := short.subset mem
    rw [show lobV1HdrLen = 32 from rfl, all] at among
    obtain ⟨e, he, rfl⟩ := List.mem_map.mp among
    exact ⟨e, he, rfl⟩
  · cases mem

section Run

variable {ρ : Type} {cfg : Config ρ} {file : List Byte} {clk : Clock} {r : Sender}
  (pos : 1 ≤ cfg.batch) (limit : cfg.batch ≤ 32767) (run : cfg.lobMode file clk = some r)
include pos limit run

theorem deltasOf_sent {data : List Byte}
    (sent : ∃ whole ∈ r.sent.map ReplayLoop.Packet.bytes, data <+: whole) :
    ∀ d ∈ deltasOf data, d.action ≠ 0 := by
  obtain ⟨kept, all⟩ := sent_batching pos limit run
  obtain ⟨_, packet, cut⟩ := sent
  obtain ⟨p, mem, rfl⟩ := List.mem_map.mp packet
  obtain ⟨i, inside, rfl⟩ := List.mem_iff_getElem.mp mem
  obtain ⟨m, bytes, deltas, -⟩ := datagram_of_wellSent (all i inside) limit
  intro d read
  rw [← bytes] at cut
  obtain ⟨e, he, rfl⟩ := deltasOf_datagram m cut read
  rw [deltas] at he
  have encoded : e ∈ cfg.encodings (fgetsLines file) := by
    rw [← kept]
    exact List.mem_flatMap.mpr ⟨_, mem, he⟩
  have moves := action_of_encodings encoded
  intro zero
  refine moves ?_
  have value : e.action.toNat = 0 := zero
  rw [BitVec.eq_of_toNat_eq (x := e.action) (y := 0) value]
  rfl

/-- However the packets reach the server, cut off or whole, and whatever its DMA does: it reports a
crossed book for each packet that leaves quantity on both sides, at whatever prices, and nothing
otherwise. -/
theorem reflex_of_replayed (enableTiming : Bool) {arrived : List (List Byte × Turn)}
    (sent : ∀ a ∈ arrived, ∃ data ∈ r.sent.map ReplayLoop.Packet.bytes, a.1 <+: data)
    {pre : List (List Byte × Turn)} {a : List Byte × Turn} (upTo : pre ++ [a] <+: arrived) :
    ∀ reply ∈ (turns enableTiming).out ((turns enableTiming).final .start pre) a,
      ∀ m ∈ socTelemetry reply,
        let s := (turns enableTiming).final .start (pre ++ [a])
        m.reflexAct = if 0 < (s.bid.get 0).q ∧ 0 < (s.ask.get 0).q then 2 else 0 := by
  have along : (turns enableTiming).Along
      (fun _ a => ∀ d ∈ deltasOf a.1, d.action ≠ 0) .start arrived :=
    Mealy.along_inputs.mpr fun a mem => deltasOf_sent pos limit run (sent a mem)
  have kept := along.prefixes (I := fun s => NoPrice s.bid s.ask)
    (fun s a noPrice moves =>
      (processorTurn_sides enableTiming noPrice_empty noPrice_psDelta noPrice moves a.2).1)
    noPrice_empty ((List.prefix_append pre [a]).trans upTo)
  have moves := deltasOf_sent pos limit run (sent a (upTo.subset (by simp)))
  intro reply out m read
  obtain ⟨-, book⟩ := processorTurn_sides enableTiming noPrice_empty noPrice_psDelta
    kept moves a.2
  obtain ⟨h, d, request, rfl⟩ := telemetry_of_turn out read
  have final : (turns enableTiming).final .start (pre ++ [a]) =
      (processorTurn enableTiming ((turns enableTiming).final .start pre) a.1 a.2).1 := by
    rw [Mealy.final_append]
    rfl
  obtain ⟨bid, ask⟩ := processorTurn_book enableTiming
    ((turns enableTiming).final .start pre) request a.2
  intro s
  change (BitVec.ofNat 32 (reflexAct _)).toNat = _
  rw [BitVec.toNat_ofNat, Nat.mod_eq_of_lt (reflexAct_lt _),
    reflexAct_of_noPrice (book h d request), ← bid, ← ask, ← final]

end Run

def plainTurn : Turn := ⟨0, ⟨1, 2, 3, 4, 5, 6⟩, .off⟩

theorem reflex_of_replayed_two :
    ∃ r, sampleConfig.lobMode (buyLine ++ sellLine) [0, 0, 10, 11, 12, 20, 30] = some r ∧
      ∃ first second, r.sent.map ReplayLoop.Packet.bytes = [first, second] ∧
        (∃ reply ∈ (turns true).out .start (first, plainTurn),
          ∃ m ∈ socTelemetry reply, m.reflexAct = 0) ∧
        ∃ reply ∈ (turns true).out ((turns true).final .start [(first, plainTurn)])
            (second, plainTurn),
          ∃ m ∈ socTelemetry reply, m.reflexAct = 2 := by
  have runs : (sampleConfig.lobMode (buyLine ++ sellLine) [0, 0, 10, 11, 12, 20, 30]).any (fun r =>
      let first := (r.sent.map ReplayLoop.Packet.bytes).getD 0 []
      let second := (r.sent.map ReplayLoop.Packet.bytes).getD 1 []
      let s := (turns true).next .start (first, plainTurn)
      let t := (turns true).next s (second, plainTurn)
      decide (r.sent.map ReplayLoop.Packet.bytes = [first, second] ∧
        (((turns true).out .start (first, plainTurn)).bind socTelemetry).isSome ∧
        (((turns true).out s (second, plainTurn)).bind socTelemetry).isSome ∧
        ¬(0 < (s.bid.get 0).q ∧ 0 < (s.ask.get 0).q) ∧
        0 < (t.bid.get 0).q ∧ 0 < (t.ask.get 0).q)) = true := by
    decide +kernel
  obtain ⟨r, run, counts⟩ := (Option.any_eq_true _ _).mp runs
  obtain ⟨sent, read, read', oneSided, bid, ask⟩ := of_decide_eq_true counts
  generalize (r.sent.map ReplayLoop.Packet.bytes).getD 0 [] = first,
    (r.sent.map ReplayLoop.Packet.bytes).getD 1 [] = second at *
  have arrived : ∀ a ∈ [(first, plainTurn), (second, plainTurn)],
      ∃ data ∈ r.sent.map ReplayLoop.Packet.bytes, a.1 <+: data := by
    intro a mem
    refine ⟨a.1, ?_, List.prefix_rfl⟩
    rw [sent]
    simpa using List.mem_map_of_mem (f := Prod.fst) mem
  have reflex (pre : List (List Byte × Turn)) {a : List Byte × Turn} :=
    @reflex_of_replayed _ _ _ _ _ (show 1 ≤ sampleConfig.batch by decide)
      (show sampleConfig.batch ≤ 32767 by decide) run true _ arrived pre a
  refine ⟨r, run, first, second, sent, ?_, ?_⟩
  · obtain ⟨m, found⟩ := Option.isSome_iff_exists.mp read
    obtain ⟨reply, out, telemetry⟩ := Option.bind_eq_some_iff.mp found
    have value := reflex [] ⟨_, rfl⟩ reply out m telemetry
    exact ⟨reply, out, m, telemetry, value.trans (if_neg oneSided)⟩
  · obtain ⟨m, found⟩ := Option.isSome_iff_exists.mp read'
    obtain ⟨reply, out, telemetry⟩ := Option.bind_eq_some_iff.mp found
    have value := reflex [(first, plainTurn)] List.prefix_rfl reply out m telemetry
    exact ⟨reply, out, m, telemetry, value.trans (if_pos ⟨bid, ask⟩)⟩

end HftLatencyLab.ReplayedReflex
