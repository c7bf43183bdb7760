import HftLatencyLab.FeatureMath
import HftLatencyLab.StreamPump

/-! The packet pump of feature_pipeline.cpp. One turn parses a packet into `ds`,
then drains `ds` into the book, then emits one beat: writer and reader of `ds`
take turns inside one loop, they never overlap. `packetMachine` is the same
turn seen packet by packet, and the pump follows it as long as the parser reads
whole packets and `ds` holds their deltas. -/

namespace HftLatencyLab.FeaturePipeline
open AxiStream FeatureParser FeatureBook FeatureMath

/-- `range(31, 0)` is the last operand, `range(127, 96)` the first. -/
def packFeatures (f : Features) : BitVec 128 :=
  f.volQ1616 ++ f.burstQ1616 ++ f.rsv0 ++ f.tobImbQ115 ++ f.ofiQ32

/-- What one turn drives: the beat, the completion pulse and the debug register. -/
structure FeatureBeat where
  axo : Axis128
  featDonePulse : Bool
  featDbgCycles : BitVec 32
deriving DecidableEq

def startMeasure (r : Regs) : Regs :=
  let r := if r.measuring then r else { r with cyc := 0, measuring := true }
  if r.measuring then { r with cyc := r.cyc + 1 } else r

def emit (r : Regs) (tSendNs : BitVec 64) : Regs × FeatureBeat :=
  let (r, f) := computeFeatures tSendNs r
  ({ r with measuring := false },
   { axo := { data := packFeatures f, keep := 0xFFFF, strb := 0xFFFF, last := true }
     featDonePulse := true
     featDbgCycles := r.cyc })

variable {depth : Option ℕ}

def consumeDeltas : ℕ → Regs → BoundedFifo Delta depth →
    Except Blocked (Regs × BoundedFifo Delta depth)
  | 0, r, ds => .ok (r, ds)
  | n + 1, r, ds =>
    match ds.read? with
    | none => .error .dsEmpty
    | some (d, ds) => consumeDeltas n (updateBook r d) ds

structure PumpState (depth : Option ℕ) where
  regs : Regs
  ds : BoundedFifo Delta depth

def idle (depth : Option ℕ) (r : Regs) : PumpState depth := ⟨r, .empty⟩

/-- One turn of `while (1)`. -/
def pumpTurn (s : PumpState depth) (inAxis : List Axis64) :
    Except Blocked (PumpState depth × List Axis64 × FeatureBeat) := do
  let r := startMeasure s.regs
  let p ← parseStreamOnePacket inAxis s.ds
  if p.packetDeltaCount = 0 then
    let (r, beat) := emit r p.packetTSendNs
    return (⟨r, p.outDeltas⟩, p.inAxis, beat)
  let (r, ds) ← consumeDeltas p.packetDeltaCount.toNat r p.outDeltas
  let (r, beat) := emit r p.packetTSendNs
  return (⟨r, ds⟩, p.inAxis, beat)

theorem pumpTurn_length (s s' : PumpState depth) (inAxis rest : List Axis64) (beat : FeatureBeat)
    (h : pumpTurn s inAxis = .ok (s', rest, beat)) : rest.length < inAxis.length := by
  unfold pumpTurn at h
  cases parsed : parseStreamOnePacket inAxis s.ds with
  | error e => simp [parsed, bind, Except.bind] at h
  | ok p =>
    have shorter := parse_length inAxis s.ds p parsed
    simp only [parsed, bind, Except.bind, pure, Except.pure] at h
    split at h
    · cases h
      omega
    · split at h
      · cases h
      · cases h
        omega

def pump (depth : Option ℕ) : StreamPump (PumpState depth) Axis64 FeatureBeat Blocked where
  fire := pumpTurn
  consumes s ins s' rest o h := pumpTurn_length s s' ins rest o h

/-- feature_pipeline on a finite input, with `ds` of the given depth. -/
def featurePipeline (depth : Option ℕ) (r : Regs) (inAxis : List Axis64) :
    StreamPump.Trace FeatureBeat Blocked :=
  (pump depth).run (idle depth r) inAxis

def packetMachine : Mealy Regs Packet FeatureBeat where
  step r p := emit (p.deltas.foldl updateBook (startMeasure r)) p.tSendNs

/-- What the stream `ps` should make of the registers `r`: after exactly the
beats of each packet, its feature over all and only the deltas up to it. -/
def expectedBeats (r : Regs) (ps : List Packet) : List (ℕ × FeatureBeat) :=
  (ps.map (fun p => p.beats.length)).zip (packetMachine.outputs r ps)

theorem consumeDeltas_items (n : ℕ) (r : Regs) (ds : BoundedFifo Delta depth)
    (h : ds.items.length = n) :
    consumeDeltas n r ds = .ok (ds.items.foldl updateBook r, .empty) := by
  induction n generalizing r ds with
  | zero =>
    have none : ds.items = [] := List.length_eq_zero_iff.mp h
    have same : ds = .empty := BoundedFifo.ext none
    simp [same, consumeDeltas]
  | succ n ih =>
    obtain ⟨d, rest, items⟩ := List.exists_cons_of_length_eq_add_one h
    obtain ⟨ds', read, items'⟩ := BoundedFifo.read?_of_cons items
    have short : ds'.items.length = n := by
      rw [items']
      rw [items, List.length_cons] at h
      omega
    simp only [consumeDeltas, read]
    rw [ih _ ds' short, items, items', List.foldl_cons]

theorem pumpTurn_parsed (r : Regs) (inAxis : List Axis64) (p : Parsed depth)
    (parsed : parseStreamOnePacket inAxis (.empty : BoundedFifo Delta depth) = .ok p)
    (count : p.packetDeltaCount.toNat = p.outDeltas.items.length) :
    let r' := p.outDeltas.items.foldl updateBook (startMeasure r)
    pumpTurn (idle depth r) inAxis =
      .ok (idle depth (emit r' p.packetTSendNs).1, p.inAxis, (emit r' p.packetTSendNs).2) := by
  unfold pumpTurn idle
  simp only [parsed, bind, Except.bind, pure, Except.pure]
  by_cases zero : p.packetDeltaCount = 0
  · have none : p.outDeltas.items = [] := by
      rw [zero] at count
      exact List.length_eq_zero_iff.mp count.symm
    have same : p.outDeltas = .empty := BoundedFifo.ext none
    rw [if_pos zero, same]
    rfl
  · rw [if_neg zero, consumeDeltas_items _ _ _ count.symm]

theorem pumpTurn_packet (r : Regs) (p : Packet) (rest : List Axis64) (limit : p.InLimit)
    (fits : ∀ n ∈ depth, p.count ≤ n) :
    pumpTurn (idle depth r) (p.beats ++ rest) =
      .ok (idle depth (packetMachine.next r p), rest, packetMachine.out r p) := by
  obtain ⟨q, parsed, ins, items, count, time⟩ := parse_packet depth p rest limit fits
  have turn := pumpTurn_parsed r _ q parsed (by rw [count, items, Packet.length_deltas])
  rw [turn, ins, items, time]
  rfl

theorem pumpTurn_clamped (r : Regs) (p : Packet) (rest : List Axis64) :
    ∃ s beat, pumpTurn (idle none r) (p.beats ++ rest) =
      .ok (s, deltaBeats (p.body.drop p.taken) ++ rest, beat) := by
  obtain ⟨q, parsed, ins, items, count, -⟩ := parse_ok none p rest (by simp)
  have turn := pumpTurn_parsed r _ q parsed (by
    rw [count, items, length_decodeBody, List.length_take, min_eq_left p.taken_le_body])
  exact ⟨_, _, by rw [turn, ins]⟩

theorem pumpTurn_full {n : ℕ} (r : Regs) (p : Packet) (rest : List Axis64) (surplus : n < p.taken) :
    pumpTurn (idle (some n) r) (p.beats ++ rest) = .error .dsFull := by
  unfold pumpTurn idle
  simp only [parse_full p rest surplus, bind, Except.bind]

theorem featurePipeline_packets (depth : Option ℕ) (r : Regs) (ps : List Packet)
    (fits : ∀ p ∈ ps, p.InLimit ∧ ∀ n ∈ depth, p.count ≤ n) (rest : List Axis64) :
    featurePipeline depth r (ps.flatMap Packet.beats ++ rest) =
      ⟨expectedBeats r ps ++ (featurePipeline depth (packetMachine.final r ps) rest).fired,
        (featurePipeline depth (packetMachine.final r ps) rest).stopped⟩ :=
  (pump depth).run_blocks packetMachine (idle depth) Packet.beats _
    (fun r p rest ok => pumpTurn_packet r p rest ok.1 ok.2) r ps fits rest

theorem featurePipeline_nil (depth : Option ℕ) (r : Regs) :
    featurePipeline depth r [] = ⟨[], some .inAxisEmpty⟩ :=
  (pump depth).run_error rfl

theorem featurePipeline_all (depth : Option ℕ) (r : Regs) (ps : List Packet)
    (fits : ∀ p ∈ ps, p.InLimit ∧ ∀ n ∈ depth, p.count ≤ n) :
    featurePipeline depth r (ps.flatMap Packet.beats) =
      ⟨expectedBeats r ps, some .inAxisEmpty⟩ := by
  have h := featurePipeline_packets depth r ps fits []
  rwa [List.append_nil, featurePipeline_nil, List.append_nil] at h

theorem featurePipeline_cons (depth : Option ℕ) (r : Regs) (p : Packet) (ps : List Packet)
    (limit : p.InLimit) (fits : ∀ n ∈ depth, p.count ≤ n) :
    featurePipeline depth r ((p :: ps).flatMap Packet.beats) =
      ⟨(p.beats.length, packetMachine.out r p) ::
          (featurePipeline depth (packetMachine.next r p) (ps.flatMap Packet.beats)).fired,
        (featurePipeline depth (packetMachine.next r p) (ps.flatMap Packet.beats)).stopped⟩ := by
  have h := featurePipeline_packets depth r [p] (by simpa using ⟨limit, fits⟩)
    (ps.flatMap Packet.beats)
  simpa [expectedBeats] using h

theorem expectedBeats_cons (r : Regs) (p : Packet) (ps : List Packet) :
    expectedBeats r (p :: ps) =
      (p.beats.length, packetMachine.out r p) :: expectedBeats (packetMachine.next r p) ps := rfl

def featureMachine : Mealy Regs Packet Features where
  step r p :=
    let (r, f) := computeFeatures p.tSendNs (p.deltas.foldl updateBook (startMeasure r))
    ({ r with measuring := false }, f)

def featWords (depth : Option ℕ) (r : Regs) (inAxis : List Axis64) : List (BitVec 128) :=
  (featurePipeline depth r inAxis).fired.map (fun o => o.2.axo.data)

theorem packetMachine_words (r : Regs) (ps : List Packet) :
    (packetMachine.outputs r ps).map (fun o => o.axo.data) =
      (featureMachine.outputs r ps).map packFeatures := by
  induction ps generalizing r with
  | nil => rfl
  | cons p ps ih =>
    rw [Mealy.outputs_cons, Mealy.outputs_cons, List.map_cons, List.map_cons, ih]
    rfl

theorem featWords_all (depth : Option ℕ) (r : Regs) (ps : List Packet)
    (fits : ∀ p ∈ ps, p.InLimit ∧ ∀ n ∈ depth, p.count ≤ n) :
    featWords depth r (ps.flatMap Packet.beats) =
      (featureMachine.outputs r ps).map packFeatures := by
  rw [featWords, featurePipeline_all depth r ps fits, ← packetMachine_words]
  have beats : (expectedBeats r ps).map Prod.snd = packetMachine.outputs r ps :=
    List.map_snd_zip (by simp)
  rw [← beats, List.map_map]
  rfl

/-- Every feature leaves after exactly the beats of its packet, one for each
packet, and counts exactly the deltas up to there. `ds` is unbounded here, as
in C simulation. -/
def FramingKept (r : Regs) (ps : List Packet) : Prop :=
  (featurePipeline none r (ps.flatMap Packet.beats)).fired = expectedBeats r ps

theorem fired_head (r : Regs) (p : Packet) (ps : List Packet) :
    ∃ beat later, (featurePipeline none r ((p :: ps).flatMap Packet.beats)).fired =
      (4 + 2 * p.taken, beat) :: later := by
  obtain ⟨s, beat, turn⟩ := pumpTurn_clamped r p (ps.flatMap Packet.beats)
  have fired := (pump none).run_ok turn
  have body := p.taken_le_body
  have total : p.body.length = p.count := p.framed
  have consumed : (p.beats ++ ps.flatMap Packet.beats).length -
      (deltaBeats (p.body.drop p.taken) ++ ps.flatMap Packet.beats).length = 4 + 2 * p.taken := by
    simp only [List.length_append, Packet.length_beats, length_deltaBeats, List.length_drop]
    omega
  rw [consumed] at fired
  exact ⟨beat, _, by rw [featurePipeline, List.flatMap_cons, fired]⟩

theorem inLimit_of_framing (r : Regs) (p : Packet) (ps : List Packet)
    (kept : FramingKept r (p :: ps)) : p.InLimit := by
  obtain ⟨beat, later, fired⟩ := fired_head r p ps
  have same := fired.symm.trans kept
  rw [expectedBeats_cons, List.cons.injEq, Prod.mk.injEq, Packet.length_beats] at same
  have head := same.1.1
  unfold Packet.taken at head
  unfold Packet.InLimit
  omega

/-- The clamp of the delta count leaves the rest of an oversized packet in the
stream, where its beats are then read as a header. -/
theorem framing_kept_iff (r : Regs) (ps : List Packet) :
    FramingKept r ps ↔ ∀ p ∈ ps, p.count ≤ 128 := by
  constructor
  · intro kept
    induction ps generalizing r with
    | nil => simp
    | cons p ps ih =>
      have limit := inLimit_of_framing r p ps kept
      have tail : FramingKept (packetMachine.next r p) ps := by
        unfold FramingKept at kept
        rw [featurePipeline_cons none r p ps limit (by simp), expectedBeats_cons] at kept
        exact List.tail_eq_of_cons_eq kept
      intro q hq
      rcases List.mem_cons.mp hq with rfl | hq
      · exact limit
      · exact ih _ tail q hq
  · intro limits
    rw [FramingKept, featurePipeline_all none r ps (fun p hp => ⟨limits p hp, by simp⟩)]

def blankPacket (hdr0 : BitVec 64) : Packet where
  hdr0 := ⟨hdr0, 0xFF, 0xFF, false⟩
  hdr1 := ⟨0, 0xFF, 0xFF, false⟩
  hdr2 := ⟨0, 0xFF, 0xFF, false⟩
  hdr3 := ⟨0, 0xFF, 0xFF, false⟩
  body := List.replicate (headerCount hdr0).toNat (⟨0, 0xFF, 0xFF, false⟩, ⟨0, 0xFF, 0xFF, false⟩)
  framed := List.length_replicate

/-- One packet of 129 deltas is enough. -/
theorem framing_lost_at_129 :
    (blankPacket 0x8100000000000000).count = 129 ∧
      ¬FramingKept .powerOn [blankPacket 0x8100000000000000] := by
  have count : (blankPacket 0x8100000000000000).count = 129 := by decide
  refine ⟨count, fun kept => ?_⟩
  have limit := inLimit_of_framing _ _ _ kept
  unfold Packet.InLimit at limit
  omega

/-- `#pragma HLS STREAM depth=8 variable=ds` -/
def dsDepth : ℕ := 8

/-- No write finds `ds` full, and every packet is parsed, consumed and answered. -/
structure DsKeepsUp (r : Regs) (ps : List Packet) : Prop where
  neverFull : (featurePipeline (some dsDepth) r (ps.flatMap Packet.beats)).stopped ≠ some .dsFull
  answered : (featurePipeline (some dsDepth) r (ps.flatMap Packet.beats)).fired = expectedBeats r ps

theorem stopped_full (r : Regs) (p : Packet) (ps : List Packet) (surplus : dsDepth < p.count) :
    (featurePipeline (some dsDepth) r ((p :: ps).flatMap Packet.beats)).stopped = some .dsFull := by
  have taken : dsDepth < p.taken := by
    unfold Packet.taken dsDepth at *
    omega
  have blocked := (pump (some dsDepth)).run_error
    (pumpTurn_full r p (ps.flatMap Packet.beats) taken)
  rw [featurePipeline, List.flatMap_cons, blocked]

theorem ds_keeps_up_iff (r : Regs) (ps : List Packet) :
    DsKeepsUp r ps ↔ ∀ p ∈ ps, p.count ≤ 8 := by
  constructor
  · rintro ⟨neverFull, -⟩
    induction ps generalizing r with
    | nil => simp
    | cons p ps ih =>
      have small : p.count ≤ dsDepth := by
        by_contra surplus
        exact neverFull (stopped_full r p ps (by omega))
      have limit : p.InLimit := by
        unfold Packet.InLimit dsDepth at *
        omega
      rw [featurePipeline_cons _ r p ps limit (by simpa using small)] at neverFull
      intro q hq
      rcases List.mem_cons.mp hq with rfl | hq
      · exact small
      · exact ih _ neverFull q hq
  · intro small
    have all := featurePipeline_all (some dsDepth) r ps (fun p hp => by
      have := small p hp
      constructor
      · unfold Packet.InLimit
        omega
      · simpa [dsDepth] using this)
    exact ⟨by rw [all]; simp, by rw [all]⟩

/-- The ninth write of a nine-delta packet blocks; replay-udp's default batch is 16. -/
theorem ds_full_at_nine :
    (blankPacket 0x0900000000000000).count = 9 ∧
      ¬DsKeepsUp .powerOn [blankPacket 0x0900000000000000] := by
  have count : (blankPacket 0x0900000000000000).count = 9 := by decide
  refine ⟨count, fun keeps => keeps.neverFull ?_⟩
  exact stopped_full _ _ _ (by rw [count]; decide)

end HftLatencyLab.FeaturePipeline
