import HftLatencyLab.AxiStream
import HftLatencyLab.BoundedFifo
import HftLatencyLab.LobWire

/-! `parse_stream_one_packet` of fpga/ip/feature_pipe/feature_pipeline.cpp: four
header beats, then two beats for each delta, each delta written to the FIFO
`ds`. Reading an empty stream and writing a full FIFO block, and nothing else in
the core runs meanwhile, so a blocked call ends the run. The deltas it delivers
are those of the packet only while the 15-bit count stays within 128. -/

namespace HftLatencyLab.FeatureParser
open AxiStream ByteOrder LobWire

structure Delta where
  priceTicks : BitVec 32
  qty : BitVec 32
  level : BitVec 16
  side : BitVec 1
  action : BitVec 2
  tSendNs : BitVec 64
  lastInPkt : Bool
deriving DecidableEq

inductive Blocked where
  | inAxisEmpty
  | dsFull
  | dsEmpty
deriving DecidableEq

def beatByte (d : BitVec 64) (shift : ℕ) : Byte := ((d >>> shift) &&& 0xFF).setWidth 8

def headerFlags (hdr0 : BitVec 64) : BitVec 16 :=
  let b6 := beatByte hdr0 48
  let b7 := beatByte hdr0 56
  b6.setWidth 16 <<< 8 ||| b7.setWidth 16

def headerCount (hdr0 : BitVec 64) : BitVec 16 := headerFlags hdr0 &&& 0x7FFF

def packetDeltaCount (hdr0 : BitVec 64) : BitVec 16 :=
  let deltaCount := headerCount hdr0
  if deltaCount > 128 then 128 else deltaCount

def headerTSendNs (hdr1 hdr2 : BitVec 64) : BitVec 64 :=
  (beatByte hdr1 48).setWidth 64 <<< 56 ||| (beatByte hdr1 56).setWidth 64 <<< 48 |||
    (beatByte hdr2 0).setWidth 64 <<< 40 ||| (beatByte hdr2 8).setWidth 64 <<< 32 |||
    (beatByte hdr2 16).setWidth 64 <<< 24 ||| (beatByte hdr2 24).setWidth 64 <<< 16 |||
    (beatByte hdr2 32).setWidth 64 <<< 8 ||| (beatByte hdr2 40).setWidth 64

def decodeDelta (d0 d1 : BitVec 64) (tSendNs : BitVec 64) (last : Bool) : Delta where
  priceTicks := (beatByte d0 0).setWidth 32 <<< 24 ||| (beatByte d0 8).setWidth 32 <<< 16 |||
    (beatByte d0 16).setWidth 32 <<< 8 ||| (beatByte d0 24).setWidth 32
  qty := (beatByte d0 32).setWidth 32 <<< 24 ||| (beatByte d0 40).setWidth 32 <<< 16 |||
    (beatByte d0 48).setWidth 32 <<< 8 ||| (beatByte d0 56).setWidth 32
  level := (beatByte d1 0).setWidth 16 <<< 8 ||| (beatByte d1 8).setWidth 16
  side := (beatByte d1 16 &&& 0x1).setWidth 1
  action := (beatByte d1 24 &&& 0x3).setWidth 2
  tSendNs := tSendNs
  lastInPkt := last

def readBeat : List Axis64 → Except Blocked (BitVec 64 × List Axis64)
  | [] => .error .inAxisEmpty
  | beat :: rest => .ok (beat.data, rest)

variable {depth : Option ℕ}

def writeDelta (ds : BoundedFifo Delta depth) (d : Delta) :
    Except Blocked (BoundedFifo Delta depth) :=
  match ds.write? d with
  | some ds => .ok ds
  | none => .error .dsFull

/-- The delta loop at index `i`, with `left` iterations to go. -/
def parseDeltas (deltaCount : ℕ) (tSendNs : BitVec 64) (i : ℕ) :
    ℕ → List Axis64 → BoundedFifo Delta depth →
      Except Blocked (List Axis64 × BoundedFifo Delta depth)
  | 0, inAxis, outDeltas => .ok (inAxis, outDeltas)
  | left + 1, inAxis, outDeltas => do
    let (d0, inAxis) ← readBeat inAxis
    let (d1, inAxis) ← readBeat inAxis
    let outDeltas ← writeDelta outDeltas (decodeDelta d0 d1 tSendNs (i + 1 == deltaCount))
    parseDeltas deltaCount tSendNs (i + 1) left inAxis outDeltas

structure Parsed (depth : Option ℕ) where
  inAxis : List Axis64
  outDeltas : BoundedFifo Delta depth
  packetDeltaCount : BitVec 16
  packetTSendNs : BitVec 64

def parseStreamOnePacket (inAxis : List Axis64) (outDeltas : BoundedFifo Delta depth) :
    Except Blocked (Parsed depth) := do
  let (hdr0, inAxis) ← readBeat inAxis
  let (hdr1, inAxis) ← readBeat inAxis
  let (hdr2, inAxis) ← readBeat inAxis
  let (_hdr3, inAxis) ← readBeat inAxis
  let deltaCount := packetDeltaCount hdr0
  let tSendNs := headerTSendNs hdr1 hdr2
  let (inAxis, outDeltas) ←
    parseDeltas deltaCount.toNat tSendNs 0 deltaCount.toNat inAxis outDeltas
  return ⟨inAxis, outDeltas, deltaCount, tSendNs⟩

def deltaBeats (body : List (Axis64 × Axis64)) : List Axis64 :=
  body.flatMap (fun d => [d.1, d.2])

structure Packet where
  hdr0 : Axis64
  hdr1 : Axis64
  hdr2 : Axis64
  hdr3 : Axis64
  body : List (Axis64 × Axis64)
  framed : body.length = (headerCount hdr0.data).toNat

def decodeBody (count : ℕ) (tSendNs : BitVec 64) : ℕ → List (Axis64 × Axis64) → List Delta
  | _, [] => []
  | i, d :: rest => decodeDelta d.1.data d.2.data tSendNs (i + 1 == count) ::
      decodeBody count tSendNs (i + 1) rest

namespace Packet

def count (p : Packet) : ℕ := (headerCount p.hdr0.data).toNat

def tSendNs (p : Packet) : BitVec 64 := headerTSendNs p.hdr1.data p.hdr2.data

def deltas (p : Packet) : List Delta := decodeBody p.count p.tSendNs 0 p.body

def beats (p : Packet) : List Axis64 :=
  p.hdr0 :: p.hdr1 :: p.hdr2 :: p.hdr3 :: deltaBeats p.body

def InLimit (p : Packet) : Prop := p.count ≤ 128

instance (p : Packet) : Decidable p.InLimit := inferInstanceAs (Decidable (p.count ≤ 128))

end Packet

@[simp] theorem length_deltaBeats (body : List (Axis64 × Axis64)) :
    (deltaBeats body).length = 2 * body.length := by
  induction body with
  | nil => rfl
  | cons d rest ih =>
    have step : deltaBeats (d :: rest) = d.1 :: d.2 :: deltaBeats rest := rfl
    rw [step, List.length_cons, List.length_cons, List.length_cons, ih]
    omega

@[simp] theorem length_decodeBody (count : ℕ) (tSendNs : BitVec 64) (i : ℕ)
    (body : List (Axis64 × Axis64)) : (decodeBody count tSendNs i body).length = body.length := by
  induction body generalizing i with
  | nil => rfl
  | cons d rest ih => simp [decodeBody, ih]

@[simp] theorem Packet.length_beats (p : Packet) : p.beats.length = 4 + 2 * p.count := by
  simp [Packet.beats, Packet.count, p.framed]
  omega

@[simp] theorem Packet.length_deltas (p : Packet) : p.deltas.length = p.count := by
  simp [Packet.deltas, Packet.count, p.framed]

theorem packetDeltaCount_toNat (hdr0 : BitVec 64) :
    (packetDeltaCount hdr0).toNat = min (headerCount hdr0).toNat 128 := by
  have h128 : (128 : BitVec 16).toNat = 128 := rfl
  change (if headerCount hdr0 > 128 then (128 : BitVec 16) else headerCount hdr0).toNat = _
  split
  · next h =>
    have surplus : 128 < (headerCount hdr0).toNat := by simpa [BitVec.lt_def, h128] using h
    omega
  · next h =>
    have under : (headerCount hdr0).toNat ≤ 128 := by simpa [BitVec.lt_def, h128] using h
    omega

theorem writeDelta_ok (ds : BoundedFifo Delta depth) (d : Delta)
    (h : ∀ n ∈ depth, ds.items.length < n) :
    ∃ ds', writeDelta ds d = .ok ds' ∧ ds'.items = ds.items ++ [d] := by
  have room : BoundedFifo.hasRoom depth ds.items.length = true := by
    cases depth with
    | none => rfl
    | some n => exact (BoundedFifo.hasRoom_some n _).mpr (h n rfl)
  obtain ⟨ds', wrote, items⟩ := BoundedFifo.write?_of_room d room
  exact ⟨ds', by rw [writeDelta, wrote], items⟩

theorem writeDelta_full {n : ℕ} (ds : BoundedFifo Delta (some n)) (d : Delta)
    (h : n ≤ ds.items.length) : writeDelta ds d = .error .dsFull := by
  have full : ds.write? d = none := by
    rw [BoundedFifo.write?_eq_none_iff, ← Bool.not_eq_true, BoundedFifo.hasRoom_some]
    omega
  rw [writeDelta, full]

theorem parseDeltas_length (count : ℕ) (tSendNs : BitVec 64) (left i : ℕ)
    (inAxis inAxis' : List Axis64) (ds ds' : BoundedFifo Delta depth)
    (h : parseDeltas count tSendNs i left inAxis ds = .ok (inAxis', ds')) :
    inAxis'.length ≤ inAxis.length := by
  induction left generalizing i inAxis ds with
  | zero => cases h; exact le_rfl
  | succ left ih =>
    match inAxis with
    | [] => cases h
    | [_] => cases h
    | a :: b :: rest =>
      simp only [parseDeltas, readBeat, bind, Except.bind] at h
      split at h
      · cases h
      · have shorter := ih _ _ _ h
        simp only [List.length_cons]
        omega

theorem parse_length (inAxis : List Axis64) (ds : BoundedFifo Delta depth) (r : Parsed depth)
    (h : parseStreamOnePacket inAxis ds = .ok r) : r.inAxis.length + 4 ≤ inAxis.length := by
  match inAxis with
  | [] => cases h
  | [_] => cases h
  | [_, _] => cases h
  | [_, _, _] => cases h
  | a :: b :: c :: d :: rest =>
    simp only [parseStreamOnePacket, readBeat, bind, Except.bind, pure, Except.pure] at h
    split at h
    · cases h
    · next parsed =>
      cases h
      have shorter := parseDeltas_length _ _ _ _ _ _ _ _ parsed
      simp only [List.length_cons]
      omega

theorem parseDeltas_ok (count : ℕ) (tSendNs : BitVec 64) (left : ℕ) (i : ℕ)
    (body : List (Axis64 × Axis64)) (rest : List Axis64) (ds : BoundedFifo Delta depth)
    (enough : left ≤ body.length) (fits : ∀ n ∈ depth, ds.items.length + left ≤ n) :
    ∃ ds', parseDeltas count tSendNs i left (deltaBeats body ++ rest) ds =
        .ok (deltaBeats (body.drop left) ++ rest, ds') ∧
      ds'.items = ds.items ++ decodeBody count tSendNs i (body.take left) := by
  induction left generalizing i body ds with
  | zero => exact ⟨ds, rfl, by simp [decodeBody]⟩
  | succ left ih =>
    obtain _ | ⟨d, body⟩ := body
    · simp at enough
    obtain ⟨ds₁, wrote, items₁⟩ :=
      writeDelta_ok ds (decodeDelta d.1.data d.2.data tSendNs (i + 1 == count))
        (fun n hn => by have := fits n hn; omega)
    obtain ⟨ds', parsed, items'⟩ := ih (i + 1) body ds₁ (by simpa using enough) (by
      intro n hn
      have := fits n hn
      rw [items₁, List.length_append, List.length_singleton]
      omega)
    refine ⟨ds', ?_, ?_⟩
    · rw [show deltaBeats (d :: body) ++ rest = d.1 :: d.2 :: (deltaBeats body ++ rest) from rfl]
      simp only [parseDeltas, readBeat, bind, Except.bind, wrote, parsed, List.drop_succ_cons]
    · rw [items', items₁, List.take_succ_cons, decodeBody, List.append_assoc,
        List.singleton_append]

theorem parseDeltas_full {n : ℕ} (count : ℕ) (tSendNs : BitVec 64) (left : ℕ) (i : ℕ)
    (body : List (Axis64 × Axis64)) (rest : List Axis64) (ds : BoundedFifo Delta (some n))
    (enough : left ≤ body.length) (surplus : n < ds.items.length + left) :
    parseDeltas count tSendNs i left (deltaBeats body ++ rest) ds = .error .dsFull := by
  induction left generalizing i body ds with
  | zero =>
    have := ds.fits n rfl
    omega
  | succ left ih =>
    obtain _ | ⟨d, body⟩ := body
    · simp at enough
    rw [show deltaBeats (d :: body) ++ rest = d.1 :: d.2 :: (deltaBeats body ++ rest) from rfl]
    by_cases room : ds.items.length < n
    · obtain ⟨ds₁, wrote, items₁⟩ :=
        writeDelta_ok ds (decodeDelta d.1.data d.2.data tSendNs (i + 1 == count))
          (fun k hk => by cases hk; exact room)
      have later := ih (i + 1) body ds₁ (by simpa using enough) (by
        rw [items₁, List.length_append, List.length_singleton]
        omega)
      simp only [parseDeltas, readBeat, bind, Except.bind, wrote, later]
    · have full := writeDelta_full ds
        (decodeDelta d.1.data d.2.data tSendNs (i + 1 == count)) (by omega)
      simp only [parseDeltas, readBeat, bind, Except.bind, full]

/-- The deltas a call delivers: all of the packet's, or the first 128. -/
def Packet.taken (p : Packet) : ℕ := min p.count 128

theorem Packet.taken_le_body (p : Packet) : p.taken ≤ p.body.length := by
  rw [p.framed]
  exact min_le_left _ _

theorem parse_ok (depth : Option ℕ) (p : Packet) (rest : List Axis64)
    (fits : ∀ n ∈ depth, p.taken ≤ n) :
    ∃ r, parseStreamOnePacket (p.beats ++ rest) (.empty : BoundedFifo Delta depth) = .ok r ∧
      r.inAxis = deltaBeats (p.body.drop p.taken) ++ rest ∧
      r.outDeltas.items = decodeBody p.taken p.tSendNs 0 (p.body.take p.taken) ∧
      r.packetDeltaCount.toNat = p.taken ∧ r.packetTSendNs = p.tSendNs := by
  have count : (packetDeltaCount p.hdr0.data).toNat = p.taken := packetDeltaCount_toNat _
  obtain ⟨ds', parsed, items⟩ := parseDeltas_ok p.taken p.tSendNs p.taken 0 p.body rest
    (.empty : BoundedFifo Delta depth) p.taken_le_body (by simpa using fits)
  refine ⟨⟨_, ds', packetDeltaCount p.hdr0.data, p.tSendNs⟩, ?_, rfl, by simpa using items,
    count, rfl⟩
  rw [show p.beats ++ rest =
    p.hdr0 :: p.hdr1 :: p.hdr2 :: p.hdr3 :: (deltaBeats p.body ++ rest) from rfl]
  simp only [parseStreamOnePacket, readBeat, bind, Except.bind, pure, Except.pure, count]
  rw [← Packet.tSendNs, parsed]

theorem parse_full {n : ℕ} (p : Packet) (rest : List Axis64) (surplus : n < p.taken) :
    parseStreamOnePacket (p.beats ++ rest) (.empty : BoundedFifo Delta (some n)) =
      .error .dsFull := by
  have count : (packetDeltaCount p.hdr0.data).toNat = p.taken := packetDeltaCount_toNat _
  have blocked := parseDeltas_full p.taken p.tSendNs p.taken 0 p.body rest
    (.empty : BoundedFifo Delta (some n)) p.taken_le_body (by simpa using surplus)
  rw [show p.beats ++ rest =
    p.hdr0 :: p.hdr1 :: p.hdr2 :: p.hdr3 :: (deltaBeats p.body ++ rest) from rfl]
  simp only [parseStreamOnePacket, readBeat, bind, Except.bind, count]
  rw [← Packet.tSendNs, blocked]

theorem Packet.taken_eq_count {p : Packet} (h : p.InLimit) : p.taken = p.count := min_eq_left h

theorem Packet.body_take (p : Packet) : p.body.take p.count = p.body :=
  List.take_of_length_le (by rw [p.framed, Packet.count])

theorem Packet.body_drop (p : Packet) : p.body.drop p.count = [] :=
  List.drop_of_length_le (by rw [p.framed, Packet.count])

theorem parse_packet (depth : Option ℕ) (p : Packet) (rest : List Axis64) (limit : p.InLimit)
    (fits : ∀ n ∈ depth, p.count ≤ n) :
    ∃ r, parseStreamOnePacket (p.beats ++ rest) (.empty : BoundedFifo Delta depth) = .ok r ∧
      r.inAxis = rest ∧ r.outDeltas.items = p.deltas ∧
      r.packetDeltaCount.toNat = p.count ∧ r.packetTSendNs = p.tSendNs := by
  have all := Packet.taken_eq_count limit
  obtain ⟨r, ok, ins, items, count, time⟩ := parse_ok depth p rest (by rwa [all])
  rw [all] at ins items count
  refine ⟨r, ok, ?_, ?_, count, time⟩
  · rw [ins, p.body_drop]
    rfl
  · rw [items, p.body_take, Packet.deltas]

end HftLatencyLab.FeatureParser
