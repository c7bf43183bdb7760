import HftLatencyLab.FeatureParser

/-! A DELTAS datagram on its way into the fabric: the bytes replay-udp sends, the
AXIS beats made of them and the packet the parser reads. The parser inverts the
encoder, whatever the padding of the last bits. -/

namespace HftLatencyLab.LobPacket
open AxiStream ByteOrder LobWire FeatureParser

/-- Byte `k` of a group of eight travels in bits `8k+7..8k`. -/
def toBeat (bs : List Byte) (last : Bool) : Axis64 where
  data := BitVec.ofNat 64 (ofLE bs)
  keep := 0xFF
  strb := 0xFF
  last := last

def toBeats : List Byte → List Axis64
  | b0 :: b1 :: b2 :: b3 :: b4 :: b5 :: b6 :: b7 :: rest =>
    toBeat [b0, b1, b2, b3, b4, b5, b6, b7] rest.isEmpty :: toBeats rest
  | _ => []

theorem toBeats_append (bs rest : List Byte) (h : bs.length = 8) :
    toBeats (bs ++ rest) = toBeat bs rest.isEmpty :: toBeats rest := by
  match bs, h with
  | [_, _, _, _, _, _, _, _], _ => rfl

theorem beatByte_toBeat (bs : List Byte) (last : Bool) (k : ℕ) (h : k < bs.length)
    (len : bs.length = 8) : beatByte (toBeat bs last).data (8 * k) = bs[k] := by
  have small : ofLE bs < 2 ^ 64 := by
    have := ofLE_lt bs
    rw [len] at this
    exact this
  have base : (2 : ℕ) ^ (8 * k) = 256 ^ k := by
    rw [pow_mul]
    norm_num
  have mask (x : ℕ) : x &&& 255 = x % 256 := Nat.and_two_pow_sub_one_eq_mod x 8
  apply BitVec.eq_of_toNat_eq
  rw [← lane_ofLE bs k h]
  simp only [beatByte, toBeat, BitVec.toNat_setWidth, BitVec.toNat_and, BitVec.toNat_ushiftRight,
    BitVec.toNat_ofNat, Nat.shiftRight_eq_div_pow, Nat.mod_eq_of_lt small, base]
  change (_ &&& 255) % 256 = _
  rw [mask, Nat.mod_mod]

theorem beatByte_eight (b0 b1 b2 b3 b4 b5 b6 b7 : Byte) (last : Bool) :
    let d := (toBeat [b0, b1, b2, b3, b4, b5, b6, b7] last).data
    (beatByte d 0 = b0 ∧ beatByte d 8 = b1 ∧ beatByte d 16 = b2 ∧ beatByte d 24 = b3) ∧
      beatByte d 32 = b4 ∧ beatByte d 40 = b5 ∧ beatByte d 48 = b6 ∧ beatByte d 56 = b7 := by
  have lane (k : ℕ) (h : k < 8) :=
    beatByte_toBeat [b0, b1, b2, b3, b4, b5, b6, b7] last k h rfl
  exact ⟨⟨lane 0 (by norm_num), lane 1 (by norm_num), lane 2 (by norm_num), lane 3 (by norm_num)⟩,
    lane 4 (by norm_num), lane 5 (by norm_num), lane 6 (by norm_num), lane 7 (by norm_num)⟩

structure Datagram where
  reset : Bool
  seq : BitVec 32
  tSend : BitVec 64
  deltas : List LobV1Delta
  fits : deltas.length < 2 ^ 15

namespace Datagram

def fcnt (m : Datagram) : BitVec 16 :=
  let dn := BitVec.ofNat 16 m.deltas.length
  if m.reset then dn ||| 0x8000 else dn

def bytes (m : Datagram) : List Byte :=
  (replayHdr m.fcnt m.seq m.tSend).bytes ++ m.deltas.flatMap LobV1Delta.wire

end Datagram

def deltaBody : List LobV1Delta → List (Axis64 × Axis64)
  | [] => []
  | d :: rest => (toBeat (d.wire.take 8) false, toBeat (d.wire.drop 8) rest.isEmpty) ::
      deltaBody rest

@[simp] theorem length_deltaBody (ds : List LobV1Delta) : (deltaBody ds).length = ds.length := by
  induction ds with
  | nil => rfl
  | cons d rest ih => simp [deltaBody, ih]

def hdrBytes (m : Datagram) (i : ℕ) : List Byte :=
  ((replayHdr m.fcnt m.seq m.tSend).bytes.drop (8 * i)).take 8

theorem length_hdrBytes (m : Datagram) (i : ℕ) (hi : i < 4) : (hdrBytes m i).length = 8 := by
  rw [hdrBytes, List.length_take, List.length_drop, replayHdr_bytes, length_packHdr]
  omega

theorem hdrBytes_flags (m : Datagram) : ∃ b0 b1 b2 b3 b4 b5 f0 f1,
    hdrBytes m 0 = [b0, b1, b2, b3, b4, b5, f0, f1] ∧ [f0, f1] = toBE 2 m.fcnt.toNat := by
  rw [hdrBytes, replayHdr_bytes]
  exact ⟨_, _, _, _, _, _, _, _, rfl, rfl⟩

theorem hdrBytes_time (m : Datagram) : ∃ b0 b1 b2 b3 b4 b5 t0 t1 t2 t3 t4 t5 t6 t7 b6 b7,
    hdrBytes m 1 = [b0, b1, b2, b3, b4, b5, t0, t1] ∧
      hdrBytes m 2 = [t2, t3, t4, t5, t6, t7, b6, b7] ∧
      [t0, t1, t2, t3, t4, t5, t6, t7] = toBE 8 m.tSend.toNat := by
  rw [hdrBytes, hdrBytes, replayHdr_bytes]
  exact ⟨_, _, _, _, _, _, _, _, _, _, _, _, _, _, _, _, rfl, rfl, rfl⟩

theorem headerFlags_hdrBytes (m : Datagram) (last : Bool) :
    headerFlags (toBeat (hdrBytes m 0) last).data = m.fcnt := by
  obtain ⟨b0, b1, b2, b3, b4, b5, f0, f1, bytes, flags⟩ := hdrBytes_flags m
  obtain ⟨-, -, -, high, low⟩ := beatByte_eight b0 b1 b2 b3 b4 b5 f0 f1 last
  apply BitVec.eq_of_toNat_eq
  rw [bytes, headerFlags, high, low, toNat_be16, flags, ofBE_toBE m.fcnt.isLt]

theorem headerTSendNs_hdrBytes (m : Datagram) (last1 last2 : Bool) :
    headerTSendNs (toBeat (hdrBytes m 1) last1).data (toBeat (hdrBytes m 2) last2).data =
      m.tSend := by
  obtain ⟨b0, b1, b2, b3, b4, b5, t0, t1, t2, t3, t4, t5, t6, t7, b6, b7, upper, lower, time⟩ :=
    hdrBytes_time m
  obtain ⟨-, -, -, h0, h1⟩ := beatByte_eight b0 b1 b2 b3 b4 b5 t0 t1 last1
  obtain ⟨⟨h2, h3, h4, h5⟩, h6, h7, -⟩ := beatByte_eight t2 t3 t4 t5 t6 t7 b6 b7 last2
  apply BitVec.eq_of_toNat_eq
  rw [upper, lower, headerTSendNs, h0, h1, h2, h3, h4, h5, h6, h7, toNat_be64, time,
    ofBE_toBE m.tSend.isLt]

/-- What the parser makes of a delta: the low bit of the side, the low two of
the action. -/
def parsedDelta (d : LobV1Delta) (tSendNs : BitVec 64) (last : Bool) : Delta where
  priceTicks := d.priceTicks
  qty := d.qty
  level := d.level
  side := d.side.setWidth 1
  action := d.action.setWidth 2
  tSendNs := tSendNs
  lastInPkt := last

theorem length_wire (d : LobV1Delta) : d.wire.length = 16 := by
  rw [wire_eq_packDelta, length_packDelta]

theorem wire_low (d : LobV1Delta) : ∃ p0 p1 p2 p3 q0 q1 q2 q3,
    d.wire.take 8 = [p0, p1, p2, p3, q0, q1, q2, q3] ∧
      [p0, p1, p2, p3] = toBE 4 d.priceTicks.toNat ∧ [q0, q1, q2, q3] = toBE 4 d.qty.toNat := by
  rw [wire_eq_packDelta]
  exact ⟨_, _, _, _, _, _, _, _, rfl, rfl, rfl⟩

theorem wire_high (d : LobV1Delta) : ∃ v0 v1 r0 r1 r2 r3,
    d.wire.drop 8 = [v0, v1, d.side, d.action, r0, r1, r2, r3] ∧
      [v0, v1] = toBE 2 d.level.toNat := by
  have side : toBE 1 d.side.toNat = [d.side] := by simp [toBE, toLE]
  have action : toBE 1 d.action.toNat = [d.action] := by simp [toBE, toLE]
  rw [wire_eq_packDelta, packDelta, side, action]
  exact ⟨_, _, _, _, _, _, rfl, rfl⟩

theorem be32_of_bytes {x : BitVec 32} {b0 b1 b2 b3 : Byte} (h : [b0, b1, b2, b3] = toBE 4 x.toNat) :
    b0.setWidth 32 <<< 24 ||| b1.setWidth 32 <<< 16 ||| b2.setWidth 32 <<< 8 ||| b3.setWidth 32 =
      x := by
  apply BitVec.eq_of_toNat_eq
  rw [toNat_be32, h, ofBE_toBE x.isLt]

theorem be16_of_bytes {x : BitVec 16} {b0 b1 : Byte} (h : [b0, b1] = toBE 2 x.toNat) :
    b0.setWidth 16 <<< 8 ||| b1.setWidth 16 = x := by
  apply BitVec.eq_of_toNat_eq
  rw [toNat_be16, h, ofBE_toBE x.isLt]

theorem side_bits (s : Byte) : (s &&& 0x1).setWidth 1 = s.setWidth 1 := by
  revert s
  decide

theorem action_bits (a : Byte) : (a &&& 0x3).setWidth 2 = a.setWidth 2 := by
  revert a
  decide

theorem decodeDelta_wire (d : LobV1Delta) (tSendNs : BitVec 64) (last l0 l1 : Bool) :
    decodeDelta (toBeat (d.wire.take 8) l0).data (toBeat (d.wire.drop 8) l1).data tSendNs last =
      parsedDelta d tSendNs last := by
  obtain ⟨p0, p1, p2, p3, q0, q1, q2, q3, low, price, qty⟩ := wire_low d
  obtain ⟨v0, v1, r0, r1, r2, r3, high, level⟩ := wire_high d
  obtain ⟨⟨hp0, hp1, hp2, hp3⟩, hq0, hq1, hq2, hq3⟩ := beatByte_eight p0 p1 p2 p3 q0 q1 q2 q3 l0
  obtain ⟨⟨hv0, hv1, side, action⟩, -⟩ := beatByte_eight v0 v1 d.side d.action r0 r1 r2 r3 l1
  rw [low, high]
  unfold decodeDelta parsedDelta
  rw [hp0, hp1, hp2, hp3, hq0, hq1, hq2, hq3, hv0, hv1, side, action, be32_of_bytes price,
    be32_of_bytes qty, be16_of_bytes level, side_bits, action_bits]

theorem fcnt_toNat (m : Datagram) :
    m.fcnt.toNat = m.deltas.length + if m.reset then 2 ^ 15 else 0 := by
  have dn : (BitVec.ofNat 16 m.deltas.length).toNat = m.deltas.length := by
    rw [BitVec.toNat_ofNat, Nat.mod_eq_of_lt (m.fits.trans (by norm_num))]
  unfold Datagram.fcnt
  by_cases reset : m.reset
  · have high := or_eq_add (k := 15) (a := 2 ^ 15) (b := m.deltas.length) (dvd_refl _) m.fits
    rw [if_pos reset, if_pos reset, BitVec.toNat_or, dn, Nat.or_comm, Nat.add_comm]
    exact high
  · rw [if_neg reset, if_neg reset, dn, Nat.add_zero]

theorem fcnt_count (m : Datagram) : (m.fcnt &&& 0x7FFF).toNat = m.deltas.length := by
  have fits := m.fits
  have low : m.fcnt.toNat &&& 0x7FFF = m.fcnt.toNat % 2 ^ 15 :=
    Nat.and_two_pow_sub_one_eq_mod _ 15
  rw [BitVec.toNat_and]
  change m.fcnt.toNat &&& 0x7FFF = _
  rw [low, fcnt_toNat]
  split <;> omega

theorem fcnt_reset (m : Datagram) : m.fcnt.toNat.testBit 15 = m.reset := by
  have fits := m.fits
  rw [Nat.testBit_eq_decide_div_mod_eq, fcnt_toNat]
  cases m.reset
  · exact decide_eq_false (by norm_num; omega)
  · exact decide_eq_true (by norm_num; omega)

def Datagram.packet (m : Datagram) : Packet where
  hdr0 := toBeat (hdrBytes m 0) false
  hdr1 := toBeat (hdrBytes m 1) false
  hdr2 := toBeat (hdrBytes m 2) false
  hdr3 := toBeat (hdrBytes m 3) m.deltas.isEmpty
  body := deltaBody m.deltas
  framed := by
    rw [length_deltaBody, headerCount, headerFlags_hdrBytes, fcnt_count]

theorem toBeats_more (bs more rest : List Byte) (h : bs.length = 8) (hm : more.length = 8) :
    toBeats (bs ++ (more ++ rest)) = toBeat bs false :: toBeats (more ++ rest) := by
  have nonempty : (more ++ rest).isEmpty = false := by
    rw [← Bool.not_eq_true, List.isEmpty_iff_length_eq_zero, List.length_append, hm]
    omega
  rw [toBeats_append _ _ h, nonempty]

theorem wires_isEmpty (ds : List LobV1Delta) :
    (ds.flatMap LobV1Delta.wire).isEmpty = ds.isEmpty := by
  cases ds with
  | nil => rfl
  | cons d rest =>
    rw [List.isEmpty_cons, ← Bool.not_eq_true, List.isEmpty_iff_length_eq_zero,
      List.flatMap_cons, List.length_append, length_wire]
    omega

theorem toBeats_wires (ds : List LobV1Delta) :
    toBeats (ds.flatMap LobV1Delta.wire) = deltaBeats (deltaBody ds) := by
  induction ds with
  | nil => rfl
  | cons d rest ih =>
    have low : (d.wire.take 8).length = 8 := by simp [length_wire]
    have high : (d.wire.drop 8).length = 8 := by simp [length_wire]
    rw [List.flatMap_cons, ← List.take_append_drop 8 d.wire, List.append_assoc,
      toBeats_more _ _ _ low high, toBeats_append _ _ high, ih, wires_isEmpty]
    rfl

theorem toBeats_bytes (m : Datagram) : toBeats m.bytes = m.packet.beats := by
  have parts : (replayHdr m.fcnt m.seq m.tSend).bytes =
      hdrBytes m 0 ++ (hdrBytes m 1 ++ (hdrBytes m 2 ++ hdrBytes m 3)) := by
    simp only [hdrBytes, replayHdr_bytes]
    rfl
  have len (i : ℕ) (hi : i < 4) := length_hdrBytes m i hi
  have h0 := len 0 (by norm_num)
  have h1 := len 1 (by norm_num)
  have h2 := len 2 (by norm_num)
  have h3 := len 3 (by norm_num)
  rw [Datagram.bytes, parts, List.append_assoc, List.append_assoc, List.append_assoc,
    toBeats_more _ _ _ h0 h1, toBeats_more _ _ _ h1 h2, toBeats_more _ _ _ h2 h3,
    toBeats_append _ _ h3, toBeats_wires, wires_isEmpty]
  rfl

def parsedDeltas (tSendNs : BitVec 64) : List LobV1Delta → List Delta
  | [] => []
  | d :: rest => parsedDelta d tSendNs rest.isEmpty :: parsedDeltas tSendNs rest

theorem decodeBody_deltaBody (count i : ℕ) (tSendNs : BitVec 64) (ds : List LobV1Delta)
    (h : i + ds.length = count) :
    decodeBody count tSendNs i (deltaBody ds) = parsedDeltas tSendNs ds := by
  induction ds generalizing i with
  | nil => rfl
  | cons d rest ih =>
    have last : (i + 1 == count) = rest.isEmpty := by
      rw [← h, List.length_cons]
      cases rest <;> simp
    have later := ih (i + 1) (by rw [← h, List.length_cons]; omega)
    rw [deltaBody, decodeBody, decodeDelta_wire, last, later, parsedDeltas]

theorem packet_count (m : Datagram) : m.packet.count = m.deltas.length := by
  rw [← length_deltaBody]
  exact m.packet.framed.symm

theorem packet_tSendNs (m : Datagram) : m.packet.tSendNs = m.tSend :=
  headerTSendNs_hdrBytes m false false

theorem packet_deltas (m : Datagram) : m.packet.deltas = parsedDeltas m.tSend m.deltas := by
  rw [Packet.deltas, packet_tSendNs, packet_count]
  exact decodeBody_deltaBody _ 0 _ _ (by omega)

theorem packet_reset (m : Datagram) :
    (headerFlags m.packet.hdr0.data).toNat.testBit 15 = m.reset := by
  rw [← fcnt_reset, ← headerFlags_hdrBytes m false]
  rfl

@[simp] theorem length_parsedDeltas (tSendNs : BitVec 64) (ds : List LobV1Delta) :
    (parsedDeltas tSendNs ds).length = ds.length := by
  induction ds with
  | nil => rfl
  | cons d rest ih => simp [parsedDeltas, ih]

theorem parsedDeltas_getElem (tSendNs : BitVec 64) (ds : List LobV1Delta) (i : ℕ)
    (h : i < ds.length) (h' : i < (parsedDeltas tSendNs ds).length) :
    (parsedDeltas tSendNs ds)[i] = parsedDelta ds[i] tSendNs (decide (i + 1 = ds.length)) := by
  induction ds generalizing i with
  | nil => simp at h
  | cons d rest ih =>
    cases i with
    | zero => cases rest <;> simp [parsedDeltas]
    | succ i =>
      have later := ih i (by simpa using h) (by simpa using h)
      simp only [parsedDeltas, List.getElem_cons_succ, later, List.length_cons,
        Nat.add_right_cancel_iff]

theorem parsedDelta_side {d : LobV1Delta} (h : d.side.toNat < 2) (tSendNs : BitVec 64)
    (last : Bool) : (parsedDelta d tSendNs last).side.toNat = d.side.toNat := by
  simp only [parsedDelta, BitVec.toNat_setWidth]
  omega

theorem parsedDelta_action {d : LobV1Delta} (h : d.action.toNat < 4) (tSendNs : BitVec 64)
    (last : Bool) : (parsedDelta d tSendNs last).action.toNat = d.action.toNat := by
  simp only [parsedDelta, BitVec.toNat_setWidth]
  omega

theorem parse_datagram (depth : Option ℕ) (m : Datagram) (rest : List Axis64)
    (limit : m.deltas.length ≤ 128) (fits : ∀ n ∈ depth, m.deltas.length ≤ n) :
    ∃ r, parseStreamOnePacket (toBeats m.bytes ++ rest) (.empty : BoundedFifo Delta depth) =
        .ok r ∧ r.inAxis = rest ∧ r.outDeltas.items = parsedDeltas m.tSend m.deltas ∧
      r.packetDeltaCount.toNat = m.deltas.length ∧ r.packetTSendNs = m.tSend := by
  have limited : m.packet.InLimit := by rwa [Packet.InLimit, packet_count]
  obtain ⟨r, ok, ins, items, count, time⟩ :=
    parse_packet depth m.packet rest limited (by rwa [packet_count])
  rw [packet_deltas] at items
  rw [packet_count] at count
  rw [packet_tSendNs] at time
  exact ⟨r, by rw [toBeats_bytes, ok], ins, items, count, time⟩

/-- Whatever follows it on the stream, an encoded packet comes out with its count,
its timestamp and its deltas, the final one marked, and nothing else is read. -/
theorem parse_encoded (m : Datagram) (limit : m.deltas.length ≤ 128)
    (codes : ∀ d ∈ m.deltas, d.side.toNat < 2 ∧ d.action.toNat < 4) (rest : List Axis64) :
    ∃ r, parseStreamOnePacket (toBeats m.bytes ++ rest) (.empty : BoundedFifo Delta none) =
        .ok r ∧
      r.packetDeltaCount.toNat = m.deltas.length ∧ r.packetTSendNs = m.tSend ∧
      r.inAxis = rest ∧ (toBeats m.bytes).length = 4 + 2 * m.deltas.length ∧
      r.outDeltas.items.length = m.deltas.length ∧
      ∀ i (h : i < m.deltas.length) (h' : i < r.outDeltas.items.length),
        let d := m.deltas[i]
        let out := r.outDeltas.items[i]
        out.priceTicks = d.priceTicks ∧ out.qty = d.qty ∧ out.level = d.level ∧
          out.side.toNat = d.side.toNat ∧ out.action.toNat = d.action.toNat ∧
          out.tSendNs = m.tSend ∧ out.lastInPkt = decide (i + 1 = m.deltas.length) := by
  obtain ⟨r, ok, ins, items, count, time⟩ := parse_datagram none m rest limit (by simp)
  refine ⟨r, ok, count, time, ins, ?_, by rw [items, length_parsedDeltas], ?_⟩
  · rw [toBeats_bytes, Packet.length_beats, packet_count]
  · intro i h h'
    obtain ⟨side, action⟩ := codes m.deltas[i] (List.getElem_mem h)
    simp only [items]
    rw [parsedDeltas_getElem _ _ i h (by simpa using h)]
    exact ⟨rfl, rfl, rfl, parsedDelta_side side _ _, parsedDelta_action action _ _, rfl, rfl⟩

/-- A reset packet with a bid and an ask, one quantity of them negative. -/
theorem parse_encoded_quotes :
    let m : Datagram := ⟨true, 7, 0x0102030405060708,
      [⟨1000, 5, 0, 0, 0, 0⟩, ⟨1002, -3, 2, 1, 2, 0⟩], by decide⟩
    ∃ r, parseStreamOnePacket (toBeats m.bytes) (.empty : BoundedFifo Delta none) = .ok r ∧
      r.packetTSendNs = 0x0102030405060708 ∧ r.inAxis = [] ∧
      ∃ h : 1 < r.outDeltas.items.length, (r.outDeltas.items[1]).qty = -3 := by
  intro m
  obtain ⟨r, ok, -, time, ins, -, len, deltas⟩ := parse_encoded m (by decide) (by decide) []
  have two : 1 < r.outDeltas.items.length := by
    rw [len]
    decide
  rw [List.append_nil] at ok
  exact ⟨r, ok, time, ins, two, (deltas 1 (by decide) two).2.1⟩

end HftLatencyLab.LobPacket
