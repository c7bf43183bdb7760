import HftLatencyLab.TimingTrailer
import HftLatencyLab.AxiStream

/-! The score word of mlp_infer_stream on its two ways to a host float: through
feature_echo_mt, the trailer and soc_runner, and through the capture of
mlp_runtime. The server reads the buffer most significant byte first and without
a sign, the capture as the fabric wrote it. -/

namespace HftLatencyLab.ScorePath
open AxiStream ByteOrder LobWire FeatureReply TimingTrailer

/-- The beat of a score `s`, a two's complement Q16.16 word. -/
def scoreBeat (s : BitVec 32) (last : Bool) : Axis32 where
  data := s
  keep := 0xF
  strb := 0xF
  last := last

/-- Byte lane `i` goes to address `i`. -/
def scoreStore (beat : Axis32) : List Byte :=
  (List.range 4).map (fun i => beat.data.extractLsb' (i * 8) 8)

/-- `int.from_bytes(score_buf[0:4].tobytes(), 'big')` -/
def echoScore (scoreBuf : List Byte) : ℕ := fromBytesBig (slice scoreBuf 0 4)

/-- `mlp_score / 65536.0` -/
def socScoreFloat (data : List Byte) : Option ℚ :=
  (socTelemetry data).map (fun m => (m.mlpScore : ℚ) / 65536)

/-- `np.frombuffer(b, dtype="<u4").astype(np.int32) / float(1 << 16)`, first value. -/
def captureScore (b : List Byte) : ℚ :=
  ((BitVec.ofNat 32 (ofLE (slice b 0 4))).toInt : ℚ) / 65536

theorem scoreStore_scoreBeat (s : BitVec 32) (last : Bool) :
    scoreStore (scoreBeat s last) = toLE 4 s.toNat := by
  have lane (i : ℕ) : s.extractLsb' (i * 8) 8 = BitVec.ofNat 8 (s.toNat / 256 ^ i) := by
    have base : (2 : ℕ) ^ (i * 8) = 256 ^ i := by rw [mul_comm, pow_mul]; norm_num
    apply BitVec.eq_of_toNat_eq
    rw [BitVec.extractLsb'_toNat, Nat.shiftRight_eq_div_pow, BitVec.toNat_ofNat, base]
  rw [scoreStore, toLE_eq_map]
  exact List.map_congr_left fun i _ => lane i

theorem echoScore_toLE (s : BitVec 32) : echoScore (toLE 4 s.toNat) = byteSwap 4 s.toNat := rfl

theorem captureScore_toLE (s : BitVec 32) :
    captureScore (toLE 4 s.toNat) = (s.toInt : ℚ) / 65536 := by
  have whole : slice (toLE 4 s.toNat) 0 4 = toLE 4 s.toNat := rfl
  have small : s.toNat % 256 ^ 4 = s.toNat := Nat.mod_eq_of_lt s.isLt
  rw [captureScore, whole, ofLE_toLE, small, BitVec.ofNat_toNat, BitVec.setWidth_eq]

theorem byteSwap_eq_toInt_iff (s : BitVec 32) :
    (byteSwap 4 s.toNat : ℤ) = s.toInt ↔ 0 ≤ s.toInt ∧ ByteSymmetric 4 s.toNat := by
  rw [← byteSwap_eq_iff (show s.toNat < 256 ^ 4 from s.isLt)]
  have cases := BitVec.toInt_eq_toNat_cond s
  have below := s.isLt
  split_ifs at cases <;> omega

section Server

variable (flags : BitVec 16) (seq : BitVec 32) (tSend tNow : BitVec 64) (feat : FeatPayload)
  (t : TimingData)

def withScore (scoreBuf : List Byte) : TimingData :=
  { t with mlpScore := BitVec.ofNat 32 (echoScore scoreBuf) }

theorem socScoreFloat_timed (s : BitVec 32) :
    socScoreFloat (timed flags seq tSend tNow feat (withScore t (toLE 4 s.toNat))) =
      some ((byteSwap 4 s.toNat : ℚ) / 65536) := by
  have small : byteSwap 4 s.toNat % 2 ^ 32 = byteSwap 4 s.toNat :=
    Nat.mod_eq_of_lt (byteSwap_lt 4 s.toNat)
  rw [socScoreFloat, socTelemetry_timed, Option.map_some]
  simp only [TimingData.telemetry, withScore, echoScore_toLE, BitVec.toNat_ofNat, small]

def receivedScore (s : BitVec 32) (last : Bool) : Option ℚ :=
  socScoreFloat (timed flags seq tSend tNow feat (withScore t (scoreStore (scoreBeat s last))))

/-- The score survives the server, and equals the captured one, exactly when it is
nonnegative and reads the same in both byte orders. -/
theorem score_survives_iff (s : BitVec 32) (last : Bool) :
    (receivedScore flags seq tSend tNow feat t s last = some ((s.toInt : ℚ) / 65536) ∧
      receivedScore flags seq tSend tNow feat t s last =
        some (captureScore (scoreStore (scoreBeat s last)))) ↔
      0 ≤ s.toInt ∧ ByteSymmetric 4 s.toNat := by
  have floats : (byteSwap 4 s.toNat : ℚ) / 65536 = (s.toInt : ℚ) / 65536 ↔
      (byteSwap 4 s.toNat : ℤ) = s.toInt := by
    rw [div_left_inj' (by norm_num), ← Int.cast_natCast, Int.cast_inj]
  simp only [receivedScore, scoreStore_scoreBeat, socScoreFloat_timed, captureScore_toLE, and_self,
    Option.some.injEq, floats, byteSwap_eq_toInt_iff]

end Server

/-- A score of 1.0 arrives as 1/256, one of -1.0 as 65535/65536. -/
theorem score_one_swapped :
    let received (s : BitVec 32) := receivedScore 0x0100 7 0 0 ⟨0, 0, 65536, 0⟩
      ⟨1, 2, 3, 4, 5, 6, 0, 0⟩ s true
    let captured (s : BitVec 32) := captureScore (scoreStore (scoreBeat s true))
    ¬(received 65536 = some 1 ∧ received 65536 = some (captured 65536)) ∧
      ¬(received (-65536) = some (-1) ∧ received (-65536) = some (captured (-65536))) := by
  decide +kernel

end HftLatencyLab.ScorePath
