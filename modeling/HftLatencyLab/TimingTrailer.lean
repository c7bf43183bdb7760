import HftLatencyLab.FeatureReply
import Mathlib.Algebra.Order.Field.Rat
import Mathlib.Tactic.NormNum

/-! The timing trailer sender_thread (fpga/pynq/feature_echo_mt.py) appends to a
feature reply, and the three host programs that read it: soc_runner from the end
of the datagram, test_lob_stream and replay_runner at fixed offsets behind the
features. -/

namespace HftLatencyLab.TimingTrailer
open ByteOrder LobWire FeatureReply

/-- What the trailer carries; `timing_data` with the defaults filled in, and T6. -/
structure TimingData where
  t2 : BitVec 64
  t3 : BitVec 64
  t4 : BitVec 64
  t5 : BitVec 64
  tReflex : BitVec 64
  t6 : BitVec 64
  reflexAct : BitVec 32
  mlpScore : BitVec 32
deriving DecidableEq

/-- `struct.pack('>QQQQQQII', ...)` -/
def timingPayload (t : TimingData) : List Byte :=
  toBE 8 t.t2.toNat ++ toBE 8 t.t3.toNat ++ toBE 8 t.t4.toNat ++ toBE 8 t.t5.toNat ++
    toBE 8 t.tReflex.toNat ++ toBE 8 t.t6.toNat ++ toBE 4 t.reflexAct.toNat ++
    toBE 4 t.mlpScore.toNat

/-- `if enable_timing and timing_data: reply = reply + timing_payload` -/
def senderThread (enableTiming : Bool) (reply : List Byte) (timingData : Option TimingData) :
    List Byte :=
  match enableTiming, timingData with
  | true, some t => reply ++ timingPayload t
  | _, _ => reply

/-- `struct.unpack(TELEM_FMT, telem_bytes)` -/
structure Telemetry where
  t2 : ℕ
  t3 : ℕ
  t4 : ℕ
  t5 : ℕ
  tReflex : ℕ
  t6 : ℕ
  reflexAct : ℕ
  mlpScore : ℕ
deriving DecidableEq

def telemLen : ℕ := 56

def unpackTelem (telem : List Byte) : Telemetry where
  t2 := ofBE (slice telem 0 8)
  t3 := ofBE (slice telem 8 16)
  t4 := ofBE (slice telem 16 24)
  t5 := ofBE (slice telem 24 32)
  tReflex := ofBE (slice telem 32 40)
  t6 := ofBE (slice telem 40 48)
  reflexAct := ofBE (slice telem 48 52)
  mlpScore := ofBE (slice telem 52 56)

/-- `data[-TELEM_LEN:]`; `none` is a datagram reported as short. -/
def socTelemetry (data : List Byte) : Option Telemetry :=
  if data.length ≥ 32 + 16 + telemLen then
    some (unpackTelem (data.drop (data.length - telemLen)))
  else none

def TimingData.telemetry (t : TimingData) : Telemetry where
  t2 := t.t2.toNat
  t3 := t.t3.toNat
  t4 := t.t4.toNat
  t5 := t.t5.toNat
  tReflex := t.tReflex.toNat
  t6 := t.t6.toNat
  reflexAct := t.reflexAct.toNat
  mlpScore := t.mlpScore.toNat

structure LobStreamTiming where
  t2 : ℕ
  t3 : ℕ
  t4 : ℕ
  t5Pynq : ℕ
  t6 : ℕ
deriving DecidableEq

/-- `none`: the variables stay None. -/
def lobStreamTiming (data : List Byte) : Option LobStreamTiming :=
  if data.length ≥ 32 ∧ slice data 0 4 = magicLOB1 then
    let msgType := ofBE (slice data 5 6)
    if (msgType = 2 ∨ msgType = 4) ∧ msgType = 4 ∧ data.length ≥ 88 then
      let timing := slice data 48 88
      some { t2 := ofBE (slice timing 0 8)
             t3 := ofBE (slice timing 8 16)
             t4 := ofBE (slice timing 16 24)
             t5Pynq := ofBE (slice timing 24 32)
             t6 := ofBE (slice timing 32 40) }
    else none
  else none

/-- `none`: `fpga_score` keeps the value it had. -/
def replayScore (data : List Byte) : Option ℚ :=
  if data.length ≥ 52 then some ((ofBE (slice data 48 52) : ℚ) / 65536) else none

@[simp] theorem length_timingPayload (t : TimingData) : (timingPayload t).length = telemLen := by
  simp [timingPayload, telemLen]

def timed (flags : BitVec 16) (seq : BitVec 32) (tSend tNow : BitVec 64) (feat : FeatPayload)
    (t : TimingData) : List Byte :=
  senderThread true (featReply true flags seq tSend tNow feat).bytes (some t)

section Timed

variable (flags : BitVec 16) (seq : BitVec 32) (tSend tNow : BitVec 64) (feat : FeatPayload)
  (t : TimingData)

@[simp] theorem length_timed : (timed flags seq tSend tNow feat t).length = 104 := by
  simp [timed, senderThread, telemLen]

theorem slice_timed (i j : ℕ) :
    slice (timed flags seq tSend tNow feat t) (48 + i) (48 + j) = slice (timingPayload t) i j :=
  slice_append_right (Reply.length_bytes _) i j

theorem timingPayload_fields :
    slice (timingPayload t) 0 8 = toBE 8 t.t2.toNat ∧
      slice (timingPayload t) 8 16 = toBE 8 t.t3.toNat ∧
      slice (timingPayload t) 16 24 = toBE 8 t.t4.toNat ∧
      slice (timingPayload t) 24 32 = toBE 8 t.t5.toNat ∧
      slice (timingPayload t) 32 40 = toBE 8 t.tReflex.toNat ∧
      slice (timingPayload t) 40 48 = toBE 8 t.t6.toNat ∧
      slice (timingPayload t) 48 52 = toBE 4 t.reflexAct.toNat ∧
      slice (timingPayload t) 52 56 = toBE 4 t.mlpScore.toNat := by
  simp [timingPayload, slice, List.drop_append, List.drop_of_length_le, List.take_of_length_le]

theorem ofBE_u64 (x : BitVec 64) : ofBE (toBE 8 x.toNat) = x.toNat := ofBE_toBE x.isLt

theorem ofBE_u32 (x : BitVec 32) : ofBE (toBE 4 x.toNat) = x.toNat := ofBE_toBE x.isLt

theorem unpackTelem_timingPayload :
    unpackTelem (timingPayload t) = t.telemetry := by
  obtain ⟨t2, t3, t4, t5, tReflex, t6, reflexAct, mlpScore⟩ := timingPayload_fields t
  simp only [unpackTelem, TimingData.telemetry, t2, t3, t4, t5, tReflex, t6, reflexAct, mlpScore,
    ofBE_u64, ofBE_u32]

theorem socTelemetry_timed :
    socTelemetry (timed flags seq tSend tNow feat t) = some t.telemetry := by
  have trailer : (timed flags seq tSend tNow feat t).drop (104 - telemLen) = timingPayload t :=
    List.drop_left' (Reply.length_bytes _)
  rw [socTelemetry, length_timed, if_pos (by decide), trailer, unpackTelem_timingPayload]

theorem lobStreamTiming_timed :
    lobStreamTiming (timed flags seq tSend tNow feat t) =
      some ⟨t.t2.toNat, t.t3.toNat, t.t4.toNat, t.t5.toNat, t.tReflex.toNat⟩ := by
  obtain ⟨t2, t3, t4, t5, tReflex, -⟩ := timingPayload_fields t
  have magic : slice (timed flags seq tSend tNow feat t) 0 4 = magicLOB1 := Reply.slice_magic _ _
  have kind : slice (timed flags seq tSend tNow feat t) 5 6 = toBE 1 4 := Reply.slice_msgType _ _
  have kind' : ofBE (toBE 1 4) = 4 := rfl
  have within (i j : ℕ) (h : j ≤ 40) :
      slice (slice (timingPayload t) 0 40) i j = slice (timingPayload t) i j := slice_slice _ h
  rw [lobStreamTiming, length_timed, magic, kind, slice_timed _ _ _ _ _ _ 0 40]
  simp (disch := decide) only [within, kind', t2, t3, t4, t5, tReflex, ofBE_u64]
  rfl

theorem toBE_high (x : BitVec 64) : (toBE 8 x.toNat).take 4 = toBE 4 (x.toNat / 2 ^ 32) := by
  rw [toBE, toLE_append 4 4, List.reverse_append, List.take_left' (by simp)]
  rfl

theorem replayScore_timed :
    replayScore (timed flags seq tSend tNow feat t) =
      some (((t.t2.toNat / 2 ^ 32 : ℕ) : ℚ) / 65536) := by
  have bytes : slice (timed flags seq tSend tNow feat t) 48 52 = toBE 4 (t.t2.toNat / 2 ^ 32) := by
    rw [slice_timed _ _ _ _ _ _ 0 4, ← toBE_high]
    rfl
  have small : t.t2.toNat / 2 ^ 32 < 256 ^ 4 := by
    have := t.t2.isLt
    omega
  rw [replayScore, length_timed, if_pos (by decide), bytes, ofBE_toBE small]

/-- soc_runner always recovers the trailer; test_lob_stream recovers its five
timestamps and replay_runner the score exactly when the reflex finishes at T6 and
the score equals the upper half of T2. -/
theorem readers_recover_iff :
    (socTelemetry (timed flags seq tSend tNow feat t) = some t.telemetry ∧
      lobStreamTiming (timed flags seq tSend tNow feat t) =
        some ⟨t.t2.toNat, t.t3.toNat, t.t4.toNat, t.t5.toNat, t.t6.toNat⟩ ∧
      replayScore (timed flags seq tSend tNow feat t) =
        some ((t.mlpScore.toNat : ℚ) / 65536)) ↔
    t.tReflex = t.t6 ∧ t.t2.toNat / 2 ^ 32 = t.mlpScore.toNat := by
  have scores : ((t.t2.toNat / 2 ^ 32 : ℕ) : ℚ) / 65536 = (t.mlpScore.toNat : ℚ) / 65536 ↔
      t.t2.toNat / 2 ^ 32 = t.mlpScore.toNat := by
    rw [div_left_inj' (by norm_num), Nat.cast_inj]
  rw [socTelemetry_timed, lobStreamTiming_timed, replayScore_timed]
  simp only [Option.some.injEq, LobStreamTiming.mk.injEq, true_and, scores, ← BitVec.toNat_inj]

end Timed

/-- Ten seconds after boot, a score of 1.0 and a reflex 40 µs before T6: the reader
takes the reflex for T6 and two units of the clock's upper half for the score. -/
theorem readers_drift :
    let t : TimingData := ⟨10000000000, 10000010000, 10000050000, 10000060000, 10000030000,
      10000070000, 2, 65536⟩
    let data := timed 0x0100 7 0 0 ⟨5, 0, 65536, 0⟩ t
    ¬(socTelemetry data = some t.telemetry ∧
      lobStreamTiming data = some ⟨t.t2.toNat, t.t3.toNat, t.t4.toNat, t.t5.toNat, t.t6.toNat⟩ ∧
      replayScore data = some ((t.mlpScore.toNat : ℚ) / 65536)) := by
  decide +kernel

end HftLatencyLab.TimingTrailer
