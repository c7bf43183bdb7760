import HftLatencyLab.LobWire
import Mathlib.Data.Nat.Bitwise

/-! The header decode of processor_thread (fpga/pynq/feature_echo_mt.py).
`struct.unpack` with `>` already yields host numbers; the shift-and-mask
expressions after it swap the flags and the send time once more. -/

namespace HftLatencyLab.ServerHeader
open ByteOrder LobWire

/-- `struct.unpack('>4sBBHHIQQH', data[:HDR_LEN])` -/
structure UnpackedHdr where
  magic : List Byte
  ver : ℕ
  msgType : ℕ
  flagsBe : ℕ
  hdrLenBe : ℕ
  seqBe : ℕ
  tSendBe : ℕ
  tIngBe : ℕ
  rsv2 : ℕ
deriving DecidableEq

def unpackHdr (data : List Byte) : UnpackedHdr where
  magic := slice data 0 4
  ver := ofBE (slice data 4 5)
  msgType := ofBE (slice data 5 6)
  flagsBe := ofBE (slice data 6 8)
  hdrLenBe := ofBE (slice data 8 10)
  seqBe := ofBE (slice data 10 14)
  tSendBe := ofBE (slice data 14 22)
  tIngBe := ofBE (slice data 22 30)
  rsv2 := ofBE (slice data 30 32)

def swapFlags (flagsBe : ℕ) : ℕ := (flagsBe >>> 8) ||| ((flagsBe &&& 0xFF) <<< 8)

def swapTSend (tSendBe : ℕ) : ℕ :=
  (tSendBe >>> 56) ||| ((tSendBe >>> 40) &&& 0xFF00) ||| ((tSendBe >>> 24) &&& 0xFF0000) |||
    ((tSendBe >>> 8) &&& 0xFF000000) ||| ((tSendBe <<< 8) &&& 0xFF00000000) |||
    ((tSendBe <<< 24) &&& 0xFF0000000000) ||| ((tSendBe <<< 40) &&& 0xFF000000000000) |||
    ((tSendBe <<< 56) &&& 0xFF00000000000000)

structure DeltasHdr where
  reset : Bool
  cnt : ℕ
  tSendNs : ℕ
deriving DecidableEq

def decodeDeltasHdr (h : UnpackedHdr) : DeltasHdr :=
  let flags := swapFlags h.flagsBe
  { reset := flags &&& 0x8000 != 0
    cnt := flags &&& 0x7FFF
    tSendNs := swapTSend h.tSendBe }

inductive Request where
  | skip
  | ping (h : UnpackedHdr)
  | deltas (h : UnpackedHdr) (d : DeltasHdr)
deriving DecidableEq

def parseRequest (data : List Byte) : Request :=
  if data.length < lobV1HdrLen then .skip
  else
    let h := unpackHdr data
    if h.magic ≠ magicLOB1 then .skip
    else if h.msgType = 0 then .ping h
    else if h.msgType ≠ 1 then .skip
    else .deltas h (decodeDeltasHdr h)

theorem swapFlags_eq (f : BitVec 16) : swapFlags f.toNat = byteSwap 2 f.toNat := by
  have hf := f.isLt
  have low : f.toNat &&& 0xFF = f.toNat % 256 := Nat.and_two_pow_sub_one_eq_mod _ 8
  have joined := or_byte (k := 1) (d := f.toNat % 256) (show f.toNat / 256 < 256 ^ 1 by omega)
    (by omega)
  rw [swapFlags, low, Nat.shiftRight_eq_div_pow, Nat.shiftLeft_eq]
  simp only [byteSwap, ofBE, toLE, List.reverse_cons, List.reverse_nil, List.nil_append,
    List.cons_append, ofLE, BitVec.toNat_ofNat]
  norm_num at joined ⊢
  omega

theorem swapTSend_eq (t : BitVec 64) : swapTSend t.toNat = byteSwap 8 t.toNat := by
  have top : t.toNat / 256 ^ 7 < 256 ^ 1 := Nat.div_lt_of_lt_mul t.isLt
  have digit (i : ℕ) : t.toNat / 256 ^ i % 256 < 256 := Nat.mod_lt _ (by norm_num)
  have m0 : t.toNat >>> 56 = t.toNat / 256 ^ 7 := Nat.shiftRight_eq_div_pow _ 56
  have m1 : (t.toNat >>> 40) &&& 0xFF00 = t.toNat / 256 ^ 6 % 256 * 256 ^ 1 :=
    shiftRight_and_byteMask t.toNat 5 1
  have m2 : (t.toNat >>> 24) &&& 0xFF0000 = t.toNat / 256 ^ 5 % 256 * 256 ^ 2 :=
    shiftRight_and_byteMask t.toNat 3 2
  have m3 : (t.toNat >>> 8) &&& 0xFF000000 = t.toNat / 256 ^ 4 % 256 * 256 ^ 3 :=
    shiftRight_and_byteMask t.toNat 1 3
  have m4 : (t.toNat <<< 8) &&& 0xFF00000000 = t.toNat / 256 ^ 3 % 256 * 256 ^ 4 :=
    shiftLeft_and_byteMask t.toNat 1 3
  have m5 : (t.toNat <<< 24) &&& 0xFF0000000000 = t.toNat / 256 ^ 2 % 256 * 256 ^ 5 :=
    shiftLeft_and_byteMask t.toNat 3 2
  have m6 : (t.toNat <<< 40) &&& 0xFF000000000000 = t.toNat / 256 ^ 1 % 256 * 256 ^ 6 :=
    shiftLeft_and_byteMask t.toNat 5 1
  have m7 : (t.toNat <<< 56) &&& 0xFF00000000000000 = t.toNat / 256 ^ 0 % 256 * 256 ^ 7 :=
    shiftLeft_and_byteMask t.toNat 7 0
  have j1 := or_byte (k := 1) top (digit 6)
  have j2 := or_byte (k := 2) j1.2 (digit 5)
  have j3 := or_byte (k := 3) j2.2 (digit 4)
  have j4 := or_byte (k := 4) j3.2 (digit 3)
  have j5 := or_byte (k := 5) j4.2 (digit 2)
  have j6 := or_byte (k := 6) j5.2 (digit 1)
  have j7 := or_byte (k := 7) j6.2 (digit 0)
  have high : t.toNat / 256 ^ 7 = t.toNat / 256 ^ 7 % 2 ^ 8 := (Nat.mod_eq_of_lt top).symm
  rw [swapTSend, m0, m1, m2, m3, m4, m5, m6, m7, j1.1, j2.1, j3.1, j4.1, j5.1, j6.1, j7.1, high,
    byteSwap, ofBE, toLE_eq_map]
  simp only [List.range_succ, List.range_zero, List.nil_append, List.cons_append, List.map_cons,
    List.map_nil, List.reverse_cons, List.reverse_nil, ofLE, BitVec.toNat_ofNat]
  norm_num
  ring

theorem unpackHdr_packed (msgType : BitVec 8) (flags : BitVec 16) (seq : BitVec 32)
    (tSend tIng : BitVec 64) (payload : List Byte) :
    unpackHdr (packHdr msgType flags seq tSend tIng ++ payload) =
      { magic := magicLOB1
        ver := 1
        msgType := msgType.toNat
        flagsBe := flags.toNat
        hdrLenBe := 32
        seqBe := seq.toNat
        tSendBe := tSend.toNat
        tIngBe := tIng.toNat
        rsv2 := 0 } := by
  obtain ⟨magic, ver, kind, flagsBe, hdrLen, seqBe, sent, ingress, rsv2⟩ :=
    packHdr_fields msgType flags seq tSend tIng payload
  have one : ofBE (toBE 1 1) = 1 := rfl
  have len : ofBE (toBE 2 32) = 32 := rfl
  have zero : ofBE (toBE 2 0) = 0 := rfl
  have k : ofBE (toBE 1 msgType.toNat) = msgType.toNat := ofBE_toBE msgType.isLt
  have f : ofBE (toBE 2 flags.toNat) = flags.toNat := ofBE_toBE flags.isLt
  have s : ofBE (toBE 4 seq.toNat) = seq.toNat := ofBE_toBE seq.isLt
  have t : ofBE (toBE 8 tSend.toNat) = tSend.toNat := ofBE_toBE tSend.isLt
  have i : ofBE (toBE 8 tIng.toNat) = tIng.toNat := ofBE_toBE tIng.isLt
  rw [unpackHdr, magic, ver, kind, flagsBe, hdrLen, seqBe, sent, ingress, rsv2, one, len, zero,
    k, f, s, t, i]

theorem unpackHdr_packHdr (flags : BitVec 16) (seq : BitVec 32) (tSend tIng : BitVec 64)
    (payload : List Byte) :
    unpackHdr (packHdr lobV1MsgDeltas flags seq tSend tIng ++ payload) =
      { magic := magicLOB1
        ver := 1
        msgType := 1
        flagsBe := flags.toNat
        hdrLenBe := 32
        seqBe := seq.toNat
        tSendBe := tSend.toNat
        tIngBe := tIng.toNat
        rsv2 := 0 } := unpackHdr_packed lobV1MsgDeltas flags seq tSend tIng payload

theorem parseRequest_packHdr (flags : BitVec 16) (seq : BitVec 32) (tSend tIng : BitVec 64)
    (payload : List Byte) :
    parseRequest (packHdr lobV1MsgDeltas flags seq tSend tIng ++ payload) =
      .deltas (unpackHdr (packHdr lobV1MsgDeltas flags seq tSend tIng ++ payload))
        { reset := byteSwap 2 flags.toNat &&& 0x8000 != 0
          cnt := byteSwap 2 flags.toNat &&& 0x7FFF
          tSendNs := byteSwap 8 tSend.toNat } := by
  have long : ¬(packHdr lobV1MsgDeltas flags seq tSend tIng ++ payload).length < lobV1HdrLen := by
    rw [List.length_append, length_packHdr, lobV1HdrLen]
    omega
  rw [parseRequest, if_neg long, unpackHdr_packHdr]
  simp only [ne_eq, not_true_eq_false, if_false, decodeDeltasHdr, swapFlags_eq, swapTSend_eq]
  rfl

theorem flags_fields_eq_iff {g f : ℕ} (hg : g < 2 ^ 16) (hf : f < 2 ^ 16) :
    ((g &&& 0x8000 != 0) = f.testBit 15 ∧ g &&& 0x7FFF = f % 2 ^ 15) ↔ g = f := by
  have count : g &&& 0x7FFF = g % 2 ^ 15 := Nat.and_two_pow_sub_one_eq_mod g 15
  have bit : (g &&& 0x8000 != 0) = g.testBit 15 := by
    have mask : g &&& 0x8000 = (g.testBit 15).toNat * 2 ^ 15 := Nat.and_two_pow g 15
    rw [mask]
    cases g.testBit 15 <;> rfl
  rw [bit, count, Nat.testBit_eq_decide_div_mod_eq, Nat.testBit_eq_decide_div_mod_eq,
    decide_eq_decide]
  omega

def encoders (flags : BitVec 16) (seq : BitVec 32) (tSend tIng : BitVec 64) : List (List Byte) :=
  [(replayHdr flags seq tSend).bytes, packHdr lobV1MsgDeltas flags seq tSend tIng]

/-- The decode is right exactly on flags and send times that read the same in
either byte order. -/
theorem deltas_hdr_decoded_iff (flags : BitVec 16) (seq : BitVec 32) (tSend tIng : BitVec 64)
    (payload : List Byte) :
    (∀ hdr ∈ encoders flags seq tSend tIng, ∃ h d, parseRequest (hdr ++ payload) = .deltas h d ∧
      d.reset = flags.toNat.testBit 15 ∧ d.cnt = flags.toNat % 2 ^ 15 ∧ d.tSendNs = tSend.toNat) ↔
    ByteSymmetric 2 flags.toNat ∧ ByteSymmetric 8 tSend.toNat := by
  have fields := flags_fields_eq_iff (byteSwap_lt 2 flags.toNat) flags.isLt
  rw [← byteSwap_eq_iff flags.isLt, ← byteSwap_eq_iff tSend.isLt, ← fields]
  simp only [encoders, replayHdr_bytes, List.mem_cons, List.not_mem_nil, or_false, forall_eq_or_imp,
    forall_eq, parseRequest_packHdr, Request.deltas.injEq]
  constructor
  · rintro ⟨⟨h, d, ⟨-, rfl⟩, reset, cnt, time⟩, -⟩
    exact ⟨⟨reset, cnt⟩, time⟩
  · rintro ⟨⟨reset, cnt⟩, time⟩
    exact ⟨⟨_, _, ⟨rfl, rfl⟩, reset, cnt, time⟩, _, _, ⟨rfl, rfl⟩, reset, cnt, time⟩

/-- A reset packet with one delta is taken for a packet of 384 deltas. -/
theorem reset_hdr_misread :
    ∃ h d, parseRequest (replayHdr 0x8001 0 1).bytes = .deltas h d ∧
      d = { reset := false, cnt := 384, tSendNs := 2 ^ 56 } ∧
      d.reset ≠ Nat.testBit 0x8001 15 ∧ d.cnt ≠ 0x8001 % 2 ^ 15 ∧ d.tSendNs ≠ 1 :=
  ⟨_, _, rfl, rfl, by decide, by decide, by decide⟩

end HftLatencyLab.ServerHeader
