import HftLatencyLab.ByteOrder

/-! The LOB1 wire format: the packed structs of protocol/lob_v1.h as
replay-udp fills them on a little-endian host, and the `struct` strings of the
Python side. Both senders write every field most significant byte first. -/

namespace HftLatencyLab.LobWire
open ByteOrder

def htons (x : BitVec 16) : BitVec 16 := swapped16 x

def htonl (x : BitVec 32) : BitVec 32 := swapped32 x

def htonllU64 (x : BitVec 64) : BitVec 64 :=
  (htonl ((x &&& 0xFFFFFFFF).setWidth 32)).setWidth 64 <<< 32 |||
    (htonl ((x >>> 32).setWidth 32)).setWidth 64

theorem toLE_htons (x : BitVec 16) : toLE 2 (htons x).toNat = toBE 2 x.toNat := by
  rw [htons, swapped16_toNat, toLE_byteSwap]

theorem toLE_htonl (x : BitVec 32) : toLE 4 (htonl x).toNat = toBE 4 x.toNat := by
  rw [htonl, swapped32_toNat, toLE_byteSwap]

theorem toLE_htonllU64 (x : BitVec 64) : toLE 8 (htonllU64 x).toNat = toBE 8 x.toNat := by
  have hx := x.isLt
  have low : ((x &&& 0xFFFFFFFF).setWidth 32).toNat = x.toNat % 256 ^ 4 := by
    have mask : x.toNat &&& 4294967295 = x.toNat % 2 ^ 32 :=
      Nat.and_two_pow_sub_one_eq_mod x.toNat 32
    rw [BitVec.toNat_setWidth, BitVec.toNat_and]
    change (x.toNat &&& 4294967295) % 2 ^ 32 = _
    omega
  have high : ((x >>> 32).setWidth 32).toNat = x.toNat / 256 ^ 4 := by
    simp only [BitVec.toNat_setWidth, BitVec.toNat_ushiftRight, Nat.shiftRight_eq_div_pow]
    omega
  generalize hl : (x &&& 0xFFFFFFFF).setWidth 32 = l at low
  generalize hh : (x >>> 32).setWidth 32 = h at high
  have lower := (htonl l).isLt
  have upper := (htonl h).isLt
  have value : (htonllU64 x).toNat = (htonl l).toNat * 256 ^ 4 + (htonl h).toNat := by
    rw [htonllU64, hl, hh, BitVec.toNat_or, BitVec.toNat_shiftLeft, BitVec.toNat_setWidth,
      BitVec.toNat_setWidth, Nat.shiftLeft_eq, or_eq_add (k := 32) (by omega) (by omega)]
    omega
  rw [value, toLE_concat 4 4 (by simpa using upper), toLE_htonl, toLE_htonl, high, low, toBE, toBE,
    toBE, toLE_mod, ← List.reverse_append, ← toLE_append]

structure LobV1Hdr where
  magic : List Byte
  version : BitVec 8
  msgType : BitVec 8
  flags : BitVec 16
  hdrLen : BitVec 16
  seq : BitVec 32
  tSendNs : BitVec 64
  tIngressNs : BitVec 64
  rsv2 : BitVec 16

structure LobV1Delta where
  priceTicks : BitVec 32
  qty : BitVec 32
  level : BitVec 16
  side : BitVec 8
  action : BitVec 8
  reserved : BitVec 32
deriving DecidableEq

/-- Memory of the packed struct on a little-endian host. -/
def LobV1Hdr.bytes (h : LobV1Hdr) : List Byte :=
  h.magic ++ toLE 1 h.version.toNat ++ toLE 1 h.msgType.toNat ++ toLE 2 h.flags.toNat ++
    toLE 2 h.hdrLen.toNat ++ toLE 4 h.seq.toNat ++ toLE 8 h.tSendNs.toNat ++
    toLE 8 h.tIngressNs.toNat ++ toLE 2 h.rsv2.toNat

def LobV1Delta.bytes (d : LobV1Delta) : List Byte :=
  toLE 4 d.priceTicks.toNat ++ toLE 4 d.qty.toNat ++ toLE 2 d.level.toNat ++
    toLE 1 d.side.toNat ++ toLE 1 d.action.toNat ++ toLE 4 d.reserved.toNat

def magicLOB1 : List Byte := [0x4C, 0x4F, 0x42, 0x31]

def lobV1HdrLen : ℕ := 32
def lobV1DeltaLen : ℕ := 16
def lobV1MsgPing : BitVec 8 := 0
def lobV1MsgDeltas : BitVec 8 := 1

def replayHdr (fcnt : BitVec 16) (seq : BitVec 32) (tSend : BitVec 64) : LobV1Hdr where
  magic := magicLOB1
  version := 1
  msgType := lobV1MsgDeltas
  flags := htons fcnt
  hdrLen := htons 32
  seq := htonl seq
  tSendNs := htonllU64 tSend
  tIngressNs := htonllU64 0
  rsv2 := htons 0

def LobV1Delta.toNetwork (d : LobV1Delta) : LobV1Delta where
  priceTicks := htonl d.priceTicks
  qty := htonl d.qty
  level := htons d.level
  side := d.side
  action := d.action
  reserved := htonl d.reserved

def LobV1Delta.wire (d : LobV1Delta) : List Byte := d.toNetwork.bytes

/-- `struct.pack('>4sBBHHIQQH', b'LOB1', 1, msg_type, flags, 32, seq, t_send, t_ing, 0)` -/
def packHdr (msgType : BitVec 8) (flags : BitVec 16) (seq : BitVec 32)
    (tSend tIng : BitVec 64) : List Byte :=
  magicLOB1 ++ toBE 1 1 ++ toBE 1 msgType.toNat ++ toBE 2 flags.toNat ++ toBE 2 32 ++
    toBE 4 seq.toNat ++ toBE 8 tSend.toNat ++ toBE 8 tIng.toNat ++ toBE 2 0

/-- `data[i:j]` -/
def slice (data : List Byte) (i j : ℕ) : List Byte := (data.drop i).take (j - i)

/-- `int.from_bytes(bs, 'big')` -/
def fromBytesBig (bs : List Byte) : ℕ := ofBE bs

/-- `int.from_bytes(bs, 'big', signed=True)` -/
def fromBytesBigSigned (bs : List Byte) : ℤ :=
  if 2 * ofBE bs < 256 ^ bs.length then ofBE bs else ofBE bs - 256 ^ bs.length

theorem toLE_one_eq_toBE (x : ℕ) : toLE 1 x = toBE 1 x := rfl

theorem replayHdr_bytes (fcnt : BitVec 16) (seq : BitVec 32) (tSend : BitVec 64) :
    (replayHdr fcnt seq tSend).bytes = packHdr lobV1MsgDeltas fcnt seq tSend 0 := by
  simp only [LobV1Hdr.bytes, replayHdr, packHdr, toLE_htons, toLE_htonl, toLE_htonllU64,
    toLE_one_eq_toBE]
  rfl

/-- `struct.pack('>iiHBBI', price, size, level, side, action, reserved)` -/
def packDelta (d : LobV1Delta) : List Byte :=
  toBE 4 d.priceTicks.toNat ++ toBE 4 d.qty.toNat ++ toBE 2 d.level.toNat ++
    toBE 1 d.side.toNat ++ toBE 1 d.action.toNat ++ toBE 4 d.reserved.toNat

theorem wire_eq_packDelta (d : LobV1Delta) : d.wire = packDelta d := by
  simp only [LobV1Delta.wire, LobV1Delta.bytes, LobV1Delta.toNetwork, packDelta, toLE_htons,
    toLE_htonl, toLE_one_eq_toBE]

@[simp] theorem length_packHdr (msgType : BitVec 8) (flags : BitVec 16) (seq : BitVec 32)
    (tSend tIng : BitVec 64) : (packHdr msgType flags seq tSend tIng).length = 32 := by
  simp [packHdr, magicLOB1]

theorem packHdr_fields (msgType : BitVec 8) (flags : BitVec 16) (seq : BitVec 32)
    (tSend tIng : BitVec 64) (payload : List Byte) :
    let data := packHdr msgType flags seq tSend tIng ++ payload
    slice data 0 4 = magicLOB1 ∧ slice data 4 5 = toBE 1 1 ∧
      slice data 5 6 = toBE 1 msgType.toNat ∧ slice data 6 8 = toBE 2 flags.toNat ∧
      slice data 8 10 = toBE 2 32 ∧ slice data 10 14 = toBE 4 seq.toNat ∧
      slice data 14 22 = toBE 8 tSend.toNat ∧ slice data 22 30 = toBE 8 tIng.toNat ∧
      slice data 30 32 = toBE 2 0 := by
  have magic : magicLOB1.length = 4 := rfl
  simp [packHdr, slice, magic, List.drop_append, List.drop_of_length_le]

@[simp] theorem length_packDelta (d : LobV1Delta) : (packDelta d).length = 16 := by
  simp [packDelta]

theorem fromBytesBigSigned_toBE {w n : ℕ} (x : BitVec w) (hw : 2 ^ w = 256 ^ n) :
    fromBytesBigSigned (toBE n x.toNat) = x.toInt := by
  rw [fromBytesBigSigned, length_toBE, ofBE_toBE (hw ▸ x.isLt), BitVec.toInt_eq_toNat_cond, hw]
  push_cast
  rfl

/-- `struct.unpack('>iiHBBI', bs)`, the last field dropped. -/
structure UnpackedDelta where
  priceTicks : ℤ
  qty : ℤ
  level : ℕ
  side : ℕ
  action : ℕ
deriving DecidableEq

def unpackDelta (bs : List Byte) : UnpackedDelta where
  priceTicks := fromBytesBigSigned (slice bs 0 4)
  qty := fromBytesBigSigned (slice bs 4 8)
  level := ofBE (slice bs 8 10)
  side := ofBE (slice bs 10 11)
  action := ofBE (slice bs 11 12)

def LobV1Delta.unpacked (d : LobV1Delta) : UnpackedDelta where
  priceTicks := d.priceTicks.toInt
  qty := d.qty.toInt
  level := d.level.toNat
  side := d.side.toNat
  action := d.action.toNat

theorem unpackDelta_wire (d : LobV1Delta) : unpackDelta d.wire = d.unpacked := by
  have price := fromBytesBigSigned_toBE (n := 4) d.priceTicks (by norm_num)
  have qty := fromBytesBigSigned_toBE (n := 4) d.qty (by norm_num)
  have level := ofBE_toBE (n := 2) d.level.isLt
  have side := ofBE_toBE (n := 1) d.side.isLt
  have action := ofBE_toBE (n := 1) d.action.isLt
  rw [wire_eq_packDelta, LobV1Delta.unpacked, ← price, ← qty, ← level, ← side, ← action]
  rfl

end HftLatencyLab.LobWire
