import HftLatencyLab.LobWire

/-! The replies of the servers: a header that echoes the request, and after it
the feature payload of protocol/lob_v1.h. -/

namespace HftLatencyLab.FeatureReply
open ByteOrder LobWire

def lobV1FeatLen : ℕ := 16
def lobV1MsgFeatures : BitVec 8 := 2
def lobV1MsgFeaturesWithTiming : BitVec 8 := 4

/-- The arguments of `struct.pack(">ihHII", ofi, imb_q1_15, 0, burst, vol)` as the
format stores them. -/
structure FeatPayload where
  ofi : BitVec 32
  imbQ115 : BitVec 16
  burst : BitVec 32
  vol : BitVec 32
deriving DecidableEq

def FeatPayload.bytes (f : FeatPayload) : List Byte :=
  toBE 4 f.ofi.toNat ++ toBE 2 f.imbQ115.toNat ++ toBE 2 0 ++ toBE 4 f.burst.toNat ++
    toBE 4 f.vol.toNat

@[simp] theorem FeatPayload.length_bytes (f : FeatPayload) : f.bytes.length = lobV1FeatLen := by
  simp [FeatPayload.bytes, lobV1FeatLen]

structure Reply where
  msgType : BitVec 8
  flags : BitVec 16
  seq : BitVec 32
  tSend : BitVec 64
  tNow : BitVec 64
  feat : FeatPayload
deriving DecidableEq

def Reply.bytes (r : Reply) : List Byte :=
  packHdr r.msgType r.flags r.seq r.tSend r.tNow ++ r.feat.bytes

/-- The reply to a DELTAS request, `msg_type_reply = 4 if args.enable_timing else 2`. -/
def featReply (enableTiming : Bool) (flags : BitVec 16) (seq : BitVec 32) (tSend tNow : BitVec 64)
    (feat : FeatPayload) : Reply where
  msgType := if enableTiming then lobV1MsgFeaturesWithTiming else lobV1MsgFeatures
  flags := flags
  seq := seq
  tSend := tSend
  tNow := tNow
  feat := feat

@[simp] theorem Reply.length_bytes (r : Reply) : r.bytes.length = 48 := by
  simp [Reply.bytes, length_packHdr, lobV1FeatLen]

theorem slice_append_right {a b : List Byte} {n : ℕ} (h : a.length = n) (i j : ℕ) :
    slice (a ++ b) (n + i) (n + j) = slice b i j := by
  subst h
  rw [slice, List.drop_length_add_append, Nat.add_sub_add_left, slice]

theorem slice_slice (a : List Byte) {n i j : ℕ} (h : j ≤ n) :
    slice (slice a 0 n) i j = slice a i j := by
  have short : min (j - i) (n - i) = j - i := by omega
  simp only [slice, List.drop_zero, Nat.sub_zero, List.drop_take, List.take_take, short]

theorem Reply.slice_magic (r : Reply) (more : List Byte) :
    slice (r.bytes ++ more) 0 4 = magicLOB1 := by
  obtain ⟨magic, -⟩ := packHdr_fields r.msgType r.flags r.seq r.tSend r.tNow (r.feat.bytes ++ more)
  rwa [Reply.bytes, List.append_assoc]

theorem Reply.slice_msgType (r : Reply) (more : List Byte) :
    slice (r.bytes ++ more) 5 6 = toBE 1 r.msgType.toNat := by
  obtain ⟨-, -, kind, -⟩ :=
    packHdr_fields r.msgType r.flags r.seq r.tSend r.tNow (r.feat.bytes ++ more)
  rwa [Reply.bytes, List.append_assoc]

end HftLatencyLab.FeatureReply
