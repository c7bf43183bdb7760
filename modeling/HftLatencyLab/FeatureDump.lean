import HftLatencyLab.FeatureReply
import HftLatencyLab.StreamPump

/-! The file `--dump-features` of replay-udp and the three programs under tests that read
it. The writer and validate_features_off_packets.py have records of 30 bytes; the other two
readers expect 18, a count and the features. -/

namespace HftLatencyLab.FeatureDump
open ByteOrder LobWire FeatureReply

structure FeaturesReply where
  seq : BitVec 32
  flags : BitVec 16
  tSend : BitVec 64
  tIngress : BitVec 64
  payload : List Byte
  sized : payload.length = lobV1FeatLen

def FeaturesReply.bytes (r : FeaturesReply) : List Byte :=
  packHdr lobV1MsgFeatures r.flags r.seq r.tSend r.tIngress ++ r.payload

/-- What a received datagram adds to the dump: 4B seq (be), 2B count, 8B t_send_ns (be),
then 16B features. -/
def dumpReceived (buf : List Byte) : List Byte :=
  if buf.length < lobV1HdrLen then []
  else if slice buf 5 6 = toBE 1 lobV1MsgFeatures.toNat then
    if buf.length < lobV1HdrLen + lobV1FeatLen then []
    else slice buf 10 14 ++ slice buf 6 8 ++ slice buf 14 22 ++
      slice buf lobV1HdrLen (lobV1HdrLen + lobV1FeatLen)
  else []

def dumpFeatures (replies : List FeaturesReply) : List Byte :=
  replies.flatMap (fun r => dumpReceived r.bytes)

structure Record where
  cnt : ℕ
  rxFeat : List Byte
deriving DecidableEq

def readRx (rx : List Byte) : Except Unit (Unit × List Byte × Record) :=
  let recRx := 4 + 2 + 8 + lobV1FeatLen
  if rx.length < recRx then .error ()
  else
    let flags := fromBytesBig (slice rx 4 6)
    .ok ((), rx.drop recRx, ⟨flags &&& 0x7FFF, slice rx 14 (14 + lobV1FeatLen)⟩)

theorem readRx_shorter {rx rest : List Byte} {u : Unit} {o : Record}
    (fired : readRx rx = .ok (u, rest, o)) : rest.length < rx.length := by
  unfold readRx at fired
  dsimp only at fired
  split_ifs at fired with short
  cases fired
  rw [List.length_drop]
  omega

def offPacketsReader : StreamPump Unit Byte Record Unit where
  fire _ rx := readRx rx
  consumes _ _ _ _ _ fired := readRx_shorter fired

theorem offPacketsReader_fire (rx : List Byte) : offPacketsReader.fire () rx = readRx rx := rfl

theorem readRx_nil : readRx [] = .error () := rfl

def offPackets (rx : List Byte) : List Record := (offPacketsReader.run () rx).fired.map Prod.snd

def countedRecords (rx : List Byte) : Option (List Record) :=
  let recLen := 2 + lobV1FeatLen
  if rx.length % recLen ≠ 0 then none
  else some ((List.range (rx.length / recLen)).map (fun pktIdx =>
    let rec_ := slice rx (pktIdx * recLen) ((pktIdx + 1) * recLen)
    ⟨fromBytesBig (slice rec_ 0 2), slice rec_ 2 (2 + lobV1FeatLen)⟩))

/-- validate_features_offline.py -/
def offline (rx : List Byte) : Option (List Record) := countedRecords rx

/-- trace_compare.py -/
def traceCompare (rx : List Byte) : Option (List Record) := countedRecords rx

def FeaturesReply.record (r : FeaturesReply) : Record := ⟨r.flags.toNat &&& 0x7FFF, r.payload⟩

theorem dumpReceived_bytes (r : FeaturesReply) :
    dumpReceived r.bytes =
      toBE 4 r.seq.toNat ++ (toBE 2 r.flags.toNat ++ (toBE 8 r.tSend.toNat ++ r.payload)) := by
  obtain ⟨-, -, kind, flags, -, seq, tSend, -⟩ :=
    packHdr_fields lobV1MsgFeatures r.flags r.seq r.tSend r.tIngress r.payload
  have long : r.bytes.length = lobV1HdrLen + lobV1FeatLen := by
    rw [FeaturesReply.bytes, List.length_append, length_packHdr, r.sized, lobV1HdrLen]
  have payload : slice r.bytes lobV1HdrLen (lobV1HdrLen + lobV1FeatLen) = r.payload := by
    have behind := slice_append_right (b := r.payload)
      (length_packHdr lobV1MsgFeatures r.flags r.seq r.tSend r.tIngress) 0 lobV1FeatLen
    rw [← r.sized, slice, slice, List.drop_zero, Nat.sub_zero, List.take_length] at behind
    rw [← r.sized]
    exact behind
  change slice r.bytes _ _ = _ at kind flags seq tSend
  rw [dumpReceived, if_neg (by omega), if_pos kind, if_neg (by omega), payload, seq, flags, tSend,
    List.append_assoc, List.append_assoc]

theorem length_record (r : FeaturesReply) : (dumpReceived r.bytes).length = 30 := by
  simp only [dumpReceived_bytes, List.length_append, length_toBE, r.sized, lobV1FeatLen]

theorem length_dump (replies : List FeaturesReply) :
    (dumpFeatures replies).length = replies.length * 30 := by
  unfold dumpFeatures
  induction replies with
  | nil => rfl
  | cons r rs ih =>
    rw [List.flatMap_cons, List.length_append, length_record, ih, List.length_cons]
    omega

theorem readRx_dump (r : FeaturesReply) (rest : List Byte) :
    readRx (dumpReceived r.bytes ++ rest) = .ok ((), rest, r.record) := by
  have long := length_record r
  have enough : 30 ≤ (dumpReceived r.bytes ++ rest).length := by
    rw [List.length_append]
    omega
  have after : (dumpReceived r.bytes ++ rest).drop 30 = rest := List.drop_left' long
  have flags : fromBytesBig (slice (dumpReceived r.bytes ++ rest) 4 6) = r.flags.toNat := by
    rw [dumpReceived_bytes, fromBytesBig, slice]
    simpa [List.take_append, List.drop_append] using ofBE_toBE (n := 2) r.flags.isLt
  have payload : slice (dumpReceived r.bytes ++ rest) 14 30 = r.payload := by
    have width : 30 - 14 = r.payload.length := r.sized.symm
    rw [dumpReceived_bytes, slice, width]
    simp [List.drop_append, List.drop_of_length_le]
  have recRx : 4 + 2 + 8 + lobV1FeatLen = 30 := rfl
  rw [readRx]
  dsimp only
  rw [recRx, if_neg (by omega), after, flags, payload, FeaturesReply.record]

theorem offPackets_dump (replies : List FeaturesReply) :
    offPackets (dumpFeatures replies) = replies.map FeaturesReply.record := by
  have fires (r : FeaturesReply) (rest : List Byte) (_ : True) :
      offPacketsReader.fire () (dumpReceived r.bytes ++ rest) = .ok ((), rest, r.record) := by
    rw [offPacketsReader_fire, readRx_dump]
  have stops : offPacketsReader.fire () [] = .error () := by
    rw [offPacketsReader_fire, readRx_nil]
  exact (offPacketsReader.run_records fires stops fun _ _ => trivial).1

theorem countedRecords_length {replies : List FeaturesReply} {records : List Record}
    (read : countedRecords (dumpFeatures replies) = some records)
    (count : records.length = replies.length) : replies = [] := by
  unfold countedRecords at read
  simp only [length_dump, lobV1FeatLen] at read
  split_ifs at read with whole
  obtain rfl := Option.some.inj read
  rw [List.length_map, List.length_range] at count
  exact List.eq_nil_of_length_eq_zero (by omega)

def Agree (replies : List FeaturesReply) : Prop :=
  offPackets (dumpFeatures replies) = replies.map FeaturesReply.record ∧
    offline (dumpFeatures replies) = some (replies.map FeaturesReply.record) ∧
    traceCompare (dumpFeatures replies) = some (replies.map FeaturesReply.record)

theorem agree_iff (replies : List FeaturesReply) : Agree replies ↔ replies = [] := by
  constructor
  · rintro ⟨-, read, -⟩
    exact countedRecords_length read (List.length_map _)
  · rintro rfl
    exact ⟨rfl, rfl, rfl⟩

/-- One reply: 30 bytes are no whole number of 18-byte records. -/
theorem one_reply_rejected :
    ¬∀ replies : List FeaturesReply, Agree replies := by
  intro every
  obtain ⟨-, read, -⟩ := every [⟨7, 3, 100, 0, List.replicate 16 0, rfl⟩]
  revert read
  decide

end HftLatencyLab.FeatureDump
