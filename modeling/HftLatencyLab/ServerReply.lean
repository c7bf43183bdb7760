import HftLatencyLab.FeatureReply
import HftLatencyLab.ServerFallback

/-! processor_thread (fpga/pynq/feature_echo_mt.py) without DMA, from rx_queue to
tx_queue. Any exception in the loop body is printed and swallowed, with the
variables as they were when it was thrown; the only one is that of `struct.pack`
on an order flow the format has no room for. -/

namespace HftLatencyLab.ServerReply
open ByteOrder LobWire ServerHeader PythonBook ServerFallback FeatureReply

/-- What receiver_thread queues: `now` is the clock read when the reply is built. -/
structure Rx (α : Type) where
  data : List Byte
  addr : α
  now : BitVec 64

structure Tx (α : Type) where
  reply : List Byte
  addr : α

def int16 (x : ℤ) : Prop := -2 ^ 15 ≤ x ∧ x < 2 ^ 15
def int32 (x : ℤ) : Prop := -2 ^ 31 ≤ x ∧ x < 2 ^ 31

instance (x : ℤ) : Decidable (int16 x) := inferInstanceAs (Decidable (_ ∧ _))
instance (x : ℤ) : Decidable (int32 x) := inferInstanceAs (Decidable (_ ∧ _))

/-- `struct.pack(">ihHII", ofi, imb_q1_15, 0, burst & 0xFFFFFFFF, vol & 0xFFFFFFFF)`;
`none` is a struct.error. -/
def packFeat (ofi imbQ115 burst vol : ℤ) : Option FeatPayload :=
  if int32 ofi ∧ int16 imbQ115 then
    some { ofi := BitVec.ofInt 32 ofi
           imbQ115 := BitVec.ofInt 16 imbQ115
           burst := BitVec.ofInt 32 burst
           vol := BitVec.ofInt 32 vol }
  else none

def respond (enableTiming : Bool) (s : PsState) (data : List Byte) (now : BitVec 64) :
    PsState × Option (List Byte) :=
  match parseRequest data with
  | .skip => (s, none)
  | .ping h => (s, some (packHdr lobV1MsgPing (BitVec.ofNat 16 h.flagsBe)
      (BitVec.ofNat 32 h.seqBe) (BitVec.ofNat 64 h.tSendBe) now))
  | .deltas h d =>
    let (s, f) := psFeatures (psBook s ⟨d, data⟩) d.tSendNs
    (s, (packFeat f.ofi f.imbQ115 f.burst f.vol).map fun feat =>
      (featReply enableTiming (BitVec.ofNat 16 h.flagsBe) (BitVec.ofNat 32 h.seqBe)
        (BitVec.ofNat 64 h.tSendBe) now feat).bytes)

variable {α : Type}

def server (enableTiming : Bool) : Mealy PsState (Rx α) (Option (Tx α)) where
  step s x :=
    let (s, reply) := respond enableTiming s x.data x.now
    (s, reply.map (⟨·, x.addr⟩))

def txQueue (enableTiming : Bool) (s : PsState) (rx : List (Rx α)) : List (Tx α) :=
  (server enableTiming).answers s rx

def Valid (data : List Byte) : Prop :=
  lobV1HdrLen ≤ data.length ∧ slice data 0 4 = magicLOB1 ∧
    (ofBE (slice data 5 6) = 0 ∨ ofBE (slice data 5 6) = 1)

instance (data : List Byte) : Decidable (Valid data) := inferInstanceAs (Decidable (_ ∧ _))

def Echoes (x : Rx α) (t : Tx α) : Prop :=
  t.addr = x.addr ∧ (unpackHdr t.reply).magic = magicLOB1 ∧
    (unpackHdr t.reply).flagsBe = (unpackHdr x.data).flagsBe ∧
    (unpackHdr t.reply).seqBe = (unpackHdr x.data).seqBe ∧
    (unpackHdr t.reply).tSendBe = (unpackHdr x.data).tSendBe

theorem parseRequest_skip_iff (data : List Byte) : parseRequest data = .skip ↔ ¬Valid data := by
  unfold parseRequest Valid
  by_cases long : data.length < lobV1HdrLen
  · simp [long]
  · have enough : lobV1HdrLen ≤ data.length := by omega
    by_cases magic : slice data 0 4 = magicLOB1
    · by_cases ping : ofBE (slice data 5 6) = 0
      · simp [unpackHdr, long, enough, magic, ping]
      · by_cases deltas : ofBE (slice data 5 6) = 1 <;>
          simp [unpackHdr, long, enough, magic, ping, deltas]
    · simp [unpackHdr, long, magic]

theorem toNat_ofNat_slice (w : ℕ) {data : List Byte} {i j : ℕ} (h : 2 ^ w = 256 ^ (j - i)) :
    (BitVec.ofNat w (ofBE (slice data i j))).toNat = ofBE (slice data i j) := by
  have len : (slice data i j).length ≤ j - i := List.length_take_le _ _
  have small : ofBE (slice data i j) < 2 ^ w := by
    rw [h]
    exact (ofBE_lt _).trans_le (Nat.pow_le_pow_right (by norm_num) len)
  rw [BitVec.toNat_ofNat, Nat.mod_eq_of_lt small]

theorem echoes_packed (x : Rx α) (msgType : BitVec 8) (now : BitVec 64) (payload : List Byte) :
    Echoes x ⟨packHdr msgType (BitVec.ofNat 16 (unpackHdr x.data).flagsBe)
      (BitVec.ofNat 32 (unpackHdr x.data).seqBe) (BitVec.ofNat 64 (unpackHdr x.data).tSendBe) now ++
      payload, x.addr⟩ := by
  have flags : (BitVec.ofNat 16 (unpackHdr x.data).flagsBe).toNat = (unpackHdr x.data).flagsBe :=
    toNat_ofNat_slice 16 (by norm_num)
  have seq : (BitVec.ofNat 32 (unpackHdr x.data).seqBe).toNat = (unpackHdr x.data).seqBe :=
    toNat_ofNat_slice 32 (by norm_num)
  have tSend : (BitVec.ofNat 64 (unpackHdr x.data).tSendBe).toNat = (unpackHdr x.data).tSendBe :=
    toNat_ofNat_slice 64 (by norm_num)
  simp only [Echoes, unpackHdr_packed, flags, seq, tSend, and_self]

theorem parseRequest_hdr {data : List Byte} :
    (∀ h, parseRequest data = .ping h → h = unpackHdr data) ∧
      ∀ h d, parseRequest data = .deltas h d → h = unpackHdr data := by
  unfold parseRequest
  constructor
  · intro h request
    simp only at request
    split_ifs at request
    exact (Request.ping.inj request).symm
  · intro h d request
    simp only at request
    split_ifs at request
    exact (Request.deltas.inj request).1.symm

def signedFlow (d : UnpackedDelta) : ℤ :=
  if d.level < 16 ∧ (d.action = 1 ∨ d.action = 2) then if d.side = 0 then d.qty else -d.qty else 0

def flowAfter (ofi : ℤ) (data : List Byte) : ℤ :=
  match parseRequest data with
  | .deltas _ d =>
    let cnt := min d.cnt ((data.length - lobV1HdrLen) / lobV1DeltaLen)
    (if d.reset then 0 else ofi) + ((readDeltas data cnt lobV1HdrLen).map signedFlow).sum
  | _ => ofi

def FlowFits : ℤ → List (List Byte) → Prop
  | _, [] => True
  | ofi, data :: rest =>
    (∀ h d, parseRequest data = .deltas h d → int32 (flowAfter ofi data)) ∧
      FlowFits (flowAfter ofi data) rest

theorem psDelta_ofi (s : PsState) (d : UnpackedDelta) :
    (psDelta s d).ofi = s.ofi + signedFlow d := by
  unfold psDelta signedFlow
  by_cases inside : d.level < 16
  · by_cases flow : d.action = 1 ∨ d.action = 2 <;> simp [inside, flow]
  · simp [inside]

theorem foldl_psDelta_ofi (s : PsState) (ds : List UnpackedDelta) :
    (ds.foldl psDelta s).ofi = s.ofi + (ds.map signedFlow).sum := by
  induction ds generalizing s with
  | nil => simp
  | cons d ds ih =>
    rw [List.foldl_cons, ih, psDelta_ofi, List.map_cons, List.sum_cons, add_assoc]

theorem psBook_ofi (s : PsState) {h : UnpackedHdr} {d : DeltasHdr} {data : List Byte}
    (request : parseRequest data = .deltas h d) :
    (psBook s ⟨d, data⟩).ofi = flowAfter s.ofi data := by
  have start : (if d.reset then PsState.start else s).ofi = if d.reset then 0 else s.ofi := by
    cases d.reset <;> rfl
  rw [psBook, foldl_psDelta_ofi, flowAfter, request]
  simp only [start]

theorem psFeatures_ofi (s : PsState) (tSendNs : ℤ) :
    (psFeatures s tSendNs).1.ofi = s.ofi ∧ (psFeatures s tSendNs).2.ofi = s.ofi := by
  unfold psFeatures
  by_cases gap : psGap s tSendNs > 0 <;> simp [gap, psAccumulate]

theorem psImbalance_int16 (b a : ℤ) : int16 (psImbalance b a) := by
  unfold int16
  by_cases quoted : b + a > 0
  · have clamped : psImbalance b a = max (-32768) (min 32767 (((b - a) * 32768).fdiv (b + a))) :=
      if_pos quoted
    rw [clamped]
    omega
  · have zero : psImbalance b a = 0 := if_neg quoted
    rw [zero]
    norm_num

theorem psFeatures_imb (s : PsState) (tSendNs : ℤ) : int16 (psFeatures s tSendNs).2.imbQ115 :=
  psImbalance_int16 _ _

theorem packFeat_isSome {ofi imbQ115 burst vol : ℤ} (h : int16 imbQ115) :
    (packFeat ofi imbQ115 burst vol).isSome ↔ int32 ofi := by
  unfold packFeat
  by_cases fits : int32 ofi <;> simp [fits, h]

variable (enableTiming : Bool)

theorem next_ofi (s : PsState) (x : Rx α) :
    ((server enableTiming).next s x).ofi = flowAfter s.ofi x.data := by
  change (respond enableTiming s x.data x.now).1.ofi = _
  unfold respond
  cases request : parseRequest x.data with
  | skip => simp [flowAfter, request]
  | ping h => simp [flowAfter, request]
  | deltas h d => simp only [psFeatures_ofi, psBook_ofi s request]

theorem server_silent (s : PsState) (x : Rx α) (h : ¬Valid x.data) :
    (server enableTiming).out s x = none := by
  have skip := (parseRequest_skip_iff x.data).mpr h
  simp [Mealy.out, server, respond, skip]

theorem server_echoes (s : PsState) (x : Rx α) (t : Tx α)
    (h : (server enableTiming).out s x = some t) : Echoes x t := by
  obtain ⟨reply, answered, rfl⟩ := Option.map_eq_some_iff.mp h
  change (respond enableTiming s x.data x.now).2 = some reply at answered
  unfold respond at answered
  cases request : parseRequest x.data with
  | skip => simp [request] at answered
  | ping hdr =>
    rw [parseRequest_hdr.1 hdr request] at request
    simp only [request, Option.some.injEq] at answered
    have packed := echoes_packed x lobV1MsgPing x.now []
    rw [List.append_nil, answered] at packed
    exact packed
  | deltas hdr d =>
    rw [parseRequest_hdr.2 hdr d request] at request
    simp only [request] at answered
    obtain ⟨feat, -, rfl⟩ := Option.map_eq_some_iff.mp answered
    exact echoes_packed x _ x.now feat.bytes

theorem server_answers_iff (s : PsState) (x : Rx α) :
    (Valid x.data → ∃ t ∈ (server enableTiming).out s x, Echoes x t) ↔
      ∀ h d, parseRequest x.data = .deltas h d → int32 (flowAfter s.ofi x.data) := by
  have answered : (∃ t ∈ (server enableTiming).out s x, Echoes x t) ↔
      (respond enableTiming s x.data x.now).2.isSome := by
    constructor
    · rintro ⟨t, out, -⟩
      obtain ⟨reply, built, -⟩ := Option.map_eq_some_iff.mp out
      exact Option.isSome_iff_exists.mpr ⟨reply, built⟩
    · intro isSome
      obtain ⟨reply, built⟩ := Option.isSome_iff_exists.mp isSome
      have out : (server enableTiming).out s x = some ⟨reply, x.addr⟩ := by
        simp [Mealy.out, server, built]
      exact ⟨_, out, server_echoes enableTiming s x _ out⟩
  rw [answered]
  have valid := parseRequest_skip_iff x.data
  unfold respond
  cases request : parseRequest x.data with
  | skip => simp [valid.mp request]
  | ping h => simp
  | deltas h d =>
    have asks : Valid x.data := by
      by_contra invalid
      simp [valid.mpr invalid] at request
    simp [asks, packFeat_isSome (psFeatures_imb _ _), psFeatures_ofi, psBook_ofi s request]

/-- In their order, the valid datagrams get one echoing reply each and no others
get any, exactly when the order flow since the last reset stays an int32 after
every DELTAS datagram. -/
theorem answered_once_iff (rx : List (Rx α)) :
    List.Forall₂ Echoes (rx.filter (fun x => Valid x.data)) (txQueue enableTiming .start rx) ↔
      FlowFits 0 (rx.map Rx.data) := by
  have fits (s : PsState) : (server enableTiming).Along
      (fun s x => Valid x.data → ∃ t ∈ (server enableTiming).out s x, Echoes x t) s rx ↔
      FlowFits s.ofi (rx.map Rx.data) := by
    induction rx generalizing s with
    | nil => simp [Mealy.Along, FlowFits]
    | cons x rx ih =>
      rw [Mealy.Along, ih, server_answers_iff, next_ofi, List.map_cons, FlowFits]
  exact (Mealy.answers_iff (V := fun x : Rx α => Valid x.data) (server_silent enableTiming)
    .start rx).trans (fits .start)

/-- One add of the largest quantity is answered, the next is not. -/
theorem second_add_unanswered :
    let add (seq : BitVec 32) : Rx Unit :=
      ⟨packHdr lobV1MsgDeltas 1 seq 0 0 ++ packDelta ⟨1000, 0x7FFFFFFF, 0, 0, 1, 0⟩, (), 0⟩
    ¬List.Forall₂ Echoes ([add 0, add 1].filter (fun x => Valid x.data))
      (txQueue false .start [add 0, add 1]) := by
  intro add all
  have counts : ([add 0, add 1].filter (fun x => Valid x.data)).length = 2 ∧
      (txQueue false .start [add 0, add 1]).length = 1 := by decide +kernel
  have same := all.length_eq
  omega

end HftLatencyLab.ServerReply
