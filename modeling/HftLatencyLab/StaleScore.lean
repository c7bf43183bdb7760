import HftLatencyLab.CDriverServer
import HftLatencyLab.ScorePath

/-! The score in the trailer of a reply, in processor_thread of feature_echo_mt.py and of
feature_echo_c.py. Both start a score transfer once the features are in, look for the interrupt
flag for a while, and then read the shared `score_buf` whether or not the flag was seen: only the
time T5 depends on it. A transfer that is given up stays with the DMA: it can deliver at any
later time, and then leaves its flag to the drain of a later packet. Datagrams other than DELTAS
leave all of this alone and have no trailer. -/

namespace HftLatencyLab.StaleScore
open ByteOrder LobWire ServerHeader ServerFallback ServerReply FeatureReply TimingTrailer ScorePath
  CDriverServer

/-- What the DMA does of its own: it ends the transfer that `packet` started with a score. -/
structure Delivery where
  packet : ℕ
  score : BitVec 32
deriving DecidableEq

/-- The score channel, which outlives the packets; `delivered` is its history. -/
structure ScoreDma where
  ioc : Bool
  pending : List ℕ
  scoreBuf : List Byte
  delivered : List Delivery

namespace ScoreDma

/-- Only a transfer that was started delivers, and only once. -/
def deliver (d : ScoreDma) (e : Delivery) : ScoreDma :=
  if e.packet ∈ d.pending then {
    ioc := true
    pending := d.pending.erase e.packet
    scoreBuf := scoreStore (scoreBeat e.score true) ++ d.scoreBuf.drop 4
    delivered := d.delivered ++ [e] }
  else d

def run (d : ScoreDma) (es : List Delivery) : ScoreDma := es.foldl deliver d

/-- The write of S2MM_LENGTH; it leaves the status register alone. -/
def start (d : ScoreDma) (k : ℕ) : ScoreDma := { d with pending := d.pending ++ [k] }

/-- S2MM_DMASR, of which all but the interrupt flag is up to the DMA. -/
def sr (d : ScoreDma) (bits : BitVec 32) : BitVec 32 :=
  if d.ioc then bits ||| 0x1000 else bits &&& ~~~0x1000

/-- The write of 0x1000 to S2MM_DMASR. -/
def clear (d : ScoreDma) : ScoreDma := { d with ioc := false }

theorem run_keeps {P : ScoreDma → Prop} (deliver : ∀ d e, P d → P (d.deliver e)) {d : ScoreDma}
    (before : P d) (es : List Delivery) : P (d.run es) := by
  induction es generalizing d with
  | nil => exact before
  | cons e es ih => exact ih (deliver d e before)

end ScoreDma

/-- The score transfer of a packet in feature_echo_mt. Each register access may raise into the
bare `except`; `before i` is what the DMA does between poll `i` and the one before it. -/
structure MtTransfer where
  started : Bool
  before : ℕ → List Delivery
  bits : ℕ → Option (BitVec 32)
  beforeClear : List Delivery
  cleared : Bool

/-- `for _ in range(100)`, from poll `i` on, and whether T5 is taken. -/
def pollScore (x : MtTransfer) : ℕ → ℕ → ScoreDma → ScoreDma × Bool
  | 0, _, d => (d, false)
  | left + 1, i, d =>
    let d := d.run (x.before i)
    match x.bits i with
    | none => (d, false)
    | some bits =>
      if d.sr bits &&& 0x1000 ≠ 0 then
        let d := d.run x.beforeClear
        if x.cleared then (d.clear, true) else (d, false)
      else pollScore x left (i + 1) d

structure CTransfer where
  before : ℕ → List Delivery
  bits : ℕ → BitVec 32
  beforeClear : List Delivery

/-- `dma_wait_s2mm` on the score channel, from read `i` on. -/
def waitScore (x : CTransfer) : ℕ → ℕ → ScoreDma → ScoreDma × ℤ
  | 0, _, d => (d, -2)
  | left + 1, i, d =>
    let d := d.run (x.before i)
    if d.sr (x.bits i) &&& 0x1000 ≠ 0 then ((d.run x.beforeClear).clear, 0)
    else if d.sr (x.bits i) &&& 0x70 ≠ 0 then (d, -1)
    else waitScore x left (i + 1) d

def dmaDrainScore (k : ℕ) (x : CTransfer) (d : ScoreDma) : ScoreDma × ℤ :=
  waitScore x 1000000 0 (d.start k)

theorem waitScore_ret (x : CTransfer) (d : ScoreDma) (left i : ℕ) :
    (waitScore x left i (d.run ((List.range i).flatMap x.before))).2 =
      waitLoop (fun j => (d.run ((List.range (j + 1)).flatMap x.before)).sr (x.bits j)) left i := by
  induction left generalizing i with
  | zero => rfl
  | succ left ih =>
    have next : (d.run ((List.range i).flatMap x.before)).run (x.before i) =
        d.run ((List.range (i + 1)).flatMap x.before) := by
      simp [ScoreDma.run, List.range_succ]
    rw [waitScore, waitLoop, ← ih (i + 1), next]
    split_ifs <;> rfl

theorem dmaDrainScore_ret (k : ℕ) (x : CTransfer) (d : ScoreDma) :
    (dmaDrainScore k x d).2 = dmaWaitS2mm fun j =>
      ((d.start k).run ((List.range (j + 1)).flatMap x.before)).sr (x.bits j) :=
  waitScore_ret x (d.start k) 1000000 0

/-- How a server sees off the score transfer of packet `k`, and whether it then takes T5. -/
structure ScoreDrain (τ : Type) where
  drain : ℕ → τ → ScoreDma → ScoreDma × Bool
  keeps : ∀ {P : ScoreDma → Prop}, (∀ d e, P d → P (d.deliver e)) → (∀ d, P d → P d.clear) →
    ∀ k x d, P d → P (d.start k) → P (drain k x d).1

theorem pollScore_keeps {P : ScoreDma → Prop} (deliver : ∀ d e, P d → P (d.deliver e))
    (clear : ∀ d, P d → P d.clear) (x : MtTransfer) (left i : ℕ) {d : ScoreDma} (before : P d) :
    P (pollScore x left i d).1 := by
  induction left generalizing i d with
  | zero => exact before
  | succ left ih =>
    have polled := ScoreDma.run_keeps deliver before (x.before i)
    have seen := ScoreDma.run_keeps deliver polled x.beforeClear
    rw [pollScore]
    split
    · exact polled
    · split_ifs
      · exact clear _ seen
      · exact seen
      · exact ih (i + 1) polled

theorem waitScore_keeps {P : ScoreDma → Prop} (deliver : ∀ d e, P d → P (d.deliver e))
    (clear : ∀ d, P d → P d.clear) (x : CTransfer) (left i : ℕ) {d : ScoreDma} (before : P d) :
    P (waitScore x left i d).1 := by
  induction left generalizing i d with
  | zero => exact before
  | succ left ih =>
    have polled := ScoreDma.run_keeps deliver before (x.before i)
    rw [waitScore]
    split_ifs
    · exact clear _ (ScoreDma.run_keeps deliver polled x.beforeClear)
    · exact polled
    · exact ih (i + 1) polled

def mtDrain : ScoreDrain MtTransfer where
  drain k x d := if x.started then pollScore x 100 0 (d.start k) else (d, false)
  keeps deliver clear k x d before started := by
    split_ifs
    · exact pollScore_keeps deliver clear x 100 0 started
    · exact before

/-- `if ret_score == 0 and timing_data:` -/
def cDrain : ScoreDrain CTransfer where
  drain k x d := ((dmaDrainScore k x d).1, (dmaDrainScore k x d).2 = 0)
  keeps deliver clear _ x _ _ started := waitScore_keeps deliver clear x 1000000 0 started

structure ScoreRx (τ : Type) where
  flags : BitVec 16
  seq : BitVec 32
  tSend : BitVec 64
  tNow : BitVec 64
  /-- `none`: packing the features raised, and there is no reply. -/
  feat : Option FeatPayload
  /-- The clock reads and the reflex action; T5 as it reads if it is taken. -/
  timing : TimingData
  /-- `none`: the features did not arrive. -/
  drain : Option τ
  beforeRead : List Delivery
  /-- No exception between the drain and `timing_data['mlp_score']`. -/
  reads : Bool
  /-- Until the next packet. -/
  afterRead : List Delivery

structure ScoreState where
  dma : ScoreDma
  k : ℕ

/-- Nothing is under way; the buffer is as it was allocated. -/
def ScoreState.start (buf : List Byte) : ScoreState := ⟨⟨false, [], buf, []⟩, 0⟩

variable {τ : Type} (D : ScoreDrain τ) (enableTiming scoreDma : Bool)

def drained (s : ScoreState) (x : ScoreRx τ) : ScoreDma × Bool :=
  match scoreDma, x.drain with
  | true, some t => D.drain s.k t s.dma
  | _, _ => (s.dma, false)

def atRead (s : ScoreState) (x : ScoreRx τ) : ScoreDma :=
  (drained D scoreDma s x).1.run x.beforeRead

/-- `score_buf[0:4]` once the drain is over, or the default of `timing_data.get`. -/
def mlpScore (s : ScoreState) (x : ScoreRx τ) : ℕ :=
  if scoreDma ∧ x.drain.isSome ∧ x.reads then echoScore (atRead D scoreDma s x).scoreBuf else 0

def timingData (s : ScoreState) (x : ScoreRx τ) : TimingData :=
  { x.timing with
    t5 := if (drained D scoreDma s x).2 then x.timing.t5 else 0
    mlpScore := BitVec.ofNat 32 (mlpScore D scoreDma s x) }

def scoreMachine : Mealy ScoreState (ScoreRx τ) (Option (List Byte)) where
  step s x := (⟨(atRead D scoreDma s x).run x.afterRead, s.k + 1⟩, x.feat.map fun feat =>
    senderThread enableTiming (featReply enableTiming x.flags x.seq x.tSend x.tNow feat).bytes
      (if enableTiming then some (timingData D scoreDma s x) else none))

/-- The packet's own transfer has not delivered by the time the buffer is read. -/
def Missing (s : ScoreState) (x : ScoreRx τ) : Prop :=
  ∀ e ∈ (atRead D scoreDma s x).delivered, e.packet ≠ s.k

def NoOldScore (s : ScoreState) (x : ScoreRx τ) : Prop :=
  Missing D scoreDma s x →
    ∀ reply ∈ (scoreMachine D enableTiming scoreDma).out s x, ∀ m ∈ socTelemetry reply,
      m.mlpScore = 0

/-- The last of the scores is 0; without any, the buffer was allocated with zeros. -/
def LastZero (buf : List Byte) (es : List Delivery) : Prop :=
  es.getLast?.elim (∀ b ∈ slice buf 0 4, b = 0) fun e => e.score = 0

def OldZero (buf : List Byte) (s : ScoreState) (x : ScoreRx τ) : Prop :=
  enableTiming ∧ x.feat.isSome ∧ scoreDma ∧ x.drain.isSome ∧ x.reads →
    Missing D scoreDma s x → LastZero buf (atRead D scoreDma s x).delivered

section Servers

variable {α : Type}

def ofDeltasRx (s : CState) (x : DeltasRx α) (timing : TimingData) (drain : Option CTransfer)
    (beforeRead : List Delivery) (reads : Bool) (afterRead : List Delivery) :
    ScoreRx CTransfer where
  flags := BitVec.ofNat 16 x.hdr.flagsBe
  seq := BitVec.ofNat 32 x.hdr.seqBe
  tSend := BitVec.ofNat 64 x.hdr.tSendBe
  tNow := x.now
  feat := (handled s x).imbQ115.bind fun imb =>
    packFeat (handled s x).ofi.value imb.value (handled s x).burst.value (handled s x).vol.value
  timing := timing
  drain := drain
  beforeRead := beforeRead
  reads := reads
  afterRead := afterRead

theorem cServer_trailer (t : ScoreState) (s : CState) (x : DeltasRx α) (timing : TimingData)
    (drain : Option CTransfer) (beforeRead : List Delivery) (reads : Bool)
    (afterRead : List Delivery) :
    let rx := ofDeltasRx s x timing drain beforeRead reads afterRead
    (scoreMachine cDrain enableTiming scoreDma).out t rx =
      ((cServer enableTiming).out s x).map fun r => senderThread enableTiming r.reply
        (if enableTiming then some (timingData cDrain scoreDma t rx) else none) := by
  intro rx
  have reply : (cServer enableTiming).out s x = buildReply enableTiming (handled s x) x := rfl
  rw [reply, buildReply]
  simp only [Mealy.out, scoreMachine, rx, ofDeltasRx]
  cases (handled s x).imbQ115 with
  | none => rfl
  | some imb => rw [Option.bind_some, Option.map_map, Function.comp_def]

theorem respond_trailer (t : ScoreState) (s : PsState) (data : List Byte) (now : BitVec 64)
    {hdr : UnpackedHdr} {dec : DeltasHdr} (deltas : parseRequest data = .deltas hdr dec)
    (timing : TimingData) (beforeRead : List Delivery) (reads : Bool)
    (afterRead : List Delivery) :
    let f := (psFeatures (psBook s ⟨dec, data⟩) dec.tSendNs).2
    let x : ScoreRx MtTransfer := ⟨BitVec.ofNat 16 hdr.flagsBe, BitVec.ofNat 32 hdr.seqBe,
      BitVec.ofNat 64 hdr.tSendBe, now, packFeat f.ofi f.imbQ115 f.burst f.vol, timing, none,
      beforeRead, reads, afterRead⟩
    (scoreMachine mtDrain enableTiming scoreDma).out t x =
      (respond enableTiming s data now).2.map fun reply => senderThread enableTiming reply
        (if enableTiming then some (timingData mtDrain scoreDma t x) else none) := by
  intro f x
  simp only [respond, deltas, Option.map_map]
  rfl

end Servers

theorem ofLE_eq_zero_iff (bs : List Byte) : ofLE bs = 0 ↔ ∀ b ∈ bs, b = 0 := by
  induction bs with
  | nil => simp [ofLE]
  | cons b bs ih =>
    rw [ofLE, List.forall_mem_cons, ← ih, ← BitVec.toNat_inj]
    change _ ↔ b.toNat = 0 ∧ _
    omega

theorem echoScore_eq_zero_iff (buf : List Byte) :
    echoScore buf = 0 ↔ ∀ b ∈ slice buf 0 4, b = 0 := by
  have reversed := ofLE_eq_zero_iff (slice buf 0 4).reverse
  simp only [List.mem_reverse] at reversed
  exact reversed

theorem echoScore_lt (buf : List Byte) : echoScore buf < 2 ^ 32 := by
  have four : (slice buf 0 4).length ≤ 4 := List.length_take_le _ _
  have below : echoScore buf < 256 ^ (slice buf 0 4).length := ofBE_lt _
  have wide : 256 ^ (slice buf 0 4).length ≤ 256 ^ 4 := Nat.pow_le_pow_right (by norm_num) four
  omega

theorem echoScore_scoreStore (w : BitVec 32) (buf : List Byte) :
    echoScore (scoreStore (scoreBeat w true) ++ buf) = byteSwap 4 w.toNat := by
  rw [scoreStore_scoreBeat, ← echoScore_toLE]
  rfl

theorem byteSwap_eq_zero_iff (w : BitVec 32) : byteSwap 4 w.toNat = 0 ↔ w = 0 := by
  have bytes : (∀ b ∈ toLE 4 w.toNat, b = 0) ↔ ofLE (toLE 4 w.toNat) = 0 :=
    (ofLE_eq_zero_iff _).symm
  have whole : ofLE (toLE 4 w.toNat) = w.toNat := by
    rw [ofLE_toLE]
    exact Nat.mod_eq_of_lt w.isLt
  rw [← echoScore_toLE, echoScore_eq_zero_iff]
  change (∀ b ∈ toLE 4 w.toNat, b = 0) ↔ _
  rw [bytes, whole, BitVec.toNat_eq]
  rfl

/-- The score field of a reply to which `es` were delivered in time. -/
def lastScore (buf : List Byte) (es : List Delivery) : ℕ :=
  es.getLast?.elim (echoScore buf) fun e => byteSwap 4 e.score.toNat

theorem lastScore_eq_zero_iff (buf : List Byte) (es : List Delivery) :
    lastScore buf es = 0 ↔ LastZero buf es := by
  unfold lastScore LastZero
  cases es.getLast? with
  | none => exact echoScore_eq_zero_iff buf
  | some e => exact byteSwap_eq_zero_iff e.score

/-- The buffer holds the last score, and all there is of it comes from packets below `k`. -/
structure Holds (buf : List Byte) (k : ℕ) (d : ScoreDma) : Prop where
  last : echoScore d.scoreBuf = lastScore buf d.delivered
  delivered : ∀ e ∈ d.delivered, e.packet < k
  pending : ∀ p ∈ d.pending, p < k

variable {buf : List Byte} {k : ℕ}

theorem Holds.deliver (d : ScoreDma) (e : Delivery) (h : Holds buf k d) :
    Holds buf k (d.deliver e) := by
  unfold ScoreDma.deliver
  split_ifs with started
  · constructor
    · rw [echoScore_scoreStore, lastScore, List.getLast?_concat]
      rfl
    · exact List.forall_mem_append.mpr
        ⟨h.delivered, List.forall_mem_singleton.mpr (h.pending _ started)⟩
    · exact fun p mem => h.pending p (List.mem_of_mem_erase mem)
  · exact h

theorem Holds.clear (d : ScoreDma) (h : Holds buf k d) : Holds buf k d.clear :=
  ⟨h.last, h.delivered, h.pending⟩

theorem Holds.start {d : ScoreDma} (h : Holds buf k d) : Holds buf (k + 1) (d.start k) where
  last := h.last
  delivered e mem := (h.delivered e mem).trans (Nat.lt_succ_self k)
  pending := List.forall_mem_append.mpr
    ⟨fun p mem => (h.pending p mem).trans (Nat.lt_succ_self k),
      List.forall_mem_singleton.mpr (Nat.lt_succ_self k)⟩

theorem Holds.mono {d : ScoreDma} (h : Holds buf k d) : Holds buf (k + 1) d :=
  ⟨h.last, h.start.delivered, fun p mem => (h.pending p mem).trans (Nat.lt_succ_self k)⟩

theorem holds_atRead {s : ScoreState} (h : Holds buf s.k s.dma) (x : ScoreRx τ) :
    Holds buf (s.k + 1) (atRead D scoreDma s x) := by
  refine ScoreDma.run_keeps Holds.deliver ?_ x.beforeRead
  unfold drained
  split
  · exact D.keeps Holds.deliver Holds.clear s.k _ s.dma h.mono h.start
  · exact h.mono

theorem holds_next (s : ScoreState) (x : ScoreRx τ) (h : Holds buf s.k s.dma) :
    let t := (scoreMachine D enableTiming scoreDma).next s x
    Holds buf t.k t.dma :=
  ScoreDma.run_keeps Holds.deliver (holds_atRead D scoreDma h x) x.afterRead

theorem holds_start (buf : List Byte) :
    Holds buf (ScoreState.start buf).k (ScoreState.start buf).dma :=
  ⟨rfl, fun _ mem => absurd mem List.not_mem_nil, fun _ mem => absurd mem List.not_mem_nil⟩

theorem mlpScore_lt (s : ScoreState) (x : ScoreRx τ) : mlpScore D scoreDma s x < 2 ^ 32 := by
  unfold mlpScore
  split
  · exact echoScore_lt _
  · norm_num

theorem telemetry_score (s : ScoreState) (x : ScoreRx τ) (feat : FeatPayload) :
    (socTelemetry (timed x.flags x.seq x.tSend x.tNow feat (timingData D scoreDma s x))).map
      Telemetry.mlpScore = some (mlpScore D scoreDma s x) := by
  rw [socTelemetry_timed, Option.map_some]
  exact congrArg some (Nat.mod_eq_of_lt (mlpScore_lt D scoreDma s x))

theorem scores_of_out (s : ScoreState) (x : ScoreRx τ) :
    (∀ reply ∈ (scoreMachine D enableTiming scoreDma).out s x, ∀ m ∈ socTelemetry reply,
        m.mlpScore = 0) ↔
      (enableTiming → x.feat.isSome → mlpScore D scoreDma s x = 0) := by
  have out : (scoreMachine D enableTiming scoreDma).out s x = x.feat.map fun feat =>
      senderThread enableTiming (featReply enableTiming x.flags x.seq x.tSend x.tNow feat).bytes
        (if enableTiming then some (timingData D scoreDma s x) else none) := rfl
  rw [out]
  cases x.feat with
  | none => simp
  | some feat =>
    cases enableTiming with
    | false =>
      have short :
          socTelemetry (featReply false x.flags x.seq x.tSend x.tNow feat).bytes = none := by
        rw [socTelemetry, Reply.length_bytes, if_neg (by decide)]
      simp [senderThread, short]
    | true =>
      have trailer := socTelemetry_timed x.flags x.seq x.tSend x.tNow feat
        (timingData D scoreDma s x)
      have score : (timingData D scoreDma s x).telemetry.mlpScore = mlpScore D scoreDma s x :=
        Nat.mod_eq_of_lt (mlpScore_lt D scoreDma s x)
      rw [timed] at trailer
      simp [trailer, score]

theorem noOldScore_iff {s : ScoreState} (h : Holds buf s.k s.dma) (x : ScoreRx τ) :
    NoOldScore D enableTiming scoreDma s x ↔ OldZero D enableTiming scoreDma buf s x := by
  unfold NoOldScore OldZero
  rw [scores_of_out, mlpScore, ← lastScore_eq_zero_iff, ← (holds_atRead D scoreDma h x).last]
  by_cases read : scoreDma ∧ x.drain.isSome ∧ x.reads
  · rw [if_pos read]
    tauto
  · rw [if_neg read]
    tauto

theorem noOldScore_along (buf : List Byte) (xs : List (ScoreRx τ)) :
    (scoreMachine D enableTiming scoreDma).Along (NoOldScore D enableTiming scoreDma)
        (ScoreState.start buf) xs ↔
      (scoreMachine D enableTiming scoreDma).Along (OldZero D enableTiming scoreDma buf)
        (ScoreState.start buf) xs :=
  Mealy.along_congr (holds_next D enableTiming scoreDma)
    (fun _ x h => noOldScore_iff D enableTiming scoreDma h x) (holds_start buf) xs

/-- A timed reply without a score of its own carries the last score that an earlier packet was
delivered, whenever that came, or what the buffer was allocated with. -/
theorem sends_last_delivered (buf : List Byte) (xs : List (ScoreRx τ)) {x : ScoreRx τ}
    {feat : FeatPayload} (packed : x.feat = some feat) (drain : x.drain.isSome) (reads : x.reads) :
    let s := (scoreMachine D true true).final (ScoreState.start buf) xs
    Missing D true s x →
      (∀ e ∈ (atRead D true s x).delivered, e.packet < s.k) ∧
      ∃ reply ∈ (scoreMachine D true true).out s x,
        (socTelemetry reply).map Telemetry.mlpScore =
          some (lastScore buf (atRead D true s x).delivered) := by
  intro s missing
  have held : Holds buf s.k s.dma := Mealy.final_invariant _
    (I := fun s : ScoreState => Holds buf s.k s.dma) (holds_next D true true) _ xs (holds_start buf)
  have read := holds_atRead D true held x
  refine ⟨fun e mem => ?_, timed x.flags x.seq x.tSend x.tNow feat (timingData D true s x), ?_, ?_⟩
  · exact (Nat.lt_succ_iff_lt_or_eq.mp (read.delivered e mem)).resolve_right (missing e mem)
  · simp [Mealy.out, scoreMachine, packed, timed]
  · rw [telemetry_score, mlpScore, if_pos ⟨rfl, drain, reads⟩, read.last]

/-- On either server no reply of a run carries an old score exactly if, wherever a timed reply
has no score of its own, the last score delivered to an earlier packet is 0. -/
theorem no_old_score_iff (buf : List Byte) (xs : List (ScoreRx MtTransfer))
    (ys : List (ScoreRx CTransfer)) :
    ((scoreMachine mtDrain enableTiming scoreDma).Along
        (NoOldScore mtDrain enableTiming scoreDma) (ScoreState.start buf) xs ↔
      (scoreMachine mtDrain enableTiming scoreDma).Along
        (OldZero mtDrain enableTiming scoreDma buf) (ScoreState.start buf) xs) ∧
    ((scoreMachine cDrain enableTiming scoreDma).Along
        (NoOldScore cDrain enableTiming scoreDma) (ScoreState.start buf) ys ↔
      (scoreMachine cDrain enableTiming scoreDma).Along
        (OldZero cDrain enableTiming scoreDma buf) (ScoreState.start buf) ys) :=
  ⟨noOldScore_along mtDrain enableTiming scoreDma buf xs,
    noOldScore_along cDrain enableTiming scoreDma buf ys⟩

def scoredPacket {τ : Type} (drain : τ) (afterRead : List Delivery) : ScoreRx τ where
  flags := 0x0100
  seq := 7
  tSend := 0
  tNow := 0
  feat := some ⟨0, 0, 65536, 0⟩
  timing := ⟨1, 2, 3, 4, 5, 6, 0, 0⟩
  drain := some drain
  beforeRead := []
  reads := true
  afterRead := afterRead

/-- A packet whose transfer delivers `es` at the first poll. -/
def mtPolled (es : List Delivery) : MtTransfer where
  started := true
  before i := if i = 0 then es else []
  bits _ := some 0
  beforeClear := []
  cleared := true

def cPolled (es : List Delivery) (bits : BitVec 32) : CTransfer where
  before i := if i = 0 then es else []
  bits _ := bits
  beforeClear := []

/-- The second reply carries the score of the first packet: where its own transfer times out or
fails, and where the first one delivers late, so that its flag ends the second drain at once. -/
theorem second_score_old :
    let first : Delivery := ⟨0, 65536⟩
    let mt := [scoredPacket (mtPolled [first]) [], scoredPacket (mtPolled []) []]
    let late := [scoredPacket (mtPolled []) [first], scoredPacket (mtPolled []) []]
    let c := [scoredPacket (cPolled [first] 0) [], scoredPacket (cPolled [] 0x10) []]
    ¬(scoreMachine mtDrain true true).Along (NoOldScore mtDrain true true)
        (ScoreState.start [0, 0, 0, 0]) mt ∧
      ¬(scoreMachine mtDrain true true).Along (NoOldScore mtDrain true true)
        (ScoreState.start [0, 0, 0, 0]) late ∧
      ¬(scoreMachine cDrain true true).Along (NoOldScore cDrain true true)
        (ScoreState.start [0, 0, 0, 0]) c := by
  intro first mt late c
  have old {τ : Type} (D : ScoreDrain τ) (x y : ScoreRx τ)
      (along : (scoreMachine D true true).Along (NoOldScore D true true)
        (ScoreState.start [0, 0, 0, 0]) [x, y]) :
      let s := (scoreMachine D true true).next (ScoreState.start [0, 0, 0, 0]) x
      true ∧ y.feat.isSome ∧ true ∧ y.drain.isSome ∧ y.reads → Missing D true s y →
        lastScore [0, 0, 0, 0] (atRead D true s y).delivered = 0 := by
    intro s timed missing
    exact (lastScore_eq_zero_iff _ _).mpr
      (((noOldScore_along D true true _ _).mp along).2.1 timed missing)
  refine ⟨fun along => ?_, fun along => ?_, fun along => ?_⟩
  · exact absurd (old mtDrain _ _ along (by decide) (by unfold Missing; decide)) (by decide)
  · exact absurd (old mtDrain _ _ along (by decide) (by unfold Missing; decide)) (by decide)
  · exact absurd (old cDrain _ _ along (by decide) (by unfold Missing; decide +kernel))
      (by decide +kernel)

end HftLatencyLab.StaleScore
