import HftLatencyLab.FeatureBeat
import HftLatencyLab.ServerReply

/-! processor_thread of fpga/pynq/feature_echo_c.py on DELTAS packets, with
`dma_wait_s2mm` of dma_driver.c. Only a finished DMA assigns the imbalance and the
two accumulators, and their variables outlive the packet; each value carries the
number of the packet it was computed for. -/

namespace HftLatencyLab.CDriverServer
open ByteOrder LobWire ServerHeader PythonBook FeatureBeat FeatureReply ServerReply

/-- The polling loop from read `i` of the status register on, `left` reads to go. -/
def waitLoop (sr : ℕ → BitVec 32) : ℕ → ℕ → ℤ
  | 0, _ => -2
  | left + 1, i =>
    if sr i &&& 0x1000 ≠ 0 then 0
    else if sr i &&& 0x70 ≠ 0 then -1
    else waitLoop sr left (i + 1)

/-- `sr i` is what read `i` of S2MM_DMASR returns. -/
def dmaWaitS2mm (sr : ℕ → BitVec 32) : ℤ := waitLoop sr 1000000 0

def Completes (sr : ℕ → BitVec 32) : Prop :=
  ∃ i < 1000000, sr i &&& 0x1000 ≠ 0 ∧ ∀ j < i, sr j &&& 0x1000 = 0 ∧ sr j &&& 0x70 = 0

theorem waitLoop_eq_zero_iff (sr : ℕ → BitVec 32) (left i : ℕ) :
    waitLoop sr left i = 0 ↔ ∃ n < left, sr (i + n) &&& 0x1000 ≠ 0 ∧
      ∀ j < n, sr (i + j) &&& 0x1000 = 0 ∧ sr (i + j) &&& 0x70 = 0 := by
  induction left generalizing i with
  | zero => simp [waitLoop]
  | succ left ih =>
    rw [waitLoop]
    by_cases done : sr i &&& 0x1000 ≠ 0
    · rw [if_pos done]
      simp only [true_iff]
      exact ⟨0, by omega, done, by simp⟩
    · rw [if_neg done]
      have running : sr i &&& 0x1000 = 0 := by simpa using done
      by_cases failed : sr i &&& 0x70 ≠ 0
      · rw [if_pos failed]
        simp only [Int.reduceNeg, neg_eq_zero, one_ne_zero, false_iff]
        rintro ⟨_ | n, -, here, before⟩
        · exact done here
        · exact failed (before 0 (by omega)).2
      · rw [if_neg failed, ih]
        have clear : sr i &&& 0x70 = 0 := by simpa using failed
        constructor
        · rintro ⟨n, inside, here, before⟩
          refine ⟨n + 1, by omega, by rwa [show i + (n + 1) = i + 1 + n by omega], ?_⟩
          rintro (_ | j) hj
          · exact ⟨running, clear⟩
          · rw [show i + (j + 1) = i + 1 + j by omega]
            exact before j (by omega)
        · rintro ⟨_ | n, inside, here, before⟩
          · exact absurd here done
          · refine ⟨n, by omega, by rwa [show i + 1 + n = i + (n + 1) by omega], ?_⟩
            intro j hj
            rw [show i + 1 + j = i + (j + 1) by omega]
            exact before (j + 1) (by omega)

theorem dmaWaitS2mm_eq_zero_iff (sr : ℕ → BitVec 32) : dmaWaitS2mm sr = 0 ↔ Completes sr := by
  simp only [dmaWaitS2mm, waitLoop_eq_zero_iff, Nat.zero_add, Completes]

structure Stamped where
  value : ℤ
  packet : Option ℕ
deriving DecidableEq

/-- The variables of the loop and the number of the packet it is at; the imbalance
is unassigned at first. -/
structure CState where
  bid : Vector Level 16
  ask : Vector Level 16
  ofi : Stamped
  imbQ115 : Option Stamped
  burst : Stamped
  vol : Stamped
  k : ℕ

def CState.start : CState := ⟨emptySide, emptySide, ⟨0, none⟩, none, ⟨0, none⟩, ⟨0, none⟩, 0⟩

/-- What becomes of a packet's DMA: no driver, a wait on the status register, or an
exception after `reads` of the four results were assigned. -/
inductive DmaOutcome
  | absent
  | waited (sr : ℕ → BitVec 32) (outBuf : List Byte)
  | raised (reads : ℕ) (outBuf : List Byte)

structure DeltasRx (α : Type) extends Rx α where
  hdr : UnpackedHdr
  dec : DeltasHdr
  isDeltas : parseRequest data = .deltas hdr dec
  dma : DmaOutcome

def cDelta (s : CState) (d : UnpackedDelta) : CState :=
  if d.level < 16 then
    { s with
      bid := bidAfter s.bid d
      ask := askAfter s.ask d
      ofi := { s.ofi with
        value := if d.action = 1 ∨ d.action = 2
          then s.ofi.value + if d.side = 0 then d.qty else -d.qty else s.ofi.value } }
  else s

variable {α : Type}

def cBook (s : CState) (x : DeltasRx α) : CState :=
  let s := if x.dec.reset then
      { s with
        bid := emptySide
        ask := emptySide
        ofi := ⟨0, some s.k⟩
        burst := ⟨0, some s.k⟩
        vol := ⟨0, some s.k⟩ }
    else s
  let cnt := min x.dec.cnt ((x.data.length - lobV1HdrLen) / lobV1DeltaLen)
  let s := (readDeltas x.data cnt lobV1HdrLen).foldl cDelta s
  { s with ofi := { s.ofi with packet := some s.k } }

/-- The first `reads` of the four assignments from `out_buf`. -/
def readResults (s : CState) (reads : ℕ) (outBuf : List Byte) : CState :=
  let r := plDecode outBuf
  { s with
    ofi := if 0 < reads then ⟨r.ofi, some s.k⟩ else s.ofi
    imbQ115 := if 1 < reads then some ⟨r.imbQ115, some s.k⟩ else s.imbQ115
    burst := if 2 < reads then ⟨r.burst, some s.k⟩ else s.burst
    vol := if 3 < reads then ⟨r.vol, some s.k⟩ else s.vol }

def dmaPath (s : CState) : DmaOutcome → CState
  | .absent => s
  | .waited sr outBuf => if dmaWaitS2mm sr = 0 then readResults s 4 outBuf else s
  | .raised reads outBuf => readResults s reads outBuf

structure CReply (α : Type) extends Tx α where
  packet : ℕ
  ofiFrom : Option ℕ
  imbFrom : Option ℕ
  burstFrom : Option ℕ
  volFrom : Option ℕ

/-- `none`: reading the unassigned `imb_q1_15` or packing `ofi` raised. -/
def buildReply (enableTiming : Bool) (s : CState) (x : DeltasRx α) : Option (CReply α) :=
  match s.imbQ115 with
  | none => none
  | some imb =>
    (packFeat s.ofi.value imb.value s.burst.value s.vol.value).map fun feat =>
      { reply := (featReply enableTiming (BitVec.ofNat 16 x.hdr.flagsBe)
          (BitVec.ofNat 32 x.hdr.seqBe) (BitVec.ofNat 64 x.hdr.tSendBe) x.now feat).bytes
        addr := x.addr
        packet := s.k
        ofiFrom := s.ofi.packet
        imbFrom := imb.packet
        burstFrom := s.burst.packet
        volFrom := s.vol.packet }

def cServer (enableTiming : Bool) : Mealy CState (DeltasRx α) (Option (CReply α)) where
  step s x :=
    let s := dmaPath (cBook s x) x.dma
    ({ s with k := s.k + 1 }, buildReply enableTiming s x)

def Answered (x : DeltasRx α) (r : CReply α) : Prop :=
  Echoes x.toRx r.toTx ∧ r.ofiFrom = some r.packet ∧ r.imbFrom = some r.packet ∧
    r.burstFrom = some r.packet ∧ r.volFrom = some r.packet

def DmaOutcome.reads : DmaOutcome → ℕ
  | .absent => 0
  | .waited sr _ => if dmaWaitS2mm sr = 0 then 4 else 0
  | .raised reads _ => reads

def DmaOutcome.outBuf : DmaOutcome → List Byte
  | .absent => []
  | .waited _ outBuf => outBuf
  | .raised _ outBuf => outBuf

/-- The DMA completes, or an exception comes late enough: after all results, or
after the imbalance of a packet whose reset cleared the accumulators. -/
def DeltasRx.Delivers (x : DeltasRx α) : Prop :=
  match x.dma with
  | .absent => False
  | .waited sr _ => Completes sr
  | .raised reads _ => 4 ≤ reads ∨ (x.dec.reset ∧ 2 ≤ reads)

theorem delivers_iff (x : DeltasRx α) :
    x.Delivers ↔ 4 ≤ x.dma.reads ∨ (x.dec.reset ∧ 2 ≤ x.dma.reads) := by
  unfold DeltasRx.Delivers
  cases x.dma with
  | absent => simp [DmaOutcome.reads]
  | waited sr outBuf =>
    simp only [← dmaWaitS2mm_eq_zero_iff]
    by_cases done : dmaWaitS2mm sr = 0 <;> simp [DmaOutcome.reads, done]
  | raised reads outBuf => simp [DmaOutcome.reads]

theorem dmaPath_eq (s : CState) (o : DmaOutcome) :
    dmaPath s o = readResults s o.reads o.outBuf := by
  cases o with
  | absent => rfl
  | waited sr outBuf =>
    by_cases done : dmaWaitS2mm sr = 0 <;> simp [dmaPath, DmaOutcome.reads, done, readResults,
      DmaOutcome.outBuf]
  | raised reads outBuf => rfl

theorem foldl_cDelta (s : CState) (ds : List UnpackedDelta) :
    ∃ bid ask ofi, ds.foldl cDelta s =
      { s with
        bid := bid
        ask := ask
        ofi := ofi } := by
  induction ds generalizing s with
  | nil => exact ⟨s.bid, s.ask, s.ofi, rfl⟩
  | cons d ds ih =>
    obtain ⟨bid, ask, ofi, rest⟩ := ih (cDelta s d)
    refine ⟨bid, ask, ofi, ?_⟩
    rw [List.foldl_cons, rest]
    unfold cDelta
    split <;> rfl

theorem cBook_stamps (s : CState) (x : DeltasRx α) :
    (cBook s x).k = s.k ∧ (cBook s x).ofi.packet = some s.k ∧ (cBook s x).imbQ115 = s.imbQ115 ∧
      (cBook s x).burst = (if x.dec.reset then ⟨0, some s.k⟩ else s.burst) ∧
      (cBook s x).vol = if x.dec.reset then ⟨0, some s.k⟩ else s.vol := by
  unfold cBook
  obtain ⟨bid, ask, ofi, deltas⟩ := foldl_cDelta
    (if x.dec.reset then
      { s with
        bid := emptySide
        ask := emptySide
        ofi := ⟨0, some s.k⟩
        burst := ⟨0, some s.k⟩
        vol := ⟨0, some s.k⟩ }
    else s)
    (readDeltas x.data (min x.dec.cnt ((x.data.length - lobV1HdrLen) / lobV1DeltaLen)) lobV1HdrLen)
  simp only [deltas]
  cases x.dec.reset <;> simp

def Stamped.Before (v : Stamped) (k : ℕ) : Prop := ∀ p ∈ v.packet, p < k

theorem Stamped.before_now (x : ℤ) (k : ℕ) : Stamped.Before ⟨x, some k⟩ (k + 1) := by
  simp [Stamped.Before]

theorem Stamped.Before.succ {v : Stamped} {k : ℕ} (h : v.Before k) : v.Before (k + 1) :=
  fun p stamp => (h p stamp).trans (Nat.lt_succ_self k)

theorem Stamped.Before.ne {v : Stamped} {k : ℕ} (h : v.Before k) : v.packet ≠ some k :=
  fun now => lt_irrefl k (h k now)

structure Earlier (s : CState) : Prop where
  imb : ∀ v ∈ s.imbQ115, v.Before s.k
  burst : s.burst.Before s.k
  vol : s.vol.Before s.k

theorem earlier_start : Earlier .start where
  imb := by simp [CState.start]
  burst := by simp [CState.start, Stamped.Before]
  vol := by simp [CState.start, Stamped.Before]

variable (enableTiming : Bool)

def handled (s : CState) (x : DeltasRx α) : CState := dmaPath (cBook s x) x.dma

theorem handled_stamps (s : CState) (x : DeltasRx α) :
    (handled s x).k = s.k ∧ (handled s x).ofi.packet = some s.k ∧
      (handled s x).imbQ115 = (if 1 < x.dma.reads
        then some ⟨(plDecode x.dma.outBuf).imbQ115, some s.k⟩ else s.imbQ115) ∧
      (handled s x).burst = (if 2 < x.dma.reads
        then ⟨(plDecode x.dma.outBuf).burst, some s.k⟩
        else if x.dec.reset then ⟨0, some s.k⟩ else s.burst) ∧
      (handled s x).vol = if 3 < x.dma.reads
        then ⟨(plDecode x.dma.outBuf).vol, some s.k⟩
        else if x.dec.reset then ⟨0, some s.k⟩ else s.vol := by
  obtain ⟨k, ofi, imb, burst, vol⟩ := cBook_stamps s x
  simp only [handled, dmaPath_eq, readResults, k, imb, burst, vol, true_and, and_true]
  split_ifs
  · rfl
  · exact ofi

theorem handled_ofi (s : CState) (x : DeltasRx α) (read : 0 < x.dma.reads) :
    (handled s x).ofi.value = (plDecode x.dma.outBuf).ofi := by
  simp only [handled, dmaPath_eq, readResults, if_pos read]

theorem Earlier.next {s : CState} (h : Earlier s) (x : DeltasRx α) :
    Earlier ((cServer enableTiming).next s x) := by
  obtain ⟨k, -, imb, burst, vol⟩ := handled_stamps s x
  have number : ((cServer enableTiming).next s x).k = s.k + 1 := congrArg (· + 1) k
  constructor
  · rw [number]
    change ∀ v ∈ (handled s x).imbQ115, _
    rw [imb]
    split_ifs
    · simp [Stamped.before_now]
    · exact fun v held => (h.imb v held).succ
  · rw [number]
    change (handled s x).burst.Before _
    rw [burst]
    split_ifs
    · exact Stamped.before_now _ _
    · exact Stamped.before_now _ _
    · exact h.burst.succ
  · rw [number]
    change (handled s x).vol.Before _
    rw [vol]
    split_ifs
    · exact Stamped.before_now _ _
    · exact Stamped.before_now _ _
    · exact h.vol.succ

theorem fromBytesBigSigned_range (bs : List Byte) {n : ℕ} (h : bs.length ≤ n) :
    -256 ^ n ≤ 2 * fromBytesBigSigned bs ∧ 2 * fromBytesBigSigned bs < 256 ^ n := by
  have below : (ofBE bs : ℤ) < 256 ^ bs.length := by exact_mod_cast ofBE_lt bs
  have wide : (256 : ℤ) ^ bs.length ≤ 256 ^ n := pow_le_pow_right₀ (by norm_num) h
  have nonneg : (0 : ℤ) ≤ ofBE bs := Int.natCast_nonneg _
  unfold fromBytesBigSigned
  split_ifs with small
  · have half : 2 * (ofBE bs : ℤ) < 256 ^ bs.length := by exact_mod_cast small
    constructor <;> linarith
  · have half : (256 : ℤ) ^ bs.length ≤ 2 * ofBE bs := by exact_mod_cast not_lt.mp small
    constructor <;> linarith

theorem plDecode_int32 (outBuf : List Byte) : int32 (plDecode outBuf).ofi := by
  have range := fromBytesBigSigned_range (slice outBuf 0 4) (n := 4) (List.length_take_le _ _)
  change int32 (fromBytesBigSigned (slice outBuf 0 4))
  unfold int32
  omega

theorem plDecode_int16 (outBuf : List Byte) : int16 (plDecode outBuf).imbQ115 := by
  have range := fromBytesBigSigned_range (slice outBuf 4 6) (n := 2) (List.length_take_le _ _)
  change int16 (fromBytesBigSigned (slice outBuf 4 6))
  unfold int16
  omega

theorem buildReply_some {s : CState} {x : DeltasRx α} {imb : Stamped}
    (assigned : s.imbQ115 = some imb) (ofi : int32 s.ofi.value) (range : int16 imb.value) :
    ∃ r ∈ buildReply enableTiming s x, Echoes x.toRx r.toTx ∧ r.packet = s.k ∧
      r.ofiFrom = s.ofi.packet ∧ r.imbFrom = imb.packet ∧ r.burstFrom = s.burst.packet ∧
      r.volFrom = s.vol.packet := by
  unfold buildReply
  have fits : (packFeat s.ofi.value imb.value s.burst.value s.vol.value).isSome ↔
      int32 s.ofi.value := packFeat_isSome range
  obtain ⟨feat, packed⟩ := Option.isSome_iff_exists.mp (fits.mpr ofi)
  have hdr : x.hdr = unpackHdr x.data := parseRequest_hdr.2 _ _ x.isDeltas
  simp only [assigned, packed, Option.map_some, Option.mem_some_iff, exists_eq_left', and_self,
    and_true]
  rw [hdr]
  exact echoes_packed x.toRx _ x.now feat.bytes

theorem stamps_of_buildReply {s : CState} {x : DeltasRx α} {r : CReply α}
    (h : r ∈ buildReply enableTiming s x) :
    ∃ imb, s.imbQ115 = some imb ∧ r.packet = s.k ∧ r.imbFrom = imb.packet ∧
      r.volFrom = s.vol.packet := by
  unfold buildReply at h
  cases assigned : s.imbQ115 with
  | none => simp [assigned] at h
  | some imb =>
    simp only [assigned] at h
    obtain ⟨feat, -, rfl⟩ := Option.map_eq_some_iff.mp h
    exact ⟨imb, rfl, rfl, rfl, rfl⟩

theorem reads_of_answered {s : CState} (h : Earlier s) {x : DeltasRx α} {r : CReply α}
    (built : r ∈ (cServer enableTiming).out s x) (answered : Answered x r) :
    4 ≤ x.dma.reads ∨ (x.dec.reset ∧ 2 ≤ x.dma.reads) := by
  obtain ⟨k, -, imb, -, vol⟩ := handled_stamps s x
  obtain ⟨-, -, imbFrom, -, volFrom⟩ := answered
  obtain ⟨v, assigned, packet, imbOf, volOf⟩ := stamps_of_buildReply enableTiming built
  change (handled s x).imbQ115 = some v at assigned
  change r.packet = (handled s x).k at packet
  change r.volFrom = (handled s x).vol.packet at volOf
  rw [imbOf, packet, k] at imbFrom
  rw [volOf, packet, k] at volFrom
  have two : 1 < x.dma.reads := by
    by_contra few
    rw [imb, if_neg few] at assigned
    exact (h.imb v assigned).ne imbFrom
  by_cases reset : x.dec.reset
  · exact Or.inr ⟨reset, two⟩
  · left
    by_contra few
    rw [vol, if_neg (by omega), if_neg reset] at volFrom
    exact h.vol.ne volFrom

theorem answered_of_reads (s : CState) {x : DeltasRx α}
    (reads : 4 ≤ x.dma.reads ∨ (x.dec.reset ∧ 2 ≤ x.dma.reads)) :
    ∃ r ∈ (cServer enableTiming).out s x, Answered x r := by
  obtain ⟨k, ofi, imb, burst, vol⟩ := handled_stamps s x
  have two : 1 < x.dma.reads := by omega
  have read : int32 (handled s x).ofi.value := by
    rw [handled_ofi s x (by omega)]
    exact plDecode_int32 _
  rw [if_pos two] at imb
  obtain ⟨r, built, echoes, packet, ofiOf, imbOf, burstOf, volOf⟩ :=
    buildReply_some enableTiming (x := x) imb read (plDecode_int16 _)
  refine ⟨r, built, echoes, ?_, ?_, ?_, ?_⟩
  · rw [ofiOf, packet, k, ofi]
  · rw [imbOf, packet, k]
  · rw [burstOf, packet, k, burst]
    rcases reads with all | ⟨reset, -⟩
    · rw [if_pos (by omega)]
    · rw [if_pos reset]
      split_ifs <;> rfl
  · rw [volOf, packet, k, vol]
    rcases reads with all | ⟨reset, -⟩
    · rw [if_pos (by omega)]
    · rw [if_pos reset]
      split_ifs <;> rfl

theorem answered_iff {s : CState} (h : Earlier s) (x : DeltasRx α) :
    (∃ r ∈ (cServer enableTiming).out s x, Answered x r) ↔ x.Delivers := by
  rw [delivers_iff]
  constructor
  · rintro ⟨r, built, answered⟩
    exact reads_of_answered enableTiming h built answered
  · exact answered_of_reads enableTiming s

/-- Every packet of a run is answered once, by values computed for it, exactly
when every packet's DMA delivers. -/
theorem answered_fresh_iff (rx : List (DeltasRx α)) :
    List.Forall₂ Answered rx ((cServer enableTiming).answers .start rx) ↔
      ∀ x ∈ rx, x.Delivers := by
  have all := Mealy.answers_iff (m := cServer enableTiming) (V := fun _ : DeltasRx α => True)
    (R := Answered) (fun _ _ no => absurd trivial no) .start rx
  simp only [decide_true, List.filter_true, true_implies] at all
  rw [all, ← Mealy.along_inputs (m := cServer enableTiming) (s := .start)]
  exact Mealy.along_congr (I := Earlier) (fun _ x h => h.next enableTiming x)
    (fun _ x h => answered_iff enableTiming h x) earlier_start rx

def addPacket (seq : BitVec 32) (dma : DmaOutcome) : DeltasRx Unit where
  data := packHdr lobV1MsgDeltas 1 seq 0 0 ++ packDelta ⟨1000, 5, 0, 0, 1, 0⟩
  addr := ()
  now := 0
  hdr := _
  dec := _
  isDeltas := parseRequest_packHdr 1 seq 0 0 _
  dma := dma

/-- A DMA error on the first packet leaves it unanswered; one after a completed
DMA is answered with the imbalance of the packet before. -/
theorem dma_error_unanswered_or_stale :
    let completed := DmaOutcome.waited (fun _ => 0x1000) (List.replicate 16 0)
    let failed := DmaOutcome.waited (fun _ => 0x10) (List.replicate 16 0)
    let first := [addPacket 0 failed]
    let second := [addPacket 0 completed, addPacket 1 failed]
    ¬List.Forall₂ Answered first ((cServer false).answers .start first) ∧
      ¬List.Forall₂ Answered second ((cServer false).answers .start second) := by
  intro completed failed first second
  constructor
  · intro all
    have counts : first.length = 1 ∧ ((cServer false).answers .start first).length = 0 := by
      decide +kernel
    have same := all.length_eq
    omega
  · intro all
    have stale : ((cServer false).answers .start second)[1]?.map
        (fun r => (r.imbFrom, r.packet)) = some (some 0, 1) := by decide +kernel
    obtain ⟨r, reply, values⟩ := Option.map_eq_some_iff.mp stale
    obtain ⟨inside, there⟩ := List.getElem?_eq_some_iff.mp reply
    have answered := all.get (i := 1) (by decide) inside
    have fresh : r.imbFrom = some r.packet := by
      rw [← there]
      exact answered.2.2.1
    obtain ⟨old, number⟩ := Prod.mk.inj values
    rw [old, number] at fresh
    exact absurd fresh (by decide)

end HftLatencyLab.CDriverServer
