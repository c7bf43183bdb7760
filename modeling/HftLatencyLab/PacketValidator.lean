import HftLatencyLab.FeatureFeed
import Mathlib.Data.Nat.Bitwise

/-! validate_features_off_packets.py, which checks the fabric packet by packet
against its own book. Its burst is the fabric's on any gap of 32 bits; its
volatility rounds down where the fabric rounds toward zero, and one such packet
is carried into all later ones. -/

namespace HftLatencyLab.PacketValidator
open LobWire LobPacket FeatureBook FeatureMath TopOfBook PythonBook FeatureFeed FixedWidth

def tauBurstNs : ℤ := 200000
def tauVolNs : ℤ := 2000000

structure RxRecord where
  flags : ℕ
  tSendNs : ℕ
  pkt : List ByteOrder.Byte

structure Sim where
  bid : Vector Level 16
  ask : Vector Level 16
  ofi : ℤ
  lastTs : Option ℤ
  burst : ℤ
  vol : ℤ
  midPrev : ℤ
deriving DecidableEq

def Sim.start : Sim where
  bid := emptySide
  ask := emptySide
  ofi := 0
  lastTs := none
  burst := 0
  vol := 0
  midPrev := 0

structure Expected where
  ofi : ℤ
  imbQ115 : ℤ
  burst : ℤ
  vol : ℤ
deriving DecidableEq

def clampQ16 (x : ℤ) : ℤ :=
  let x := if x < 0 then 0 else x
  if x > 0xFFFFFFFF then 0xFFFFFFFF else x

def simDelta (s : Sim) (d : UnpackedDelta) : Sim :=
  let d := { d with level := if d.level < 16 then d.level else 0 }
  let sgn := if d.side = 0 then 1 else -1
  { s with
    bid := bidAfter s.bid d
    ask := askAfter s.ask d
    ofi := if d.action = 1 ∨ d.action = 2
      then max (min (s.ofi + sgn * d.qty) (2 ^ 31 - 1)) (-2 ^ 31) else s.ofi }

def packetDt (s : Sim) (tSendNs : ℤ) : ℤ :=
  match s.lastTs with
  | none => 0
  | some last => max 0 (tSendNs - last)

def midNow (s : Sim) : ℤ := ((s.bid.get 0).p + (s.ask.get 0).p).fdiv 2

def burstAfter (burst dt : ℤ) : ℤ := clampQ16 (burst - (burst * dt).fdiv tauBurstNs + 65536)

def volAfter (vol dp dt : ℤ) : ℤ := clampQ16 (vol + ((dp * 65536 - vol) * dt).fdiv tauVolNs)

def packetFeatures (s : Sim) (tSendNs : ℤ) : Sim × Expected :=
  let dt := packetDt s tSendNs
  let burst := burstAfter s.burst dt
  let mid := midNow s
  let vol := volAfter s.vol |mid - s.midPrev| dt
  ({ s with lastTs := some tSendNs, burst := burst, vol := vol, midPrev := mid },
   { ofi := s.ofi
     imbQ115 := imbalance (s.bid.get 0).q (s.ask.get 0).q
     burst := burst
     vol := vol })

def packetBook (s : Sim) (x : RxRecord) : Sim :=
  let s := if x.flags &&& 0x8000 ≠ 0 then .start else s
  (readDeltas x.pkt (x.flags &&& 0x7FFF) 0).foldl simDelta s

def validator : Mealy Sim RxRecord Expected where
  step s x := packetFeatures (packetBook s x) x.tSendNs

def rxRecord (m : Datagram) : RxRecord where
  flags := m.fcnt.toNat
  tSendNs := m.tSend.toNat
  pkt := m.deltas.flatMap LobV1Delta.wire

def feedValidator : Mealy Sim Datagram Expected := validator.on rxRecord

def expectedFeatures (ms : List Datagram) : List Expected := feedValidator.outputs .start ms

structure Tracks (r : Regs) (s : Sim) : Prop where
  book : BookKept r
  bid : PriceTracks r.bid s.bid
  ask : PriceTracks r.ask s.ask
  lastT : s.lastTs = if r.lastT = 0 then none else some (r.lastT.toNat : ℤ)
  burst : (r.burstQ1616.toNat : ℤ) = s.burst
  midPrev : r.midPrev.toInt = s.midPrev

theorem clampQ16_eq (x : ℤ) : clampQ16 x = saturateU32 x := by
  unfold clampQ16 saturateU32
  dsimp only
  split <;> split <;> omega

theorem tracks_powerOn : Tracks .powerOn .start where
  book := idle_powerOn.book
  bid := priceTracks_empty
  ask := priceTracks_empty
  lastT := rfl
  burst := rfl
  midPrev := rfl

theorem simDelta_inside (s : Sim) {d : LobV1Delta} (wf : WellFormed d) :
    (simDelta s d.unpacked).bid = bidAfter s.bid d.unpacked ∧
      (simDelta s d.unpacked).ask = askAfter s.ask d.unpacked := by
  have level : d.unpacked.level < 16 := wf.level
  unfold simDelta
  rw [if_pos level]
  exact ⟨rfl, rfl⟩

theorem Tracks.delta {r : Regs} {s : Sim} (h : Tracks r s) {d : LobV1Delta} (wf : WellFormed d)
    (t : BitVec 64) (last : Bool) :
    Tracks (updateBook r (parsedDelta d t last)) (simDelta s d.unpacked) := by
  obtain ⟨bid, ask⟩ := priceTracks_updateBook h.bid h.ask wf t last
  obtain ⟨simBid, simAsk⟩ := simDelta_inside s wf
  exact
    { book := h.book.updateBook _
      bid := by rw [simBid]; exact bid
      ask := by rw [simAsk]; exact ask
      lastT := h.lastT
      burst := h.burst
      midPrev := h.midPrev }

theorem Tracks.startMeasure {r : Regs} {s : Sim} (h : Tracks r s) :
    Tracks (FeaturePipeline.startMeasure r) s := by
  have book := h.book.startMeasure
  rw [startMeasure_eq] at book ⊢
  exact ⟨book, h.bid, h.ask, h.lastT, h.burst, h.midPrev⟩

theorem packetBook_eq {s : Sim} {m : Datagram} (fed : Fed .start Sim.lastTs s m) :
    packetBook s (rxRecord m) = (m.deltas.map LobV1Delta.unpacked).foldl simDelta s := by
  have count : m.fcnt.toNat &&& 0x7FFF = m.deltas.length := by
    rw [← fcnt_count]
    rfl
  have flag : m.fcnt.toNat &&& 0x8000 = (m.fcnt.toNat.testBit 15).toNat * 2 ^ 15 :=
    Nat.and_two_pow _ 15
  have deltas := readDeltas_wires [] m.deltas
  have start : (if m.fcnt.toNat &&& 0x8000 ≠ 0 then Sim.start else s) = s := by
    rw [flag, fcnt_reset]
    rcases fed.reset with none | initial
    · simp [none]
    · simp [initial]
  rw [packetBook, rxRecord, count, start]
  rw [List.nil_append] at deltas
  exact congrArg _ deltas

theorem Tracks.deltas {r : Regs} {s : Sim} (h : Tracks r s) {m : Datagram}
    (fed : Fed .start Sim.lastTs s m) :
    Tracks (afterDeltas r m) (packetBook s (rxRecord m)) := by
  rw [packetBook_eq fed]
  exact foldl_tracks (fun _ _ _ t last wf tracks => tracks.delta wf t last) m.tSend m.deltas
    fed.fields _ s h.startMeasure

theorem simDelta_frame (s : Sim) (ds : List UnpackedDelta) :
    (ds.foldl simDelta s).lastTs = s.lastTs ∧ (ds.foldl simDelta s).vol = s.vol := by
  induction ds generalizing s with
  | nil => exact ⟨rfl, rfl⟩
  | cons d ds ih => exact ih (simDelta s d)

theorem packetBook_frame {s : Sim} {m : Datagram} (fed : Fed .start Sim.lastTs s m) :
    (packetBook s (rxRecord m)).lastTs = s.lastTs ∧ (packetBook s (rxRecord m)).vol = s.vol := by
  rw [packetBook_eq fed]
  exact simDelta_frame s _

def GapFits (s : Sim) (m : Datagram) : Prop := packetDt s m.tSend.toNat ≤ 0xFFFFFFFF

instance (s : Sim) (m : Datagram) : Decidable (GapFits s m) :=
  inferInstanceAs (Decidable (packetDt s m.tSend.toNat ≤ 0xFFFFFFFF))

theorem Tracks.gap {r : Regs} {s : Sim} (h : Tracks r s) {t : BitVec 64}
    (later : ∀ last ∈ s.lastTs, last ≤ (t.toNat : ℤ)) :
    ((packetGap r.lastT t).toNat : ℤ) = min (packetDt s t.toNat) 0xFFFFFFFF := by
  rw [packetGap_toNat, packetDt, h.lastT]
  rw [h.lastT] at later
  by_cases first : r.lastT = 0
  · simp [first]
  · rw [if_neg first] at later
    have order := later _ rfl
    have below : r.lastT ≤ t := by
      rw [BitVec.le_def]
      omega
    have span := BitVec.toNat_sub_of_le below
    simp only [if_neg first]
    omega

theorem Tracks.span {r : Regs} {s : Sim} (h : Tracks r s) {m : Datagram}
    (fed : Fed .start Sim.lastTs s m) (gap : GapFits s m) :
    ((packetGap (afterDeltas r m).lastT m.tSend).toNat : ℤ) =
      packetDt (packetBook s (rxRecord m)) m.tSend.toNat := by
  have frame := packetBook_frame fed
  have later : ∀ last ∈ (packetBook s (rxRecord m)).lastTs, last ≤ (m.tSend.toNat : ℤ) := by
    rw [frame.1]
    exact fed.later
  have same : packetDt (packetBook s (rxRecord m)) m.tSend.toNat = packetDt s m.tSend.toNat := by
    rw [packetDt, packetDt, frame.1]
  rw [(h.deltas fed).gap later, same, min_eq_left gap]

theorem Tracks.mid {r : Regs} {s : Sim} (h : Tracks r s) :
    (FeatureMath.midNow r.bestBidPx r.bestAskPx).toInt = midNow s := by
  rw [midNow_toInt, h.book.bestBidPx, h.book.bestAskPx, h.bid 0, h.ask 0, midNow,
    Int.fdiv_eq_ediv_of_nonneg _ (by norm_num)]

theorem Tracks.burstStep {r : Regs} {s : Sim} (h : Tracks r s) (dt : BitVec 32) :
    ((FeatureMath.burstStep r.burstQ1616 dt).toNat : ℤ) = burstAfter s.burst dt.toNat := by
  rw [burstStep_toNat, burstAfter, clampQ16_eq, ← h.burst, Int.fdiv_eq_ediv_of_nonneg _ (by decide)]
  push_cast
  rfl

theorem Tracks.move {r : Regs} {s : Sim} (h : Tracks r s) (fits : |midNow s - s.midPrev| ≤ 2 ^ 31) :
    ((dpAbs (FeatureMath.midNow r.bestBidPx r.bestAskPx) r.midPrev).toNat : ℤ) =
      |midNow s - s.midPrev| := by
  rw [dpAbs_toNat, h.mid, h.midPrev, abs_bmod (fits.trans_lt (by norm_num)), if_pos fits]

theorem Tracks.next {r : Regs} {s : Sim} (h : Tracks r s) {m : Datagram}
    (fed : Fed .start Sim.lastTs s m) (gap : GapFits s m) :
    Tracks (feedMachine.next r m) (feedValidator.next s m) ∧
      ((feedMachine.out r m).burstQ1616.toNat : ℤ) = (feedValidator.out s m).burst := by
  have after := h.deltas fed
  have span := h.span fed gap
  have burst := after.burstStep (packetGap (afterDeltas r m).lastT m.tSend)
  rw [span] at burst
  rw [feedMachine_next, feedMachine_out]
  refine ⟨?_, burst⟩
  exact
    { book := ⟨after.book.bestBidPx, after.book.bestAskPx, after.book.bestBidQty,
        after.book.bestAskQty, after.book.bidQty, after.book.askQty⟩
      bid := after.bid
      ask := after.ask
      lastT := by
        change some (m.tSend.toNat : ℤ) = if m.tSend = 0 then none else some (m.tSend.toNat : ℤ)
        rw [if_neg fed.nonzero]
      burst := burst
      midPrev := after.mid }

def MoveFits (s : Sim) (m : Datagram) : Prop :=
  let s := packetBook s (rxRecord m)
  |midNow s - s.midPrev| ≤ 2 ^ 31

instance (s : Sim) (m : Datagram) : Decidable (MoveFits s m) :=
  inferInstanceAs (Decidable (|_| ≤ _))

/-- What the volatility moves by, before the division by `TAU_VOL_NS`. -/
def volNumerator (s : Sim) (tSendNs : ℤ) : ℤ :=
  (|midNow s - s.midPrev| * 65536 - s.vol) * packetDt s tSendNs

def RoundExact (s : Sim) (m : Datagram) : Prop :=
  let s := packetBook s (rxRecord m)
  let num := volNumerator s m.tSend.toNat
  0 ≤ num ∨ tauVolNs ∣ num ∨ s.vol * tauVolNs ≤ -num

instance (s : Sim) (m : Datagram) : Decidable (RoundExact s m) :=
  inferInstanceAs (Decidable (_ ≤ _ ∨ _ ∣ _ ∨ _ ≤ _))

def VolTracks (r : Regs) (s : Sim) : Prop := (r.volQ1616.toNat : ℤ) = s.vol

theorem VolTracks.deltas {r : Regs} {s : Sim} (h : VolTracks r s) {m : Datagram}
    (fed : Fed .start Sim.lastTs s m) :
    VolTracks (afterDeltas r m) (packetBook s (rxRecord m)) := by
  obtain ⟨-, -, vol, -⟩ := afterDeltas_frame r m
  rw [VolTracks, vol, (packetBook_frame fed).2]
  exact h

theorem vol_step {r : Regs} {s : Sim} (h : Tracks r s) (vol : VolTracks r s) {m : Datagram}
    (fed : Fed .start Sim.lastTs s m) (gap : GapFits s m) (move : MoveFits s m) :
    ((feedMachine.out r m).volQ1616.toNat : ℤ) = (feedValidator.out s m).vol ↔ RoundExact s m := by
  have after := h.deltas fed
  have stored := vol.deltas fed
  have span := h.span fed gap
  have dp := after.move move
  have bound : (afterDeltas r m).volQ1616.toNat < 2 ^ 32 := (afterDeltas r m).volQ1616.isLt
  have fabric := volStep_toNat (afterDeltas r m).volQ1616
    (packetGap (afterDeltas r m).lastT m.tSend)
    (dpAbs (FeatureMath.midNow (afterDeltas r m).bestBidPx (afterDeltas r m).bestAskPx)
      (afterDeltas r m).midPrev)
  rw [span, dp, stored] at fabric
  have software : (feedValidator.out s m).vol =
      saturateU32 ((packetBook s (rxRecord m)).vol +
        (volNumerator (packetBook s (rxRecord m)) m.tSend.toNat).fdiv tauVolNs) :=
    clampQ16_eq _
  rw [VolTracks] at stored
  rw [feedMachine_out, software]
  refine Iff.trans (Eq.congr_left fabric) ?_
  exact saturate_tdiv_eq_fdiv_iff (by decide) (by omega) (by omega)

def BurstsAgree (ms : List Datagram) : Prop :=
  List.Forall₂ (fun e f => e.burst = f.burstQ1616.toNat) (expectedFeatures ms) (feedFeatures ms)

def VolsAgree (ms : List Datagram) : Prop :=
  List.Forall₂ (fun e f => e.vol = f.volQ1616.toNat) (expectedFeatures ms) (feedFeatures ms)

instance (ms : List Datagram) : Decidable (BurstsAgree ms) :=
  inferInstanceAs (Decidable (List.Forall₂ _ _ _))

instance (ms : List Datagram) : Decidable (VolsAgree ms) :=
  inferInstanceAs (Decidable (List.Forall₂ _ _ _))

theorem along_fed {ms : List Datagram} (feed : Feed ms) :
    feedValidator.Along (Fed .start Sim.lastTs) .start ms :=
  feed.along (fun _ _ => rfl) rfl

theorem bursts_agree {ms : List Datagram} (feed : Feed ms)
    (gaps : feedValidator.Along GapFits .start ms) : BurstsAgree ms := by
  refine feedValidator.outputs_related feedMachine (R := fun s r => Tracks r s)
    (C := fun s m => Fed .start Sim.lastTs s m ∧ GapFits s m) ?_ _ _ ms tracks_powerOn
    ((along_fed feed).and gaps)
  rintro s r m tracks ⟨fed, gap⟩
  have step := tracks.next fed gap
  exact ⟨step.1, step.2.symm⟩

theorem vols_agree_iff {ms : List Datagram} (feed : Feed ms)
    (gaps : feedValidator.Along GapFits .start ms)
    (moves : feedValidator.Along MoveFits .start ms) :
    VolsAgree ms ↔ feedValidator.Along RoundExact .start ms := by
  refine feedValidator.outputs_related_iff feedMachine
    (R := fun s r => Tracks r s ∧ VolTracks r s)
    (C := fun s m => (Fed .start Sim.lastTs s m ∧ GapFits s m) ∧ MoveFits s m) ?_ ?_ _ _ ms
    ⟨tracks_powerOn, rfl⟩ (((along_fed feed).and gaps).and moves)
  · rintro s r m ⟨tracks, vol⟩ ⟨⟨fed, gap⟩, move⟩
    rw [eq_comm]
    exact vol_step tracks vol fed gap move
  · rintro s r m ⟨tracks, vol⟩ ⟨⟨fed, gap⟩, move⟩ rounded
    have now := (vol_step tracks vol fed gap move).mpr rounded
    refine ⟨(tracks.next fed gap).1, ?_⟩
    rw [feedMachine_out] at now
    rw [feedMachine_next]
    exact now

/-- The burst is the reference's as long as the fabric's gap is; the volatility as
long as the moves fit and no rounding tells. -/
theorem features_agree_while_exact {ms : List Datagram} (feed : Feed ms)
    (gaps : feedValidator.Along GapFits .start ms) :
    BurstsAgree ms ∧
      (feedValidator.Along MoveFits .start ms → feedValidator.Along RoundExact .start ms →
        VolsAgree ms) :=
  ⟨bursts_agree feed gaps, fun moves rounded => (vols_agree_iff feed gaps moves).mpr rounded⟩

def setLevel0 (side : BitVec 8) (priceTicks : BitVec 32) : LobV1Delta where
  priceTicks := priceTicks
  qty := 0
  level := 0
  side := side
  action := 0
  reserved := 0

def quote (tSend : BitVec 64) (priceTicks : BitVec 32) : Datagram where
  reset := false
  seq := 0
  tSend := tSend
  deltas := [setLevel0 0 priceTicks, setLevel0 1 priceTicks]
  fits := show 2 < 2 ^ 15 by norm_num

theorem features_agree_two_quotes :
    Feed [quote 1 0, quote 2000001 1] ∧
    (BurstsAgree [quote 1 0, quote 2000001 1] ∧
      VolsAgree [quote 1 0, quote 2000001 1]) := by
  have feed : Feed [quote 1 0, quote 2000001 1] := by decide +kernel
  obtain ⟨bursts, vols⟩ := features_agree_while_exact feed (by decide +kernel)
  exact ⟨feed, bursts, vols (by decide +kernel) (by decide +kernel)⟩

/-- Three feeds it does not hold for: a price move after a gap of 2^33 ns and a
burst that had run almost empty; a mid that moves by 2^32 - 1; one nanosecond
after the mid has come to rest. -/
theorem features_differ :
    (Feed [quote 1 0, quote 399998 0, quote 8590334590 1] ∧
      ¬BurstsAgree [quote 1 0, quote 399998 0, quote 8590334590 1] ∧
      ¬VolsAgree [quote 1 0, quote 399998 0, quote 8590334590 1]) ∧
    (Feed [quote 1 0x80000000, quote 2000001 0x7FFFFFFF] ∧
      ¬VolsAgree [quote 1 0x80000000, quote 2000001 0x7FFFFFFF]) ∧
    (Feed [quote 1 0, quote 2000001 1, quote 2000002 1] ∧
      ¬VolsAgree [quote 1 0, quote 2000001 1, quote 2000002 1]) := by
  decide +kernel

end HftLatencyLab.PacketValidator
