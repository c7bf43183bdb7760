import HftLatencyLab.BookView
import HftLatencyLab.ServerFallback
import HftLatencyLab.PacketValidator

/-! One wire delta under `update_book`, under the PS loop of feature_echo_mt.py and under the
replay of validate_features_off_packets.py. The fabric masks the side and the action and counts
the order flow of any level; the PS loop takes every nonzero side for an ask and skips a
level outside the book; the validator books such a level as level 0. -/

namespace HftLatencyLab.ThreeBooks
open LobWire LobPacket FeatureParser FeatureBook TopOfBook PythonBook FixedWidth DeltaReading
open ServerFallback (PsState psDelta)
open PacketValidator (Sim simDelta)

/-- The 16 bytes of a delta, with what the parser adds from the packet around it. -/
structure WireDelta where
  delta : LobV1Delta
  tSendNs : BitVec 64
  lastInPkt : Bool

/-- The delta `parse_stream_one_packet` makes of its two beats. -/
def WireDelta.parsed (x : WireDelta) : Delta :=
  decodeDelta (toBeat (x.delta.wire.take 8) false).data
    (toBeat (x.delta.wire.drop 8) x.lastInPkt).data x.tSendNs x.lastInPkt

/-- `struct.unpack` of the same bytes. -/
def WireDelta.unpacked (x : WireDelta) : UnpackedDelta := unpackDelta x.delta.wire

structure Books where
  fabric : Regs
  processor : PsState
  validator : Sim

def Books.start : Books := ⟨.powerOn, .start, .start⟩

def booksMachine : Mealy Books WireDelta Unit where
  step s x := (⟨updateBook s.fabric x.parsed, psDelta s.processor x.unpacked,
    simDelta s.validator x.unpacked⟩, ())

def fabricView (r : Regs) : BookView where
  qty
    | .bid, k => (r.bid.qty.get k).toInt
    | .ask, k => (r.ask.qty.get k).toInt
  ofi := r.ofiAccum.toInt

def pythonView (bid ask : Vector Level 16) (ofi : ℤ) : BookView where
  qty
    | .bid, k => (bid.get k).q
    | .ask, k => (ask.get k).q
  ofi := ofi

def psView (s : PsState) : BookView := pythonView s.bid s.ask s.ofi

def simView (s : Sim) : BookView := pythonView s.bid s.ask s.ofi

def Agree (s : Books) : Prop :=
  fabricView s.fabric = psView s.processor ∧ simView s.validator = psView s.processor

def levelInside (level : ℕ) : Option (Fin 16) := if h : level < 16 then some ⟨level, h⟩ else none

def fabricReading (d : LobV1Delta) : DeltaReading where
  side := if d.side.toNat % 2 = 0 then .bid else .ask
  level := levelInside d.level.toNat
  action := d.action.toNat % 4
  counts := true
  counted _ := rfl

theorem counted_inside {level : ℕ} (h : (levelInside level).isSome) :
    decide (level < 16) = true := by
  unfold levelInside at h
  split at h
  · next inside => exact decide_eq_true inside
  · simp at h

def psReading (d : LobV1Delta) : DeltaReading where
  side := if d.side.toNat = 0 then .bid else .ask
  level := levelInside d.level.toNat
  action := d.action.toNat
  counts := d.level.toNat < 16
  counted := counted_inside

def simReading (d : LobV1Delta) : DeltaReading where
  side := if d.side.toNat = 0 then .bid else .ask
  level := levelInside (if d.level.toNat < 16 then d.level.toNat else 0)
  action := d.action.toNat
  counts := true
  counted _ := rfl

structure SumsFit (s : Books) (x : WireDelta) : Prop where
  fabric : (fabricReading x.delta).Fits (fabricView s.fabric) x.delta.qty.toInt
  processor : (psReading x.delta).Fits (psView s.processor) x.delta.qty.toInt
  validator : (simReading x.delta).Fits (simView s.validator) x.delta.qty.toInt

structure Plain (d : LobV1Delta) : Prop where
  level : d.level.toNat < 16
  action : d.action.toNat < 4
  side : d.side.toNat = 0 ∨ d.side.toNat % 2 = 1

instance (s : Books) (x : WireDelta) : Decidable (SumsFit s x) :=
  decidable_of_iff ((fabricReading x.delta).Fits (fabricView s.fabric) x.delta.qty.toInt ∧
      (psReading x.delta).Fits (psView s.processor) x.delta.qty.toInt ∧
      (simReading x.delta).Fits (simView s.validator) x.delta.qty.toInt)
    ⟨fun h => ⟨h.1, h.2.1, h.2.2⟩, fun h => ⟨h.fabric, h.processor, h.validator⟩⟩

instance (d : LobV1Delta) : Decidable (Plain d) :=
  decidable_of_iff (d.level.toNat < 16 ∧ d.action.toNat < 4 ∧
      (d.side.toNat = 0 ∨ d.side.toNat % 2 = 1))
    ⟨fun h => ⟨h.1, h.2.1, h.2.2⟩, fun h => ⟨h.level, h.action, h.side⟩⟩

def SameEffect (s : Books) (x : WireDelta) : Prop :=
  Plain x.delta ∨ (fabricReading x.delta).Idle (fabricView s.fabric) x.delta.qty.toInt ∧
    (psReading x.delta).Idle (psView s.processor) x.delta.qty.toInt ∧
    (simReading x.delta).Idle (simView s.validator) x.delta.qty.toInt

theorem levelInside_eq_some {level : ℕ} {k : Fin 16} :
    levelInside level = some k ↔ level = k.val := by
  unfold levelInside
  split
  · next inside => rw [Option.some_inj, Fin.ext_iff]
  · next outside =>
    simp only [reduceCtorEq, false_iff]
    exact fun same => outside (same ▸ k.isLt)

theorem levelInside_eq_none {level : ℕ} : levelInside level = none ↔ ¬level < 16 := by
  unfold levelInside
  split <;> simp_all

theorem readings_of_plain {d : LobV1Delta} (plain : Plain d) :
    fabricReading d = psReading d ∧ simReading d = psReading d := by
  have level := plain.level
  have action : d.action.toNat % 4 = d.action.toNat := Nat.mod_eq_of_lt plain.action
  have side : d.side.toNat % 2 = 0 ↔ d.side.toNat = 0 := by
    have cases := plain.side
    omega
  simp [fabricReading, psReading, simReading, level, action, side]

theorem psReading_idle {d : LobV1Delta} (skipped : ¬d.level.toNat < 16 ∨ ¬d.action.toNat < 4)
    (b : BookView) (v : ℤ) : (psReading d).Idle b v := by
  rcases skipped with outside | unknown
  · have level : (psReading d).level = none := levelInside_eq_none.mpr outside
    have counts : ¬(psReading d).counts := by simp [psReading, outside]
    exact ⟨by simp [level], fun counted => absurd counted counts, by simp [level]⟩
  · have action : (psReading d).action = d.action.toNat := rfl
    exact ⟨fun _ => by omega, fun _ _ => by omega, fun _ => by omega⟩

theorem apply_agree_iff {b : BookView} (h : b.Nonneg) (d : LobV1Delta) (v : ℤ) :
    ((fabricReading d).apply b v = (psReading d).apply b v ∧
        (simReading d).apply b v = (psReading d).apply b v) ↔
      Plain d ∨ (fabricReading d).Idle b v ∧ (psReading d).Idle b v ∧
        (simReading d).Idle b v := by
  by_cases plain : Plain d
  · obtain ⟨fabric, sim⟩ := readings_of_plain plain
    simp only [fabric, sim, plain, true_or, and_self]
  · simp only [plain, false_or]
    by_cases skipped : ¬d.level.toNat < 16 ∨ ¬d.action.toNat < 4
    · have idle := psReading_idle skipped b v
      rw [(apply_eq_self_iff h).mpr idle, apply_eq_self_iff h, apply_eq_self_iff h]
      simp only [idle, true_and]
    · obtain ⟨inside, known⟩ : d.level.toNat < 16 ∧ d.action.toNat < 4 := by omega
      -- An even side other than 0: a bid to the fabric, an ask to the other two.
      have even : d.side.toNat % 2 = 0 ∧ d.side.toNat ≠ 0 := by
        have odd : ¬(d.side.toNat = 0 ∨ d.side.toNat % 2 = 1) :=
          fun side => plain ⟨inside, known, side⟩
        omega
      have sim : simReading d = psReading d := by simp [simReading, psReading, inside]
      have sides : (fabricReading d).side ≠ (psReading d).side := by
        simp [fabricReading, psReading, even.1, even.2]
      have action : (fabricReading d).action = (psReading d).action := Nat.mod_eq_of_lt known
      have counts : (fabricReading d).counts = (psReading d).counts :=
        (decide_eq_true inside).symm
      rw [sim, apply_eq_apply_iff_of_sides h sides action counts]
      tauto

theorem parsed_eq (x : WireDelta) : x.parsed = parsedDelta x.delta x.tSendNs x.lastInPkt :=
  decodeDelta_wire x.delta x.tSendNs x.lastInPkt false x.lastInPkt

theorem unpacked_eq (x : WireDelta) : x.unpacked = x.delta.unpacked := unpackDelta_wire x.delta

theorem masked_side (d : LobV1Delta) (t : BitVec 64) (last : Bool) :
    (parsedDelta d t last).side = 0 ↔ d.side.toNat % 2 = 0 := by
  rw [← BitVec.toNat_inj, parsedDelta, BitVec.toNat_setWidth]
  rfl

theorem masked_action (d : LobV1Delta) (t : BitVec 64) (last : Bool) (a : BitVec 2) :
    (parsedDelta d t last).action = a ↔ d.action.toNat % 4 = a.toNat := by
  rw [← BitVec.toNat_inj, parsedDelta, BitVec.toNat_setWidth]

theorem fabric_qtyAfter (d : LobV1Delta) (t : BitVec 64) (last : Bool) (old : BitVec 32)
    (fits : (fabricReading d).action = 1 ∨ (fabricReading d).action = 2 →
      -2 ^ 31 ≤ old.toInt + d.qty.toInt ∧ old.toInt + d.qty.toInt < 2 ^ 31) :
    (clampNonneg (actionQty (parsedDelta d t last) old)).toInt =
      (fabricReading d).qtyAfter d.qty.toInt old.toInt := by
  have action : (fabricReading d).action = d.action.toNat % 4 := rfl
  have set := masked_action d t last 0
  have remove := masked_action d t last 3
  change _ ↔ d.action.toNat % 4 = 0 at set
  change _ ↔ d.action.toNat % 4 = 3 at remove
  rw [clampNonneg_toInt, qtyAfter, actionQty]
  congr 1
  rw [action] at fits ⊢
  simp only [set, remove]
  by_cases isSet : d.action.toNat % 4 = 0
  · rw [if_pos isSet, if_pos isSet]
    rfl
  · rw [if_neg isSet, if_neg isSet]
    by_cases isRemove : d.action.toNat % 4 = 3
    · rw [if_pos isRemove, if_neg (by omega), if_pos isRemove]
      rfl
    · have sums : d.action.toNat % 4 = 1 ∨ d.action.toNat % 4 = 2 := by omega
      obtain ⟨lo, hi⟩ := fits sums
      rw [if_neg isRemove, if_pos sums]
      change (old + d.qty).toInt = _
      rw [BitVec.toInt_add, bmod_inside lo hi]

theorem fabric_ofi {r : Regs} {d : LobV1Delta} (t : BitVec 64) (last : Bool)
    (fits : -2 ^ 31 ≤ r.ofiAccum.toInt + (fabricReading d).flow d.qty.toInt ∧
      r.ofiAccum.toInt + (fabricReading d).flow d.qty.toInt < 2 ^ 31) :
    (updateOfi (parsedDelta d t last) r.ofiAccum).toInt =
      r.ofiAccum.toInt + (fabricReading d).flow d.qty.toInt := by
  obtain ⟨lo, hi⟩ := fits
  have side := masked_side d t last
  have counts : ((parsedDelta d t last).action = 1 ∨ (parsedDelta d t last).action = 2) ↔
      d.action.toNat % 4 = 1 ∨ d.action.toNat % 4 = 2 :=
    or_congr (masked_action d t last 1) (masked_action d t last 2)
  have flow : (fabricReading d).flow d.qty.toInt =
      if d.action.toNat % 4 = 1 ∨ d.action.toNat % 4 = 2 then
        (fabricReading d).side.signed d.qty.toInt else 0 := flow_of_counts rfl
  rw [flow] at lo hi ⊢
  unfold updateOfi
  by_cases sums : d.action.toNat % 4 = 1 ∨ d.action.toNat % 4 = 2
  · rw [if_pos sums] at lo hi ⊢
    rw [if_pos (counts.mpr sums)]
    by_cases even : d.side.toNat % 2 = 0
    · have bid : (fabricReading d).side = .bid := if_pos even
      rw [bid, BookSide.signed] at lo hi ⊢
      rw [if_pos (side.mpr even), BitVec.toInt_add]
      exact bmod_inside lo hi
    · have ask : (fabricReading d).side = .ask := if_neg even
      rw [ask, BookSide.signed] at lo hi ⊢
      rw [if_neg (fun zero => even (side.mp zero)), BitVec.toInt_sub]
      exact bmod_inside lo hi
  · rw [if_neg sums, if_neg (fun counted => sums (counts.mp counted)), add_zero]

theorem fabric_touched {b : BookView} {d : LobV1Delta} (t : BitVec 64) (last : Bool)
    (fits : (fabricReading d).Fits b d.qty.toInt) {s : LevelState} {k : Fin 16}
    (old : (s.qty.get k).toInt = b.qty (fabricReading d).side k) :
    ((updateSide (parsedDelta d t last) s).qty.get k).toInt =
      if (fabricReading d).level = some k then
        (fabricReading d).qtyAfter d.qty.toInt (s.qty.get k).toInt
      else (s.qty.get k).toInt := by
  have level : (fabricReading d).level = some k ↔ d.level.toNat = k.val := levelInside_eq_some
  rw [updateSide_qty]
  simp only [level]
  by_cases here : d.level.toNat = k.val
  · rw [if_pos here]
    refine Eq.trans (congrArg BitVec.toInt (if_pos here))
      (fabric_qtyAfter d t last _ fun sums => ?_)
    rw [old]
    exact fits.qty sums k (level.mpr here)
  · rw [if_neg here]
    exact congrArg BitVec.toInt (if_neg here)

theorem fabric_apply {r : Regs} {d : LobV1Delta} (t : BitVec 64) (last : Bool)
    (fits : (fabricReading d).Fits (fabricView r) d.qty.toInt) :
    fabricView (updateBook r (parsedDelta d t last)) =
      (fabricReading d).apply (fabricView r) d.qty.toInt := by
  have side := masked_side d t last
  have touched (s : LevelState) (k : Fin 16)
      (old : (s.qty.get k).toInt = (fabricView r).qty (fabricReading d).side k) :=
    fabric_touched t last fits old
  ext s k
  · by_cases even : d.side.toNat % 2 = 0
    · have bid : (fabricReading d).side = .bid := if_pos even
      have zero : (parsedDelta d t last).side = 0 := side.mpr even
      rw [bid] at touched
      simp only [fabricView, updateBook, DeltaReading.apply, zero, if_true, bid]
      cases s with
      | bid => simpa using touched r.bid k rfl
      | ask => simp
    · have ask : (fabricReading d).side = .ask := if_neg even
      have one : (parsedDelta d t last).side ≠ 0 := fun zero => even (side.mp zero)
      rw [ask] at touched
      simp only [fabricView, updateBook, DeltaReading.apply, one, if_false, ask]
      cases s with
      | bid => simp
      | ask => simpa using touched r.ask k rfl
  · exact fabric_ofi t last fits.ofi

theorem python_apply {m : DeltaReading} {e : UnpackedDelta}
    (side : m.side = if e.side = 0 then .bid else .ask) (level : m.level = levelInside e.level)
    (action : m.action = e.action) (bid ask : Vector Level 16) (ofi : ℤ) :
    pythonView (bidAfter bid e) (askAfter ask e) (ofi + m.flow e.qty) =
      m.apply (pythonView bid ask ofi) e.qty := by
  have at_level (k : Fin 16) : m.level = some k ↔ e.level = k.val := by
    rw [level, levelInside_eq_some]
  have touched (s : Vector Level 16) (k : Fin 16) :
      ((setLevel s e.level (fun l => (l.apply e).clamp)).get k).q =
        if m.level = some k then m.qtyAfter e.qty (s.get k).q else (s.get k).q := by
    rw [setLevel_get]
    simp only [at_level]
    split
    · rw [clamp_q, apply_q, qtyAfter, action]
    · rfl
  ext s k
  · unfold bidAfter askAfter
    by_cases isBid : e.side = 0
    · rw [if_pos isBid] at side
      cases s with
      | bid => simpa [pythonView, DeltaReading.apply, isBid, side] using touched bid k
      | ask => simp [pythonView, DeltaReading.apply, isBid, side]
    · rw [if_neg isBid] at side
      cases s with
      | bid => simp [pythonView, DeltaReading.apply, isBid, side]
      | ask => simpa [pythonView, DeltaReading.apply, isBid, side] using touched ask k
  · rfl

theorem ps_apply (s : PsState) (d : LobV1Delta) :
    psView (psDelta s d.unpacked) = (psReading d).apply (psView s) d.qty.toInt := by
  have book := python_apply (m := psReading d) (e := d.unpacked) rfl rfl rfl s.bid s.ask s.ofi
  by_cases inside : d.level.toNat < 16
  · have level : d.unpacked.level < 16 := inside
    refine Eq.trans ?_ book
    rw [psDelta, if_pos level, psView]
    congr 1
    have counts : (psReading d).counts = true := decide_eq_true inside
    have action : (psReading d).action = d.unpacked.action := rfl
    have side : (psReading d).side = if d.unpacked.side = 0 then .bid else .ask := rfl
    rw [DeltaReading.flow, counts, action, side]
    by_cases isBid : d.unpacked.side = 0 <;> simp [isBid, BookSide.signed, add_ite]
  · have outside : ¬d.unpacked.level < 16 := inside
    have level : (psReading d).level = none := levelInside_eq_none.mpr inside
    have counts : (psReading d).counts = false := decide_eq_false inside
    rw [psDelta, if_neg outside]
    ext side k
    · simp [DeltaReading.apply, level]
    · simp [DeltaReading.apply, DeltaReading.flow, counts]

theorem sim_apply {s : Sim} {d : LobV1Delta}
    (fits : (simReading d).Fits (simView s) d.qty.toInt) :
    simView (simDelta s d.unpacked) = (simReading d).apply (simView s) d.qty.toInt := by
  have book := python_apply (m := simReading d)
    (e := { d.unpacked with level := if d.unpacked.level < 16 then d.unpacked.level else 0 })
    rfl rfl rfl s.bid s.ask s.ofi
  refine Eq.trans ?_ book
  obtain ⟨lo, hi⟩ := fits.ofi
  change -2 ^ 31 ≤ s.ofi + _ at lo
  change s.ofi + _ < 2 ^ 31 at hi
  rw [simDelta, simView]
  congr 1
  have side : (simReading d).side = if d.unpacked.side = 0 then .bid else .ask := rfl
  have flow : (simReading d).flow d.qty.toInt =
      if d.unpacked.action = 1 ∨ d.unpacked.action = 2 then
        (simReading d).side.signed d.qty.toInt else 0 := flow_of_counts rfl
  have qty : d.unpacked.qty = d.qty.toInt := rfl
  rw [flow, side] at lo hi
  rw [qty, flow, side]
  by_cases sums : d.unpacked.action = 1 ∨ d.unpacked.action = 2
  · rw [if_pos sums] at lo hi ⊢
    rw [if_pos sums]
    by_cases isBid : d.unpacked.side = 0
    · simp only [if_pos isBid, BookSide.signed] at lo hi ⊢
      omega
    · simp only [if_neg isBid, BookSide.signed] at lo hi ⊢
      omega
  · rw [if_neg sums, if_neg sums, add_zero]

theorem next_views {s : Books} {x : WireDelta} (fits : SumsFit s x) :
    fabricView (booksMachine.next s x).fabric =
        (fabricReading x.delta).apply (fabricView s.fabric) x.delta.qty.toInt ∧
      psView (booksMachine.next s x).processor =
        (psReading x.delta).apply (psView s.processor) x.delta.qty.toInt ∧
      simView (booksMachine.next s x).validator =
        (simReading x.delta).apply (simView s.validator) x.delta.qty.toInt := by
  have next : booksMachine.next s x = ⟨updateBook s.fabric x.parsed,
      psDelta s.processor x.unpacked, simDelta s.validator x.unpacked⟩ := rfl
  rw [next, parsed_eq, unpacked_eq]
  exact ⟨fabric_apply x.tSendNs x.lastInPkt fits.fabric, ps_apply s.processor x.delta,
    sim_apply fits.validator⟩

structure Nonneg (s : Books) : Prop where
  fabric : (fabricView s.fabric).Nonneg
  processor : (psView s.processor).Nonneg
  validator : (simView s.validator).Nonneg

theorem Nonneg.next {s : Books} {x : WireDelta} (h : Nonneg s) (fits : SumsFit s x) :
    Nonneg (booksMachine.next s x) := by
  obtain ⟨fabric, processor, validator⟩ := next_views fits
  constructor
  · rw [fabric]
    exact apply_nonneg h.fabric
  · rw [processor]
    exact apply_nonneg h.processor
  · rw [validator]
    exact apply_nonneg h.validator

theorem views_start : fabricView .powerOn = ⟨fun _ _ => 0, 0⟩ ∧
    psView .start = ⟨fun _ _ => 0, 0⟩ ∧ simView .start = ⟨fun _ _ => 0, 0⟩ := by
  have fabric (k : Fin 16) : LevelState.zero.qty.get k = 0 := Vector.getElem_replicate k.isLt
  have python (k : Fin 16) : (emptySide.get k).q = 0 := by rw [emptySide_get]
  refine ⟨?_, ?_, ?_⟩
  · ext side k
    · cases side <;> exact congrArg BitVec.toInt (fabric k)
    · rfl
  · ext side k
    · cases side <;> exact python k
    · rfl
  · ext side k
    · cases side <;> exact python k
    · rfl

theorem next_agree_iff {s : Books} {x : WireDelta} (nonneg : Nonneg s) (agree : Agree s)
    (fits : SumsFit s x) : Agree (booksMachine.next s x) ↔ SameEffect s x := by
  obtain ⟨fabric, processor, validator⟩ := next_views fits
  rw [Agree, SameEffect, fabric, processor, validator, agree.1, agree.2]
  exact apply_agree_iff nonneg.processor x.delta x.delta.qty.toInt

/-- As long as the sums are int32, the three books agree all along a run exactly if every
delta of it has the same effect on them. -/
theorem books_agree_iff {xs : List WireDelta} (fits : booksMachine.Along SumsFit .start xs) :
    (∀ pre, pre <+: xs → Agree (booksMachine.final .start pre)) ↔
      booksMachine.Along SameEffect .start xs := by
  obtain ⟨fabric, processor, validator⟩ := views_start
  have agree : Agree .start := ⟨fabric.trans processor.symm, validator.trans processor.symm⟩
  have zero : BookView.Nonneg ⟨fun _ _ => 0, 0⟩ := fun _ _ => le_rfl
  have start : Nonneg .start :=
    ⟨fabric.symm ▸ zero, processor.symm ▸ zero, validator.symm ▸ zero⟩
  exact Mealy.prefixes_iff_along (fun s x nonneg fits => nonneg.next fits)
    (fun s x nonneg agree fits => next_agree_iff nonneg agree fits) start agree fits

def fiveLots (level : BitVec 16) (side action : BitVec 8) : WireDelta where
  delta := ⟨1000, 5, level, side, action, 0⟩
  tSendNs := 1
  lastInPkt := false

/-- A set, and an add to the same ask. -/
theorem books_agree_after_two :
    Agree (booksMachine.final .start [fiveLots 3 1 0, fiveLots 3 1 1]) :=
  (@books_agree_iff [fiveLots 3 1 0, fiveLots 3 1 1] (by decide +kernel)).mpr
    ⟨Or.inl (by decide), Or.inl (by decide), trivial⟩ _ List.prefix_rfl

/-- An add to level 16: order flow to the fabric, nothing to the PS loop, a best bid to the
validator. -/
theorem level_sixteen_splits :
    booksMachine.Along SumsFit .start [fiveLots 16 0 1] ∧
      (fabricView (booksMachine.final .start [fiveLots 16 0 1]).fabric).ofi = 5 ∧
      (psView (booksMachine.final .start [fiveLots 16 0 1]).processor).ofi = 0 ∧
      (simView (booksMachine.final .start [fiveLots 16 0 1]).validator).qty .bid 0 = 5 ∧
      ¬Agree (booksMachine.final .start [fiveLots 16 0 1]) := by
  refine ⟨by decide +kernel, by decide +kernel, by decide +kernel, by decide +kernel, ?_⟩
  intro agree
  have same := congrArg BookView.ofi agree.1
  exact absurd same (by decide +kernel)

def wireDeltas (tSendNs : BitVec 64) : List LobV1Delta → List WireDelta
  | [] => []
  | d :: rest => ⟨d, tSendNs, rest.isEmpty⟩ :: wireDeltas tSendNs rest

theorem final_wireDeltas (t : BitVec 64) (ds : List LobV1Delta) (s : Books) :
    booksMachine.final s (wireDeltas t ds) =
      ⟨(parsedDeltas t ds).foldl updateBook s.fabric,
        (ds.map LobV1Delta.unpacked).foldl psDelta s.processor,
        (ds.map LobV1Delta.unpacked).foldl simDelta s.validator⟩ := by
  induction ds generalizing s with
  | nil => rfl
  | cons d ds ih =>
    have next : booksMachine.next s ⟨d, t, ds.isEmpty⟩ =
        ⟨updateBook s.fabric (parsedDelta d t ds.isEmpty), psDelta s.processor d.unpacked,
          simDelta s.validator d.unpacked⟩ := by
      rw [← parsed_eq ⟨d, t, ds.isEmpty⟩, ← unpacked_eq ⟨d, t, ds.isEmpty⟩]
      rfl
    rw [wireDeltas, Mealy.final_cons, next, ih]
    rfl

/-- The deltas of one datagram in the three loops: out of the parser's FIFO, out of the UDP
payload and out of the dumped packet. -/
theorem datagram_books (s : Books) (m : Datagram) :
    booksMachine.final s (wireDeltas m.tSend m.deltas) =
      ⟨m.packet.deltas.foldl updateBook s.fabric,
        (readDeltas m.bytes m.deltas.length lobV1HdrLen).foldl psDelta s.processor,
        (readDeltas (m.deltas.flatMap LobV1Delta.wire) m.deltas.length 0).foldl simDelta
          s.validator⟩ := by
  have header : (replayHdr m.fcnt m.seq m.tSend).bytes.length = lobV1HdrLen := by
    rw [replayHdr_bytes, length_packHdr]
    rfl
  have payload := readDeltas_wires (replayHdr m.fcnt m.seq m.tSend).bytes m.deltas
  have dumped := readDeltas_wires [] m.deltas
  rw [header] at payload
  rw [final_wireDeltas, packet_deltas, ← payload]
  congr 1
  rw [payload, ← dumped]
  rfl

end HftLatencyLab.ThreeBooks
