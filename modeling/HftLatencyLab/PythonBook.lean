import HftLatencyLab.LobPacket
import HftLatencyLab.FeatureMath

/-! The book of the Python programs, a list of `{'p', 'q'}` for each side, and
when a side of the fabric holds the same numbers. A price is only ever stored; a
quantity is also added to, and then the two agree as long as the exact sum is an
int32. -/

namespace HftLatencyLab.PythonBook
open ByteOrder LobWire FeatureParser LobPacket FeatureBook FeatureMath FixedWidth

structure Level where
  p : ℤ
  q : ℤ
deriving DecidableEq

/-- `[{'p': 0, 'q': 0} for _ in range(N)]` -/
def emptySide : Vector Level 16 := Vector.replicate 16 ⟨0, 0⟩

def Level.apply (l : Level) (d : UnpackedDelta) : Level :=
  if d.action = 0 then { p := d.priceTicks, q := d.qty }
  else if d.action = 1 ∨ d.action = 2 then { l with q := l.q + d.qty }
  else if d.action = 3 then { l with q := 0 }
  else l

def Level.clamp (l : Level) : Level := if l.q < 0 then { l with q := 0 } else l

/-- `book[i] = f(book[i])` -/
def setLevel (side : Vector Level 16) (i : ℕ) (f : Level → Level) : Vector Level 16 :=
  if h : i < 16 then side.set i (f (side.get ⟨i, h⟩)) h else side

theorem setLevel_get (side : Vector Level 16) (i : ℕ) (f : Level → Level) (k : Fin 16) :
    (setLevel side i f).get k = if i = k.val then f (side.get k) else side.get k := by
  unfold setLevel
  by_cases inside : i < 16
  · rw [dif_pos inside, get_set]
    by_cases same : i = k.val
    · subst same
      rfl
    · rw [if_neg same, if_neg same]
  · have other : i ≠ k.val := by
      intro same
      exact inside (same ▸ k.isLt)
    rw [dif_neg inside, if_neg other]

theorem emptySide_get (k : Fin 16) : emptySide.get k = ⟨0, 0⟩ := Vector.getElem_replicate k.isLt

theorem clamp_p (l : Level) : l.clamp.p = l.p := by
  unfold Level.clamp
  split <;> rfl

theorem clamp_q (l : Level) : l.clamp.q = max 0 l.q := by
  unfold Level.clamp
  split
  · rw [max_eq_left (by omega)]
  · rw [max_eq_right (by omega)]

theorem apply_p (l : Level) (d : UnpackedDelta) :
    (l.apply d).p = if d.action = 0 then d.priceTicks else l.p := by
  unfold Level.apply
  split_ifs <;> rfl

theorem apply_q (l : Level) (d : UnpackedDelta) :
    (l.apply d).q = if d.action = 0 then d.qty
      else if d.action = 1 ∨ d.action = 2 then l.q + d.qty
      else if d.action = 3 then 0 else l.q := by
  unfold Level.apply
  split_ifs <;> rfl

structure WellFormed (d : LobV1Delta) : Prop where
  level : d.level.toNat < 16
  side : d.side.toNat < 2
  action : d.action.toNat < 4

instance (d : LobV1Delta) : Decidable (WellFormed d) :=
  decidable_of_iff (d.level.toNat < 16 ∧ d.side.toNat < 2 ∧ d.action.toNat < 4)
    ⟨fun ⟨l, s, a⟩ => ⟨l, s, a⟩, fun h => ⟨h.level, h.side, h.action⟩⟩

theorem parsed_side {d : LobV1Delta} (wf : WellFormed d) (t : BitVec 64) (last : Bool) :
    (parsedDelta d t last).side = 0 ↔ d.unpacked.side = 0 := by
  have side := wf.side
  rw [← BitVec.toNat_inj, parsedDelta, BitVec.toNat_setWidth]
  change d.side.toNat % 2 = 0 ↔ d.side.toNat = 0
  omega

theorem parsed_action {d : LobV1Delta} (wf : WellFormed d) (t : BitVec 64) (last : Bool)
    (a : BitVec 2) : (parsedDelta d t last).action = a ↔ d.unpacked.action = a.toNat := by
  have action := wf.action
  have ha := a.isLt
  rw [← BitVec.toNat_inj, parsedDelta, BitVec.toNat_setWidth]
  change d.action.toNat % 4 = a.toNat ↔ d.action.toNat = a.toNat
  omega

def PriceTracks (side : LevelState) (levels : Vector Level 16) : Prop :=
  ∀ k, (side.price.get k).toInt = (levels.get k).p

def QtyTracks (side : LevelState) (levels : Vector Level 16) : Prop :=
  ∀ k, (side.qty.get k).toInt = (levels.get k).q

theorem priceTracks_empty : PriceTracks .zero emptySide := by
  intro k
  have value : LevelState.zero.price.get k = 0 := Vector.getElem_replicate k.isLt
  rw [value, emptySide_get]
  rfl

theorem qtyTracks_empty : QtyTracks .zero emptySide := by
  intro k
  have value : LevelState.zero.qty.get k = 0 := Vector.getElem_replicate k.isLt
  rw [value, emptySide_get]
  rfl

theorem PriceTracks.update {side : LevelState} {levels : Vector Level 16}
    (h : PriceTracks side levels) {d : LobV1Delta} (wf : WellFormed d) (t : BitVec 64)
    (last : Bool) : PriceTracks (updateSide (parsedDelta d t last) side)
      (setLevel levels d.level.toNat (fun l => (l.apply d.unpacked).clamp)) := by
  intro k
  have set := parsed_action wf t last 0
  have level : (parsedDelta d t last).level = d.level := rfl
  rw [updateSide_price, setLevel_get, level]
  by_cases here : d.level.toNat = k.val
  · rw [if_pos here, if_pos here, clamp_p, apply_p, actionPrice]
    by_cases isSet : d.unpacked.action = 0
    · rw [if_pos (set.mpr isSet), if_pos isSet]
      rfl
    · rw [if_neg (fun h => isSet (set.mp h)), if_neg isSet, h k]
  · rw [if_neg here, if_neg here, h k]

/-- The registers of `d` hold the exact delta `e`, the price aside. -/
structure Encodes (d : LobV1Delta) (e : UnpackedDelta) : Prop where
  level : d.level.toNat = e.level
  side : d.side.toNat = e.side
  action : d.action.toNat = e.action
  qty : d.qty = BitVec.ofInt 32 e.qty
  low : -2 ^ 31 ≤ e.qty

theorem encodes_unpacked (d : LobV1Delta) : Encodes d d.unpacked :=
  ⟨rfl, rfl, rfl, BitVec.ofInt_toInt.symm, BitVec.le_toInt d.qty⟩

theorem actionQty_toInt {d : LobV1Delta} (wf : WellFormed d) {e : UnpackedDelta}
    (enc : Encodes d e) (t : BitVec 64) (last : Bool) {old : BitVec 32} {l : Level}
    (h : old.toInt = l.q) (lo : -2 ^ 31 ≤ (l.apply e).q) (hi : (l.apply e).q < 2 ^ 31) :
    (actionQty (parsedDelta d t last) old).toInt = (l.apply e).q := by
  have set := parsed_action wf t last 0
  have remove := parsed_action wf t last 3
  have bound := enc.action ▸ wf.action
  have qty : (parsedDelta d t last).qty = BitVec.ofInt 32 e.qty := enc.qty
  have action : d.unpacked.action = e.action := enc.action
  rw [action] at set remove
  unfold actionQty
  unfold Level.apply at lo hi ⊢
  by_cases isSet : e.action = 0
  · rw [if_pos isSet] at lo hi
    rw [if_pos (set.mpr isSet), if_pos isSet, qty]
    exact BitVec.toInt_ofInt_eq_self (by norm_num) lo hi
  · rw [if_neg (fun h => isSet (set.mp h)), if_neg isSet]
    rw [if_neg isSet] at lo hi
    by_cases isRemove : e.action = 3
    · rw [if_pos (remove.mpr isRemove), if_neg (by omega), if_pos isRemove]
      rfl
    · have adds : e.action = 1 ∨ e.action = 2 := by omega
      rw [if_pos adds] at lo hi
      dsimp only at lo hi
      rw [if_neg (fun h => isRemove (remove.mp h)), if_pos adds, qty,
        toInt_add_ofInt (by omega) (by omega), h]

def QtyFits (levels : Vector Level 16) (e : UnpackedDelta) : Prop :=
  ∀ k : Fin 16, e.level = k.val →
    -2 ^ 31 ≤ ((levels.get k).apply e).q ∧ ((levels.get k).apply e).q < 2 ^ 31

theorem QtyTracks.update {side : LevelState} {levels : Vector Level 16}
    (h : QtyTracks side levels) {d : LobV1Delta} (wf : WellFormed d) {e : UnpackedDelta}
    (enc : Encodes d e) (t : BitVec 64) (last : Bool) (fits : QtyFits levels e) :
    QtyTracks (updateSide (parsedDelta d t last) side)
      (setLevel levels e.level (fun l => (l.apply e).clamp)) := by
  intro k
  have level : (parsedDelta d t last).level.toNat = e.level := enc.level
  rw [updateSide_qty, setLevel_get, level]
  by_cases here : e.level = k.val
  · obtain ⟨lo, hi⟩ := fits k here
    rw [if_pos here, if_pos here, clampNonneg_toInt, actionQty_toInt wf enc t last (h k) lo hi,
      clamp_q]
  · rw [if_neg here, if_neg here, h k]

/-- A delta of `side` 0 goes to the bid, any other to the ask. -/
def bidAfter (bid : Vector Level 16) (d : UnpackedDelta) : Vector Level 16 :=
  if d.side = 0 then setLevel bid d.level (fun l => (l.apply d).clamp) else bid

def askAfter (ask : Vector Level 16) (d : UnpackedDelta) : Vector Level 16 :=
  if d.side = 0 then ask else setLevel ask d.level (fun l => (l.apply d).clamp)

theorem priceTracks_updateBook {r : Regs} {bid ask : Vector Level 16}
    (hb : PriceTracks r.bid bid) (ha : PriceTracks r.ask ask) {d : LobV1Delta}
    (wf : WellFormed d) (t : BitVec 64) (last : Bool) :
    PriceTracks (updateBook r (parsedDelta d t last)).bid (bidAfter bid d.unpacked) ∧
      PriceTracks (updateBook r (parsedDelta d t last)).ask (askAfter ask d.unpacked) := by
  have side := parsed_side wf t last
  unfold updateBook bidAfter askAfter
  by_cases isBid : d.unpacked.side = 0
  · simp only [side.mpr isBid, isBid, if_true]
    exact ⟨hb.update wf t last, ha⟩
  · have isAsk : (parsedDelta d t last).side ≠ 0 := fun h => isBid (side.mp h)
    simp only [isAsk, isBid, if_false]
    exact ⟨hb, ha.update wf t last⟩

theorem qtyTracks_updateBook {r : Regs} {bid ask : Vector Level 16}
    (hb : QtyTracks r.bid bid) (ha : QtyTracks r.ask ask) {d : LobV1Delta}
    (wf : WellFormed d) {e : UnpackedDelta} (enc : Encodes d e) (t : BitVec 64) (last : Bool)
    (fits : if e.side = 0 then QtyFits bid e else QtyFits ask e) :
    QtyTracks (updateBook r (parsedDelta d t last)).bid (bidAfter bid e) ∧
      QtyTracks (updateBook r (parsedDelta d t last)).ask (askAfter ask e) := by
  have side := parsed_side wf t last
  have same : d.unpacked.side = e.side := enc.side
  rw [same] at side
  unfold updateBook bidAfter askAfter
  by_cases isBid : e.side = 0
  · rw [if_pos isBid] at fits
    simp only [side.mpr isBid, isBid, if_true]
    exact ⟨hb.update wf enc t last fits, ha⟩
  · rw [if_neg isBid] at fits
    have isAsk : (parsedDelta d t last).side ≠ 0 := fun h => isBid (side.mp h)
    simp only [isAsk, isBid, if_false]
    exact ⟨hb, ha.update wf enc t last fits⟩

def clamp16 (x : ℤ) : ℤ := max (min x (2 ^ 15 - 1)) (-2 ^ 15)

/-- Truncation toward zero, spelled with floor division. -/
def imbalance (bid0Q ask0Q : ℤ) : ℤ :=
  let den := bid0Q + ask0Q
  if den ≠ 0 then
    let numScaled := (bid0Q - ask0Q) * 2 ^ 15
    if numScaled ≥ 0 then clamp16 (numScaled.fdiv den) else clamp16 (-(-numScaled).fdiv den)
  else 0

theorem imbalance_eq {b a : ℤ} (hb : 0 ≤ b) (ha : 0 ≤ a) :
    imbalance b a =
      if b + a = 0 then 0 else min 0x7FFF (((b - a) * 32768).tdiv (b + a)) := by
  rw [imbalance]
  by_cases empty : b + a = 0
  · simp only [empty, if_true, ne_eq, not_true_eq_false, if_false]
  · have den : 0 < b + a := by omega
    have bounds := tdiv_bounds (n := (b - a) * 32768) (m := 32768) den (by omega) (by omega)
    have scale : (2 : ℤ) ^ 15 = 32768 := by norm_num
    simp only [empty, if_false, ne_eq, not_false_eq_true, if_true, scale]
    by_cases pos : (b - a) * 32768 ≥ 0
    · rw [if_pos pos, fdiv_eq_tdiv den (Or.inl pos), clamp16]
      omega
    · have flip := Int.neg_tdiv ((b - a) * 32768) (b + a)
      rw [if_neg pos, fdiv_eq_tdiv den (Or.inl (by omega)), clamp16]
      omega

theorem topImbalance_eq {bidQty askQty : BitVec 32} (hb : 0 ≤ bidQty.toInt)
    (ha : 0 ≤ askQty.toInt) :
    (topImbalance bidQty askQty).toInt = imbalance bidQty.toInt askQty.toInt := by
  rw [topImbalance_toInt hb ha, imbalance_eq hb ha]

/-- `cnt` deltas of `data` from `pos` on, as far as they are all there. -/
def readDeltas (data : List Byte) : ℕ → ℕ → List UnpackedDelta
  | 0, _ => []
  | cnt + 1, pos =>
    if pos + lobV1DeltaLen > data.length then []
    else unpackDelta (slice data pos (pos + lobV1DeltaLen)) ::
      readDeltas data cnt (pos + lobV1DeltaLen)

theorem readDeltas_wires (front : List Byte) (ds : List LobV1Delta) :
    readDeltas (front ++ ds.flatMap LobV1Delta.wire) ds.length front.length =
      ds.map LobV1Delta.unpacked := by
  induction ds generalizing front with
  | nil => rfl
  | cons d ds ih =>
    have len := length_wire d
    have there : ¬front.length + lobV1DeltaLen >
        (front ++ (d :: ds).flatMap LobV1Delta.wire).length := by
      rw [List.flatMap_cons, List.length_append, List.length_append, len, lobV1DeltaLen]
      omega
    have piece : slice (front ++ (d.wire ++ ds.flatMap LobV1Delta.wire)) front.length
        (front.length + lobV1DeltaLen) = d.wire := by
      rw [slice, List.drop_left, Nat.add_sub_cancel_left]
      exact List.take_left' len
    have later := ih (front ++ d.wire)
    rw [List.length_append, len, List.append_assoc] at later
    rw [List.length_cons, readDeltas, if_neg there, List.flatMap_cons, piece, unpackDelta_wire,
      List.map_cons, ← later]
    rfl

end HftLatencyLab.PythonBook
