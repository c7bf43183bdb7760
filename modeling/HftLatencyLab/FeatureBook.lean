import HftLatencyLab.FeatureParser
import HftLatencyLab.FixedWidth

/-! `update_book` of feature_pipeline.cpp over the static registers of the
pipeline. A delta touches one level of one side; the best prices are copies of
level 0, whatever the levels below it hold. -/

namespace HftLatencyLab.FeatureBook
open FeatureParser FixedWidth

abbrev nlevel : ℕ := 16

instance neZeroLevels : NeZero 16 := ⟨by decide⟩

structure LevelState where
  price : Vector (BitVec 32) 16
  qty : Vector (BitVec 32) 16
deriving DecidableEq

/-- The `static` variables of feature_pipeline. -/
structure Regs where
  bid : LevelState
  ask : LevelState
  bestBidPx : BitVec 32
  bestAskPx : BitVec 32
  bestBidQty : BitVec 32
  bestAskQty : BitVec 32
  ofiAccum : BitVec 32
  lastT : BitVec 64
  burstQ1616 : BitVec 32
  volQ1616 : BitVec 32
  midPrev : BitVec 32
  cyc : BitVec 32
  measuring : Bool
deriving DecidableEq

def LevelState.zero : LevelState := ⟨Vector.replicate 16 0, Vector.replicate 16 0⟩

def Regs.powerOn : Regs where
  bid := .zero
  ask := .zero
  bestBidPx := 0
  bestAskPx := 0
  bestBidQty := 0
  bestAskQty := 0
  ofiAccum := 0
  lastT := 0
  burstQ1616 := 0
  volQ1616 := 0
  midPrev := 0
  cyc := 0
  measuring := false

/-- The switch on the action, at a level below `NLEVEL`. -/
def applyAction (d : Delta) (lvl : ℕ) (h : lvl < nlevel) (side : LevelState) : LevelState :=
  match d.action.toNat with
  | 0 => { price := side.price.set lvl d.priceTicks h, qty := side.qty.set lvl d.qty h }
  | 1 => { side with qty := side.qty.set lvl (side.qty.get ⟨lvl, h⟩ + d.qty) h }
  | 2 => { side with qty := side.qty.set lvl (side.qty.get ⟨lvl, h⟩ + d.qty) h }
  | 3 => { side with qty := side.qty.set lvl 0 h }
  | _ => side

def clampLevel (lvl : ℕ) (h : lvl < nlevel) (side : LevelState) : LevelState :=
  if (side.qty.get ⟨lvl, h⟩).toInt < 0 then { side with qty := side.qty.set lvl 0 h } else side

def updateSide (d : Delta) (side : LevelState) : LevelState :=
  if h : d.level.toNat < nlevel then
    clampLevel d.level.toNat h (applyAction d d.level.toNat h side)
  else side

/-- Only add and update count, at any level. -/
def updateOfi (d : Delta) (ofiAccum : BitVec 32) : BitVec 32 :=
  if d.action = 1 ∨ d.action = 2 then
    if d.side = 0 then ofiAccum + d.qty else ofiAccum - d.qty
  else ofiAccum

def updateBook (r : Regs) (d : Delta) : Regs :=
  let bid := if d.side = 0 then updateSide d r.bid else r.bid
  let ask := if d.side = 0 then r.ask else updateSide d r.ask
  { r with
    bid := bid
    ask := ask
    ofiAccum := updateOfi d r.ofiAccum
    bestBidPx := bid.price.get 0
    bestAskPx := ask.price.get 0
    bestBidQty := bid.qty.get 0
    bestAskQty := ask.qty.get 0 }

def actionQty (d : Delta) (old : BitVec 32) : BitVec 32 :=
  if d.action = 0 then d.qty else if d.action = 3 then 0 else old + d.qty

def actionPrice (d : Delta) (old : BitVec 32) : BitVec 32 :=
  if d.action = 0 then d.priceTicks else old

def clampNonneg (q : BitVec 32) : BitVec 32 := if q.toInt < 0 then 0 else q

theorem action_cases (a : BitVec 2) : a = 0 ∨ a = 1 ∨ a = 2 ∨ a = 3 := by
  revert a
  decide

theorem applyAction_qty (d : Delta) (lvl : ℕ) (h : lvl < nlevel) (side : LevelState)
    (k : Fin 16) : (applyAction d lvl h side).qty.get k =
      if lvl = k.val then actionQty d (side.qty.get k) else side.qty.get k := by
  rcases action_cases d.action with ha | ha | ha | ha <;>
    simp only [applyAction, actionQty, ha, BitVec.reduceToNat] <;>
    by_cases same : lvl = k.val <;> simp [get_set, same]

theorem applyAction_price (d : Delta) (lvl : ℕ) (h : lvl < nlevel) (side : LevelState)
    (k : Fin 16) : (applyAction d lvl h side).price.get k =
      if lvl = k.val then actionPrice d (side.price.get k) else side.price.get k := by
  rcases action_cases d.action with ha | ha | ha | ha <;>
    simp only [applyAction, actionPrice, ha, BitVec.reduceToNat] <;>
    by_cases same : lvl = k.val <;> simp [get_set, same]

theorem clampLevel_qty (lvl : ℕ) (h : lvl < nlevel) (side : LevelState) (k : Fin 16) :
    (clampLevel lvl h side).qty.get k =
      if lvl = k.val then clampNonneg (side.qty.get k) else side.qty.get k := by
  unfold clampLevel clampNonneg
  by_cases same : lvl = k.val
  · subst same
    split <;> simp_all [get_set]
  · split <;> simp [get_set, same]

theorem clampLevel_price (lvl : ℕ) (h : lvl < nlevel) (side : LevelState) :
    (clampLevel lvl h side).price = side.price := by
  unfold clampLevel
  split <;> rfl

theorem updateSide_qty (d : Delta) (side : LevelState) (k : Fin 16) :
    (updateSide d side).qty.get k =
      if d.level.toNat = k.val then clampNonneg (actionQty d (side.qty.get k))
      else side.qty.get k := by
  unfold updateSide
  split
  · rw [clampLevel_qty, applyAction_qty]
    split <;> rfl
  · next h =>
    have other : d.level.toNat ≠ k.val := by
      intro same
      exact h (same ▸ k.isLt)
    rw [if_neg other]

theorem updateSide_price (d : Delta) (side : LevelState) (k : Fin 16) :
    (updateSide d side).price.get k =
      if d.level.toNat = k.val then actionPrice d (side.price.get k) else side.price.get k := by
  unfold updateSide
  split
  · rw [clampLevel_price, applyAction_price]
  · next h =>
    have other : d.level.toNat ≠ k.val := by
      intro same
      exact h (same ▸ k.isLt)
    rw [if_neg other]

theorem clampNonneg_nonneg (q : BitVec 32) : 0 ≤ (clampNonneg q).toInt := by
  unfold clampNonneg
  split
  · decide
  · omega

theorem clampNonneg_toInt (q : BitVec 32) : (clampNonneg q).toInt = max 0 q.toInt := by
  unfold clampNonneg
  split
  · rw [max_eq_left (by omega)]
    rfl
  · rw [max_eq_right (by omega)]

end HftLatencyLab.FeatureBook
