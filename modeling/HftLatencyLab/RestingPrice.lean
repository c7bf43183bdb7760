import HftLatencyLab.TopOfBook

/-! The price a level shows, against the price its quantity came with. `add` and
`update` move the quantity of a level and leave its price alone, so a level that
one of them fills shows what was there before: 0, or the price of quantity that is gone. -/

namespace HftLatencyLab.RestingPrice
open FeatureParser FeatureBook FeatureMath FeaturePipeline TopOfBook

inductive PumpStep where
  | start
  | delta (d : Delta)
  | emit (tSendNs : BitVec 64)

def pumpStep (r : Regs) : PumpStep → Regs
  | .start => startMeasure r
  | .delta d => updateBook r d
  | .emit tSendNs => (emit r tSendNs).1

def packetSteps (p : Packet) : List PumpStep :=
  .start :: p.deltas.map .delta ++ [.emit p.tSendNs]

theorem foldl_packetSteps (r : Regs) (p : Packet) :
    (packetSteps p).foldl pumpStep r = packetMachine.next r p := by
  simp only [packetSteps, List.cons_append, List.foldl_cons, List.foldl_append, List.foldl_map,
    List.foldl_nil]
  rfl

theorem foldl_packets (r : Regs) (ps : List Packet) :
    (ps.flatMap packetSteps).foldl pumpStep r = packetMachine.final r ps := by
  induction ps generalizing r with
  | nil => rfl
  | cons p ps ih =>
    rw [List.flatMap_cons, List.foldl_append, foldl_packetSteps, ih, Mealy.final_cons]

theorem bookKept_pumpStep {r : Regs} (h : BookKept r) (x : PumpStep) :
    BookKept (pumpStep r x) := by
  cases x with
  | start => exact h.startMeasure
  | delta d => exact h.updateBook d
  | emit tSendNs => exact (idle_emit h tSendNs).book

def pumpMachine : Mealy Regs PumpStep Unit where
  step r x := (pumpStep r x, ())

theorem bookKept_pump (xs : List PumpStep) : BookKept (pumpMachine.final .powerOn xs) :=
  pumpMachine.final_invariant (I := BookKept) (fun _ x kept => bookKept_pumpStep kept x) .powerOn xs
    idle_powerOn.book

theorem pumpMachine_packets (r : Regs) (ps : List Packet) :
    pumpMachine.final r (ps.flatMap packetSteps) = packetMachine.final r ps := foldl_packets r ps

/-- `d.side ? ask : bid` -/
def levels (r : Regs) (side : BitVec 1) : LevelState := if side = 0 then r.bid else r.ask

theorem levels_updateBook (r : Regs) (d : Delta) (side : BitVec 1) :
    levels (updateBook r d) side =
      if d.side = side then updateSide d (levels r side) else levels r side := by
  unfold levels updateBook
  by_cases bid : side = 0 <;> by_cases same : d.side = side <;> grind

theorem levels_nonneg {r : Regs} (h : BookKept r) (side : BitVec 1) (k : Fin 16) :
    0 ≤ ((levels r side).qty.get k).toInt := by
  unfold levels
  split
  · exact h.bidQty k
  · exact h.askQty k

def Resting (qty : BitVec 32) : Prop := 0 < qty.toInt

instance (qty : BitVec 32) : Decidable (Resting qty) := inferInstanceAs (Decidable (0 < qty.toInt))

/-- A delta gives a level its price where it is a set, or where it fills the level. -/
def Prices (d : Delta) (old new : BitVec 32) : Prop := d.action = 0 ∨ ¬Resting old ∧ Resting new

instance (d : Delta) (old new : BitVec 32) : Decidable (Prices d old new) :=
  inferInstanceAs (Decidable (_ ∨ _))

/-- The `price_ticks` of the last delta that gave each level its price. -/
abbrev Quotes := BitVec 1 → Fin 16 → BitVec 32

def quote (r : Regs) (q : Quotes) : PumpStep → Quotes
  | .delta d => fun side k =>
    if d.side = side ∧ d.level.toNat = k.val ∧
        Prices d ((levels r side).qty.get k) ((levels (updateBook r d) side).qty.get k) then
      d.priceTicks
    else q side k
  | _ => q

structure QuotedBook where
  regs : Regs
  quotes : Quotes

def QuotedBook.powerOn : QuotedBook := ⟨.powerOn, fun _ _ => 0⟩

def quotedMachine : Mealy QuotedBook PumpStep Unit where
  step s x := (⟨pumpStep s.regs x, quote s.regs s.quotes x⟩, ())

theorem quotedMachine_regs (s : QuotedBook) (xs : List PumpStep) :
    (quotedMachine.final s xs).regs = xs.foldl pumpStep s.regs := by
  induction xs generalizing s with
  | nil => rfl
  | cons x xs ih =>
    rw [Mealy.final_cons, ih]
    rfl

theorem quotedMachine_packets (s : QuotedBook) (ps : List Packet) :
    (quotedMachine.final s (ps.flatMap packetSteps)).regs = packetMachine.final s.regs ps := by
  rw [quotedMachine_regs, foldl_packets]

def LevelPriced (s : QuotedBook) (side : BitVec 1) (k : Fin 16) : Prop :=
  Resting ((levels s.regs side).qty.get k) → (levels s.regs side).price.get k = s.quotes side k

/-- Resting quantity shows the price it came with, at every level, in the best
prices and in the mid that the features take from them. -/
structure Priced (s : QuotedBook) : Prop where
  level : ∀ side k, LevelPriced s side k
  bestBid : Resting s.regs.bestBidQty → s.regs.bestBidPx = s.quotes 0 0
  bestAsk : Resting s.regs.bestAskQty → s.regs.bestAskPx = s.quotes 1 0
  mid : Resting s.regs.bestBidQty → Resting s.regs.bestAskQty →
    midNow s.regs.bestBidPx s.regs.bestAskPx = midNow (s.quotes 0 0) (s.quotes 1 0)

theorem priced_iff {s : QuotedBook} (kept : BookKept s.regs) :
    Priced s ↔ ∀ side k, LevelPriced s side k := by
  constructor
  · intro priced
    exact priced.level
  · intro priced
    have bid : Resting s.regs.bestBidQty → s.regs.bestBidPx = s.quotes 0 0 := by
      rw [kept.bestBidQty, kept.bestBidPx]
      exact priced 0 0
    have ask : Resting s.regs.bestAskQty → s.regs.bestAskPx = s.quotes 1 0 := by
      rw [kept.bestAskQty, kept.bestAskPx]
      exact priced 1 0
    exact
      { level := priced
        bestBid := bid
        bestAsk := ask
        mid := fun hb ha => by rw [bid hb, ask ha] }

/-- An add or update that fills a level must carry the price the level already shows. -/
def Carried (r : Regs) : PumpStep → Prop
  | .delta d => ∀ k : Fin 16, d.level.toNat = k.val → d.action = 1 ∨ d.action = 2 →
      ¬Resting ((levels r d.side).qty.get k) → Resting d.qty →
      d.priceTicks = (levels r d.side).price.get k
  | _ => True

theorem resting_clamp {q : BitVec 32} : Resting (clampNonneg q) ↔ Resting q := by
  unfold Resting
  rw [clampNonneg_toInt]
  omega

theorem eq_zero_of_not_resting {q : BitVec 32} (kept : 0 ≤ q.toInt) (bare : ¬Resting q) :
    q = 0#32 := by
  unfold Resting at bare
  apply BitVec.eq_of_toInt_eq
  rw [BitVec.toInt_zero]
  omega

theorem moved_priced_iff (qty priceTicks : BitVec 32) {old px q : BitVec 32}
    (kept : 0 ≤ old.toInt) (priced : Resting old → px = q) :
    (Resting (old + qty) →
        px = if ¬Resting old ∧ Resting (old + qty) then priceTicks else q) ↔
      (¬Resting old → Resting qty → priceTicks = px) := by
  by_cases rests : Resting old
  · simp [rests, priced]
  · rw [eq_zero_of_not_resting kept rests, BitVec.zero_add]
    constructor
    · intro shown bare fills
      rw [shown fills, if_pos ⟨bare, fills⟩]
    · intro carried fills
      have bare : ¬Resting 0#32 := by decide
      rw [if_pos ⟨bare, fills⟩, carried bare fills]

theorem touched_priced_iff (d : Delta) {old px q : BitVec 32} (kept : 0 ≤ old.toInt)
    (priced : Resting old → px = q) :
    (Resting (clampNonneg (actionQty d old)) → actionPrice d px =
        if Prices d old (clampNonneg (actionQty d old)) then d.priceTicks else q) ↔
      (d.action = 1 ∨ d.action = 2 → ¬Resting old → Resting d.qty → d.priceTicks = px) := by
  have moved := moved_priced_iff d.qty d.priceTicks kept priced
  rcases action_cases d.action with set | add | update | remove
  · simp [actionPrice, Prices, set]
  · simpa [actionQty, actionPrice, Prices, resting_clamp, add] using moved
  · simpa [actionQty, actionPrice, Prices, resting_clamp, update] using moved
  · simp [actionQty, Resting, clampNonneg, remove]

theorem untouched_priced {s : QuotedBook} {d : Delta} {side : BitVec 1} {k : Fin 16}
    (other : ¬(d.side = side ∧ d.level.toNat = k.val)) (priced : LevelPriced s side k) :
    LevelPriced (quotedMachine.next s (.delta d)) side k := by
  have keeps : LevelPriced (quotedMachine.next s (.delta d)) side k ↔ LevelPriced s side k := by
    simp only [LevelPriced, Mealy.next, quotedMachine, pumpStep, quote, levels_updateBook]
    by_cases same : d.side = side
    · have elsewhere : d.level.toNat ≠ k.val := fun level => other ⟨same, level⟩
      simp [same, elsewhere, updateSide_qty, updateSide_price]
    · simp [same]
  exact keeps.mpr priced

theorem delta_priced_iff {s : QuotedBook} {d : Delta} {k : Fin 16} (kept : BookKept s.regs)
    (level : d.level.toNat = k.val) (priced : LevelPriced s d.side k) :
    LevelPriced (quotedMachine.next s (.delta d)) d.side k ↔
      (d.action = 1 ∨ d.action = 2 → ¬Resting ((levels s.regs d.side).qty.get k) →
        Resting d.qty → d.priceTicks = (levels s.regs d.side).price.get k) := by
  rw [← touched_priced_iff d (levels_nonneg kept d.side k) priced]
  simp [LevelPriced, Mealy.next, quotedMachine, pumpStep, quote, levels_updateBook,
    updateSide_qty, updateSide_price, level]

theorem levels_priced_iff {s : QuotedBook} (kept : BookKept s.regs)
    (priced : ∀ side k, LevelPriced s side k) (x : PumpStep) :
    (∀ side k, LevelPriced (quotedMachine.next s x) side k) ↔ Carried s.regs x := by
  cases x with
  | start =>
    have same (side : BitVec 1) : levels (startMeasure s.regs) side = levels s.regs side := by
      rw [startMeasure_eq]
      rfl
    simp only [LevelPriced, Mealy.next, quotedMachine, pumpStep, quote, same, Carried, iff_true]
    exact priced
  | delta d =>
    constructor
    · intro shown k level
      exact (delta_priced_iff kept level (priced d.side k)).mp (shown d.side k)
    · intro carried side k
      by_cases here : d.side = side ∧ d.level.toNat = k.val
      · obtain ⟨rfl, level⟩ := here
        exact (delta_priced_iff kept level (priced d.side k)).mpr (carried k level)
      · exact untouched_priced here (priced side k)
  | emit tSendNs => exact iff_of_true priced trivial

theorem levelPriced_powerOn (side : BitVec 1) (k : Fin 16) : LevelPriced .powerOn side k := by
  intro rests
  have empty : (levels Regs.powerOn side).qty.get k = 0 := by
    unfold levels
    split <;> exact Vector.getElem_replicate k.isLt
  rw [show QuotedBook.powerOn.regs = Regs.powerOn from rfl, empty] at rests
  exact absurd rests (by decide)

/-- The steps of feature_pipeline keep resting quantity at its price just as long as
every delta that fills a level without a set carries the price shown there. -/
theorem resting_priced_iff (xs : List PumpStep) :
    (∀ pre, pre <+: xs → Priced (quotedMachine.final .powerOn pre)) ↔
      quotedMachine.Along (fun s x => Carried s.regs x) .powerOn xs := by
  have keep (s : QuotedBook) (x : PumpStep) (kept : BookKept s.regs) :
      BookKept (quotedMachine.next s x).regs := bookKept_pumpStep kept x
  have step (s : QuotedBook) (x : PumpStep) (kept : BookKept s.regs) (priced : Priced s) :
      Priced (quotedMachine.next s x) ↔ Carried s.regs x := by
    rw [priced_iff (keep s x kept)]
    exact levels_priced_iff kept priced.level x
  have start : BookKept QuotedBook.powerOn.regs := idle_powerOn.book
  exact Mealy.prefixes_iff keep step start ((priced_iff start).mpr levelPriced_powerOn) xs

def firstAdd : Delta where
  priceTicks := 1000
  qty := 5
  level := 0
  side := 0
  action := 1
  tSendNs := 0
  lastInPkt := true

/-- The first quantity added to the book rests at price 0. -/
theorem first_add_unpriced :
    ¬∀ pre, pre <+: [.start, .delta firstAdd] → Priced (quotedMachine.final .powerOn pre) := by
  intro every
  have priced := every _ (List.prefix_refl _)
  exact absurd (priced.bestBid (by decide)) (by decide)

end HftLatencyLab.RestingPrice
