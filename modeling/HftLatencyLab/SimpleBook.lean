import HftLatencyLab.BestKey
import Mathlib.Data.Finmap

/-! `SimpleBook` of the host strategy: a dictionary from price to quantity for
each side and a cached best price. A call that raises leaves the book as it was
when the exception was thrown; `call` returns that book beside the outcome. -/

namespace HftLatencyLab

/-- `Dict[int, int]` -/
abbrev Dict := Finmap fun _ : ℤ => ℤ

namespace Dict

theorem keys_insert (book : Dict) (price qty : ℤ) :
    (book.insert price qty).keys = insert price book.keys := by
  ext key
  simp [Finmap.mem_keys]

theorem keys_eq_empty_iff (book : Dict) : book.keys = ∅ ↔ book = ∅ := by
  constructor
  · intro none
    apply Finmap.ext_lookup
    intro price
    rw [Finmap.lookup_empty, Finmap.lookup_eq_none, ← Finmap.mem_keys, none]
    exact Finset.notMem_empty price
  · rintro rfl
    exact Finmap.keys_empty

/-- `{p: q for p, q in rows}` -/
def ofRows (rows : List (ℤ × ℤ)) : Dict :=
  rows.foldl (fun book row => book.insert row.1 row.2) ∅

end Dict

structure SimpleBook where
  bids : Dict
  asks : Dict
  bestBid : Option ℤ
  bestAsk : Option ℤ

/-- The price `del book[price]` did not find. -/
structure KeyError where
  price : ℤ
deriving DecidableEq

namespace SimpleBook

def init : SimpleBook := ⟨∅, ∅, none, none⟩

/-- `self.bids if is_bid else self.asks` -/
def side (b : SimpleBook) (isBid : Bool) : Dict := if isBid then b.bids else b.asks

def setSide (b : SimpleBook) (isBid : Bool) (book : Dict) : SimpleBook :=
  if isBid then { b with bids := book } else { b with asks := book }

def best (b : SimpleBook) (isBid : Bool) : Option ℤ := if isBid then b.bestBid else b.bestAsk

def recalcMaxBid (b : SimpleBook) : SimpleBook :=
  { b with bestBid := if h : b.bids.keys.Nonempty then some (b.bids.keys.max' h) else none }

def recalcMinAsk (b : SimpleBook) : SimpleBook :=
  { b with bestAsk := if h : b.asks.keys.Nonempty then some (b.asks.keys.min' h) else none }

def loadSnapshot (b : SimpleBook) (asks bids : List (ℤ × ℤ)) : SimpleBook :=
  ({ b with asks := Dict.ofRows asks, bids := Dict.ofRows bids }).recalcMaxBid.recalcMinAsk

/-- `if self.best_bid is None or price > self.best_bid: self.best_bid = price`,
and the same with `<` for the asks. -/
def improveBest (b : SimpleBook) (isBid : Bool) (price : ℤ) : SimpleBook :=
  if isBid then
    if b.bestBid.all (fun best => price > best) then { b with bestBid := some price } else b
  else if b.bestAsk.all (fun best => price < best) then { b with bestAsk := some price } else b

def removeOrder (b : SimpleBook) (isBid : Bool) (price : ℤ) : SimpleBook × Except KeyError Unit :=
  if price ∈ b.side isBid then
    let b := b.setSide isBid ((b.side isBid).erase price)
    if isBid then
      (if some price = b.bestBid then b.recalcMaxBid else b, .ok ())
    else
      (if some price = b.bestAsk then b.recalcMinAsk else b, .ok ())
  else (b, .error ⟨price⟩)

def applyUpdate (b : SimpleBook) (side price qty action : ℤ) :
    SimpleBook × Except KeyError Unit :=
  let isBid := decide (side = 0)
  let book := b.side isBid
  if action = 1 then
    match book.lookup price with
    | some held => (b.setSide isBid (book.insert price (held + qty)), .ok ())
    | none => ((b.setSide isBid (book.insert price qty)).improveBest isBid price, .ok ())
  else if action = 2 then
    if 0 < qty then
      ((b.setSide isBid (book.insert price qty)).improveBest isBid price, .ok ())
    else b.removeOrder isBid price
  else if action = 3 then
    match book.lookup price with
    | some held =>
      let b := b.setSide isBid (book.insert price (held - qty))
      if held - qty ≤ 0 then b.removeOrder isBid price else (b, .ok ())
    | none => (b, .ok ())
  else (b, .ok ())

def getSpread (b : SimpleBook) : Option ℤ :=
  match b.bestBid, b.bestAsk with
  | some bid, some ask => some (ask - bid)
  | _, _ => none

def isCrossed (b : SimpleBook) : Bool :=
  match b.bestBid, b.bestAsk with
  | some bid, some ask => bid ≥ ask
  | _, _ => false

inductive Call
  | loadSnapshot (asks bids : List (ℤ × ℤ))
  | applyUpdate (side price qty action : ℤ)

def call (b : SimpleBook) : Call → SimpleBook × Except KeyError Unit
  | .loadSnapshot asks bids => (b.loadSnapshot asks bids, .ok ())
  | .applyUpdate side price qty action => b.applyUpdate side price qty action

def run (b : SimpleBook) (calls : List Call) : SimpleBook :=
  calls.foldl (fun b c => (b.call c).1) b

variable (b : SimpleBook)

@[simp] theorem side_setSide (isBid s : Bool) (book : Dict) :
    (b.setSide isBid book).side s = if s = isBid then book else b.side s := by
  cases isBid <;> cases s <;> rfl

@[simp] theorem best_setSide (isBid s : Bool) (book : Dict) :
    (b.setSide isBid book).best s = b.best s := by
  cases isBid <;> cases s <;> rfl

def rank (isBid : Bool) (price : ℤ) : ℤ := if isBid then price else -price

theorem rank_injective (isBid : Bool) : Function.Injective (rank isBid) := by
  intro p q same
  cases isBid <;> simpa [rank] using same

@[simp] theorem side_improveBest (isBid s : Bool) (price : ℤ) :
    (b.improveBest isBid price).side s = b.side s := by
  unfold improveBest
  split_ifs <;> rfl

theorem best_improveBest (isBid s : Bool) (price : ℤ) :
    (b.improveBest isBid price).best s =
      if s = isBid then BestKey.raise (rank isBid) price (b.best isBid) else b.best s := by
  obtain ⟨bids, asks, bestBid, bestAsk⟩ := b
  cases isBid
  · cases bestAsk with
    | none => cases s <;> simp [improveBest, best, BestKey.raise]
    | some ask =>
      by_cases better : price < ask <;> cases s <;>
        simp [improveBest, best, BestKey.raise, rank, better]
  · cases bestBid with
    | none => cases s <;> simp [improveBest, best, BestKey.raise]
    | some bid =>
      by_cases better : bid < price <;> cases s <;>
        simp [improveBest, best, BestKey.raise, rank, better]

def recalc (isBid : Bool) : SimpleBook := if isBid then b.recalcMaxBid else b.recalcMinAsk

@[simp] theorem side_recalc (isBid s : Bool) : (b.recalc isBid).side s = b.side s := by
  cases isBid <;> rfl

theorem best_recalc_other {isBid s : Bool} (other : s ≠ isBid) :
    (b.recalc isBid).best s = b.best s := by
  cases isBid <;> cases s <;> first | rfl | exact absurd rfl other

theorem recalcMaxBid_isBest : BestKey.IsBest (rank true) b.bids.keys b.recalcMaxBid.bestBid := by
  unfold recalcMaxBid
  by_cases h : b.bids.keys.Nonempty
  · rw [dif_pos h]
    exact ⟨Finset.max'_mem _ h, fun k hk => Finset.le_max' _ k hk⟩
  · rw [dif_neg h]
    exact Finset.not_nonempty_iff_eq_empty.mp h

theorem recalcMinAsk_isBest : BestKey.IsBest (rank false) b.asks.keys b.recalcMinAsk.bestAsk := by
  unfold recalcMinAsk
  by_cases h : b.asks.keys.Nonempty
  · rw [dif_pos h]
    exact ⟨Finset.min'_mem _ h, fun k hk => Int.neg_le_neg (Finset.min'_le _ k hk)⟩
  · rw [dif_neg h]
    exact Finset.not_nonempty_iff_eq_empty.mp h

theorem recalc_isBest (isBid : Bool) :
    BestKey.IsBest (rank isBid) (b.side isBid).keys ((b.recalc isBid).best isBid) := by
  cases isBid with
  | true => exact b.recalcMaxBid_isBest
  | false => exact b.recalcMinAsk_isBest

theorem removeOrder_of_mem {isBid : Bool} {price : ℤ} (held : price ∈ b.side isBid) :
    b.removeOrder isBid price =
      (let rest := b.setSide isBid ((b.side isBid).erase price)
       if some price = b.best isBid then rest.recalc isBid else rest, .ok ()) := by
  unfold removeOrder
  rw [if_pos held]
  cases isBid <;> rfl

theorem removeOrder_of_notMem {isBid : Bool} {price : ℤ} (absent : price ∉ b.side isBid) :
    b.removeOrder isBid price = (b, .error ⟨price⟩) := by
  rw [removeOrder, if_neg absent]

theorem side_removeOrder {isBid : Bool} {price : ℤ} (held : price ∈ b.side isBid) (s : Bool) :
    (b.removeOrder isBid price).1.side s =
      if s = isBid then (b.side isBid).erase price else b.side s := by
  rw [removeOrder_of_mem b held]
  by_cases top : some price = b.best isBid <;> simp [top]

def Exact : Prop := ∀ isBid, BestKey.IsBest (rank isBid) (b.side isBid).keys (b.best isBid)

variable {b}

theorem exact_init : init.Exact := by
  intro isBid
  cases isBid <;> rfl

theorem Exact.frame (h : b.Exact) {after : SimpleBook} (isBid : Bool)
    (here : BestKey.IsBest (rank isBid) (after.side isBid).keys (after.best isBid))
    (side : ∀ s, s ≠ isBid → after.side s = b.side s)
    (best : ∀ s, s ≠ isBid → after.best s = b.best s) : after.Exact := by
  intro s
  by_cases same : s = isBid
  · rw [same]
    exact here
  · rw [side s same, best s same]
    exact h s

theorem Exact.insert (h : b.Exact) (isBid : Bool) (price qty : ℤ) :
    ((b.setSide isBid ((b.side isBid).insert price qty)).improveBest isBid price).Exact := by
  refine h.frame isBid ?_ (fun s other => ?_) (fun s other => ?_)
  · rw [side_improveBest, best_improveBest, side_setSide, best_setSide, if_pos rfl, if_pos rfl,
      Dict.keys_insert]
    exact (h isBid).insert price
  · rw [side_improveBest, side_setSide, if_neg other]
  · rw [best_improveBest, if_neg other, best_setSide]

theorem Exact.requantify (h : b.Exact) {isBid : Bool} {price : ℤ} (held : price ∈ b.side isBid)
    (qty : ℤ) : (b.setSide isBid ((b.side isBid).insert price qty)).Exact := by
  refine h.frame isBid ?_ (fun s other => ?_) (fun s _ => best_setSide b isBid s _)
  · rw [side_setSide, best_setSide, if_pos rfl, Dict.keys_insert,
      Finset.insert_eq_of_mem (Finmap.mem_keys.mpr held)]
    exact h isBid
  · rw [side_setSide, if_neg other]

theorem Exact.removeOrder (h : b.Exact) (isBid : Bool) (price : ℤ) :
    (b.removeOrder isBid price).1.Exact := by
  by_cases held : price ∈ b.side isBid
  · rw [removeOrder_of_mem b held]
    have side (s : Bool) (other : s ≠ isBid) :
        (b.setSide isBid ((b.side isBid).erase price)).side s = b.side s := by
      rw [side_setSide, if_neg other]
    by_cases top : some price = b.best isBid
    · simp only [if_pos top]
      refine h.frame isBid ?_ (fun s other => ?_) (fun s other => ?_)
      · rw [side_recalc]
        exact recalc_isBest _ isBid
      · rw [side_recalc, side s other]
      · rw [best_recalc_other _ other, best_setSide]
    · simp only [if_neg top]
      refine h.frame isBid ?_ side (fun s _ => best_setSide b isBid s _)
      rw [side_setSide, best_setSide, if_pos rfl, Finmap.keys_erase]
      exact (h isBid).erase top
  · rw [removeOrder_of_notMem b held]
    exact h

theorem Exact.applyUpdate (h : b.Exact) (side price qty action : ℤ) :
    (b.applyUpdate side price qty action).1.Exact := by
  unfold SimpleBook.applyUpdate
  by_cases add : action = 1
  · simp only [if_pos add]
    cases found : (b.side (decide (side = 0))).lookup price with
    | some held => exact h.requantify (Finmap.mem_of_lookup_eq_some found) _
    | none => exact h.insert _ price qty
  · simp only [if_neg add]
    by_cases modify : action = 2
    · simp only [if_pos modify]
      split_ifs
      · exact h.insert _ price qty
      · exact h.removeOrder _ price
    · simp only [if_neg modify]
      by_cases reduce : action = 3
      · simp only [if_pos reduce]
        cases found : (b.side (decide (side = 0))).lookup price with
        | some held =>
          have kept := h.requantify (Finmap.mem_of_lookup_eq_some found) (held - qty)
          simp only
          split_ifs
          · exact kept.removeOrder _ price
          · exact kept
        | none => exact h
      · simp only [if_neg reduce]
        exact h

theorem exact_loadSnapshot (b : SimpleBook) (asks bids : List (ℤ × ℤ)) :
    (b.loadSnapshot asks bids).Exact := by
  intro isBid
  cases isBid with
  | true => exact recalcMaxBid_isBest _
  | false => exact recalcMinAsk_isBest _

theorem Exact.call (h : b.Exact) (c : Call) : (b.call c).1.Exact := by
  cases c with
  | loadSnapshot asks bids => exact exact_loadSnapshot b asks bids
  | applyUpdate side price qty action => exact h.applyUpdate side price qty action

theorem Exact.run (h : b.Exact) (calls : List Call) : (b.run calls).Exact := by
  induction calls generalizing b with
  | nil => exact h
  | cons c calls ih => exact ih (h.call c)

section Best

variable (h : b.Exact)
include h

theorem Exact.bestBid_eq_none_iff : b.bestBid = none ↔ b.bids = ∅ :=
  (h true).eq_none_iff.trans (Dict.keys_eq_empty_iff b.bids)

theorem Exact.bestAsk_eq_none_iff : b.bestAsk = none ↔ b.asks = ∅ :=
  (h false).eq_none_iff.trans (Dict.keys_eq_empty_iff b.asks)

theorem Exact.isGreatest_bestBid {price : ℤ} (top : b.bestBid = some price) :
    IsGreatest {bid | bid ∈ b.bids} price := by
  have cached := h true
  rw [show b.best true = some price from top] at cached
  exact ⟨Finmap.mem_keys.mp cached.1, fun bid held => cached.2 bid (Finmap.mem_keys.mpr held)⟩

theorem Exact.isLeast_bestAsk {price : ℤ} (top : b.bestAsk = some price) :
    IsLeast {ask | ask ∈ b.asks} price := by
  have cached := h false
  rw [show b.best false = some price from top] at cached
  refine ⟨Finmap.mem_keys.mp cached.1, fun ask held => ?_⟩
  have ranked := cached.2 ask (Finmap.mem_keys.mpr held)
  simpa [rank] using ranked

theorem Exact.bestBid_of_isGreatest {price : ℤ} (top : IsGreatest {bid | bid ∈ b.bids} price) :
    b.bestBid = some price := by
  cases cached : b.bestBid with
  | none =>
    have empty := h.bestBid_eq_none_iff.mp cached
    exact absurd (empty ▸ top.1) Finmap.notMem_empty
  | some bid => rw [(h.isGreatest_bestBid cached).unique top]

theorem Exact.bestAsk_of_isLeast {price : ℤ} (top : IsLeast {ask | ask ∈ b.asks} price) :
    b.bestAsk = some price := by
  cases cached : b.bestAsk with
  | none =>
    have empty := h.bestAsk_eq_none_iff.mp cached
    exact absurd (empty ▸ top.1) Finmap.notMem_empty
  | some ask => rw [(h.isLeast_bestAsk cached).unique top]

theorem Exact.isCrossed_iff :
    b.isCrossed = true ↔ ∃ bid ∈ b.bids, ∃ ask ∈ b.asks, bid ≥ ask := by
  unfold isCrossed
  constructor
  · intro crossed
    split at crossed
    · next bid ask top low =>
      exact ⟨bid, (h.isGreatest_bestBid top).1, ask, (h.isLeast_bestAsk low).1,
        of_decide_eq_true crossed⟩
    · exact absurd crossed Bool.false_ne_true
  · rintro ⟨bid, resting, ask, offered, reach⟩
    cases top : b.bestBid with
    | none => exact absurd (h.bestBid_eq_none_iff.mp top ▸ resting) Finmap.notMem_empty
    | some high =>
      cases low : b.bestAsk with
      | none => exact absurd (h.bestAsk_eq_none_iff.mp low ▸ offered) Finmap.notMem_empty
      | some least =>
        have above : bid ≤ high := (h.isGreatest_bestBid top).2 resting
        have below : least ≤ ask := (h.isLeast_bestAsk low).2 offered
        simp only [decide_eq_true_eq]
        omega

theorem Exact.getSpread_eq_some_iff {gap : ℤ} :
    b.getSpread = some gap ↔ ∃ bid ask,
      IsGreatest {p | p ∈ b.bids} bid ∧ IsLeast {p | p ∈ b.asks} ask ∧ gap = ask - bid := by
  constructor
  · intro spread
    unfold getSpread at spread
    split at spread
    · next bid ask top low =>
      exact ⟨bid, ask, h.isGreatest_bestBid top, h.isLeast_bestAsk low,
        (Option.some.inj spread).symm⟩
    · exact absurd spread (by simp)
  · rintro ⟨bid, ask, top, low, rfl⟩
    rw [getSpread, h.bestBid_of_isGreatest top, h.bestAsk_of_isLeast low]

theorem Exact.getSpread_eq_none_iff : b.getSpread = none ↔ b.bids = ∅ ∨ b.asks = ∅ := by
  rw [← h.bestBid_eq_none_iff, ← h.bestAsk_eq_none_iff, getSpread]
  cases b.bestBid <;> cases b.bestAsk <;> simp

end Best

/-- After every sequence of calls the cached best prices are those of the
dictionaries, and with them the spread and the crossing test. -/
theorem bestPrices_exact (calls : List Call) :
    let b := init.run calls
    (b.bestBid = none ↔ b.bids = ∅) ∧
    (∀ price, b.bestBid = some price ↔ IsGreatest {bid | bid ∈ b.bids} price) ∧
    (b.bestAsk = none ↔ b.asks = ∅) ∧
    (∀ price, b.bestAsk = some price ↔ IsLeast {ask | ask ∈ b.asks} price) ∧
    (b.isCrossed = true ↔ ∃ bid ∈ b.bids, ∃ ask ∈ b.asks, bid ≥ ask) ∧
    (b.getSpread = none ↔ b.bids = ∅ ∨ b.asks = ∅) ∧
    ∀ gap, b.getSpread = some gap ↔ ∃ bid ask,
      IsGreatest {p | p ∈ b.bids} bid ∧ IsLeast {p | p ∈ b.asks} ask ∧ gap = ask - bid := by
  intro b
  have h : b.Exact := exact_init.run calls
  exact ⟨h.bestBid_eq_none_iff, fun _ => ⟨h.isGreatest_bestBid, h.bestBid_of_isGreatest⟩,
    h.bestAsk_eq_none_iff, fun _ => ⟨h.isLeast_bestAsk, h.bestAsk_of_isLeast⟩,
    h.isCrossed_iff, h.getSpread_eq_none_iff, fun _ => h.getSpread_eq_some_iff⟩

end SimpleBook

end HftLatencyLab
