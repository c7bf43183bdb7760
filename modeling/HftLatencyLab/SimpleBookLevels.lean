import HftLatencyLab.SimpleBook
import HftLatencyLab.KeyedFold
import Mathlib.Order.Lattice

/-! What `SimpleBook` holds at a price after a run of adds and reductions: the
fold of the updates on that side and price. The dictionaries delete what falls to
zero, so a book whose quantities are positive is determined by these folds. -/

namespace HftLatencyLab.SimpleBook

/-- The arguments of `apply_update`. -/
structure Update where
  side : ℤ
  price : ℤ
  qty : ℤ
  action : ℤ
deriving DecidableEq

def update (b : SimpleBook) (u : Update) : SimpleBook :=
  (b.applyUpdate u.side u.price u.qty u.action).1

def updates (b : SimpleBook) (us : List Update) : SimpleBook := us.foldl update b

namespace Update

def level (u : Update) : Bool × ℤ := (decide (u.side = 0), u.price)

def Flow (u : Update) : Prop := (u.action = 1 ∨ u.action = 3) ∧ 0 < u.qty

instance (u : Update) : Decidable u.Flow := inferInstanceAs (Decidable (_ ∧ _))

/-- `q + s` for an add, `max(0, q - s)` for a reduction. -/
def act (u : Update) (q : ℤ) : ℤ := if u.action = 1 then q + u.qty else max 0 (q - u.qty)

end Update

def lookup (b : SimpleBook) (k : Bool × ℤ) : Option ℤ := (b.side k.1).lookup k.2

def quantity (b : SimpleBook) (k : Bool × ℤ) : ℤ := (b.lookup k).getD 0

def entry (q : ℤ) : Option ℤ := if q = 0 then none else some q

def Positive (b : SimpleBook) : Prop := ∀ k, ∀ q ∈ b.lookup k, 0 < q

variable {b : SimpleBook}

theorem Positive.quantity_nonneg (h : b.Positive) (k : Bool × ℤ) : 0 ≤ b.quantity k := by
  unfold quantity
  cases found : b.lookup k with
  | none => exact le_rfl
  | some q => exact (h k q found).le

theorem Positive.lookup_eq (h : b.Positive) (k : Bool × ℤ) :
    b.lookup k = entry (b.quantity k) := by
  unfold quantity
  cases found : b.lookup k with
  | none => rfl
  | some q =>
    have nonzero : q ≠ 0 := (h k q found).ne'
    simp [entry, nonzero]

theorem Positive.of_lookup_eq (h : ∀ k, ∃ q, 0 ≤ q ∧ b.lookup k = entry q) : b.Positive := by
  intro k q held
  obtain ⟨r, nonneg, same⟩ := h k
  rw [same, entry] at held
  split_ifs at held with zero
  · simp at held
  · have : r = q := by simpa using held
    omega

theorem eq_of_lookup {c : SimpleBook} (hb : b.Exact) (hc : c.Exact)
    (same : ∀ k, b.lookup k = c.lookup k) : b = c := by
  have sides : ∀ isBid, b.side isBid = c.side isBid :=
    fun isBid => Finmap.ext_lookup fun price => same (isBid, price)
  have bests : ∀ isBid, b.best isBid = c.best isBid := by
    intro isBid
    have cached := hb isBid
    rw [sides isBid] at cached
    exact cached.unique (rank_injective isBid) (hc isBid)
  obtain ⟨bids, asks, bestBid, bestAsk⟩ := b
  obtain ⟨bids', asks', bestBid', bestAsk'⟩ := c
  have h₁ : bids = bids' := sides true
  have h₂ : asks = asks' := sides false
  have h₃ : bestBid = bestBid' := bests true
  have h₄ : bestAsk = bestAsk' := bests false
  rw [h₁, h₂, h₃, h₄]

theorem lookup_of_sides {after : SimpleBook} {isBid : Bool} {price : ℤ} {book : Dict}
    {v : Option ℤ} (sides : ∀ s, after.side s = if s = isBid then book else b.side s)
    (here : book.lookup price = v)
    (elsewhere : ∀ p, p ≠ price → book.lookup p = (b.side isBid).lookup p) (k : Bool × ℤ) :
    after.lookup k = if (isBid, price) = k then v else b.lookup k := by
  obtain ⟨s, p⟩ := k
  rw [lookup, lookup, sides]
  by_cases sameSide : s = isBid
  · subst sameSide
    by_cases samePrice : p = price
    · subst samePrice
      simp [here]
    · have other : price ≠ p := fun same => samePrice same.symm
      simp [other, elsewhere p samePrice]
  · have other : isBid ≠ s := fun same => sameSide same.symm
    simp [sameSide, other]

theorem lookup_requantify (isBid : Bool) (price qty : ℤ) (k : Bool × ℤ) :
    (b.setSide isBid ((b.side isBid).insert price qty)).lookup k =
      if (isBid, price) = k then some qty else b.lookup k :=
  lookup_of_sides (fun s => side_setSide b isBid s _) (Finmap.lookup_insert _)
    (fun _ other => Finmap.lookup_insert_of_ne _ other) k

theorem lookup_improveBest (isBid : Bool) (price : ℤ) (k : Bool × ℤ) :
    (b.improveBest isBid price).lookup k = b.lookup k := by
  rw [lookup, side_improveBest, lookup]

theorem lookup_removeOrder {isBid : Bool} {price : ℤ} (held : price ∈ b.side isBid)
    (k : Bool × ℤ) :
    (b.removeOrder isBid price).1.lookup k =
      if (isBid, price) = k then none else b.lookup k :=
  lookup_of_sides (side_removeOrder b held) (Finmap.lookup_erase price _)
    (fun _ other => Finmap.lookup_erase_ne other) k

theorem mem_requantify (isBid : Bool) (price qty : ℤ) :
    price ∈ (b.setSide isBid ((b.side isBid).insert price qty)).side isBid := by
  rw [side_setSide, if_pos rfl]
  exact Finmap.mem_insert.mpr (Or.inl rfl)

theorem lookup_add {u : Update} (add : u.action = 1) (k : Bool × ℤ) :
    (b.update u).lookup k =
      if u.level = k then some (b.quantity u.level + u.qty) else b.lookup k := by
  unfold quantity
  cases found : b.lookup u.level with
  | none =>
    have absent : (b.side (decide (u.side = 0))).lookup u.price = none := found
    rw [update, applyUpdate, if_pos add]
    simp only [absent, Option.getD_none, Int.zero_add]
    rw [lookup_improveBest]
    exact lookup_requantify _ _ _ k
  | some held =>
    have resting : (b.side (decide (u.side = 0))).lookup u.price = some held := found
    rw [update, applyUpdate, if_pos add]
    simp only [resting, Option.getD_some]
    exact lookup_requantify _ _ _ k

theorem lookup_settle (isBid : Bool) (price left : ℤ) (k : Bool × ℤ) :
    let c := b.setSide isBid ((b.side isBid).insert price left)
    (if left ≤ 0 then c.removeOrder isBid price else (c, .ok ())).1.lookup k =
      if (isBid, price) = k then entry (max 0 left) else b.lookup k := by
  intro c
  have changed : c.lookup k = if (isBid, price) = k then some left else b.lookup k :=
    lookup_requantify isBid price left k
  by_cases gone : left ≤ 0
  · rw [if_pos gone, lookup_removeOrder (mem_requantify isBid price left), changed,
      max_eq_left gone]
    by_cases same : (isBid, price) = k <;> simp [same, entry]
  · have some_left : left ≠ 0 := by omega
    rw [if_neg gone, max_eq_right (by omega), entry, if_neg some_left]
    exact changed

theorem lookup_reduce {u : Update} (reduce : u.action = 3) (sized : 0 < u.qty)
    (k : Bool × ℤ) :
    (b.update u).lookup k =
      if u.level = k then entry (max 0 (b.quantity u.level - u.qty)) else b.lookup k := by
  unfold quantity
  cases found : b.lookup u.level with
  | none =>
    have absent : (b.side (decide (u.side = 0))).lookup u.price = none := found
    have empty : max 0 (0 - u.qty) = 0 := max_eq_left (by omega)
    rw [update, applyUpdate]
    simp only [reduce, absent, Option.getD_none, empty, entry]
    by_cases same : u.level = k
    · rw [← same]
      simp [found]
    · simp [same]
  | some held =>
    have resting : (b.side (decide (u.side = 0))).lookup u.price = some held := found
    rw [update, applyUpdate]
    simp only [reduce, resting, Option.getD_some]
    exact lookup_settle _ _ _ k

theorem lookup_update (h : b.Positive) {u : Update} (flow : u.Flow) (k : Bool × ℤ) :
    (b.update u).lookup k =
      if u.level = k then entry (u.act (b.quantity u.level)) else b.lookup k := by
  obtain ⟨add | reduce, sized⟩ := flow
  · have nonneg := h.quantity_nonneg u.level
    have left : b.quantity u.level + u.qty ≠ 0 := by omega
    rw [lookup_add add]
    simp [Update.act, add, entry, left]
  · rw [lookup_reduce reduce sized]
    simp [Update.act, reduce]

theorem act_nonneg {q : ℤ} (nonneg : 0 ≤ q) {u : Update} (flow : u.Flow) : 0 ≤ u.act q := by
  obtain ⟨_, sized⟩ := flow
  unfold Update.act
  split_ifs <;> omega

theorem Positive.update (h : b.Positive) {u : Update} (flow : u.Flow) : (b.update u).Positive := by
  apply Positive.of_lookup_eq
  intro k
  rw [lookup_update h flow]
  by_cases same : u.level = k
  · rw [if_pos same]
    exact ⟨_, act_nonneg (h.quantity_nonneg u.level) flow, rfl⟩
  · rw [if_neg same]
    exact ⟨_, h.quantity_nonneg k, h.lookup_eq k⟩

theorem quantity_of_lookup {k : Bool × ℤ} {q : ℤ} (h : b.lookup k = entry q) :
    b.quantity k = q := by
  rw [quantity, h, entry]
  split_ifs with zero
  · exact zero.symm
  · rfl

theorem flow_keyedFold :
    KeyedFold update quantity Update.level (fun q u => u.act q)
      (fun b => b.Exact ∧ b.Positive) Update.Flow where
  keep := fun _ u ⟨exact, positive⟩ flow =>
    ⟨exact.applyUpdate u.side u.price u.qty u.action, positive.update flow⟩
  own := by
    rintro b u ⟨_, positive⟩ flow
    apply quantity_of_lookup
    rw [lookup_update positive flow, if_pos rfl]
  frame := by
    rintro b u k ⟨_, positive⟩ flow other
    rw [quantity, lookup_update positive flow, if_neg other, quantity]

theorem lookup_ofRows_pos {rows : List (ℤ × ℤ)} (sized : ∀ row ∈ rows, 0 < row.2)
    (price : ℤ) : ∀ q ∈ (Dict.ofRows rows).lookup price, 0 < q := by
  have kept : ∀ (book : Dict), (∀ q ∈ book.lookup price, 0 < q) → (∀ row ∈ rows, 0 < row.2) →
      ∀ q ∈ (rows.foldl (fun book row => book.insert row.1 row.2) book).lookup price, 0 < q := by
    induction rows with
    | nil => exact fun book held _ => held
    | cons row rows ih =>
      intro book held sized
      refine ih (fun r hr => sized r (List.mem_cons_of_mem row hr)) _ ?_
        fun r hr => sized r (List.mem_cons_of_mem row hr)
      intro q hq
      by_cases same : price = row.1
      · subst same
        rw [Finmap.lookup_insert] at hq
        have : row.2 = q := by simpa using hq
        exact this ▸ sized row List.mem_cons_self
      · rw [Finmap.lookup_insert_of_ne _ same] at hq
        exact held q hq
  exact kept ∅ (by simp) sized

inductive Start : SimpleBook → Prop
  | empty : Start init
  | snapshot (b : SimpleBook) (asks bids : List (ℤ × ℤ)) (sizedAsks : ∀ row ∈ asks, 0 < row.2)
      (sizedBids : ∀ row ∈ bids, 0 < row.2) : Start (b.loadSnapshot asks bids)

theorem Start.exact {b : SimpleBook} (h : Start b) : b.Exact := by
  cases h with
  | empty => exact exact_init
  | snapshot b asks bids => exact exact_loadSnapshot b asks bids

theorem Start.positive {b : SimpleBook} (h : Start b) : b.Positive := by
  cases h with
  | empty =>
    rintro ⟨isBid, price⟩ q held
    cases isBid <;> exact absurd held (by simp [lookup, side, init])
  | snapshot b asks bids sizedAsks sizedBids =>
    rintro ⟨isBid, price⟩ q held
    cases isBid with
    | true => exact lookup_ofRows_pos sizedBids price q held
    | false => exact lookup_ofRows_pos sizedAsks price q held

/-- After adds and reductions of positive quantity a level holds the fold of its
own updates, and any order that keeps the order within each level leaves the
same book. -/
theorem updates_by_level {b : SimpleBook} (start : Start b) {us : List Update}
    (flow : ∀ u ∈ us, u.Flow) :
    (∀ k, (b.updates us).lookup k = entry
      ((us.filter (fun u => u.level = k)).foldl (fun q u => u.act q) (b.quantity k))) ∧
    ∀ vs : List Update,
      (∀ k, us.filter (fun u => u.level = k) = vs.filter (fun u => u.level = k)) →
      (b.updates us).bids = (b.updates vs).bids ∧ (b.updates us).asks = (b.updates vs).asks ∧
      (b.updates us).bestBid = (b.updates vs).bestBid ∧
      (b.updates us).bestAsk = (b.updates vs).bestAsk := by
  have good := And.intro start.exact start.positive
  obtain ⟨exact_us, positive_us⟩ := flow_keyedFold.invariant good flow
  constructor
  · intro k
    rw [← flow_keyedFold.view_foldl good flow]
    exact positive_us.lookup_eq k
  · intro vs same
    have flow' : ∀ v ∈ vs, v.Flow := fun v hv => flow v (KeyedFold.mem_of_filter_eq same hv)
    obtain ⟨exact_vs, positive_vs⟩ := flow_keyedFold.invariant good flow'
    have equal : b.updates us = b.updates vs := by
      apply eq_of_lookup exact_us exact_vs
      intro k
      rw [positive_us.lookup_eq, positive_vs.lookup_eq,
        flow_keyedFold.view_reorder good flow same]
    simp [equal]

/-- A bid level that grows and shrinks around an over-sized reduction of an ask. -/
theorem updates_by_level_snapshot :
    let start := init.loadSnapshot [(101, 4)] [(99, 5)]
    let us : List Update := [⟨0, 100, 3, 1⟩, ⟨1, 101, 9, 3⟩, ⟨0, 100, 1, 3⟩]
    let vs : List Update := [⟨1, 101, 9, 3⟩, ⟨0, 100, 3, 1⟩, ⟨0, 100, 1, 3⟩]
    (start.updates us).lookup (true, 100) = some 2 ∧
      (start.updates us).lookup (false, 101) = none ∧
      (start.updates us).bestBid = (start.updates vs).bestBid := by
  intro start us vs
  have h : Start start := Start.snapshot init _ _ (by decide) (by decide)
  have flow : ∀ u ∈ us, u.Flow := by decide
  obtain ⟨levels, reorder⟩ := updates_by_level h flow
  have same : ∀ k, us.filter (fun u => u.level = k) = vs.filter (fun u => u.level = k) := by
    rintro ⟨isBid, price⟩
    cases isBid <;> simp [us, vs, List.filter_cons, Update.level]
  exact ⟨(levels _).trans (by decide +kernel), (levels _).trans (by decide +kernel),
    (reorder vs same).2.2.1⟩

end HftLatencyLab.SimpleBook
