import HftLatencyLab.LobsterLoader
import HftLatencyLab.SimpleBookLevels

/-! The two lanes of replay_runner on one level: `SimpleBook` updated with a message, and
the fabric fed the packet made of it. An action 3 takes its size off the one and empties
the other, so the lanes agree as long as every such message empties the level of both. -/

namespace HftLatencyLab.TwoLanes
open ByteOrder LobWire FeatureParser LobPacket FeatureBook FeaturePipeline TopOfBook RestingPrice
  ReplayRunner LobsterLoader SimpleBook

def fabricLane (r : Regs) (data : List Byte) : Regs :=
  match pumpTurn (idle (some dsDepth) r) (toBeats data) with
  | .ok (s, _) => s.regs
  | .error _ => r

structure Lanes where
  book : SimpleBook
  regs : Regs

def Lanes.start : Lanes := ⟨.init, .powerOn⟩

structure Stamped where
  msg : LobsterMsg
  seq : ℕ
  tSendNs : ℕ

def lanes : Mealy Lanes Stamped Unit where
  step l x :=
    (⟨applyMsg l.book x.msg,
      match lobsterToLobPacket x.msg x.seq x.tSendNs with
      | some data => fabricLane l.regs data
      | none => l.regs⟩, ())

def bookKey (side price : ℤ) : Bool × ℤ := (decide (side = 1), price)

def Agree (side price : ℤ) (l : Lanes) : Prop :=
  l.book.quantity (bookKey side price) = (topQty l.regs (fabricSide side)).toInt

instance (side price : ℤ) (l : Lanes) : Decidable (Agree side price l) :=
  inferInstanceAs (Decidable (_ = _))

/-- A message on the level of positive size, whose packet is built and which leaves an
int32 quantity. -/
structure OnLevel (side price : ℤ) (l : Lanes) (x : Stamped) : Prop where
  onSide : x.msg.side = side
  atPrice : x.msg.price = price
  sized : 0 < x.msg.size
  built : Packable x.msg x.seq x.tSendNs
  fits : (applyMsg l.book x.msg).quantity (bookKey side price) < 2 ^ 31

instance (side price : ℤ) (l : Lanes) (x : Stamped) : Decidable (OnLevel side price l x) :=
  decidable_of_iff (x.msg.side = side ∧ x.msg.price = price ∧ 0 < x.msg.size ∧
    Packable x.msg x.seq x.tSendNs ∧
    (applyMsg l.book x.msg).quantity (bookKey side price) < 2 ^ 31)
    ⟨fun ⟨s, p, n, b, f⟩ => ⟨s, p, n, b, f⟩, fun h => ⟨h.1, h.2, h.3, h.4, h.5⟩⟩

/-- Whatever is no submission takes all that `SimpleBook` holds. -/
def Empties (side price : ℤ) (l : Lanes) (x : Stamped) : Prop :=
  x.msg.type ≠ 1 → l.book.quantity (bookKey side price) ≤ x.msg.size

instance (side price : ℤ) (l : Lanes) (x : Stamped) : Decidable (Empties side price l x) :=
  inferInstanceAs (Decidable (_ → _))

theorem fabricLane_datagram (r : Regs) (m : Datagram) (limit : m.deltas.length ≤ 8) :
    fabricLane r m.bytes = packetMachine.next r m.packet := by
  have inLimit : m.packet.InLimit := by
    rw [Packet.InLimit, packet_count]
    omega
  have fits : ∀ n ∈ some dsDepth, m.packet.count ≤ n := by
    intro n depth
    obtain rfl := Option.some.inj depth
    rwa [packet_count]
  have turn := pumpTurn_packet r m.packet [] inLimit fits
  rw [List.append_nil] at turn
  rw [fabricLane, toBeats_bytes, turn]
  rfl

theorem topQty_startMeasure (r : Regs) (side : BitVec 1) :
    topQty (startMeasure r) side = topQty r side := by
  rw [startMeasure_eq]
  rfl

theorem topQty_lane {x : Stamped} {data : List Byte}
    (built : lobsterToLobPacket x.msg x.seq x.tSendNs = some data) (r : Regs) :
    topQty (fabricLane r data) (fabricSide x.msg.side) =
      clampNonneg (if x.msg.type = 1 then
        topQty r (fabricSide x.msg.side) + BitVec.ofInt 32 x.msg.size else 0) := by
  obtain ⟨-, rfl⟩ := lobsterToLobPacket_eq built
  rw [fabricLane_datagram r _ (by simp [loaderDatagram])]
  have deltas : (loaderDatagram x.msg x.seq x.tSendNs).packet.deltas =
      [parsedDelta (loaderDelta x.msg) (BitVec.ofNat 64 x.tSendNs) true] := packet_deltas _
  change topQty (emit (List.foldl updateBook (startMeasure r) _) _).1 _ = _
  rw [deltas, parsed_loaderDelta]
  change topQty (updateBook (startMeasure r) _) _ = _
  rw [topQty_updateBook _ _ _ rfl, if_pos rfl, topQty_startMeasure]
  by_cases add : x.msg.type = 1 <;> simp [actionQty, add]

def msgUpdate (msg : LobsterMsg) : Update where
  side := if msg.side = 1 then 0 else 1
  price := msg.price
  qty := msg.size
  action := if msg.type = 1 then 1 else 3

theorem msgUpdate_level (msg : LobsterMsg) :
    (msgUpdate msg).level = bookKey msg.side msg.price := by
  unfold msgUpdate Update.level bookKey
  by_cases buy : msg.side = 1 <;> simp [buy]

theorem msgUpdate_flow {msg : LobsterMsg} (sized : 0 < msg.size) : (msgUpdate msg).Flow := by
  unfold msgUpdate Update.Flow
  by_cases add : msg.type = 1 <;> simp [add, sized]

theorem applyMsg_quantity {b : SimpleBook} (good : b.Exact ∧ b.Positive) {msg : LobsterMsg}
    (sized : 0 < msg.size) :
    (applyMsg b msg).quantity (bookKey msg.side msg.price) =
      if msg.type = 1 then b.quantity (bookKey msg.side msg.price) + msg.size
      else max 0 (b.quantity (bookKey msg.side msg.price) - msg.size) := by
  have own := flow_keyedFold.own b (msgUpdate msg) good (msgUpdate_flow sized)
  rw [msgUpdate_level] at own
  have same : applyMsg b msg = b.update (msgUpdate msg) := rfl
  rw [same, own]
  unfold Update.act msgUpdate
  by_cases add : msg.type = 1 <;> simp [add]

/-- Whatever the messages, the fabric never holds more than `SimpleBook` does. -/
structure Kept (side price : ℤ) (l : Lanes) : Prop where
  exact : l.book.Exact
  positive : l.book.Positive
  nonneg : 0 ≤ (topQty l.regs (fabricSide side)).toInt
  most : (topQty l.regs (fabricSide side)).toInt ≤ l.book.quantity (bookKey side price)

section Step

variable {side price : ℤ} {l : Lanes} {x : Stamped}

theorem book_next (kept : Kept side price l) (on : OnLevel side price l x) :
    (lanes.next l x).book.quantity (bookKey side price) =
      if x.msg.type = 1 then l.book.quantity (bookKey side price) + x.msg.size
      else max 0 (l.book.quantity (bookKey side price) - x.msg.size) := by
  have after := applyMsg_quantity ⟨kept.exact, kept.positive⟩ on.sized
  rw [on.onSide, on.atPrice] at after
  exact after

theorem regs_next (kept : Kept side price l) (on : OnLevel side price l x) :
    (topQty (lanes.next l x).regs (fabricSide side)).toInt =
      if x.msg.type = 1 then (topQty l.regs (fabricSide side)).toInt + x.msg.size else 0 := by
  have built := lobsterToLobPacket_of_packable on.built
  have lane := topQty_lane built l.regs
  have regs : (lanes.next l x).regs =
      fabricLane l.regs (loaderDatagram x.msg x.seq x.tSendNs).bytes := by
    change (match lobsterToLobPacket x.msg x.seq x.tSendNs with
      | some data => fabricLane l.regs data
      | none => l.regs) = _
    rw [built]
  rw [on.onSide] at lane
  rw [regs, lane, clampNonneg_toInt]
  by_cases add : x.msg.type = 1
  · have fits := on.fits
    have book := book_next kept on
    have nonneg := kept.nonneg
    have most := kept.most
    have sized := on.sized
    change (lanes.next l x).book.quantity (bookKey side price) < 2 ^ 31 at fits
    rw [book, if_pos add] at fits
    rw [if_pos add, if_pos add, FixedWidth.toInt_add_ofInt (by omega) (by omega)]
    omega
  · rw [if_neg add, if_neg add]
    rfl

theorem kept_next (kept : Kept side price l) (on : OnLevel side price l x) :
    Kept side price (lanes.next l x) := by
  have nonneg := kept.nonneg
  have most := kept.most
  have sized := on.sized
  obtain ⟨exact', positive'⟩ := flow_keyedFold.keep l.book (msgUpdate x.msg)
    ⟨kept.exact, kept.positive⟩ (msgUpdate_flow on.sized)
  refine ⟨exact', positive', ?_, ?_⟩
  · rw [regs_next kept on]
    split <;> omega
  · rw [regs_next kept on, book_next kept on]
    split <;> omega

theorem agree_next (kept : Kept side price l) (agree : Agree side price l)
    (on : OnLevel side price l x) :
    Agree side price (lanes.next l x) ↔ Empties side price l x := by
  unfold Agree at *
  rw [book_next kept on, regs_next kept on, ← agree]
  by_cases add : x.msg.type = 1
  · rw [if_pos add, if_pos add]
    simp [Empties, add]
  · rw [if_neg add, if_neg add]
    simp [Empties, add]

end Step

theorem start_quantity (side price : ℤ) :
    Lanes.start.book.quantity (bookKey side price) = 0 := by
  unfold bookKey
  by_cases buy : side = 1 <;> simp [quantity, lookup, SimpleBook.side, init, Lanes.start, buy]

theorem start_topQty (side : ℤ) : (topQty Lanes.start.regs (fabricSide side)).toInt = 0 := by
  unfold fabricSide
  split <;> rfl

theorem agree_start (side price : ℤ) : Agree side price .start := by
  rw [Agree, start_quantity, start_topQty]

theorem kept_start (side price : ℤ) : Kept side price .start where
  exact := exact_init
  positive := Start.positive .empty
  nonneg := (start_topQty side).ge
  most := by rw [start_quantity, start_topQty]

/-- The lanes hold the same after every message iff each message that is no submission
empties the level. -/
theorem two_lanes_iff (side price : ℤ) {xs : List Stamped}
    (along : lanes.Along (OnLevel side price) .start xs) :
    (∀ pre, pre <+: xs → Agree side price (lanes.final .start pre)) ↔
      lanes.Along (Empties side price) .start xs :=
  Mealy.prefixes_iff_along (fun _ _ kept on => kept_next kept on)
    (fun _ _ kept agree on => agree_next kept agree on) (kept_start side price)
    (agree_start side price) along

def emptiedBid : List Stamped :=
  [⟨⟨1, 1, 1000000, 10⟩, 0, 1⟩, ⟨⟨1, 1, 1000000, 5⟩, 1, 2⟩, ⟨⟨4, 1, 1000000, 15⟩, 2, 3⟩]

theorem two_lanes_iff_emptied :
    Agree 1 1000000 (lanes.final .start (emptiedBid.take 2)) ∧
      Agree 1 1000000 (lanes.final .start emptiedBid) := by
  have along : lanes.Along (OnLevel 1 1000000) .start emptiedBid := by decide +kernel
  have same := (two_lanes_iff 1 1000000 along).mpr (by decide +kernel)
  exact ⟨same _ (List.take_prefix 2 emptiedBid), same _ List.prefix_rfl⟩

/-- A bid of 10 and a cancellation of 3: `SimpleBook` holds 7, the fabric nothing. -/
theorem partial_cancel_parts_lanes :
    ¬∀ (side price : ℤ) (xs : List Stamped), lanes.Along (OnLevel side price) .start xs →
      ∀ pre, pre <+: xs → Agree side price (lanes.final .start pre) := by
  intro every
  have same := every 1 1000000 [⟨⟨1, 1, 1000000, 10⟩, 0, 1⟩, ⟨⟨2, 1, 1000000, 3⟩, 1, 2⟩]
    (by decide +kernel) _ List.prefix_rfl
  revert same
  decide +kernel

end HftLatencyLab.TwoLanes
