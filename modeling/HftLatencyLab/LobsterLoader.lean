import HftLatencyLab.LobPacket
import HftLatencyLab.ReplayRunner
import HftLatencyLab.RestingPrice

/-! lobster_loader.py: a LOBSTER message becomes a DELTAS packet of one delta, and the
first line of an orderbook file the two lists of a snapshot. -/

namespace HftLatencyLab.LobsterLoader
open ByteOrder LobWire FeatureParser LobPacket FeatureBook RestingPrice ReplayRunner

/-- What `struct.pack` accepts in a field `i`. -/
def FitsInt (x : ℤ) : Prop := -2 ^ 31 ≤ x ∧ x < 2 ^ 31

instance (x : ℤ) : Decidable (FitsInt x) := inferInstanceAs (Decidable (_ ∧ _))

/-- 1 = Add, 3 = Delete (Remove/Reduce liquidity) -/
def actionOf (msg : LobsterMsg) : BitVec 8 := if msg.type = 1 then 1 else 3

/-- 0=Bid, 1=Ask -/
def sideOf (msg : LobsterMsg) : BitVec 8 := if msg.side = 1 then 0 else 1

def loaderDelta (msg : LobsterMsg) : LobV1Delta where
  priceTicks := BitVec.ofInt 32 msg.price
  qty := BitVec.ofInt 32 msg.size
  level := 0
  side := sideOf msg
  action := actionOf msg
  reserved := 0

/-- The fields fit their formats; `struct.pack` raises on others. -/
def Packable (msg : LobsterMsg) (seq tSendNs : ℕ) : Prop :=
  FitsInt msg.price ∧ FitsInt msg.size ∧ seq < 2 ^ 32 ∧ tSendNs < 2 ^ 64

instance (msg : LobsterMsg) (seq tSendNs : ℕ) : Decidable (Packable msg seq tSendNs) :=
  inferInstanceAs (Decidable (_ ∧ _))

def lobsterToLobPacket (msg : LobsterMsg) (seq tSendNs : ℕ) : Option (List Byte) :=
  if Packable msg seq tSendNs then
    let hdr := packHdr 1 0x8001 (BitVec.ofNat 32 seq) (BitVec.ofNat 64 tSendNs) 0
    some (hdr ++ packDelta (loaderDelta msg))
  else none

def loaderDatagram (msg : LobsterMsg) (seq tSendNs : ℕ) : Datagram where
  reset := true
  seq := BitVec.ofNat 32 seq
  tSend := BitVec.ofNat 64 tSendNs
  deltas := [loaderDelta msg]
  fits := Nat.one_lt_two_pow (by decide)

theorem lobsterToLobPacket_eq {msg : LobsterMsg} {seq tSendNs : ℕ} {data : List Byte}
    (built : lobsterToLobPacket msg seq tSendNs = some data) :
    Packable msg seq tSendNs ∧ data = (loaderDatagram msg seq tSendNs).bytes := by
  unfold lobsterToLobPacket at built
  split_ifs at built with packable
  have same := Option.some.inj built
  have flags : (loaderDatagram msg seq tSendNs).fcnt = 0x8001 := by
    have one : (loaderDatagram msg seq tSendNs).deltas.length = 1 := rfl
    have reset : (loaderDatagram msg seq tSendNs).reset = true := rfl
    apply BitVec.eq_of_toNat_eq
    rw [fcnt_toNat, one, if_pos reset]
    decide
  have payload : (loaderDatagram msg seq tSendNs).deltas.flatMap LobV1Delta.wire =
      packDelta (loaderDelta msg) := by
    simp [loaderDatagram, wire_eq_packDelta]
  refine ⟨packable, ?_⟩
  rw [← same, Datagram.bytes, replayHdr_bytes, flags, payload]
  rfl

theorem lobsterToLobPacket_of_packable {msg : LobsterMsg} {seq tSendNs : ℕ}
    (packable : Packable msg seq tSendNs) :
    lobsterToLobPacket msg seq tSendNs = some (loaderDatagram msg seq tSendNs).bytes := by
  obtain ⟨data, built⟩ : ∃ data, lobsterToLobPacket msg seq tSendNs = some data :=
    ⟨_, if_pos packable⟩
  rw [built, (lobsterToLobPacket_eq built).2]

def topQty (r : Regs) (side : BitVec 1) : BitVec 32 := (levels r side).qty.get 0

def fabricSide (side : ℤ) : BitVec 1 := if side = 1 then 0 else 1

theorem topQty_updateBook (r : Regs) (d : Delta) (side : BitVec 1) (top : d.level = 0) :
    topQty (updateBook r d) side =
      if d.side = side then clampNonneg (actionQty d (topQty r side)) else topQty r side := by
  have level : d.level.toNat = ((0 : Fin 16) : ℕ) := by rw [top]; rfl
  unfold topQty
  rw [levels_updateBook]
  split
  · rw [updateSide_qty, if_pos level]
  · rfl

theorem parsed_loaderDelta (msg : LobsterMsg) (t : BitVec 64) (last : Bool) :
    parsedDelta (loaderDelta msg) t last =
      { priceTicks := BitVec.ofInt 32 msg.price
        qty := BitVec.ofInt 32 msg.size
        level := 0
        side := fabricSide msg.side
        action := if msg.type = 1 then 1 else 3
        tSendNs := t
        lastInPkt := last } := by
  unfold parsedDelta loaderDelta sideOf actionOf fabricSide
  by_cases bid : msg.side = 1 <;> by_cases add : msg.type = 1 <;> simp [bid, add]

/-- Over the integers of the line, four for each level: the asks and the bids. -/
def loadLobsterSnapshot : List ℤ → List (ℤ × ℤ) × List (ℤ × ℤ)
  | askP :: askV :: bidP :: bidV :: parts =>
    let (asks, bids) := loadLobsterSnapshot parts
    (if 0 < askP then (askP, askV) :: asks else asks,
      if 0 < bidP then (bidP, bidV) :: bids else bids)
  | _ => ([], [])

end HftLatencyLab.LobsterLoader
