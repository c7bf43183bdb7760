import HftLatencyLab.FeaturesRef
import HftLatencyLab.LobsterLoader

/-! The two encoders of LOBSTER messages, replay-udp in C and `lobster_to_lob_packet` in
Python, in front of `update_book`. They agree on submissions and total deletions only: the
loader knows no reduction, and clears a level where replay-udp leaves it alone. -/

namespace HftLatencyLab.LobsterEncoders
open LobWire FeatureParser LobPacket FeatureBook TopOfBook RestingPrice FeaturesRef ReplayRunner
  LobsterLoader

variable {ρ : Type}

structure Line (ρ : Type) where
  row : FeaturesRef.Row ρ
  msg : LobsterMsg
  sameType : row.typ = msg.type
  sameSide : row.direction = msg.side
  sameSize : row.size.toInt = msg.size

/-- Type 1..5, positive size, direction 1 or -1, and a price `struct.pack` takes. -/
structure Line.Valid (l : Line ρ) : Prop where
  type : l.msg.type = 1 ∨ l.msg.type = 2 ∨ l.msg.type = 3 ∨ l.msg.type = 4 ∨ l.msg.type = 5
  sized : 0 < l.msg.size
  side : l.msg.side = 1 ∨ l.msg.side = -1
  price : FitsInt l.msg.price

def feed (r : Regs) (d : LobV1Delta) : Regs := updateBook r (parsedDelta d 0 true)

theorem updateBook_parsed (r : Regs) (d : LobV1Delta) (t : BitVec 64) (last : Bool) :
    updateBook r (parsedDelta d t last) = feed r d := rfl

structure Books where
  replay : Regs
  loader : Regs

def Books.powerOn : Books := ⟨.powerOn, .powerOn⟩

def encoders (conv : Conv ρ) : Mealy Books (Line ρ) Unit where
  step s l :=
    (⟨match replayDelta conv l.row with
      | some d => feed s.replay d
      | none => s.replay,
      feed s.loader (loaderDelta l.msg)⟩, ())

structure SameTop (s : Books) : Prop where
  bid : topQty s.replay 0 = topQty s.loader 0
  ask : topQty s.replay 1 = topQty s.loader 1
  ofi : s.replay.ofiAccum = s.loader.ofiAccum

/-- No cancellation in part, no execution of type 3, and a message of type 5 only where
level 0 of its side is empty. -/
def Alike (s : Books) (l : Line ρ) : Prop :=
  l.msg.type ≠ 2 ∧ l.msg.type ≠ 3 ∧
    (l.msg.type = 5 → topQty s.replay (fabricSide l.msg.side) = 0)

instance (s : Books) (l : Line ρ) : Decidable (Alike s l) :=
  inferInstanceAs (Decidable (_ ∧ _ ∧ _))

theorem SameTop.side {s : Books} (same : SameTop s) (side : BitVec 1) :
    topQty s.replay side = topQty s.loader side := by
  rcases side_cases side with rfl | rfl
  · exact same.bid
  · exact same.ask

theorem sameTop_iff {s : Books} :
    SameTop s ↔ (∀ side, topQty s.replay side = topQty s.loader side) ∧
      s.replay.ofiAccum = s.loader.ofiAccum :=
  ⟨fun same => ⟨same.side, same.ofi⟩, fun ⟨side, ofi⟩ => ⟨side 0, side 1, ofi⟩⟩

/-- Two deltas on level 0 of one side leave the books alike iff they do the same to the
quantity and to the order flow. -/
theorem sameTop_updateBook {s : Books} (same : SameTop s) {d e : Delta} (side : d.side = e.side)
    (topD : d.level = 0) (topE : e.level = 0) :
    SameTop ⟨updateBook s.replay d, updateBook s.loader e⟩ ↔
      clampNonneg (actionQty d (topQty s.replay d.side)) =
          clampNonneg (actionQty e (topQty s.replay d.side)) ∧
        updateOfi d s.replay.ofiAccum = updateOfi e s.replay.ofiAccum := by
  have replay := topQty_updateBook s.replay d
  have loader := topQty_updateBook s.loader e
  have ofi : (updateBook s.loader e).ofiAccum = updateOfi e s.replay.ofiAccum := by
    rw [same.ofi]
    rfl
  rw [sameTop_iff, ofi]
  refine and_congr ⟨fun every => ?_, fun own other => ?_⟩ Iff.rfl
  · have own := every d.side
    dsimp only at own
    rw [replay _ topD, loader _ topE, if_pos rfl, if_pos side.symm, ← same.side] at own
    exact own
  · dsimp only
    rw [replay _ topD, loader _ topE, ← side, ← same.side other]
    split
    · next here =>
      subst here
      exact own
    · rfl

def replayParsed (conv : Conv ρ) (row : FeaturesRef.Row ρ) (action : BitVec 8) (qty : BitVec 32) :
    Delta where
  priceTicks := conv.llroundTicks row.price
  qty := qty
  level := 0
  side := fabricSide row.direction
  action := action.setWidth 2
  tSendNs := 0
  lastInPkt := true

theorem feed_replayDelta (conv : Conv ρ) {row : FeaturesRef.Row ρ} {action : BitVec 8}
    {qty : BitVec 32} (chosen : replayAction row.typ row.size = some (action, qty)) (r : Regs) :
    (match replayDelta conv row with
      | some d => feed r d
      | none => r) = updateBook r (replayParsed conv row action qty) := by
  rw [replayDelta, chosen]
  change updateBook r (parsedDelta _ 0 true) = _
  congr 1
  unfold parsedDelta replayParsed fabricSide
  by_cases bid : row.direction = 1 <;> simp [bid]

section Step

variable {conv : Conv ρ} {s : Books} {l : Line ρ}

theorem sameTop_encoders (same : SameTop s) {action : BitVec 8} {qty : BitVec 32}
    (chosen : replayAction l.row.typ l.row.size = some (action, qty)) :
    SameTop ((encoders conv).next s l) ↔
      let d := replayParsed conv l.row action qty
      let e := parsedDelta (loaderDelta l.msg) 0 true
      let old := topQty s.replay (fabricSide l.msg.side)
      clampNonneg (actionQty d old) = clampNonneg (actionQty e old) ∧
        updateOfi d s.replay.ofiAccum = updateOfi e s.replay.ofiAccum := by
  have replaySide : (replayParsed conv l.row action qty).side = fabricSide l.msg.side := by
    rw [replayParsed, l.sameSide]
  have loaderSide : (parsedDelta (loaderDelta l.msg) 0 true).side = fabricSide l.msg.side := by
    rw [parsed_loaderDelta]
  have step := sameTop_updateBook same (replaySide.trans loaderSide.symm) rfl rfl
  rw [replaySide] at step
  change SameTop ⟨_, updateBook s.loader _⟩ ↔ _
  rw [feed_replayDelta conv chosen]
  exact step

theorem updateOfi_ne {d : Delta} (counts : d.action = 2) {size : BitVec 32} (qty : d.qty = -size)
    (sized : size ≠ 0) (ofi : BitVec 32) : updateOfi d ofi ≠ ofi := by
  unfold updateOfi
  rw [if_pos (Or.inr counts), qty]
  split
  · intro same
    exact sized (by simpa using same)
  · intro same
    exact sized (by simpa using same)

theorem loader_clears (msg : LobsterMsg) (other : msg.type ≠ 1) (old ofi : BitVec 32) :
    actionQty (parsedDelta (loaderDelta msg) 0 true) old = 0 ∧
      updateOfi (parsedDelta (loaderDelta msg) 0 true) ofi = ofi := by
  rw [parsed_loaderDelta]
  simp [actionQty, updateOfi, other]

theorem not_sameTop_reduce (same : SameTop s) (valid : l.Valid)
    (reduce : l.msg.type = 2 ∨ l.msg.type = 3) : ¬SameTop ((encoders conv).next s l) := by
  have sized : l.row.size ≠ 0 := by
    intro zero
    have positive := valid.sized
    rw [← l.sameSize, zero] at positive
    simp at positive
  have chosen : replayAction l.row.typ l.row.size = some (2, -l.row.size) := by
    rcases reduce with cancel | execute
    · rw [l.sameType, cancel]
      rfl
    · rw [l.sameType, execute]
      rfl
  rw [sameTop_encoders same chosen]
  rintro ⟨-, ofi⟩
  rw [(loader_clears l.msg (by omega) 0 _).2] at ofi
  exact updateOfi_ne rfl rfl sized _ ofi

theorem sameTop_next (kept : BookKept s.replay) (same : SameTop s) (valid : l.Valid) :
    SameTop ((encoders conv).next s l) ↔ Alike s l := by
  have size : BitVec.ofInt 32 l.msg.size = l.row.size := by
    rw [← l.sameSize, BitVec.ofInt_toInt]
  have typ := l.sameType
  have resting : 0 ≤ (topQty s.replay (fabricSide l.msg.side)).toInt := levels_nonneg kept _ 0
  rcases valid.type with add | cancel | execute | delete | replace
  · -- submit
    have chosen : replayAction l.row.typ l.row.size = some (1, l.row.size) := by
      rw [typ, add]
      rfl
    rw [sameTop_encoders same chosen, parsed_loaderDelta]
    simp [replayParsed, actionQty, updateOfi, add, size, l.sameSide, Alike]
  · exact iff_of_false (not_sameTop_reduce same valid (Or.inl cancel))
      (fun alike => alike.1 cancel)
  · exact iff_of_false (not_sameTop_reduce same valid (Or.inr execute))
      (fun alike => alike.2.1 execute)
  · -- delete
    have chosen : replayAction l.row.typ l.row.size = some (3, 0) := by
      rw [typ, delete]
      rfl
    obtain ⟨qty, ofi⟩ := loader_clears l.msg (by omega)
      (topQty s.replay (fabricSide l.msg.side)) s.replay.ofiAccum
    rw [sameTop_encoders same chosen]
    simp only [qty, ofi]
    simp [replayParsed, actionQty, updateOfi, Alike, delete]
  · -- replace
    have chosen : replayAction l.row.typ l.row.size = some (2, 0) := by
      rw [typ, replace]
      rfl
    obtain ⟨qty, ofi⟩ := loader_clears l.msg (by omega)
      (topQty s.replay (fabricSide l.msg.side)) s.replay.ofiAccum
    have idle : clampNonneg (topQty s.replay (fabricSide l.msg.side)) =
        topQty s.replay (fabricSide l.msg.side) := if_neg (by omega)
    have cleared : clampNonneg 0 = 0 := rfl
    rw [sameTop_encoders same chosen]
    simp only [qty, ofi, cleared]
    simp [replayParsed, actionQty, updateOfi, Alike, replace, idle]

end Step

theorem kept_next (conv : Conv ρ) {s : Books} (kept : BookKept s.replay) (l : Line ρ) :
    BookKept ((encoders conv).next s l).replay := by
  change BookKept (match replayDelta conv l.row with
    | some d => feed s.replay d
    | none => s.replay)
  split
  · exact kept.updateBook _
  · exact kept

/-- The books are alike after every message iff no message is a cancellation in part or an
execution, and messages of type 5 find an empty level. -/
theorem encoders_alike_iff (conv : Conv ρ) {ls : List (Line ρ)} (valid : ∀ l ∈ ls, l.Valid) :
    (∀ pre, pre <+: ls → SameTop ((encoders conv).final .powerOn pre)) ↔
      (encoders conv).Along Alike .powerOn ls :=
  Mealy.prefixes_iff_along (I := fun s => BookKept s.replay) (S := fun _ l => l.Valid)
    (fun _ l kept _ => kept_next conv kept l)
    (fun _ _ kept same valid => sameTop_next kept same valid) idle_powerOn.book
    ⟨rfl, rfl, rfl⟩ (Mealy.along_inputs.mpr valid)

def submitLine : Line ℤ where
  row := ⟨34200, 1, 10, 1000000, 1⟩
  msg := ⟨1, 1, 1000000, 10⟩
  sameType := rfl
  sameSide := rfl
  sameSize := rfl

def deleteLine : Line ℤ where
  row := ⟨34201, 4, 10, 1000000, 1⟩
  msg := ⟨4, 1, 1000000, 10⟩
  sameType := rfl
  sameSide := rfl
  sameSize := rfl

def cancelLine : Line ℤ where
  row := ⟨34201, 2, 3, 1000000, 1⟩
  msg := ⟨2, 1, 1000000, 3⟩
  sameType := rfl
  sameSide := rfl
  sameSize := rfl

theorem submitLine_valid : submitLine.Valid := ⟨by decide, by decide, by decide, by decide⟩

theorem submitLine_pair {l : Line ℤ} (second : l.Valid) : ∀ k ∈ [submitLine, l], k.Valid := by
  intro k mem
  rcases List.mem_pair.mp mem with rfl | rfl
  · exact submitLine_valid
  · exact second

theorem encoders_alike_iff_deleted :
    SameTop ((encoders wholeUnits).final .powerOn [submitLine]) ∧
      SameTop ((encoders wholeUnits).final .powerOn [submitLine, deleteLine]) := by
  have valid : ∀ l ∈ [submitLine, deleteLine], l.Valid :=
    submitLine_pair ⟨by decide, by decide, by decide, by decide⟩
  have same := (encoders_alike_iff wholeUnits valid).mpr (by decide +kernel)
  exact ⟨same _ (List.take_prefix 1 [submitLine, deleteLine]), same _ List.prefix_rfl⟩

/-- After a cancellation in part replay-udp leaves 7 in the book, the loader nothing. -/
theorem cancel_read_apart :
    ¬∀ (conv : Conv ℤ) (ls : List (Line ℤ)), (∀ l ∈ ls, l.Valid) →
      ∀ pre, pre <+: ls → SameTop ((encoders conv).final .powerOn pre) := by
  intro every
  have valid : ∀ l ∈ [submitLine, cancelLine], l.Valid :=
    submitLine_pair ⟨by decide, by decide, by decide, by decide⟩
  have same := (every wholeUnits _ valid _ List.prefix_rfl).bid
  revert same
  decide +kernel

end HftLatencyLab.LobsterEncoders
