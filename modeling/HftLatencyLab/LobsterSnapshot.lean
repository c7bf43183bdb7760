import HftLatencyLab.EntryDict
import HftLatencyLab.LobsterLoader
import HftLatencyLab.SimpleBookLevels

/-! The first line of a LOBSTER orderbook file in `SimpleBook`. LOBSTER fills the levels it
does not have with the price 9999999999 for an ask, -9999999999 for a bid, and size 0; the
loader keeps prices above zero, so it drops such bids and stores such asks. -/

namespace HftLatencyLab.LobsterSnapshot
open LobsterLoader SimpleBook

structure LobsterLevel where
  askP : ℤ
  askV : ℤ
  bidP : ℤ
  bidV : ℤ

namespace LobsterLevel

variable (l : LobsterLevel)

def columns : List ℤ := [l.askP, l.askV, l.bidP, l.bidV]

def EmptyAsk : Prop := l.askP = 9999999999 ∧ l.askV = 0

def EmptyBid : Prop := l.bidP = -9999999999 ∧ l.bidV = 0

instance : Decidable l.EmptyAsk := inferInstanceAs (Decidable (_ ∧ _))

structure WellFormed : Prop where
  ask : 0 < l.askP ∧ l.askP < 9999999999 ∧ 0 < l.askV ∨ l.EmptyAsk
  bid : 0 < l.bidP ∧ 0 < l.bidV ∨ l.EmptyBid

end LobsterLevel

def line (levels : List LobsterLevel) : List ℤ := levels.flatMap LobsterLevel.columns

/-- `book.load_snapshot(*load_lobster_snapshot(path))` -/
def loadLine (b : SimpleBook) (parts : List ℤ) : SimpleBook :=
  let (asks, bids) := loadLobsterSnapshot parts
  b.loadSnapshot asks bids

theorem line_cons (l : LobsterLevel) (levels : List LobsterLevel) :
    line (l :: levels) = l.askP :: l.askV :: l.bidP :: l.bidV :: line levels := rfl

theorem load_line (levels : List LobsterLevel) :
    loadLobsterSnapshot (line levels) =
      ((levels.filter (fun l => 0 < l.askP)).map (fun l => (l.askP, l.askV)),
        (levels.filter (fun l => 0 < l.bidP)).map (fun l => (l.bidP, l.bidV))) := by
  induction levels with
  | nil => rfl
  | cons l levels ih =>
    rw [line_cons, loadLobsterSnapshot, ih]
    simp only [List.filter_cons, decide_eq_true_eq]
    ext1
    · split_ifs <;> rfl
    · split_ifs <;> rfl

theorem mem_asks {levels : List LobsterLevel} {p v : ℤ} :
    (p, v) ∈ (loadLobsterSnapshot (line levels)).1 ↔
      ∃ l ∈ levels, 0 < l.askP ∧ l.askP = p ∧ l.askV = v := by
  simp [load_line, and_assoc]

theorem mem_bids {levels : List LobsterLevel} {p v : ℤ} :
    (p, v) ∈ (loadLobsterSnapshot (line levels)).2 ↔
      ∃ l ∈ levels, 0 < l.bidP ∧ l.bidP = p ∧ l.bidV = v := by
  simp [load_line, and_assoc]

structure Sound (b : SimpleBook) : Prop where
  positive : b.Positive
  best : ∀ isBid price, b.best isBid = some price → 0 < b.quantity (isBid, price)

theorem sound_of_positive {b : SimpleBook} (cached : b.Exact) (positive : b.Positive) :
    Sound b where
  positive := positive
  best isBid price top := by
    have isBest := cached isBid
    rw [top] at isBest
    have held := Finmap.mem_keys.mp isBest.1
    obtain ⟨q, found⟩ := Option.isSome_iff_exists.mp (Finmap.lookup_isSome.mpr held)
    have at_price : b.lookup (isBid, price) = some q := found
    rw [quantity, at_price]
    exact positive _ q at_price

section Loaded

variable {levels : List LobsterLevel} (wf : ∀ l ∈ levels, l.WellFormed)
include wf

theorem loaded_start (b : SimpleBook) (full : ∀ l ∈ levels, ¬l.EmptyAsk) :
    Start (loadLine b (line levels)) := by
  apply Start.snapshot
  · rintro ⟨p, v⟩ row
    obtain ⟨l, mem, -, -, rfl⟩ := mem_asks.mp row
    rcases (wf l mem).ask with ⟨-, -, sized⟩ | empty
    · exact sized
    · exact absurd empty (full l mem)
  · rintro ⟨p, v⟩ row
    obtain ⟨l, mem, kept, -, rfl⟩ := mem_bids.mp row
    rcases (wf l mem).bid with ⟨-, sized⟩ | ⟨marked, -⟩
    · exact sized
    · omega

theorem lookup_emptyAsk (b : SimpleBook) {l : LobsterLevel} (mem : l ∈ levels)
    (empty : l.EmptyAsk) : (loadLine b (line levels)).lookup (false, 9999999999) = some 0 := by
  have row : ((9999999999 : ℤ), (0 : ℤ)) ∈ (loadLobsterSnapshot (line levels)).1 :=
    mem_asks.mpr ⟨l, mem, by rw [empty.1]; norm_num, empty.1, empty.2⟩
  refine EntryDict.lookup_of_mem row fun w other => ?_
  obtain ⟨k, mem', -, price, rfl⟩ := mem_asks.mp other
  rcases (wf k mem').ask with ⟨-, below, -⟩ | empty'
  · omega
  · exact empty'.2

end Loaded

/-- Through every run of adds and reductions the levels and the best prices have quantity
iff no ask level of the line is marked empty. -/
theorem sound_iff {levels : List LobsterLevel} (wf : ∀ l ∈ levels, l.WellFormed)
    (b : SimpleBook) {us : List Update} (flow : ∀ u ∈ us, u.Flow) :
    (∀ pre, pre <+: us → Sound ((loadLine b (line levels)).updates pre)) ↔
      ∀ l ∈ levels, ¬l.EmptyAsk := by
  constructor
  · intro every l mem empty
    have stored := lookup_emptyAsk wf b mem empty
    have positive := (every [] List.nil_prefix).positive (false, 9999999999) 0 stored
    exact lt_irrefl 0 positive
  · intro full pre short
    have start := loaded_start wf b full
    have flow' : ∀ u ∈ pre, u.Flow := fun u hu => flow u (short.subset hu)
    obtain ⟨cached, positive⟩ := flow_keyedFold.invariant ⟨start.exact, start.positive⟩ flow'
    exact sound_of_positive cached positive

def oneBid : List LobsterLevel :=
  [⟨5859400, 200, 5853300, 18⟩, ⟨5859800, 300, -9999999999, 0⟩]

theorem oneBid_wellFormed : ∀ l ∈ oneBid, l.WellFormed := by
  intro l mem
  rcases List.mem_pair.mp mem with rfl | rfl
  · exact ⟨Or.inl (by decide), Or.inl (by decide)⟩
  · exact ⟨Or.inl (by decide), Or.inr ⟨rfl, rfl⟩⟩

def askTaken : List Update := [⟨1, 5859400, 150, 3⟩, ⟨1, 5859400, 60, 3⟩]

theorem sound_iff_oneBid :
    Sound ((loadLine init (line oneBid)).updates (askTaken.take 1)) ∧
      Sound ((loadLine init (line oneBid)).updates askTaken) := by
  have flow : ∀ u ∈ askTaken, u.Flow := by decide
  have sound := (sound_iff oneBid_wellFormed init flow).mpr (by decide)
  exact ⟨sound _ (List.take_prefix 1 askTaken), sound _ List.prefix_rfl⟩

/-- A line with one bid level and no ask: the book shows the ask 9999999999 of size 0. -/
theorem empty_ask_stored :
    ¬∀ (levels : List LobsterLevel), (∀ l ∈ levels, l.WellFormed) → ∀ (b : SimpleBook)
      (us : List Update), (∀ u ∈ us, u.Flow) →
      ∀ pre, pre <+: us → Sound ((loadLine b (line levels)).updates pre) := by
  intro every
  have wf : ∀ l ∈ [LobsterLevel.mk 9999999999 0 5853300 18], l.WellFormed := by
    intro l mem
    rw [List.mem_singleton.mp mem]
    exact ⟨Or.inr ⟨rfl, rfl⟩, Or.inl (by decide)⟩
  have sound := every _ wf init [] (by simp) [] List.nil_prefix
  have top := sound.best false 9999999999 (by decide +kernel)
  revert top
  decide +kernel

end HftLatencyLab.LobsterSnapshot
