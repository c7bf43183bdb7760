import HftLatencyLab.LossyNet
import HftLatencyLab.ReflexLane

/-! soc_runner (host/strategy/soc_runner.py) and the threaded server, over a network that may
lose, repeat and reorder. The runner raises its bid now and then to cross the book; it never fills
the ask side, so unless someone else has, the reflex it measures never acts. It times the fabric
against a reflex that the same thread has finished before. -/

namespace HftLatencyLab.SocRunner
open ByteOrder LobWire PythonBook ServerFallback TimingTrailer ReflexLane LossyNet

/-- `REFLEX_ACTIONS.get(reflex_act, str(reflex_act))` -/
def actName (reflexAct : ℕ) : String :=
  match reflexAct with
  | 0 => "NONE"
  | 1 => "CANCEL"
  | 2 => "TAKE"
  | 3 => "WIDEN"
  | other => toString other

structure Row where
  seq : ℕ
  t0 : ℕ
  tRecv : ℕ
  telem : Telemetry
  actName : String
  scoreFloat : ℚ
  latencyInternalGapNs : ℤ
  latencyHostRttNs : ℤ
deriving DecidableEq

def neuroTime (m : Telemetry) : ℕ := if m.t5 > 0 then m.t5 else m.t4

def rowOf (seq t0 tRecv : ℕ) (m : Telemetry) : Row where
  seq := seq
  t0 := t0
  tRecv := tRecv
  telem := m
  actName := actName m.reflexAct
  scoreFloat := m.mlpScore / 65536
  latencyInternalGapNs := neuroTime m - m.tReflex
  latencyHostRttNs := tRecv - t0

structure Soc where
  seq : ℕ
  /-- `t0` of the packet the runner waits for. -/
  waiting : Option ℕ
  /-- Datagrams that have arrived and were not taken yet. -/
  socket : List (List Byte)

def Soc.start : Soc := ⟨0, none, []⟩

inductive Event
  /-- The next packet is due. -/
  | send (tSendNs : BitVec 64) (t0 : ℕ)
  /-- One turn of the wait loop, with the clock it reads. -/
  | poll (clock : ℕ)

/-- Every fiftieth packet is meant to cross the book. -/
def price (seq : ℕ) : BitVec 32 := if seq % 50 = 0 then 102000 else 100000

def socPacket (seq : ℕ) (tSendNs : BitVec 64) : List Byte :=
  bidPacket (BitVec.ofNat 32 seq) tSendNs (price seq) 100

/-- `struct.pack` raises at a sequence number of 2^32, and ends the program. -/
def act (count : ℕ) (s : Soc) : Event → Soc × Option (List Byte) × Option Row
  | .send tSendNs t0 =>
    if s.waiting = none ∧ s.seq < count ∧ s.seq < 2 ^ 32 then
      ({ s with waiting := some t0 }, some (socPacket s.seq tSendNs), none)
    else (s, none, none)
  | .poll clock =>
    match s.waiting with
    | none => (s, none, none)
    | some t0 =>
      match s.socket with
      | data :: rest =>
        -- A short packet is reported and not logged.
        (⟨s.seq + 1, none, rest⟩, none, (socTelemetry data).map (rowOf s.seq t0 clock))
      | [] =>
        if (clock : ℤ) - t0 > 100000000 then (⟨s.seq + 1, none, []⟩, none, none)
        else (s, none, none)

def soc (count : ℕ) (enableTiming : Bool) :
    Parties Soc PsState Event Turn (List Byte) (List Byte) Row where
  act := act count
  receive s data := { s with socket := s.socket ++ [data] }
  server := processorTurn enableTiming

/-- Against a server that already has a book. -/
def rowsFrom (s : PsState) (count : ℕ) (enableTiming : Bool) (moves : List (Move Event Turn)) :
    List Row :=
  log (soc count enableTiming) .start s moves

def rows (count : ℕ) (enableTiming : Bool) (moves : List (Move Event Turn)) : List Row :=
  log (soc count enableTiming) .start .start moves

theorem act_cases (count : ℕ) (s : Soc) (e : Event) :
    act count s e = (s, none, none) ∨
      (∃ tSendNs t0, act count s e =
        ({ s with waiting := some t0 }, some (socPacket s.seq tSendNs), none)) ∨
      ∃ t0 clock, act count s e = (⟨s.seq + 1, none, s.socket.tail⟩, none,
        s.socket.head?.bind fun data => (socTelemetry data).map (rowOf s.seq t0 clock)) := by
  unfold act
  cases e with
  | send tSendNs t0 =>
    dsimp only
    split_ifs
    · exact Or.inr (Or.inl ⟨tSendNs, t0, rfl⟩)
    · exact Or.inl rfl
  | poll clock =>
    dsimp only
    split
    · exact Or.inl rfl
    · next t0 waiting =>
      split
      · next data rest socket => exact Or.inr (Or.inr ⟨t0, clock, by rw [socket]; rfl⟩)
      · next socket =>
        split_ifs
        · exact Or.inr (Or.inr ⟨t0, clock, by rw [socket]; rfl⟩)
        · exact Or.inl rfl

section Replies

variable {turn : Turn → Prop} {count : ℕ} {enableTiming : Bool}

theorem rows_of_trailers (telem : Telemetry → Prop)
    (trailers : ∀ s x, NoAsk s.bid s.ask → turn x →
      telem (timingData x.reads (reflexAct s) x.pl).telemetry)
    {s : PsState} (start : NoAsk s.bid s.ask)
    {moves : List (Move Event Turn)} (admits : ∀ mv ∈ moves, mv.Admits turn) :
    ∀ row ∈ rowsFrom s count enableTiming moves, telem row.telem ∧
      row = rowOf row.seq row.t0 row.tRecv row.telem := by
  have promises : Promises (soc count enableTiming)
      (fun s => ∀ data ∈ s.socket, ∀ m ∈ socTelemetry data, telem m)
      (fun s => NoAsk s.bid s.ask)
      (fun request => ∀ d ∈ deltasOf request, d.side = 0)
      (fun reply => ∀ m ∈ socTelemetry reply, telem m) turn
      (fun row => telem row.telem ∧ row = rowOf row.seq row.t0 row.tRecv row.telem) := by
    constructor
    · intro s e held
      change (∀ data ∈ (act count s e).1.socket, _) ∧ (∀ k ∈ (act count s e).2.1, _) ∧
        ∀ w ∈ (act count s e).2.2, _
      rcases act_cases count s e with idle | ⟨tSendNs, t0, sends⟩ | ⟨t0, clock, done⟩
      · rw [idle]
        exact ⟨held, by simp, by simp⟩
      · rw [sends]
        refine ⟨held, ?_, by simp⟩
        intro request sent
        obtain rfl : socPacket s.seq tSendNs = request := Option.some.inj sent
        rw [socPacket, deltasOf_bidPacket]
        simp
      · rw [done]
        refine ⟨fun data mem => held data (List.mem_of_mem_tail mem), by simp, ?_⟩
        intro row logged
        obtain ⟨data, first, read⟩ := Option.bind_eq_some_iff.mp logged
        obtain ⟨m, trailer, rfl⟩ := Option.map_eq_some_iff.mp read
        exact ⟨held data (List.mem_of_mem_head? first) m trailer, rfl⟩
    · intro s data held read data' mem
      rcases List.mem_append.mp mem with old | new
      · exact held data' old
      · rw [List.mem_singleton.mp new]
        exact read
    · intro s request x noAsk bids admits
      obtain ⟨after, read⟩ := processorTurn_sides enableTiming noAsk_empty noAsk_psDelta noAsk
        bids x
      refine ⟨after, fun reply sent m trailer => ?_⟩
      obtain ⟨h, d, request, rfl⟩ := telemetry_of_turn sent trailer
      exact trailers _ x (read h d request) admits
  exact promises.log_kept (by simp [Soc.start]) start admits

end Replies

/-- Without an ask at level 0 when the run begins, and whatever is lost, repeated, late or done by
the fabric: no row shows the reflex acting, also not those of the packets that were to cross the
book. -/
theorem reflex_never_acts (s : PsState) (empty : (s.ask.get 0).q = 0) (count : ℕ)
    (enableTiming : Bool) (moves : List (Move Event Turn)) :
    ∀ row ∈ rowsFrom s count enableTiming moves, row.actName = "NONE" := by
  have trailers (s : PsState) (x : Turn) (noAsk : NoAsk s.bid s.ask) (_ : True) :
      (timingData x.reads (reflexAct s) x.pl).telemetry.reflexAct = 0 := by
    rw [reflexAct_of_noAsk noAsk]
    rfl
  have admits (mv : Move Event Turn) (_ : mv ∈ moves) : mv.Admits fun _ => True := by
    cases mv <;> trivial
  intro row logged
  obtain ⟨none, shape⟩ :=
    rows_of_trailers (fun m => m.reflexAct = 0) trailers empty admits row logged
  rw [shape, rowOf, none]
  rfl

def twoPackets : List (Move Event Turn) :=
  let reads : ClockReads := ⟨10, 20, 30, 40, 50, 60⟩
  [.act (.send 1 5), .serve 0 ⟨0, reads, .started⟩, .deliver 0, .act (.poll 70),
    .act (.send 2 75), .serve 1 ⟨0, reads, .completed true (some (List.replicate 16 0, 7))⟩,
    .deliver 1, .act (.poll 80)]

theorem reflex_never_acts_two :
    (rowsFrom .start 2 true twoPackets).length = 2 ∧
      ∀ row ∈ rowsFrom .start 2 true twoPackets, row.actName = "NONE" :=
  ⟨by decide +kernel, reflex_never_acts .start rfl 2 true twoPackets⟩

/-- An ask that an earlier client left is taken: the flags of the runner are no reset here. -/
example : (rowsFrom { PsState.start with ask := emptySide.set 0 ⟨0, 5⟩ } 2 true twoPackets).map
    Row.actName = ["TAKE", "TAKE"] := by
  decide +kernel

structure Ordered (x : Turn) : Prop where
  started : 0 < x.reads.tReflex.toNat
  dma : x.reads.tReflex.toNat ≤ x.reads.t3.toNat
  features : x.reads.t3.toNat ≤ x.reads.t4.toNat
  score : x.reads.t4.toNat ≤ x.reads.t5.toNat

end HftLatencyLab.SocRunner
