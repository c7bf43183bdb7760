import HftLatencyLab.Custody

/-! main.c of host/dpdk/echo-io: frames are seeded on both ports, then each port sends what the
other has received. What the driver answers is given: the mbufs an allocation or a burst hands
out, how many of a burst a port takes, what the timer reads. What the program makes of it is the
list of its calls. -/

namespace HftLatencyLab.EchoIo
open Custody

variable {M : Type*}

def burstSize : ℕ := 64

inductive Port where
  | port0
  | port1
deriving DecidableEq

structure Stats where
  rx0 : BitVec 64
  tx0 : BitVec 64
  rx1 : BitVec 64
  tx1 : BitVec 64
  drops : BitVec 64

/-- The calls of the program on mbufs, and the line it prints, with what they answered. -/
inductive Call (M : Type*) where
  | alloc (m : Option M)
  | append (m : M) (room : Bool)
  | header (m : M) (dstAddr srcAddr : Port)
  | rxBurst (port : Port) (pkts : List M)
  | txBurst (port : Port) (pkts : List M) (sent : ℕ)
  | free (m : M)
  | printf (stats : Stats)

/-- The loop that fills `seed`: a slot has what alloc answers, and whether append finds room. -/
def fill (dst src : Port) : List (Option M × Bool) → List (Call M) × List M
  | [] => ([], [])
  | (none, _) :: _ => ([.alloc none], [])
  | (some m, false) :: _ => ([.alloc (some m), .append m false, .free m], [])
  | (some m, true) :: slots =>
    let (calls, seed) := fill dst src slots
    (.alloc (some m) :: .append m true :: .header m dst src :: calls, m :: seed)

/-- `if (n)`: what is not sent is freed. -/
def txAndFree (port : Port) (pkts : List M) (sent : ℕ) : List (Call M) :=
  if pkts.isEmpty then [] else .txBurst port pkts sent :: (pkts.drop sent).map .free

structure Seeding (M : Type*) (dst src : Port) where
  slots : List (Option M × Bool)
  size : slots.length = burstSize
  sent : ℕ
  taken : sent ≤ (fill dst src slots).2.length

def Seeding.calls {dst src : Port} (s : Seeding M dst src) : List (Call M) :=
  let (calls, seed) := fill dst src s.slots
  calls ++ txAndFree dst seed s.sent

structure Burst (M : Type*) where
  pkts : List M
  sent : ℕ
  size : pkts.length ≤ burstSize
  taken : sent ≤ pkts.length

def forward (rx tx : Port) (b : Burst M) : List (Call M) :=
  .rxBurst rx b.pkts :: txAndFree tx b.pkts b.sent

def Stats.count0 (s : Stats) (b : Burst M) : Stats :=
  if b.pkts.isEmpty then s
  else { s with rx0 := s.rx0 + .ofNat 64 b.pkts.length
                tx1 := s.tx1 + .ofNat 64 b.sent
                drops := s.drops + .ofNat 64 (b.pkts.length - b.sent) }

def Stats.count1 (s : Stats) (b : Burst M) : Stats :=
  if b.pkts.isEmpty then s
  else { s with rx1 := s.rx1 + .ofNat 64 b.pkts.length
                tx0 := s.tx0 + .ofNat 64 b.sent
                drops := s.drops + .ofNat 64 (b.pkts.length - b.sent) }

structure Round (M : Type*) where
  in0 : Burst M
  in1 : Burst M
  now : BitVec 64

structure State where
  stats : Stats
  nextStat : BitVec 64

def round (hz : BitVec 64) (s : State) (r : Round M) : List (Call M) × State :=
  let stats := (s.stats.count0 r.in0).count1 r.in1
  let calls := forward .port0 .port1 r.in0 ++ forward .port1 .port0 r.in1
  if s.nextStat ≤ r.now then (calls ++ [.printf stats], ⟨stats, r.now + hz⟩)
  else (calls, ⟨stats, s.nextStat⟩)

/-- `while (keep_running)`, over the rounds until the signal. -/
def loop (hz : BitVec 64) (s : State) : List (Round M) → List (Call M) × State
  | [] => ([], s)
  | r :: rounds =>
    let (calls, next) := round hz s r
    let (rest, last) := loop hz next rounds
    (calls ++ rest, last)

def seeding (seed0 : Seeding M .port1 .port0) (seed1 : Seeding M .port0 .port1) : List (Call M) :=
  seed0.calls ++ seed1.calls

/-- From the seeding to the end, with the timer at `start` before the loop. -/
def echoIo (hz start : BitVec 64) (seed0 : Seeding M .port1 .port0)
    (seed1 : Seeding M .port0 .port1) (rounds : List (Round M)) : List (Call M) × State :=
  let (calls, last) := loop hz ⟨⟨0, 0, 0, 0, 0⟩, start + hz⟩ rounds
  (seeding seed0 seed1 ++ calls, last)

/-- What a call does to the mbufs the program holds; a burst is read as a whole. -/
def Call.moves : Call M → List (Move M)
  | .alloc none => []
  | .alloc (some m) => [.take [m]]
  | .append m _ => [.touch [m]]
  | .header m _ _ => [.touch [m]]
  | .rxBurst _ pkts => [.take pkts]
  | .txBurst _ pkts sent => [.touch pkts, .release (pkts.take sent)]
  | .free m => [.release [m]]
  | .printf _ => []

def moves (calls : List (Call M)) : List (Move M) := calls.flatMap Call.moves

theorem moves_append (calls rest : List (Call M)) :
    moves (calls ++ rest) = moves calls ++ moves rest :=
  List.flatMap_append

section Ledger

variable [DecidableEq M]

theorem txAndFree_run (port : Port) (pkts : List M) (sent : ℕ) :
    run burstSize (pkts : Multiset M) (moves (txAndFree port pkts sent)) = some 0 := by
  cases pkts with
  | nil => rfl
  | cons m pkts =>
    have split : ((m :: pkts : List M) : Multiset M) =
        (((m :: pkts).drop sent : List M) : Multiset M) + ((m :: pkts).take sent : List M) := by
      rw [Multiset.add_comm, Multiset.coe_add, List.take_append_drop]
    have frees : moves (((m :: pkts).drop sent).map Call.free) =
        ((m :: pkts).drop sent).map fun x => Move.release [x] := by
      rw [moves, List.flatMap_map]
      exact List.map_eq_flatMap.symm
    have calls : moves (txAndFree port (m :: pkts) sent) = [.touch (m :: pkts)] ++
        ([.release ((m :: pkts).take sent)] ++
          ((m :: pkts).drop sent).map fun x => Move.release [x]) := by
      rw [← frees]
      rfl
    rw [calls, run_append, run_touch le_rfl, Option.bind_some, run_append]
    nth_rewrite 1 [split]
    rw [run_release, Option.bind_some,
      ← Multiset.zero_add (((m :: pkts).drop sent : List M) : Multiset M), run_release_each]

theorem fill_run (dst src : Port) (slots : List (Option M × Bool)) (held : Multiset M)
    (room : held.card + slots.length ≤ burstSize) :
    run burstSize held (moves (fill dst src slots).1) =
      some (held + ((fill dst src slots).2 : List M)) := by
  induction slots generalizing held with
  | nil => simp [fill, moves]
  | cons slot slots ih =>
    rw [List.length_cons] at room
    have one (m : M) : run burstSize held [.take [m]] = some (held + ([m] : List M)) :=
      run_take (by rw [List.length_singleton]; omega)
    have mem (m : M) : (([m] : List M) : Multiset M) ≤ held + ([m] : List M) :=
      Multiset.le_add_left _ _
    match slot with
    | (none, _) => simp [fill, moves, Call.moves]
    | (some m, false) =>
      have calls : moves (fill dst src ((some m, false) :: slots)).1 =
          [.take [m]] ++ ([.touch [m]] ++ [.release [m]]) := rfl
      rw [calls, run_append, one, Option.bind_some, run_append, run_touch (mem m),
        Option.bind_some, run_release]
      simp [fill]
    | (some m, true) =>
      have calls : moves (fill dst src ((some m, true) :: slots)).1 =
          [.take [m]] ++ ([.touch [m]] ++ ([.touch [m]] ++ moves (fill dst src slots).1)) := rfl
      have seed : (((fill dst src ((some m, true) :: slots)).2 : List M) : Multiset M) =
          (([m] : List M) : Multiset M) + ((fill dst src slots).2 : List M) := rfl
      have wider : (held + (([m] : List M) : Multiset M)).card + slots.length ≤ burstSize := by
        rw [Multiset.card_add, Multiset.coe_card, List.length_singleton]
        omega
      rw [calls, run_append, one, Option.bind_some, run_append, run_touch (mem m),
        Option.bind_some, run_append, run_touch (mem m), Option.bind_some, ih _ wider, seed,
        Multiset.add_assoc]

theorem seeding_settles {dst src : Port} (s : Seeding M dst src) :
    Settles burstSize (moves s.calls) := by
  have filled := fill_run dst src s.slots 0 (by rw [Multiset.card_zero, Nat.zero_add, s.size])
  rw [Settles, Seeding.calls, moves_append, run_append, filled, Option.bind_some,
    Multiset.zero_add, txAndFree_run]

theorem forward_settles (rx tx : Port) (b : Burst M) :
    Settles burstSize (moves (forward rx tx b)) := by
  have calls : moves (forward rx tx b) = [.take b.pkts] ++ moves (txAndFree tx b.pkts b.sent) := rfl
  have room : (0 : Multiset M).card + b.pkts.length ≤ burstSize := by
    rw [Multiset.card_zero, Nat.zero_add]
    exact b.size
  rw [Settles, calls, run_append, run_take room, Option.bind_some, Multiset.zero_add, txAndFree_run]

theorem round_settles (hz : BitVec 64) (s : State) (r : Round M) :
    Settles burstSize (moves (round hz s r).1) := by
  have bursts : Settles burstSize
      (moves (forward .port0 .port1 r.in0 ++ forward .port1 .port0 r.in1)) := by
    rw [moves_append]
    exact (forward_settles _ _ _).append (forward_settles _ _ _)
  rw [round]
  split
  · rw [moves_append]
    exact bursts.append Settles.nil
  · exact bursts

theorem loop_settles (hz : BitVec 64) (s : State) (rounds : List (Round M)) :
    Settles burstSize (moves (loop hz s rounds).1) := by
  induction rounds generalizing s with
  | nil => exact Settles.nil
  | cons r rounds ih =>
    rw [loop, moves_append]
    exact (round_settles hz s r).append (ih _)

/-- Whatever the driver answers, the program lets go of every mbuf it has been given once, by
a port that takes it or by freeing it; it uses none it does not hold, and at no time holds more
than `seed` or `pkts` has room for. -/
theorem mbufs_settled (hz start : BitVec 64) (seed0 : Seeding M .port1 .port0)
    (seed1 : Seeding M .port0 .port1) (rounds : List (Round M)) :
    let calls := (echoIo hz start seed0 seed1 rounds).1
    run burstSize 0 (moves calls) = some 0 ∧
      ∀ before after, calls = before ++ after →
        ∃ held, run burstSize 0 (moves before) = some held ∧ held.card ≤ burstSize := by
  intro calls
  have settles : Settles burstSize (moves calls) := by
    have seeds : Settles burstSize (moves (seeding seed0 seed1)) := by
      rw [seeding, moves_append]
      exact (seeding_settles seed0).append (seeding_settles seed1)
    have whole : moves calls = moves (seeding seed0 seed1) ++
        moves (loop hz ⟨⟨0, 0, 0, 0, 0⟩, start + hz⟩ rounds).1 := moves_append _ _
    rw [whole]
    exact seeds.append (loop_settles _ _ _)
  refine ⟨settles, fun before after split => ?_⟩
  rw [split, moves_append] at settles
  exact settles.cut

end Ledger

def emptiedPool {dst src : Port} (m : ℕ) : Seeding ℕ dst src where
  slots := [(some m, true), (some (m + 1), true)] ++ List.replicate 62 (none, true)
  size := rfl
  sent := 1
  taken := by
    change 1 ≤ 2
    decide

def oneDropped : Round ℕ where
  in0 := ⟨[10, 11, 12], 2, by decide, by decide⟩
  in1 := ⟨[], 0, by decide, by decide⟩
  now := 7

def shortRun : List (Call ℕ) × State := echoIo 5 0 (emptiedPool 0) (emptiedPool 2) [oneDropped]

theorem mbufs_settled_short :
    run burstSize 0 (moves shortRun.1) = some 0 ∧ (moves shortRun.1).length = 23 :=
  ⟨(mbufs_settled 5 0 (emptiedPool 0) (emptiedPool 2) [oneDropped]).1, by decide⟩

def receivedOn (port : Port) (calls : List (Call M)) : List M :=
  calls.flatMap fun
    | .rxBurst p pkts => if p = port then pkts else []
    | _ => []

def sentOn (port : Port) (calls : List (Call M)) : List M :=
  calls.flatMap fun
    | .txBurst p pkts sent => if p = port then pkts.take sent else []
    | _ => []

def freed (calls : List (Call M)) : List M :=
  calls.flatMap fun
    | .free m => [m]
    | _ => []

theorem receivedOn_append (port : Port) (calls rest : List (Call M)) :
    receivedOn port (calls ++ rest) = receivedOn port calls ++ receivedOn port rest :=
  List.flatMap_append

theorem sentOn_append (port : Port) (calls rest : List (Call M)) :
    sentOn port (calls ++ rest) = sentOn port calls ++ sentOn port rest :=
  List.flatMap_append

theorem freed_append (calls rest : List (Call M)) :
    freed (calls ++ rest) = freed calls ++ freed rest :=
  List.flatMap_append

theorem frees_flatMap {α : Type*} {f : Call M → List α} (pkts : List M)
    (none : ∀ m, f (.free m) = []) : (pkts.map Call.free).flatMap f = [] := by
  rw [List.flatMap_map, List.flatMap_eq_nil_iff]
  exact fun m _ => none m

theorem txAndFree_effect (port other : Port) (pkts : List M) (sent : ℕ) :
    receivedOn other (txAndFree port pkts sent) = [] ∧
      sentOn other (txAndFree port pkts sent) = (if port = other then pkts.take sent else []) ∧
      freed (txAndFree port pkts sent) = pkts.drop sent := by
  cases pkts with
  | nil => simp [txAndFree, receivedOn, sentOn, freed]
  | cons m pkts =>
    have calls : txAndFree port (m :: pkts) sent =
        .txBurst port (m :: pkts) sent :: ((m :: pkts).drop sent).map .free := rfl
    refine ⟨?_, ?_, ?_⟩
    · rw [calls, receivedOn, List.flatMap_cons, frees_flatMap _ fun _ => rfl]
      rfl
    · rw [calls, sentOn, List.flatMap_cons, frees_flatMap _ fun _ => rfl, List.append_nil]
    · rw [calls, freed, List.flatMap_cons, List.flatMap_map, List.nil_append]
      exact List.flatMap_singleton' _

theorem receivedOn_forward (rx tx port : Port) (b : Burst M) :
    receivedOn port (forward rx tx b) = if rx = port then b.pkts else [] := by
  have sends := (txAndFree_effect tx port b.pkts b.sent).1
  rw [receivedOn] at sends
  rw [forward, receivedOn, List.flatMap_cons, sends, List.append_nil]

theorem sentOn_forward (rx tx port : Port) (b : Burst M) :
    sentOn port (forward rx tx b) = if tx = port then b.pkts.take b.sent else [] :=
  (txAndFree_effect tx port b.pkts b.sent).2.1

theorem freed_forward (rx tx : Port) (b : Burst M) : freed (forward rx tx b) = b.pkts.drop b.sent :=
  (txAndFree_effect tx tx b.pkts b.sent).2.2

/-- The counters are those of the calls so far, and no mbuf is missing from them. -/
structure Tallied (calls : List (Call M)) (s : Stats) : Prop where
  rx0 : s.rx0 = .ofNat 64 (receivedOn .port0 calls).length
  tx0 : s.tx0 = .ofNat 64 (sentOn .port0 calls).length
  rx1 : s.rx1 = .ofNat 64 (receivedOn .port1 calls).length
  tx1 : s.tx1 = .ofNat 64 (sentOn .port1 calls).length
  drops : s.drops = .ofNat 64 (freed calls).length
  balance : (receivedOn .port0 calls).length + (receivedOn .port1 calls).length =
    (sentOn .port0 calls).length + (sentOn .port1 calls).length + (freed calls).length

theorem count0_eq (s : Stats) (b : Burst M) : s.count0 b =
    { s with rx0 := s.rx0 + .ofNat 64 b.pkts.length
             tx1 := s.tx1 + .ofNat 64 b.sent
             drops := s.drops + .ofNat 64 (b.pkts.length - b.sent) } := by
  rw [Stats.count0]
  split
  · have none : b.pkts.length = 0 := by simp_all
    have taken := b.taken
    have zero : b.sent = 0 := by omega
    simp [none, zero]
  · rfl

theorem count1_eq (s : Stats) (b : Burst M) : s.count1 b =
    { s with rx1 := s.rx1 + .ofNat 64 b.pkts.length
             tx0 := s.tx0 + .ofNat 64 b.sent
             drops := s.drops + .ofNat 64 (b.pkts.length - b.sent) } := by
  rw [Stats.count1]
  split
  · have none : b.pkts.length = 0 := by simp_all
    have taken := b.taken
    have zero : b.sent = 0 := by omega
    simp [none, zero]
  · rfl

theorem count0_tallied {calls : List (Call M)} {s : Stats} (tallied : Tallied calls s)
    (b : Burst M) : Tallied (calls ++ forward .port0 .port1 b) (s.count0 b) := by
  have taken := b.taken
  have balance := tallied.balance
  rw [count0_eq]
  constructor <;>
    simp only [receivedOn_append, sentOn_append, freed_append, receivedOn_forward, sentOn_forward,
      freed_forward, reduceCtorEq, if_true, if_false, List.append_nil, List.length_append,
      List.length_take, List.length_drop, Nat.min_eq_left taken, tallied.rx0, tallied.tx0,
      tallied.rx1, tallied.tx1, tallied.drops, BitVec.ofNat_add]
  omega

theorem count1_tallied {calls : List (Call M)} {s : Stats} (tallied : Tallied calls s)
    (b : Burst M) : Tallied (calls ++ forward .port1 .port0 b) (s.count1 b) := by
  have taken := b.taken
  have balance := tallied.balance
  rw [count1_eq]
  constructor <;>
    simp only [receivedOn_append, sentOn_append, freed_append, receivedOn_forward, sentOn_forward,
      freed_forward, reduceCtorEq, if_true, if_false, List.append_nil, List.length_append,
      List.length_take, List.length_drop, Nat.min_eq_left taken, tallied.rx0, tallied.tx0,
      tallied.rx1, tallied.tx1, tallied.drops, BitVec.ofNat_add]
  omega

/-- Each line printed among `calls`, after `earlier`, has the counters of the calls before it. -/
def LinesTallied (earlier calls : List (Call M)) : Prop :=
  ∀ before stats after, calls = before ++ .printf stats :: after → Tallied (earlier ++ before) stats

theorem LinesTallied.append {earlier calls rest : List (Call M)}
    (first : LinesTallied earlier calls) (second : LinesTallied (earlier ++ calls) rest) :
    LinesTallied earlier (calls ++ rest) := by
  intro before stats after split
  rcases List.append_eq_append_iff.mp split with ⟨more, rfl, line⟩ | ⟨more, whole, line⟩
  · rw [← List.append_assoc]
    exact second more stats after line
  · cases more with
    | nil =>
      rw [List.append_nil] at whole
      have tallied := second [] stats after line.symm
      rwa [List.append_nil, whole] at tallied
    | cons call more =>
      obtain ⟨rfl, -⟩ := List.cons.inj line
      exact first before stats more whole

theorem printf_not_mem_forward (rx tx : Port) (b : Burst M) (stats : Stats) :
    Call.printf stats ∉ forward rx tx b := by
  intro mem
  rw [forward, List.mem_cons] at mem
  rcases mem with other | mem
  · cases other
  · rw [txAndFree] at mem
    split at mem
    · cases mem
    · rcases List.mem_cons.mp mem with other | mem
      · cases other
      · obtain ⟨m, -, other⟩ := List.mem_map.mp mem
        cases other

theorem linesTallied_forward (earlier : List (Call M)) (rx tx : Port) (b : Burst M) :
    LinesTallied earlier (forward rx tx b) := by
  intro before stats after split
  refine absurd ?_ (printf_not_mem_forward rx tx b stats)
  rw [split]
  exact List.mem_append_right _ List.mem_cons_self

theorem linesTallied_printf {earlier : List (Call M)} {s : Stats} (tallied : Tallied earlier s) :
    LinesTallied earlier [.printf s] := by
  intro before stats after line
  cases before with
  | nil =>
    obtain ⟨⟨rfl⟩, -⟩ := List.cons.inj line
    rwa [List.append_nil]
  | cons call before => simp at line

theorem Tallied.printf {calls : List (Call M)} {s : Stats} (tallied : Tallied calls s)
    (stats : Stats) : Tallied (calls ++ [.printf stats]) s := by
  have received (port : Port) :
      receivedOn port (calls ++ [.printf stats]) = receivedOn port calls := by
    rw [receivedOn_append]
    exact List.append_nil _
  have sent (port : Port) : sentOn port (calls ++ [.printf stats]) = sentOn port calls := by
    rw [sentOn_append]
    exact List.append_nil _
  have frees : freed (calls ++ [.printf stats]) = freed calls := by
    rw [freed_append]
    exact List.append_nil _
  constructor <;> simp only [received, sent, frees]
  exacts [tallied.rx0, tallied.tx0, tallied.rx1, tallied.tx1, tallied.drops, tallied.balance]

theorem round_tallied {earlier : List (Call M)} {s : State} (tallied : Tallied earlier s.stats)
    (hz : BitVec 64) (r : Round M) :
    LinesTallied earlier (round hz s r).1 ∧
      Tallied (earlier ++ (round hz s r).1) (round hz s r).2.stats := by
  have counted := count1_tallied (count0_tallied tallied r.in0) r.in1
  rw [List.append_assoc] at counted
  have bursts : LinesTallied earlier (forward .port0 .port1 r.in0 ++ forward .port1 .port0 r.in1) :=
    (linesTallied_forward _ _ _ _).append (linesTallied_forward _ _ _ _)
  rw [round]
  split
  · refine ⟨bursts.append (linesTallied_printf counted), ?_⟩
    rw [← List.append_assoc]
    exact counted.printf _
  · exact ⟨bursts, counted⟩

theorem loop_tallied {earlier : List (Call M)} {s : State} (tallied : Tallied earlier s.stats)
    (hz : BitVec 64) (rounds : List (Round M)) :
    LinesTallied earlier (loop hz s rounds).1 ∧
      Tallied (earlier ++ (loop hz s rounds).1) (loop hz s rounds).2.stats := by
  induction rounds generalizing earlier s with
  | nil =>
    refine ⟨fun before stats after line => absurd line (by simp [loop]), ?_⟩
    rwa [loop, List.append_nil]
  | cons r rounds ih =>
    obtain ⟨lines, after⟩ := round_tallied tallied hz r
    obtain ⟨lines', after'⟩ := ih after
    rw [loop]
    refine ⟨lines.append lines', ?_⟩
    rwa [← List.append_assoc]

def Port.other : Port → Port
  | .port0 => .port1
  | .port1 => .port0

def InOrder (calls : List (Call M)) : Prop :=
  ∀ port : Port, (sentOn port.other calls).Sublist (receivedOn port calls)

theorem InOrder.append {calls rest : List (Call M)} (first : InOrder calls)
    (second : InOrder rest) : InOrder (calls ++ rest) := by
  intro port
  rw [sentOn_append, receivedOn_append]
  exact (first port).append (second port)

theorem inOrder_forward (rx : Port) (b : Burst M) : InOrder (forward rx rx.other b) := by
  intro port
  rw [sentOn_forward, receivedOn_forward]
  by_cases same : rx = port
  · rw [same, if_pos rfl, if_pos rfl]
    exact List.take_sublist _ _
  · have apart : rx.other ≠ port.other := by
      cases rx <;> cases port <;> simp_all [Port.other]
    rw [if_neg apart]
    exact List.nil_sublist _

theorem loop_inOrder (hz : BitVec 64) (s : State) (rounds : List (Round M)) :
    InOrder (loop hz s rounds).1 := by
  induction rounds generalizing s with
  | nil => exact fun _ => List.Sublist.refl _
  | cons r rounds ih =>
    have bursts := (inOrder_forward .port0 r.in0).append (inOrder_forward .port1 r.in1)
    have first : InOrder (round hz s r).1 := by
      rw [round]
      split
      · exact bursts.append fun _ => List.Sublist.refl _
      · exact bursts
    exact first.append (ih _)

theorem fill_effect (dst src port : Port) (slots : List (Option M × Bool)) :
    receivedOn port (fill dst src slots).1 = [] ∧ sentOn port (fill dst src slots).1 = [] ∧
      (fill dst src slots).2.length ≤ slots.length := by
  induction slots with
  | nil => exact ⟨rfl, rfl, le_rfl⟩
  | cons slot slots ih =>
    match slot with
    | (none, _) => exact ⟨rfl, rfl, Nat.zero_le _⟩
    | (some m, false) => exact ⟨rfl, rfl, Nat.zero_le _⟩
    | (some m, true) => exact ⟨ih.1, ih.2.1, Nat.succ_le_succ ih.2.2⟩

theorem seed_effect {dst src : Port} (s : Seeding M dst src) (port : Port) :
    receivedOn port s.calls = [] ∧
      (sentOn port s.calls).length ≤ if dst = port then burstSize else 0 := by
  obtain ⟨received, sent, few⟩ := fill_effect dst src port s.slots
  obtain ⟨received', sent', -⟩ := txAndFree_effect dst port (fill dst src s.slots).2 s.sent
  have taken := s.taken
  have size := s.size
  constructor
  · rw [Seeding.calls, receivedOn_append, received, received', List.append_nil]
  · rw [Seeding.calls, sentOn_append, sent, sent', List.nil_append]
    split
    · rw [List.length_take]
      omega
    · exact le_rfl

theorem seeding_effect (seed0 : Seeding M .port1 .port0) (seed1 : Seeding M .port0 .port1)
    (port : Port) :
    receivedOn port (seeding seed0 seed1) = [] ∧
      (sentOn port (seeding seed0 seed1)).length ≤ burstSize := by
  obtain ⟨received0, sent0⟩ := seed_effect seed0 port
  obtain ⟨received1, sent1⟩ := seed_effect seed1 port
  rw [seeding, receivedOn_append, sentOn_append, received0, received1, List.length_append]
  refine ⟨rfl, ?_⟩
  cases port <;> simp only [reduceCtorEq, if_true, if_false] at sent0 sent1 <;> omega

/-- Behind at most a burst of seeds a port takes what the other one received, in order and
without repetition; and the counters, at the end and in each line printed, are those of the calls
up to there, where every mbuf received is sent or dropped. -/
theorem forwarded_and_counted (hz start : BitVec 64) (seed0 : Seeding M .port1 .port0)
    (seed1 : Seeding M .port0 .port1) (rounds : List (Round M)) :
    let (calls, last) := echoIo hz start seed0 seed1 rounds
    ∃ seeds forwarded, calls = seeds ++ forwarded ∧
      (∀ port : Port, receivedOn port seeds = [] ∧ (sentOn port seeds).length ≤ burstSize ∧
        (sentOn port.other forwarded).Sublist (receivedOn port forwarded)) ∧
      Tallied forwarded last.stats ∧
      ∀ before stats after, forwarded = before ++ .printf stats :: after →
        Tallied before stats := by
  have zero : Tallied ([] : List (Call M)) ⟨0, 0, 0, 0, 0⟩ := by
    constructor <;> rfl
  obtain ⟨lines, last⟩ := loop_tallied (s := ⟨_, start + hz⟩) zero hz rounds
  exact ⟨seeding seed0 seed1, _, rfl, fun port =>
    ⟨(seeding_effect seed0 seed1 port).1, (seeding_effect seed0 seed1 port).2,
      loop_inOrder _ _ rounds port⟩, last, lines⟩

theorem forwarded_and_counted_short :
    sentOn .port1 shortRun.1 = [0, 10, 11] ∧ freed shortRun.1 = [1, 3, 12] ∧
      ∃ seeds forwarded, shortRun.1 = seeds ++ forwarded ∧
        (sentOn .port1 forwarded).Sublist (receivedOn .port0 forwarded) ∧
        Tallied forwarded shortRun.2.stats ∧ shortRun.2.stats.drops = 1 := by
  obtain ⟨seeds, forwarded, split, ports, tallied, -⟩ :=
    forwarded_and_counted 5 0 (emptiedPool 0) (emptiedPool 2) [oneDropped]
  exact ⟨by decide, by decide, seeds, forwarded, split, (ports .port0).2.2, tallied, by decide⟩

end HftLatencyLab.EchoIo
