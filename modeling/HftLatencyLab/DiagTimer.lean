import HftLatencyLab.LatencyTimer

/-! run_fpga_once of soc_latency_diag_core.py around the bench. The script releases the reset of
the timer before it calls the generator, and by then the strobe of the call before is still up.
From the second measurement on the timer counts from the release to the reading, and a score
only takes the clocks of its own pulses off. -/

namespace HftLatencyLab.DiagTimer
open AxiStream ProbeStream LatencyTimer

/-- The clocks of one call of run_fpga_once: the reset register is 1, it is 0 again, the
generator is called, and the count is read; and whether `ap_done` was seen in time. -/
structure Measurement where
  held : List Clock
  released : List Clock
  call : Clock
  after : List Clock
  tgenDone : Bool
  holds : held ≠ [] ∧ ∀ c ∈ held, c.reset = true ∧ c.call = none
  quiet : ∀ c ∈ released ++ after, Undisturbed c
  starts : call.reset = false ∧ ∃ a, call.call = some a ∧ a.start = true

def Measurement.awake (m : Measurement) : List Clock := m.released ++ m.call :: m.after

def Measurement.clocks (m : Measurement) : List Clock := m.held ++ m.awake

def readFabricCyclesDirect (s : Bench) (cs : List Clock) : ℕ :=
  (bench.outputs s cs).getLast?.elim s.timer.counter Sample.cycleCount |>.toNat

def runFpgaOnce (s : Bench) (m : Measurement) : Option ℕ :=
  if m.tgenDone then
    let c := readFabricCyclesDirect s m.clocks
    if 0 < c then some c else none
  else none

def script : Mealy Bench Measurement (Option ℕ) where
  step s m := (bench.final s m.clocks, runFpgaOnce s m)

/-- `ap_done` is seen only after the generator has returned. -/
def Returned (s : Bench) (m : Measurement) : Prop := (bench.final s m.clocks).pending = []

def pulses (s : Bench) (cs : List Clock) : ℕ := (bench.outputs s cs).countP (·.stopTrigger)

def low (s : Bench) (cs : List Clock) : ℕ := (bench.outputs s cs).countP (!·.startTrigger)

theorem out_cycleCount (s : Bench) (c : Clock) :
    (bench.out s c).cycleCount = (bench.next s c).timer.counter := by
  change (latencyTimer _ _ _ _).2 = (latencyTimer _ _ _ _).1.counter
  rw [latencyTimer]
  split <;> rfl

theorem readFabricCyclesDirect_eq (s : Bench) (cs : List Clock) :
    readFabricCyclesDirect s cs = (bench.final s cs).timer.counter.toNat := by
  have last := bench.getLast?_outputs (v := fun s => s.timer.counter) (r := Sample.cycleCount)
    out_cycleCount s cs
  rw [readFabricCyclesDirect, last]

theorem pulses_cons (s : Bench) (c : Clock) (cs : List Clock) :
    pulses s (c :: cs) = pulses (bench.next s c) cs + (bench.out s c).stopTrigger.toNat := by
  rw [pulses, Mealy.outputs_cons, List.countP_cons, pulses]
  cases (bench.out s c).stopTrigger <;> rfl

theorem low_cons (s : Bench) (c : Clock) (cs : List Clock) :
    low s (c :: cs) = low (bench.next s c) cs + (!(bench.out s c).startTrigger).toNat := by
  rw [low, Mealy.outputs_cons, List.countP_cons, low]
  cases (bench.out s c).startTrigger <;> rfl

theorem latencyTimer_counts (start stop : Bool) (r : TimerRegs) :
    ∃ k, (latencyTimer start stop false r).1.counter = r.counter + BitVec.ofNat 32 k ∧
      k + stop.toNat ≤ 1 ∧ 1 ≤ k + stop.toNat + (!start).toNat := by
  obtain ⟨counter, running⟩ := r
  refine ⟨((start || running) && !stop).toNat, ?_⟩
  cases start <;> cases stop <;> cases running <;> simp [latencyTimer]

theorem counter_run (s : Bench) (cs : List Clock) (awake : ∀ c ∈ cs, c.reset = false) :
    ∃ k, (bench.final s cs).timer.counter = s.timer.counter + BitVec.ofNat 32 k ∧
      k + pulses s cs ≤ cs.length ∧ cs.length ≤ k + pulses s cs + low s cs := by
  induction cs generalizing s with
  | nil => exact ⟨0, by simp [pulses, low]⟩
  | cons c cs ih =>
    obtain ⟨k, total, most, least⟩ := ih (bench.next s c) fun d hd =>
      awake d (List.mem_cons_of_mem c hd)
    obtain ⟨k', one, most', least'⟩ := latencyTimer_counts (bench.out s c).startTrigger
      (bench.out s c).stopTrigger s.timer
    have next : (bench.next s c).timer.counter = s.timer.counter + BitVec.ofNat 32 k' := by
      rw [← one, ← awake c List.mem_cons_self]
      rfl
    refine ⟨k' + k, ?_, ?_, ?_⟩
    · rw [Mealy.final_cons, total, next, BitVec.ofNat_add, BitVec.add_assoc]
    · rw [pulses_cons, List.length_cons]
      omega
    · rw [pulses_cons, low_cons, List.length_cons]
      omega

def StrobeLeft (s : Bench) : Prop := s.pending = [] ∧ s.ports.hwStart = true

theorem StrobeLeft.started {s : Bench} (h : StrobeLeft s) : Started s := by
  refine ⟨h.2, fun w mem => ?_⟩
  rw [h.1] at mem
  cases mem

theorem uncalled_run (s : Bench) (cs : List Clock) (uncalled : ∀ c ∈ cs, c.call = none) :
    ∃ made, s.pending = made ++ (bench.final s cs).pending ∧
      (bench.final s cs).ports = made.foldl GenPorts.write s.ports := by
  induction cs generalizing s with
  | nil => exact ⟨[], rfl, rfl⟩
  | cons c cs ih =>
    obtain ⟨made, rest, ports⟩ := ih (bench.next s c) fun d hd =>
      uncalled d (List.mem_cons_of_mem c hd)
    have accepted : acceptCall s.pending c.call = s.pending := by
      rw [uncalled c List.mem_cons_self]
      rfl
    have pending : (bench.next s c).pending = s.pending.drop c.writes := by
      change (acceptCall s.pending c.call).drop c.writes = _
      rw [accepted]
    have written : (bench.next s c).ports =
        (s.pending.take c.writes).foldl GenPorts.write s.ports := by
      change ((acceptCall s.pending c.call).take c.writes).foldl GenPorts.write s.ports = _
      rw [accepted]
    refine ⟨s.pending.take c.writes ++ made, ?_, ?_⟩
    · rw [Mealy.final_cons, List.append_assoc, ← rest, pending, List.take_append_drop]
    · rw [Mealy.final_cons, ports, written, List.foldl_append]

theorem strobe_up_run {s : Bench} (cs : List Clock) (h : Started s)
    (uncalled : ∀ c ∈ cs, c.call = none) : Started (bench.final s cs) ∧ low s cs = 0 := by
  induction cs generalizing s with
  | nil => exact ⟨h, rfl⟩
  | cons c cs ih =>
    obtain ⟨started, up⟩ := started_uncalled h (uncalled c List.mem_cons_self)
    obtain ⟨later, none⟩ := ih started fun d hd => uncalled d (List.mem_cons_of_mem c hd)
    refine ⟨later, ?_⟩
    rw [low_cons, none, up]
    rfl

theorem strobe_of_call {a : GenArgs} (start : a.start = true) (p : GenPorts) :
    ((trafficGenConst a).foldl GenPorts.write p).hwStart = true := by
  have writes : trafficGenConst a =
      [.done false, .hwStart false, .lastPulse false, .hwStart true] ++
        ((List.range a.numWords.toNat).flatMap (emitWord a) ++ [.done true]) := by
    rw [trafficGenConst, start]
    rfl
  rw [writes, List.foldl_append]
  refine write_hwStart_of_never _ (fun w mem => ?_) rfl
  rcases List.mem_append.mp mem with word | done
  · obtain ⟨i, -, here⟩ := List.mem_flatMap.mp word
    exact emitWord_ne a i w here
  · rw [List.mem_singleton.mp done]
    simp

theorem low_append (s : Bench) (cs ds : List Clock) :
    low s (cs ++ ds) = low s cs + low (bench.final s cs) ds := by
  rw [low, Mealy.outputs_append, List.countP_append, low, low]

theorem Measurement.uncalled (m : Measurement) : ∀ c ∈ m.held ++ m.released, c.call = none := by
  intro c mem
  rcases List.mem_append.mp mem with held | released
  · exact (m.holds.2 c held).2
  · exact (m.quiet c (List.mem_append_left _ released)).2

theorem Measurement.awake_reset (m : Measurement) : ∀ c ∈ m.awake, c.reset = false := by
  intro c mem
  rcases List.mem_append.mp mem with released | later
  · exact (m.quiet c (List.mem_append_left _ released)).1
  · rcases List.mem_cons.mp later with rfl | after
    · exact m.starts.1
    · exact (m.quiet c (List.mem_append_right _ after)).1

theorem reset_run (s : Bench) {cs : List Clock} (some : cs ≠ [])
    (reset : ∀ c ∈ cs, c.reset = true) : (bench.final s cs).timer.counter = 0 := by
  obtain ⟨before, last, rfl⟩ := (List.eq_nil_or_concat' cs).resolve_left some
  have up : last.reset = true := reset last (by simp)
  rw [Mealy.final_append]
  change (latencyTimer _ _ last.reset _).1.counter = 0
  rw [up]
  rfl

theorem strobeLeft_of_returned {s : Bench} (idle : s.pending = []) {m : Measurement}
    (returned : Returned s m) : StrobeLeft (bench.final s m.clocks) := by
  obtain ⟨call, a, called, start⟩ := m.starts
  obtain ⟨made, kept, -⟩ := uncalled_run s (m.held ++ m.released) m.uncalled
  rw [idle] at kept
  have waiting := (List.append_eq_nil_iff.mp kept.symm).2
  have accepted : acceptCall (bench.final s (m.held ++ m.released)).pending m.call.call =
      trafficGenConst a := by
    rw [waiting, called]
    rfl
  have calls (c : Clock) (mem : c ∈ m.after) : c.call = none :=
    (m.quiet c (List.mem_append_right _ mem)).2
  obtain ⟨later, rest, ports⟩ :=
    uncalled_run (bench.next (bench.final s (m.held ++ m.released)) m.call) m.after calls
  have ends : bench.final s m.clocks =
      bench.final (bench.next (bench.final s (m.held ++ m.released)) m.call) m.after := by
    rw [Measurement.clocks, Measurement.awake, ← List.append_assoc, Mealy.final_append,
      Mealy.final_cons]
  have written : (bench.next (bench.final s (m.held ++ m.released)) m.call).ports =
      ((trafficGenConst a).take m.call.writes).foldl GenPorts.write
        (bench.final s (m.held ++ m.released)).ports := by
    rw [← accepted]
    rfl
  have pending : (bench.next (bench.final s (m.held ++ m.released)) m.call).pending =
      (trafficGenConst a).drop m.call.writes := by
    rw [← accepted]
    rfl
  rw [Returned, ends] at returned
  rw [returned, List.append_nil, pending] at rest
  refine ⟨ends ▸ returned, ?_⟩
  rw [ends, ports, written, ← rest, ← List.foldl_append, List.take_append_drop]
  exact strobe_of_call start _

/-- From a strobe that is up the count is that of the clocks since the reset, but for the pulses
and for what the strobe is down during the call. -/
theorem reading_of_strobeLeft {s : Bench} (left : StrobeLeft s) {m : Measurement} {c : ℕ}
    (read : runFpgaOnce s m = some c) :
    ∃ k, c = k % 2 ^ 32 ∧
      k + pulses (bench.final s m.held) m.awake ≤ m.awake.length ∧
      m.awake.length ≤ k + pulses (bench.final s m.held) m.awake +
        low (bench.final s (m.held ++ m.released)) (m.call :: m.after) := by
  obtain ⟨k, count, most, least⟩ := counter_run (bench.final s m.held) m.awake m.awake_reset
  have started := (strobe_up_run m.held left.started fun c mem =>
    m.uncalled c (List.mem_append_left _ mem)).1
  have still := (strobe_up_run m.released started fun c mem =>
    m.uncalled c (List.mem_append_right _ mem)).2
  have zero := reset_run s m.holds.1 fun c mem => (m.holds.2 c mem).1
  have value : c = readFabricCyclesDirect s m.clocks := by
    rw [runFpgaOnce] at read
    dsimp only at read
    split_ifs at read
    exact (Option.some.inj read).symm
  refine ⟨k, ?_, most, ?_⟩
  · rw [value, readFabricCyclesDirect_eq, Measurement.clocks, Mealy.final_append, count, zero]
    simp
  · have split : low (bench.final s m.held) m.awake =
        low (bench.final s (m.held ++ m.released)) (m.call :: m.after) := by
      rw [Measurement.awake, low_append, still, Nat.zero_add, Mealy.final_append]
    omega

theorem strobeLeft_of_script {first : Measurement} {earlier : List Measurement}
    (returned : script.Along Returned .powerOn (first :: earlier)) :
    StrobeLeft (script.final .powerOn (first :: earlier)) := by
  obtain ⟨one, rest⟩ := returned
  have left : StrobeLeft (script.next .powerOn first) := strobeLeft_of_returned rfl one
  have keep (s : Bench) (m : Measurement) (held : StrobeLeft s) (returns : Returned s m) :
      StrobeLeft (script.next s m) := strobeLeft_of_returned held.1 returns
  exact rest.prefixes keep left List.prefix_rfl

/-- In every run of the script whose calls return, each count after the first is, in 32 bits, the
number of clocks from the release of the reset to the reading, less those with a pulse of the sink
and at most those in which the call has the strobe down. The clock of a start is counted. -/
theorem readings_from_release {first : Measurement} {earlier : List Measurement}
    (returned : script.Along Returned .powerOn (first :: earlier)) (m : Measurement) {c : ℕ}
    (read : runFpgaOnce (script.final .powerOn (first :: earlier)) m = some c) :
    let s := script.final .powerOn (first :: earlier)
    ∃ k, c = k % 2 ^ 32 ∧
      k + pulses (bench.final s m.held) m.awake ≤ m.awake.length ∧
      m.awake.length ≤ k + pulses (bench.final s m.held) m.awake +
        low (bench.final s (m.held ++ m.released)) (m.call :: m.after) :=
  reading_of_strobeLeft (strobeLeft_of_script returned) read

def oneWord : Measurement where
  held := [⟨none, 0, [], true⟩]
  released := [idleClock]
  call := callClock
  after := [wordClock, scoreClock, idleClock]
  tgenDone := true
  holds := ⟨by simp, by simp⟩
  quiet := by
    unfold Undisturbed
    decide
  starts := ⟨rfl, _, rfl, rfl⟩

/-- The second time it is measured as four: five clocks from the release, with one pulse. -/
theorem readings_from_release_one_word :
    runFpgaOnce (script.final .powerOn [oneWord]) oneWord = some 4 ∧
      let s := script.final .powerOn [oneWord]
      ∃ k, 4 = k % 2 ^ 32 ∧
        k + pulses (bench.final s oneWord.held) oneWord.awake ≤ oneWord.awake.length ∧
        oneWord.awake.length ≤ k + pulses (bench.final s oneWord.held) oneWord.awake +
          low (bench.final s (oneWord.held ++ oneWord.released))
            (oneWord.call :: oneWord.after) := by
  have read : runFpgaOnce (script.final .powerOn [oneWord]) oneWord = some 4 := by decide
  have returned : script.Along Returned .powerOn [oneWord] :=
    ⟨show (bench.final .powerOn oneWord.clocks).pending = [] by decide, trivial⟩
  exact ⟨read, readings_from_release returned oneWord read⟩

end HftLatencyLab.DiagTimer
