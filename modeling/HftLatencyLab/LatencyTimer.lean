import HftLatencyLab.MealyRun
import HftLatencyLab.ProbeStream
import Mathlib.Tactic.Ring

/-! latency_timer.cpp between the start strobe of traffic_gen_const and the done
pulse of score_sink, one evaluation per clock. In a clock the generator makes as
many of its next writes as it gets to, the sink looks at one score, and the
timer sees what the ports then hold. Start is a level, and it outlives the stop
pulse. -/

namespace HftLatencyLab.LatencyTimer
open AxiStream ProbeStream

structure TimerRegs where
  counter : BitVec 32
  running : Bool
deriving DecidableEq

/-- The registers after one evaluation, and the `cycle_count` it writes. -/
def latencyTimer (startTrigger stopTrigger reset : Bool) (r : TimerRegs) :
    TimerRegs × BitVec 32 :=
  if reset then (⟨0, false⟩, 0)
  else
    let running := if startTrigger && !r.running then true else r.running
    let running := if stopTrigger && running then false else running
    let counter := if running then r.counter + 1 else r.counter
    (⟨counter, running⟩, counter)

structure Bench where
  pending : List GenWrite
  ports : GenPorts
  scores : List Axis32
  timer : TimerRegs
deriving DecidableEq

def Bench.powerOn : Bench where
  pending := []
  ports := ⟨false, false, false⟩
  scores := []
  timer := ⟨0, false⟩

/-- What happens around the bench in one clock: a call of the generator (taken
when the last one has returned), how many of its writes the generator gets to,
scores reaching the sink, and the reset register of the timer. -/
structure Clock where
  call : Option GenArgs
  writes : ℕ
  scores : List Axis32
  reset : Bool
deriving DecidableEq

structure Sample where
  startTrigger : Bool
  stopTrigger : Bool
  cycleCount : BitVec 32
deriving DecidableEq

def acceptCall (pending : List GenWrite) : Option GenArgs → List GenWrite
  | some a => if pending.isEmpty then trafficGenConst a else pending
  | none => pending

def bench : Mealy Bench Clock Sample where
  step s c :=
    let pending := acceptCall s.pending c.call
    let ports := (pending.take c.writes).foldl GenPorts.write s.ports
    let (donePulse, scores) := scoreSink (s.scores ++ c.scores)
    let (timer, cycleCount) := latencyTimer ports.hwStart donePulse c.reset s.timer
    (⟨pending.drop c.writes, ports, scores, timer⟩, ⟨ports.hwStart, donePulse, cycleCount⟩)

def Started (s : Bench) : Prop :=
  s.ports.hwStart = true ∧ ∀ w ∈ s.pending, w ≠ .hwStart false

def Undisturbed (c : Clock) : Prop := c.reset = false ∧ c.call = none

theorem latencyTimer_started (stopTrigger : Bool) (r : TimerRegs) :
    latencyTimer true stopTrigger false r =
      let counter := if stopTrigger then r.counter else r.counter + 1
      (⟨counter, !stopTrigger⟩, counter) := by
  obtain ⟨counter, running⟩ := r
  cases stopTrigger <;> cases running <;> rfl

theorem started_uncalled {s : Bench} {c : Clock} (h : Started s) (uncalled : c.call = none) :
    Started (bench.next s c) ∧ (bench.out s c).startTrigger = true := by
  obtain ⟨up, never⟩ := h
  have pending : acceptCall s.pending c.call = s.pending := by rw [uncalled]; rfl
  have held := write_hwStart_of_never s.ports
    (fun w hw => never w (List.mem_of_mem_take hw) : ∀ w ∈ s.pending.take c.writes, _) up
  rw [← pending] at held
  refine ⟨⟨held, ?_⟩, held⟩
  intro w hw
  have later : w ∈ (acceptCall s.pending c.call).drop c.writes := hw
  rw [pending] at later
  exact never w (List.mem_of_mem_drop later)

theorem started_step {s : Bench} {c : Clock} (h : Started s) (quiet : Undisturbed c) :
    Started (bench.next s c) ∧ (bench.out s c).startTrigger = true :=
  started_uncalled h quiet.2

theorem counter_step (s : Bench) (c : Clock) (up : (bench.out s c).startTrigger = true)
    (awake : c.reset = false) :
    (bench.next s c).timer.counter = (bench.out s c).cycleCount ∧
      (bench.out s c).cycleCount = if (bench.out s c).stopTrigger then s.timer.counter
        else s.timer.counter + 1 := by
  have next : (bench.next s c).timer = (latencyTimer (bench.out s c).startTrigger
    (bench.out s c).stopTrigger c.reset s.timer).1 := rfl
  have out : (bench.out s c).cycleCount = (latencyTimer (bench.out s c).startTrigger
    (bench.out s c).stopTrigger c.reset s.timer).2 := rfl
  rw [next, out, up, awake, latencyTimer_started]
  exact ⟨rfl, rfl⟩

theorem counter_counts {s : Bench} (cs : List Clock) (h : Started s)
    (quiet : ∀ c ∈ cs, Undisturbed c)
    (noPulse : ∀ x ∈ bench.outputs s cs, x.stopTrigger = false) :
    Started (bench.final s cs) ∧
      (bench.final s cs).timer.counter = s.timer.counter + BitVec.ofNat 32 cs.length := by
  induction cs generalizing s with
  | nil => exact ⟨h, by simp⟩
  | cons c cs ih =>
    obtain ⟨started, up⟩ := started_step h (quiet c (List.mem_cons_self ..))
    obtain ⟨kept, count⟩ := counter_step s c up (quiet c (List.mem_cons_self ..)).1
    rw [noPulse _ (List.mem_cons_self ..)] at count
    obtain ⟨later, total⟩ := ih started (fun d hd => quiet d (List.mem_cons_of_mem c hd))
      (fun x hx => noPulse x (List.mem_cons_of_mem _ hx))
    refine ⟨later, ?_⟩
    rw [Mealy.final_cons, total, kept, count, List.length_cons]
    apply BitVec.eq_of_toNat_eq
    simp
    omega

theorem counter_stands_iff {s : Bench} (cs : List Clock) (h : Started s)
    (quiet : ∀ c ∈ cs, Undisturbed c) :
    (∀ x ∈ bench.outputs s cs, x.cycleCount = s.timer.counter) ↔
      ∀ x ∈ bench.outputs s cs, x.stopTrigger = true := by
  induction cs generalizing s with
  | nil => simp
  | cons c cs ih =>
    obtain ⟨started, up⟩ := started_step h (quiet c (List.mem_cons_self ..))
    obtain ⟨kept, count⟩ := counter_step s c up (quiet c (List.mem_cons_self ..)).1
    have later := ih started (fun d hd => quiet d (List.mem_cons_of_mem c hd))
    rw [Mealy.outputs_cons, List.forall_mem_cons, List.forall_mem_cons, count]
    cases pulse : (bench.out s c).stopTrigger with
    | true =>
      rw [pulse, if_pos rfl] at count
      rw [kept, count] at later
      simpa using later
    | false =>
      simp

theorem ordered_accept {s : Bench} (h : Ordered s.pending) (call : Option GenArgs) :
    Ordered (acceptCall s.pending call) := by
  unfold acceptCall
  cases call with
  | none => exact h
  | some a =>
    dsimp only
    split
    · exact ordered_trafficGenConst a
    · exact h

theorem ordered_next {s : Bench} (h : Ordered s.pending) (c : Clock) :
    Ordered (bench.next s c).pending := by
  exact (ordered_accept h c.call).sublist (List.drop_sublist _ _)

theorem ordered_final (cs : List Clock) : Ordered (bench.final .powerOn cs).pending :=
  bench.final_invariant (I := fun s => Ordered s.pending) (fun _ c h => ordered_next h c) .powerOn
    cs List.Pairwise.nil

theorem started_of_rise {s : Bench} {c : Clock} (h : Ordered s.pending)
    (down : s.ports.hwStart = false) (up : (bench.out s c).startTrigger = true) :
    Started (bench.next s c) := by
  have accepted := ordered_accept h c.call
  have raised := hwStart_mem_of_rise s.ports down up
  rw [← List.take_append_drop c.writes (acceptCall s.pending c.call), Ordered,
    List.pairwise_append] at accepted
  exact ⟨up, fun w hw => accepted.2.2 _ raised w hw rfl⟩

/-- Clock `a` of a run is a rising edge of the strobe, clock `b` brings the first
stop pulse after it, and neither a reset nor a call comes between them or in the
clocks `post` after them. -/
structure Measured (pre : List Clock) (a : Clock) (mid : List Clock) (b : Clock)
    (post : List Clock) : Prop where
  down : (bench.final .powerOn pre).ports.hwStart = false
  rises : (bench.out (bench.final .powerOn pre) a).startTrigger = true
  awake : a.reset = false
  undisturbed : ∀ c ∈ mid ++ b :: post, Undisturbed c
  noPulse : ∀ x ∈ bench.outputs (bench.final .powerOn pre) (a :: mid), x.stopTrigger = false
  pulse : (bench.out (bench.final .powerOn (pre ++ a :: mid)) b).stopTrigger = true

/-- The count at clock `b` and at every later clock is `b - a`. -/
def Stopped (pre : List Clock) (a : Clock) (mid : List Clock) (b : Clock) (post : List Clock) :
    Prop :=
  ∀ x ∈ bench.outputs (bench.final .powerOn (pre ++ a :: mid)) (b :: post),
    x.cycleCount.toNat = mid.length + 1

theorem Measured.counter {pre : List Clock} {a : Clock} {mid : List Clock} {b : Clock}
    {post : List Clock} (m : Measured pre a mid b post) :
    Started (bench.final .powerOn (pre ++ a :: mid)) ∧
      (bench.final .powerOn (pre ++ a :: mid)).timer.counter.toNat =
        ((bench.final .powerOn pre).timer.counter.toNat + (mid.length + 1)) % 2 ^ 32 := by
  have started := started_of_rise (ordered_final pre) m.down m.rises
  obtain ⟨kept, count⟩ := counter_step _ a m.rises m.awake
  rw [m.noPulse _ (List.mem_cons_self ..)] at count
  obtain ⟨later, total⟩ := counter_counts mid started
    (fun c hc => m.undisturbed c (List.mem_append_left _ hc))
    (fun x hx => m.noPulse x (List.mem_cons_of_mem _ hx))
  rw [Mealy.final_append, Mealy.final_cons]
  refine ⟨later, ?_⟩
  rw [total, kept, count]
  simp only [Bool.false_eq_true, if_false, BitVec.toNat_add, BitVec.toNat_ofNat]
  change (((_ + 1) % 2 ^ 32) + mid.length % 2 ^ 32) % 2 ^ 32 = _
  omega

/-- The timer stops for good only if it started from zero and every clock after
the first stop pulse brings another one: the strobe is still up, and re-arms it. -/
theorem stopped_iff (pre : List Clock) (a : Clock) (mid : List Clock) (b : Clock)
    (post : List Clock) (m : Measured pre a mid b post) :
    Stopped pre a mid b post ↔
      (bench.final .powerOn pre).timer.counter = 0 ∧ mid.length + 1 < 2 ^ 32 ∧
        ∀ x ∈ bench.outputs (bench.final .powerOn (pre ++ a :: (mid ++ [b]))) post,
          x.stopTrigger = true := by
  obtain ⟨started, value⟩ := m.counter
  have before := (bench.final .powerOn pre).timer.counter.isLt
  have quiet : Undisturbed b := m.undisturbed b (by simp)
  obtain ⟨after, up⟩ := started_step started quiet
  obtain ⟨kept, count⟩ := counter_step _ b up quiet.1
  rw [m.pulse, if_pos rfl] at count
  have stands := counter_stands_iff post after (fun c hc => m.undisturbed c (by simp [hc]))
  have state : bench.final .powerOn (pre ++ a :: (mid ++ [b])) =
      bench.next (bench.final .powerOn (pre ++ a :: mid)) b := by
    rw [← List.cons_append, ← List.append_assoc, Mealy.final_append]
    rfl
  rw [kept, count] at stands
  rw [Stopped, Mealy.outputs_cons, List.forall_mem_cons, count, state, ← stands]
  constructor
  · rintro ⟨now, later⟩
    refine ⟨BitVec.eq_of_toNat_eq (by change _ = 0; omega), by omega, fun x hx => ?_⟩
    exact BitVec.eq_of_toNat_eq ((later x hx).trans now.symm)
  · rintro ⟨zero, range, later⟩
    rw [zero] at value
    have now : (bench.final .powerOn (pre ++ a :: mid)).timer.counter.toNat = mid.length + 1 := by
      change _ = (0 + (mid.length + 1)) % 2 ^ 32 at value
      rw [value, Nat.zero_add, Nat.mod_eq_of_lt range]
    exact ⟨now, fun x hx => by rw [later x hx, now]⟩

def callClock : Clock := ⟨some ⟨1, true, 0, 0, 0, 0⟩, 4, [], false⟩

def wordClock : Clock := ⟨none, 3, [], false⟩

def scoreClock : Clock := ⟨none, 0, [⟨0, 0xF, 0xF, true⟩], false⟩

def idleClock : Clock := ⟨none, 0, [], false⟩

theorem measured_one_word : Measured [] callClock [wordClock] scoreClock [idleClock] where
  down := rfl
  rises := rfl
  awake := rfl
  undisturbed := by
    unfold Undisturbed
    decide
  noPulse := by decide
  pulse := rfl

theorem stopped_one_word_iff :
    Stopped [] callClock [wordClock] scoreClock [idleClock] ↔
      (bench.final .powerOn []).timer.counter = 0 ∧ [wordClock].length + 1 < 2 ^ 32 ∧
        ∀ x ∈ bench.outputs
          (bench.final .powerOn ([] ++ callClock :: ([wordClock] ++ [scoreClock]))) [idleClock],
          x.stopTrigger = true :=
  stopped_iff _ _ _ _ _ measured_one_word

/-- One idle clock after the stop pulse the count goes on. -/
theorem rearmed_after_one_word :
    Measured [] callClock [wordClock] scoreClock [idleClock] ∧
      ¬Stopped [] callClock [wordClock] scoreClock [idleClock] := by
  refine ⟨measured_one_word, ?_⟩
  unfold Stopped
  decide

end HftLatencyLab.LatencyTimer
