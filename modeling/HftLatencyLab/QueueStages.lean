import HftLatencyLab.BoundedFifo
import HftLatencyLab.MealyRun
import HftLatencyLab.PartialFold

/-! Three threads in a row: a source that queues what arrives, a machine that answers from one
queue into the next, and a sink. Both queues may be bounded, a thread keeps the one item it
waits to hand on, and source and sink may each end on a failure. Whatever the order of their
steps, what has left the sink is a prefix of what the machine alone answers. As long as neither
fails they cannot block each other, and they come to an end with everything sent; once the sink
has failed the machine is blocked by its full queue. -/

namespace HftLatencyLab.QueueStages

variable {σ ι ο : Type*} {m n : Option ℕ}

structure Stages (σ ι ο : Type*) (m n : Option ℕ) where
  /-- What the source has not taken yet. -/
  arriving : List ι
  /-- Taken by the source, waiting for room. -/
  received : Option ι
  rx : BoundedFifo ι m
  state : σ
  /-- Built by the machine, waiting for room. -/
  answer : Option ο
  tx : BoundedFifo ο n
  /-- Fetched by the sink, not sent. -/
  sending : Option ο
  sent : List ο
  sourceEnded : Bool
  sinkEnded : Bool

def Stages.start (s₀ : σ) (arrivals : List ι) : Stages σ ι ο m n where
  arriving := arrivals
  received := none
  rx := .empty
  state := s₀
  answer := none
  tx := .empty
  sending := none
  sent := []
  sourceEnded := false
  sinkEnded := false

inductive Move
  | take
  | takeFails
  | queue
  | handle
  | reply
  | fetch
  | send
  | sendFails
deriving DecidableEq

def Move.Smooth (mv : Move) : Prop := mv ≠ .takeFails ∧ mv ≠ .sendFails

instance (mv : Move) : Decidable mv.Smooth := inferInstanceAs (Decidable (_ ∧ _))

namespace Stages

def take? (s : Stages σ ι ο m n) : Option (Stages σ ι ο m n) :=
  match s.arriving with
  | [] => none
  | x :: rest =>
    if s.sourceEnded = false ∧ s.received = none then
      some { s with arriving := rest, received := some x }
    else none

def takeFails? (s : Stages σ ι ο m n) : Option (Stages σ ι ο m n) :=
  if s.sourceEnded = false ∧ s.received = none then some { s with sourceEnded := true } else none

def queue? (s : Stages σ ι ο m n) : Option (Stages σ ι ο m n) :=
  s.received.bind fun x => (s.rx.write? x).map fun rx => { s with received := none, rx := rx }

/-- The machine does not go on while it waits with an answer. -/
def handle? (M : Mealy σ ι (Option ο)) (s : Stages σ ι ο m n) : Option (Stages σ ι ο m n) :=
  match s.rx.read? with
  | none => none
  | some (x, rx) =>
    if s.answer = none then
      some { s with rx := rx, state := M.next s.state x, answer := M.out s.state x }
    else none

def reply? (s : Stages σ ι ο m n) : Option (Stages σ ι ο m n) :=
  s.answer.bind fun o => (s.tx.write? o).map fun tx => { s with answer := none, tx := tx }

def fetch? (s : Stages σ ι ο m n) : Option (Stages σ ι ο m n) :=
  match s.tx.read? with
  | none => none
  | some (o, tx) =>
    if s.sinkEnded = false ∧ s.sending = none then some { s with tx := tx, sending := some o }
    else none

def send? (s : Stages σ ι ο m n) : Option (Stages σ ι ο m n) :=
  s.sending.map fun o => { s with sending := none, sent := s.sent ++ [o] }

/-- What was to be sent is lost. -/
def sendFails? (s : Stages σ ι ο m n) : Option (Stages σ ι ο m n) :=
  s.sending.map fun _ => { s with sending := none, sinkEnded := true }

def step (M : Mealy σ ι (Option ο)) (s : Stages σ ι ο m n) :
    Move → Option (Stages σ ι ο m n)
  | .take => s.take?
  | .takeFails => s.takeFails?
  | .queue => s.queue?
  | .handle => s.handle? M
  | .reply => s.reply?
  | .fetch => s.fetch?
  | .send => s.send?
  | .sendFails => s.sendFails?

def run (M : Mealy σ ι (Option ο)) (s : Stages σ ι ο m n) (moves : List Move) :
    Option (Stages σ ι ο m n) := moves.foldlM (step M) s

theorem run_append {M : Mealy σ ι (Option ο)} {s s' s'' : Stages σ ι ο m n}
    {moves after : List Move} (ran : s.run M moves = some s') (went : s'.run M after = some s'') :
    s.run M (moves ++ after) = some s'' := by
  rw [run, List.foldlM_append]
  exact Option.bind_eq_some_iff.mpr ⟨s', ran, went⟩

def Quiet (M : Mealy σ ι (Option ο)) (s : Stages σ ι ο m n) : Prop :=
  ∀ mv : Move, mv.Smooth → s.step M mv = none

end Stages

open Stages

section Moves

variable {M : Mealy σ ι (Option ο)} {s s' : Stages σ ι ο m n}

theorem take_cases (moved : s.take? = some s') :
    ∃ x rest, s.arriving = x :: rest ∧ s.received = none ∧
      s' = { s with arriving := rest, received := some x } := by
  unfold take? at moved
  split at moved
  · cases moved
  · next x rest arriving =>
    split_ifs at moved with free
    exact ⟨x, rest, arriving, free.2, (Option.some.inj moved).symm⟩

theorem queue_cases (moved : s.queue? = some s') :
    ∃ x rx, s.received = some x ∧ rx.items = s.rx.items ++ [x] ∧
      s' = { s with received := none, rx := rx } := by
  obtain ⟨x, received, later⟩ := Option.bind_eq_some_iff.mp moved
  obtain ⟨rx, written, rfl⟩ := Option.map_eq_some_iff.mp later
  exact ⟨x, rx, received, BoundedFifo.items_of_write? written, rfl⟩

theorem handle_cases (moved : s.handle? M = some s') :
    ∃ x rx, s.rx.items = x :: rx.items ∧ s.answer = none ∧
      s' = { s with rx := rx, state := M.next s.state x, answer := M.out s.state x } := by
  unfold handle? at moved
  split at moved
  · cases moved
  · next x rx read =>
    split_ifs at moved with free
    exact ⟨x, rx, BoundedFifo.items_of_read? read, free, (Option.some.inj moved).symm⟩

theorem reply_cases (moved : s.reply? = some s') :
    ∃ o tx, s.answer = some o ∧ tx.items = s.tx.items ++ [o] ∧
      s' = { s with answer := none, tx := tx } := by
  obtain ⟨o, answer, later⟩ := Option.bind_eq_some_iff.mp moved
  obtain ⟨tx, written, rfl⟩ := Option.map_eq_some_iff.mp later
  exact ⟨o, tx, answer, BoundedFifo.items_of_write? written, rfl⟩

theorem fetch_cases (moved : s.fetch? = some s') :
    ∃ o tx, s.tx.items = o :: tx.items ∧ s.sinkEnded = false ∧ s.sending = none ∧
      s' = { s with tx := tx, sending := some o } := by
  unfold fetch? at moved
  split at moved
  · cases moved
  · next o tx read =>
    split_ifs at moved with free
    exact ⟨o, tx, BoundedFifo.items_of_read? read, free.1, free.2, (Option.some.inj moved).symm⟩

theorem send_cases (moved : s.send? = some s') :
    ∃ o, s.sending = some o ∧ s' = { s with sending := none, sent := s.sent ++ [o] } := by
  obtain ⟨o, sending, rfl⟩ := Option.map_eq_some_iff.mp moved
  exact ⟨o, sending, rfl⟩

theorem sendFails_cases (moved : s.sendFails? = some s') :
    ∃ o, s.sending = some o ∧ s' = { s with sending := none, sinkEnded := true } := by
  obtain ⟨o, sending, rfl⟩ := Option.map_eq_some_iff.mp moved
  exact ⟨o, sending, rfl⟩

theorem takeFails_cases (moved : s.takeFails? = some s') :
    s.sourceEnded = false ∧ s' = { s with sourceEnded := true } := by
  unfold takeFails? at moved
  split_ifs at moved with free
  exact ⟨free.1, (Option.some.inj moved).symm⟩

end Moves

section Runs

variable {M : Mealy σ ι (Option ο)} {s₀ : σ} {arrivals : List ι} {s s' : Stages σ ι ο m n}

/-- The machine has handled `handled`, and its answers are sent, on their way, or were lost
when the sink failed. -/
structure Accounts (M : Mealy σ ι (Option ο)) (s₀ : σ) (arrivals : List ι)
    (s : Stages σ ι ο m n) (handled : List ι) (lost : List ο) : Prop where
  inputs : handled ++ (s.rx.items ++ (s.received.toList ++ s.arriving)) = arrivals
  state : s.state = M.final s₀ handled
  answers : s.sent ++ (lost ++ (s.sending.toList ++ (s.tx.items ++ s.answer.toList))) =
    M.answers s₀ handled
  lossless : s.sinkEnded = false → lost = []
  lostOne : s.sinkEnded = true → lost.length = 1
  idle : s.sinkEnded = true → s.sending = none

theorem accounts_start : Accounts M s₀ arrivals (.start s₀ arrivals : Stages σ ι ο m n) [] [] where
  inputs := rfl
  state := rfl
  answers := rfl
  lossless _ := rfl
  lostOne ended := by cases ended
  idle ended := by cases ended

theorem Accounts.step {handled : List ι} {lost : List ο}
    (h : Accounts M s₀ arrivals s handled lost) {mv : Move} (moved : s.step M mv = some s') :
    ∃ handled' lost', Accounts M s₀ arrivals s' handled' lost' := by
  obtain ⟨inputs, state, answers, lossless, lostOne, idle⟩ := h
  cases mv with
  | take =>
    obtain ⟨x, rest, arriving, received, rfl⟩ := take_cases moved
    refine ⟨handled, lost, ?_, state, answers, lossless, lostOne, idle⟩
    rw [← inputs, arriving, received]
    rfl
  | takeFails =>
    obtain ⟨-, rfl⟩ := takeFails_cases moved
    exact ⟨handled, lost, inputs, state, answers, lossless, lostOne, idle⟩
  | queue =>
    obtain ⟨x, rx, received, items, rfl⟩ := queue_cases moved
    refine ⟨handled, lost, ?_, state, answers, lossless, lostOne, idle⟩
    rw [← inputs, items, received]
    simp
  | handle =>
    obtain ⟨x, rx, items, free, rfl⟩ := handle_cases moved
    refine ⟨handled ++ [x], lost, ?_, ?_, ?_, lossless, lostOne, idle⟩
    · rw [← inputs, items]
      simp
    · rw [Mealy.final_append, ← state]
      rfl
    · rw [Mealy.answers_append, Mealy.answers_singleton, ← answers, ← state, free]
      simp
  | reply =>
    obtain ⟨o, tx, answer, items, rfl⟩ := reply_cases moved
    refine ⟨handled, lost, inputs, state, ?_, lossless, lostOne, idle⟩
    rw [← answers, items, answer]
    simp
  | fetch =>
    obtain ⟨o, tx, items, alive, free, rfl⟩ := fetch_cases moved
    refine ⟨handled, lost, inputs, state, ?_, lossless, lostOne, fun ended => ?_⟩
    · rw [← answers, items, free]
      simp
    · rw [alive] at ended
      cases ended
  | send =>
    obtain ⟨o, sending, rfl⟩ := send_cases moved
    -- The sink still sends, so it has not failed and nothing is lost.
    have alive : s.sinkEnded = false := by
      cases ended : s.sinkEnded with
      | false => rfl
      | true =>
        rw [idle ended] at sending
        cases sending
    have none := lossless alive
    subst none
    refine ⟨handled, [], inputs, state, ?_, lossless, lostOne, fun _ => rfl⟩
    rw [← answers, sending]
    simp
  | sendFails =>
    obtain ⟨o, sending, rfl⟩ := sendFails_cases moved
    have alive : s.sinkEnded = false := by
      cases ended : s.sinkEnded with
      | false => rfl
      | true =>
        rw [idle ended] at sending
        cases sending
    have none := lossless alive
    subst none
    refine ⟨handled, [o], inputs, state, ?_, fun ended => ?_, fun _ => rfl, fun _ => rfl⟩
    · rw [← answers, sending]
      simp
    · cases ended

theorem run_accounts {moves : List Move} (ran : (Stages.start s₀ arrivals).run M moves = some s) :
    ∃ handled lost, Accounts M s₀ arrivals s handled lost := by
  have keep : ∀ (_ : List Move) (mv : Move) (s s' : Stages σ ι ο m n),
      (∃ handled lost, Accounts M s₀ arrivals s handled lost) → s.step M mv = some s' →
      ∃ handled lost, Accounts M s₀ arrivals s' handled lost := by
    rintro - mv s s' ⟨handled, lost, accounts⟩ moved
    exact accounts.step moved
  exact @foldlM_invariant _ _ _ (fun _ s => ∃ handled lost, Accounts M s₀ arrivals s handled lost)
    keep [] _ _ _ ⟨[], [], accounts_start⟩ ran

theorem answers_within {handled rest : List ι} (split : handled ++ rest = arrivals) :
    M.answers s₀ handled <+: M.answers s₀ arrivals := by
  rw [← split, Mealy.answers_append]
  exact List.prefix_append _ _

/-- In any order of moves, with or without failures. -/
theorem sent_prefix {moves : List Move} (ran : (Stages.start s₀ arrivals).run M moves = some s) :
    s.sent <+: M.answers s₀ arrivals := by
  obtain ⟨handled, lost, accounts⟩ := run_accounts ran
  refine List.IsPrefix.trans ?_ (answers_within accounts.inputs)
  rw [← accounts.answers]
  exact List.prefix_append _ _

/-- How many moves what is under way still takes at most. -/
def Stages.work (s : Stages σ ι ο m n) : ℕ :=
  6 * s.arriving.length + 5 * s.received.toList.length + 4 * s.rx.items.length +
    3 * s.answer.toList.length + 2 * s.tx.items.length + s.sending.toList.length

theorem length_toList_le {α : Type*} (o : Option α) : o.toList.length ≤ 1 := by
  cases o with
  | none => exact Nat.zero_le 1
  | some a => exact Nat.le_refl 1

theorem work_lt {mv : Move} (goes : mv ≠ .takeFails) (moved : s.step M mv = some s') :
    s'.work < s.work := by
  cases mv with
  | take =>
    obtain ⟨x, rest, arriving, received, rfl⟩ := take_cases moved
    simp only [work, arriving, received, List.length_cons, Option.toList_some,
      Option.toList_none, List.length_nil]
    omega
  | takeFails => exact absurd rfl goes
  | queue =>
    obtain ⟨x, rx, received, items, rfl⟩ := queue_cases moved
    simp only [work, items, received, List.length_append, List.length_cons, Option.toList_some,
      Option.toList_none, List.length_nil]
    omega
  | handle =>
    obtain ⟨x, rx, items, free, rfl⟩ := handle_cases moved
    have built := length_toList_le (M.out s.state x)
    simp only [work, items, free, List.length_cons, Option.toList_none, List.length_nil]
    omega
  | reply =>
    obtain ⟨o, tx, answer, items, rfl⟩ := reply_cases moved
    simp only [work, items, answer, List.length_append, List.length_cons, Option.toList_some,
      Option.toList_none, List.length_nil]
    omega
  | fetch =>
    obtain ⟨o, tx, items, -, free, rfl⟩ := fetch_cases moved
    simp only [work, items, free, List.length_cons, Option.toList_some, Option.toList_none,
      List.length_nil]
    omega
  | send =>
    obtain ⟨o, sending, rfl⟩ := send_cases moved
    simp only [work, sending, List.length_cons, Option.toList_some, Option.toList_none,
      List.length_nil]
    omega
  | sendFails =>
    obtain ⟨o, sending, rfl⟩ := sendFails_cases moved
    simp only [work, sending, List.length_cons, Option.toList_some, Option.toList_none,
      List.length_nil]
    omega

theorem ended_of_step {mv : Move} (moved : s.step M mv = some s') :
    (mv ≠ .takeFails → s'.sourceEnded = s.sourceEnded) ∧
      (mv ≠ .sendFails → s'.sinkEnded = s.sinkEnded) := by
  cases mv with
  | take =>
    obtain ⟨x, rest, -, -, rfl⟩ := take_cases moved
    exact ⟨fun _ => rfl, fun _ => rfl⟩
  | takeFails =>
    obtain ⟨-, rfl⟩ := takeFails_cases moved
    exact ⟨fun goes => absurd rfl goes, fun _ => rfl⟩
  | queue =>
    obtain ⟨x, rx, -, -, rfl⟩ := queue_cases moved
    exact ⟨fun _ => rfl, fun _ => rfl⟩
  | handle =>
    obtain ⟨x, rx, -, -, rfl⟩ := handle_cases moved
    exact ⟨fun _ => rfl, fun _ => rfl⟩
  | reply =>
    obtain ⟨o, tx, -, -, rfl⟩ := reply_cases moved
    exact ⟨fun _ => rfl, fun _ => rfl⟩
  | fetch =>
    obtain ⟨o, tx, -, -, -, rfl⟩ := fetch_cases moved
    exact ⟨fun _ => rfl, fun _ => rfl⟩
  | send =>
    obtain ⟨o, -, rfl⟩ := send_cases moved
    exact ⟨fun _ => rfl, fun _ => rfl⟩
  | sendFails =>
    obtain ⟨o, -, rfl⟩ := sendFails_cases moved
    exact ⟨fun _ => rfl, fun goes => absurd rfl goes⟩

/-- What every move of a run lowers bounds the run. -/
theorem run_le {w : Stages σ ι ο m n → ℕ} {P : Move → Prop}
    (lowers : ∀ s s' mv, P mv → s.step M mv = some s' → w s' < w s) {moves : List Move}
    (all : ∀ mv ∈ moves, P mv) (ran : s.run M moves = some s') :
    w s' + moves.length ≤ w s := by
  induction moves generalizing s with
  | nil =>
    obtain rfl : s = s' := Option.some.inj ran
    exact Nat.le_refl _
  | cons mv moves ih =>
    rw [Stages.run, List.foldlM_cons] at ran
    obtain ⟨next, moved, later⟩ := Option.bind_eq_some_iff.mp ran
    have less := lowers s next mv (all mv List.mem_cons_self) moved
    have rest := ih (fun mv' mem => all mv' (List.mem_cons_of_mem mv mem)) later
    rw [List.length_cons]
    omega

theorem run_le_work {moves : List Move} (smooth : ∀ mv ∈ moves, mv.Smooth)
    (ran : s.run M moves = some s') : s'.work + moves.length ≤ s.work :=
  run_le (fun _ _ _ smooth moved => work_lt smooth.1 moved) smooth ran

def Stages.budget (s : Stages σ ι ο m n) : ℕ := s.work + (!s.sourceEnded).toNat

theorem budget_lt {mv : Move} (moved : s.step M mv = some s') : s'.budget < s.budget := by
  unfold budget
  by_cases fails : mv = .takeFails
  · subst fails
    obtain ⟨alive, rfl⟩ := takeFails_cases moved
    rw [alive]
    exact Nat.lt_succ_self _
  · rw [(ended_of_step moved).1 fails]
    exact Nat.add_lt_add_right (work_lt fails moved) _

theorem run_le_budget {moves : List Move} (ran : s.run M moves = some s') :
    s'.budget + moves.length ≤ s.budget :=
  run_le (P := fun _ => True) (fun _ _ _ _ moved => budget_lt moved) (fun _ _ => trivial) ran

theorem run_alive {moves : List Move} (smooth : ∀ mv ∈ moves, mv.Smooth)
    (alive : s.sourceEnded = false ∧ s.sinkEnded = false) (ran : s.run M moves = some s') :
    s'.sourceEnded = false ∧ s'.sinkEnded = false := by
  induction moves generalizing s with
  | nil =>
    obtain rfl : s = s' := Option.some.inj ran
    exact alive
  | cons mv moves ih =>
    rw [Stages.run, List.foldlM_cons] at ran
    obtain ⟨next, moved, later⟩ := Option.bind_eq_some_iff.mp ran
    obtain ⟨source, sink⟩ := ended_of_step moved
    have here := smooth mv List.mem_cons_self
    refine ih (fun mv' mem => smooth mv' (List.mem_cons_of_mem mv mem)) ?_ later
    rw [source here.1, sink here.2]
    exact alive

theorem taken_of_quiet (roomy : BoundedFifo.hasRoom m 0 = true) (alive : s.sourceEnded = false)
    (free : s.answer = none) (quiet : s.Quiet M) :
    s.rx.items = [] ∧ s.received = none ∧ s.arriving = [] := by
  have rx : s.rx.items = [] := by
    cases items : s.rx.items with
    | nil => rfl
    | cons x rest =>
      obtain ⟨rx, read, -⟩ := BoundedFifo.read?_of_cons items
      have still := quiet .handle (by decide)
      simp [step, handle?, read, free] at still
  have received : s.received = none := by
    cases held : s.received with
    | none => rfl
    | some x =>
      obtain ⟨rx', written, -⟩ := BoundedFifo.write?_of_room (q := s.rx) x (by
        rw [rx]
        exact roomy)
      have still := quiet .queue (by decide)
      simp [step, queue?, held, written] at still
  have arriving : s.arriving = [] := by
    cases waiting : s.arriving with
    | nil => rfl
    | cons x rest =>
      have still := quiet .take (by decide)
      simp [step, take?, waiting, alive, received] at still
  exact ⟨rx, received, arriving⟩

theorem work_of_quiet (roomy : BoundedFifo.hasRoom m 0 = true ∧ BoundedFifo.hasRoom n 0 = true)
    (alive : s.sourceEnded = false ∧ s.sinkEnded = false) (quiet : s.Quiet M) : s.work = 0 := by
  -- From the sink back, each thread waits for nothing that is still there.
  have sending : s.sending = none := by
    have still := quiet .send (by decide)
    exact Option.map_eq_none_iff.mp still
  have tx : s.tx.items = [] := by
    cases items : s.tx.items with
    | nil => rfl
    | cons o rest =>
      obtain ⟨tx, read, -⟩ := BoundedFifo.read?_of_cons items
      have still := quiet .fetch (by decide)
      simp [step, fetch?, read, alive, sending] at still
  have answer : s.answer = none := by
    cases built : s.answer with
    | none => rfl
    | some o =>
      obtain ⟨tx', written, -⟩ := BoundedFifo.write?_of_room (q := s.tx) o (by
        rw [tx]
        exact roomy.2)
      have still := quiet .reply (by decide)
      simp [step, reply?, built, written] at still
  obtain ⟨rx, received, arriving⟩ := taken_of_quiet roomy.1 alive.1 answer quiet
  simp [work, sending, tx, answer, rx, received, arriving]

theorem sent_of_quiet (roomy : BoundedFifo.hasRoom m 0 = true ∧ BoundedFifo.hasRoom n 0 = true)
    {moves : List Move} (smooth : ∀ mv ∈ moves, mv.Smooth)
    (ran : (Stages.start s₀ arrivals).run M moves = some s) (quiet : s.Quiet M) :
    s.sent = M.answers s₀ arrivals := by
  have alive := run_alive smooth ⟨rfl, rfl⟩ ran
  have rest := work_of_quiet roomy alive quiet
  obtain ⟨handled, lost, accounts⟩ := run_accounts ran
  obtain ⟨inputs, -, answers, lossless, -, -⟩ := accounts
  unfold work at rest
  have arriving : s.arriving = [] := List.length_eq_zero_iff.mp (by omega)
  have received : s.received.toList = [] := List.length_eq_zero_iff.mp (by omega)
  have rx : s.rx.items = [] := List.length_eq_zero_iff.mp (by omega)
  have answer : s.answer.toList = [] := List.length_eq_zero_iff.mp (by omega)
  have tx : s.tx.items = [] := List.length_eq_zero_iff.mp (by omega)
  have sending : s.sending.toList = [] := List.length_eq_zero_iff.mp (by omega)
  rw [rx, received, arriving, List.append_nil, List.append_nil, List.append_nil] at inputs
  rw [lossless alive.2, sending, tx, answer, inputs] at answers
  simpa using answers

theorem ended_step {mv : Move} (ended : s.sinkEnded = true ∧ s.sending = none)
    (moved : s.step M mv = some s') :
    (s'.sinkEnded = true ∧ s'.sending = none) ∧ s'.sent = s.sent := by
  cases mv with
  | take =>
    obtain ⟨x, rest, -, -, rfl⟩ := take_cases moved
    exact ⟨ended, rfl⟩
  | takeFails =>
    obtain ⟨-, rfl⟩ := takeFails_cases moved
    exact ⟨ended, rfl⟩
  | queue =>
    obtain ⟨x, rx, -, -, rfl⟩ := queue_cases moved
    exact ⟨ended, rfl⟩
  | handle =>
    obtain ⟨x, rx, -, -, rfl⟩ := handle_cases moved
    exact ⟨ended, rfl⟩
  | reply =>
    obtain ⟨o, tx, -, -, rfl⟩ := reply_cases moved
    exact ⟨ended, rfl⟩
  | fetch =>
    obtain ⟨o, tx, -, alive, -, rfl⟩ := fetch_cases moved
    rw [ended.1] at alive
    cases alive
  | send =>
    obtain ⟨o, sending, rfl⟩ := send_cases moved
    rw [ended.2] at sending
    cases sending
  | sendFails =>
    obtain ⟨o, sending, rfl⟩ := sendFails_cases moved
    rw [ended.2] at sending
    cases sending

theorem ended_run {moves : List Move} (ended : s.sinkEnded = true ∧ s.sending = none)
    (ran : s.run M moves = some s') : s'.sinkEnded = true ∧ s'.sent = s.sent := by
  induction moves generalizing s with
  | nil =>
    obtain rfl : s = s' := Option.some.inj ran
    exact ⟨ended.1, rfl⟩
  | cons mv moves ih =>
    rw [Stages.run, List.foldlM_cons] at ran
    obtain ⟨next, moved, later⟩ := Option.bind_eq_some_iff.mp ran
    obtain ⟨still, same⟩ := ended_step ended moved
    obtain ⟨ended', sent⟩ := ih still later
    exact ⟨ended', sent.trans same⟩

theorem idle_of_ended {moves : List Move}
    (ran : (Stages.start s₀ arrivals).run M moves = some s) (ended : s.sinkEnded = true) :
    s.sending = none := by
  obtain ⟨handled, lost, accounts⟩ := run_accounts ran
  exact accounts.idle ended

/-- The machine has built no more than was sent, the answer lost, what the queue holds and
the one it waits with. It rests only with nothing left to handle, or where it has built as much. -/
theorem blocked_of_ended {d : ℕ} (depth : n = some d) (roomy : BoundedFifo.hasRoom m 0 = true)
    {moves : List Move} (ran : (Stages.start s₀ arrivals).run M moves = some s)
    (ended : s.sinkEnded = true) :
    ∃ handled, handled <+: arrivals ∧ s.state = M.final s₀ handled ∧
      (M.answers s₀ handled).length ≤ s.sent.length + d + 2 ∧
      (s.sourceEnded = false → s.Quiet M → handled = arrivals ∨
        s.answer.isSome ∧ s.tx.items.length = d ∧
          (M.answers s₀ handled).length = s.sent.length + d + 2) := by
  obtain ⟨handled, lost, accounts⟩ := run_accounts ran
  obtain ⟨inputs, state, answers, -, lostOne, idle⟩ := accounts
  have queued := s.tx.fits d depth
  have held := length_toList_le s.answer
  have built : (M.answers s₀ handled).length =
      s.sent.length + 1 + s.tx.items.length + s.answer.toList.length := by
    rw [← answers, idle ended]
    simp only [List.length_append, Option.toList_none, List.length_nil, lostOne ended]
    omega
  refine ⟨handled, ⟨_, inputs⟩, state, by omega, fun alive quiet => ?_⟩
  cases waits : s.answer with
  | none =>
    obtain ⟨rx, received, arriving⟩ := taken_of_quiet roomy alive waits quiet
    rw [rx, received, arriving] at inputs
    exact Or.inl (by simpa using inputs)
  | some o =>
    have full : s.tx.write? o = none := by
      have still := quiet .reply (by decide)
      simpa [step, reply?, waits] using still
    have noRoom := (BoundedFifo.write?_eq_none_iff s.tx o).mp full
    have deep : ¬s.tx.items.length < d := by
      rw [← BoundedFifo.hasRoom_some, ← depth, noRoom]
      exact Bool.false_ne_true
    rw [waits, Option.toList_some, List.length_singleton] at built
    exact Or.inr ⟨rfl, by omega, by omega⟩

end Runs

end HftLatencyLab.QueueStages
