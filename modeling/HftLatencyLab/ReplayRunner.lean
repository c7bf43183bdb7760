import HftLatencyLab.MealyRun
import HftLatencyLab.SimpleBook
import HftLatencyLab.TimingTrailer

/-! The loop of replay_runner against a peer behind a network: send, reflex, wait
for a datagram or 20 ms, decide. The peer answers a packet it was sent at most
once and echoes its sequence number; when an answer reaches the socket, if ever,
is up to the run. The runner takes whatever is first in its socket. -/

namespace HftLatencyLab.ReplayRunner
open ByteOrder LobWire TimingTrailer

inductive ReflexAction
  | none
  | cancelAll
  | takeLiquidity
  | widenSpreads
deriving DecidableEq

structure ReflexEngine where
  inventory : ℤ
  maxInventory : ℤ

def ReflexEngine.init : ReflexEngine := ⟨0, 100⟩

def ReflexEngine.evaluate (e : ReflexEngine) (book : SimpleBook) : ReflexAction :=
  if book.isCrossed then .takeLiquidity
  else if book.getSpread.any (fun spread => spread > 1000) then .widenSpreads
  else if |e.inventory| > e.maxInventory then .cancelAll
  else .none

inductive Decision
  | hold
  | buy
  | sell
  | cancel
deriving DecidableEq

def scoreThreshold : ℚ := 200

def decide (reflexAction : ReflexAction) (fpgaScore : ℚ) : Decision :=
  if reflexAction = .cancelAll then .cancel
  else if reflexAction = .takeLiquidity then .buy
  else if fpgaScore > scoreThreshold then .buy
  else if fpgaScore < -scoreThreshold then .sell
  else .hold

/-- What `parse_lobster_message` returns. -/
structure LobsterMsg where
  type : ℤ
  side : ℤ
  price : ℤ
  size : ℤ

structure Runner where
  book : SimpleBook
  seq : ℕ
  /-- The reflex action of the packet the runner waits for. -/
  waiting : Option ReflexAction
  /-- Datagrams the socket has received and the runner has not. -/
  socket : List (List Byte)
  /-- Packets the peer has been sent and has not answered. -/
  unanswered : Finset ℕ

def Runner.start (book : SimpleBook) : Runner := ⟨book, 0, none, [], ∅⟩

/-- The next message of the file, a datagram from the peer, or one turn of the
wait loop `elapsedNs` after the packet was sent. -/
inductive Event
  | send (msg : LobsterMsg)
  | arrive (data : List Byte)
  | poll (elapsedNs : ℕ)

/-- `struct.unpack('>I', data[10:14])[0]` -/
def replySeq (data : List Byte) : ℕ := ofBE (slice data 10 14)

structure Row where
  seq : ℕ
  reflexAct : ReflexAction
  fpgaScore : ℚ
  finalDec : Decision
  scoreFrom : Option (List Byte)
deriving DecidableEq

/-- The reply that gives a score: one long enough to reach it. -/
def scored (data : List Byte) : Option (List Byte) :=
  if (replayScore data).isSome then some data else none

def conclude (s : Runner) (reflexAct : ReflexAction) (data : Option (List Byte))
    (socket : List (List Byte)) : Runner × Option Row :=
  let fpgaScore := (data.bind replayScore).getD 0
  ({ s with seq := s.seq + 1, waiting := none, socket := socket },
    some { seq := s.seq
           reflexAct := reflexAct
           fpgaScore := fpgaScore
           finalDec := decide reflexAct fpgaScore
           scoreFrom := data.bind scored })

def applyMsg (book : SimpleBook) (msg : LobsterMsg) : SimpleBook :=
  (book.applyUpdate (if msg.side = 1 then 0 else 1) msg.price msg.size
    (if msg.type = 1 then 1 else 3)).1

/-- A datagram the peer may send: the answer to a packet it has not answered. -/
def Runner.Answers (s : Runner) (data : List Byte) : Prop :=
  lobV1HdrLen ≤ data.length ∧ replySeq data ∈ s.unanswered

instance (s : Runner) (data : List Byte) : Decidable (s.Answers data) :=
  inferInstanceAs (Decidable (_ ∧ _))

/-- Events that cannot happen leave everything as it is: a send while the runner
waits, a poll while it does not, an answer to a packet not sent or answered. -/
def runner : Mealy Runner Event (Option Row) where
  step s e :=
    match e with
    | .send msg =>
      match s.waiting with
      | none =>
        let book := applyMsg s.book msg
        ({ s with
            book := book
            waiting := some (ReflexEngine.init.evaluate book)
            unanswered := insert s.seq s.unanswered }, none)
      | some _ => (s, none)
    | .arrive data =>
      if s.Answers data then
        ({ s with
            socket := s.socket ++ [data]
            unanswered := s.unanswered.erase (replySeq data) }, none)
      else (s, none)
    | .poll elapsedNs =>
      match s.waiting with
      | some reflexAct =>
        match s.socket with
        | data :: rest => conclude s reflexAct (some data) rest
        | [] => if elapsedNs > 20000000 then conclude s reflexAct none [] else (s, none)
      | none => (s, none)

def rows (book : SimpleBook) (events : List Event) : List Row :=
  runner.answers (.start book) events

def rowOf (s : Runner) (reflexAct : ReflexAction) (data : Option (List Byte)) : Row where
  seq := s.seq
  reflexAct := reflexAct
  fpgaScore := (data.bind replayScore).getD 0
  finalDec := decide reflexAct ((data.bind replayScore).getD 0)
  scoreFrom := data.bind scored

/-- A poll changes nothing, or decides the packet waited for on the datagram that is
first in the socket; on none only after the timeout. -/
theorem poll_cases (s : Runner) (elapsedNs : ℕ) :
    (runner.step s (.poll elapsedNs) = (s, none) ∧
      (s.waiting = none ∨ s.socket = [] ∧ ¬elapsedNs > 20000000)) ∨
    ∃ reflexAct, s.waiting = some reflexAct ∧ (s.socket = [] → elapsedNs > 20000000) ∧
      runner.step s (.poll elapsedNs) =
        ({ s with seq := s.seq + 1, waiting := none, socket := s.socket.tail },
          some (rowOf s reflexAct s.socket.head?)) := by
  cases wait : s.waiting with
  | none => exact Or.inl ⟨by simp only [runner, wait], Or.inl rfl⟩
  | some reflexAct =>
    cases buffer : s.socket with
    | nil =>
      by_cases expired : elapsedNs > 20000000
      · refine Or.inr ⟨reflexAct, rfl, fun _ => expired, ?_⟩
        simp only [runner, wait, buffer, if_pos expired]
        rfl
      · refine Or.inl ⟨?_, Or.inr ⟨rfl, expired⟩⟩
        simp only [runner, wait, buffer, if_neg expired]
    | cons data rest =>
      refine Or.inr ⟨reflexAct, rfl, by simp, ?_⟩
      simp only [runner, wait, buffer]
      rfl

theorem out_eq_some_iff {s : Runner} {e : Event} {row : Row} :
    runner.out s e = some row ↔ ∃ elapsedNs reflexAct, e = .poll elapsedNs ∧
      s.waiting = some reflexAct ∧ (s.socket = [] → elapsedNs > 20000000) ∧
      row = rowOf s reflexAct s.socket.head? := by
  cases e with
  | send msg => cases wait : s.waiting <;> simp [Mealy.out, runner, wait]
  | arrive data =>
    by_cases accepted : s.Answers data <;>
      simp [Mealy.out, runner, accepted]
  | poll elapsedNs =>
    rw [Mealy.out]
    rcases poll_cases s elapsedNs with ⟨silent, idle | ⟨empty, early⟩⟩ |
      ⟨reflexAct, wait, expired, logged⟩
    · simp [silent, idle]
    · simp [silent, empty, early]
    · rw [logged]
      constructor
      · intro same
        exact ⟨elapsedNs, reflexAct, rfl, wait, expired, (Option.some.inj same).symm⟩
      · rintro ⟨_, reflexAct', -, wait', -, rfl⟩
        have same : reflexAct = reflexAct' := by simpa [wait] using wait'
        rw [same]

theorem next_arrive {s : Runner} {data : List Byte}
    (accepted : s.Answers data) :
    runner.next s (.arrive data) =
      { s with
        socket := s.socket ++ [data]
        unanswered := s.unanswered.erase (replySeq data) } := by
  simp only [Mealy.next, runner, if_pos accepted]

theorem next_arrive_other {s : Runner} {data : List Byte}
    (refused : ¬s.Answers data) :
    runner.next s (.arrive data) = s := by
  simp only [Mealy.next, runner, if_neg refused]

theorem socket_next (s : Runner) (e : Event) :
    ∀ data ∈ (runner.next s e).socket, data ∈ s.socket ∨ e = .arrive data := by
  intro data held
  cases e with
  | send msg => cases wait : s.waiting <;> simp_all [Mealy.next, runner]
  | arrive arrived =>
    by_cases accepted : s.Answers arrived
    · rw [next_arrive accepted] at held
      rcases List.mem_append.mp held with old | new
      · exact Or.inl old
      · rw [List.mem_singleton.mp new]
        exact Or.inr rfl
    · rw [next_arrive_other accepted] at held
      exact Or.inl held
  | poll elapsedNs =>
    rw [Mealy.next] at held
    rcases poll_cases s elapsedNs with ⟨silent, -⟩ | ⟨reflexAct, -, -, logged⟩
    · rw [silent] at held
      exact Or.inl held
    · rw [logged] at held
      exact Or.inl (List.mem_of_mem_tail held)

theorem socket_arrived (book : SimpleBook) (events : List Event) :
    ∀ data ∈ (runner.final (.start book) events).socket, Event.arrive data ∈ events := by
  induction events using List.reverseRecOn with
  | nil => simp [Runner.start]
  | append_singleton events e ih =>
    intro data held
    rw [Mealy.final_append] at held
    rcases socket_next _ e data held with old | rfl
    · exact List.mem_append_left [e] (ih data old)
    · simp

def OwnScore (events : List Event) (row : Row) : Prop :=
  (row.scoreFrom = none ∧ row.fpgaScore = 0) ∨
    ∃ data, Event.arrive data ∈ events ∧ row.scoreFrom = some data ∧
      replySeq data = row.seq ∧ replayScore data = some row.fpgaScore

/-- The datagram a waiting runner finds first in its socket answers the packet
waited for, or is too short for a score. -/
def Timely (s : Runner) : Event → Prop
  | .poll _ => s.waiting.isSome → ∀ data ∈ s.socket.head?,
      (replayScore data).isSome → replySeq data = s.seq
  | _ => True

def Prompt (s : Runner) : Event → Prop
  | .arrive data => s.Answers data → s.waiting.isSome ∧ replySeq data = s.seq
  | _ => True

theorem rowOf_own {events : List Event} {s : Runner} {reflexAct : ReflexAction}
    (arrived : ∀ data ∈ s.socket, Event.arrive data ∈ events)
    (own : ∀ data ∈ s.socket.head?, (replayScore data).isSome → replySeq data = s.seq) :
    OwnScore events (rowOf s reflexAct s.socket.head?) := by
  cases buffer : s.socket.head? with
  | none => exact Or.inl ⟨rfl, rfl⟩
  | some data =>
    cases score : replayScore data with
    | none => exact Or.inl ⟨by simp [rowOf, scored, score], by simp [rowOf, score]⟩
    | some q =>
      have first : data ∈ s.socket.head? := buffer
      exact Or.inr ⟨data, arrived data (List.mem_of_mem_head? first),
        by simp [rowOf, scored, score], own data first (by simp [score]),
        by simp [rowOf, score]⟩

theorem seq_of_rowOf_own {events : List Event} {s : Runner} {reflexAct : ReflexAction}
    {data : List Byte} (first : s.socket.head? = some data) (score : (replayScore data).isSome)
    (own : OwnScore events (rowOf s reflexAct s.socket.head?)) : replySeq data = s.seq := by
  rw [first] at own
  rcases own with ⟨default, -⟩ | ⟨used, -, this, seq, -⟩
  · simp [rowOf, scored, score] at default
  · have same : data = used := by simpa [rowOf, scored, score] using this
    rw [same]
    exact seq

theorem mem_rows {book : SimpleBook} {events : List Event} {row : Row} :
    row ∈ rows book events ↔ ∃ pre e post, events = pre ++ e :: post ∧
      runner.out (runner.final (.start book) pre) e = some row := by
  simp [rows, Mealy.answers, Mealy.mem_outputs, eq_comm]

theorem own_of_timely {book : SimpleBook} {events : List Event}
    (timely : runner.Along Timely (.start book) events) :
    ∀ row ∈ rows book events, OwnScore events row := by
  intro row logged
  obtain ⟨pre, e, post, split, out⟩ := mem_rows.mp logged
  have here := Mealy.along_iff.mp timely pre e post split
  obtain ⟨elapsedNs, reflexAct, rfl, wait, -, rfl⟩ := out_eq_some_iff.mp out
  refine rowOf_own (fun data held => ?_) (here (by simp [wait]))
  rw [split]
  exact List.mem_append_left _ (socket_arrived book pre data held)

theorem timely_of_own {book : SimpleBook} {events : List Event}
    (own : ∀ row ∈ rows book events, OwnScore events row) :
    runner.Along Timely (.start book) events := by
  rw [Mealy.along_iff]
  intro pre e post split
  cases e with
  | send msg => trivial
  | arrive data => trivial
  | poll elapsedNs =>
    intro waiting data first score
    obtain ⟨reflexAct, wait⟩ := Option.isSome_iff_exists.mp waiting
    have nonempty : (runner.final (.start book) pre).socket ≠ [] := by
      intro empty
      simp [empty] at first
    have out := out_eq_some_iff.mpr
      ⟨elapsedNs, reflexAct, rfl, wait, fun empty => absurd empty nonempty, rfl⟩
    exact seq_of_rowOf_own first score (own _ (mem_rows.mpr ⟨pre, _, post, split, out⟩))

def Settled (s : Runner) : Prop :=
  s.socket = [] ∨ ∃ data, s.socket = [data] ∧ s.waiting.isSome ∧ replySeq data = s.seq ∧
    s.seq ∉ s.unanswered

theorem Settled.next {s : Runner} {e : Event} (h : Settled s) (prompt : Prompt s e) :
    Settled (runner.next s e) := by
  cases e with
  | send msg =>
    cases wait : s.waiting with
    | some reflexAct => simpa [Mealy.next, runner, wait] using h
    | none =>
      rcases h with empty | ⟨data, -, waiting, -⟩
      · exact Or.inl (by simp [Mealy.next, runner, wait, empty])
      · simp [wait] at waiting
  | arrive data =>
    by_cases accepted : s.Answers data
    · obtain ⟨waiting, seq⟩ := prompt accepted
      rcases h with empty | ⟨_, -, -, -, answered⟩
      · rw [next_arrive accepted]
        exact Or.inr ⟨data, by simp [empty], waiting, seq, by simp [seq]⟩
      · exact absurd (seq ▸ accepted.2) answered
    · rwa [next_arrive_other accepted]
  | poll elapsedNs =>
    rw [Mealy.next]
    rcases poll_cases s elapsedNs with ⟨silent, -⟩ | ⟨reflexAct, -, -, logged⟩
    · rwa [silent]
    · rw [logged]
      left
      rcases h with empty | ⟨data, one, -⟩
      · simp [empty]
      · simp [one]

theorem Settled.timely {s : Runner} (h : Settled s) (e : Event) : Timely s e := by
  cases e with
  | send msg => trivial
  | arrive data => trivial
  | poll elapsedNs =>
    intro _ data first _
    rcases h with empty | ⟨held, one, -, seq, -⟩
    · simp [empty] at first
    · have same : held = data := by simpa [one] using first
      rw [← same]
      exact seq

/-- No row of a run carries another packet's score exactly when no poll of a
waiting runner finds another packet's score first; answers that arrive while
their packet is waited for see to that. -/
theorem scores_own_iff (book : SimpleBook) (events : List Event) :
    ((∀ row ∈ rows book events, OwnScore events row) ↔
      runner.Along Timely (.start book) events) ∧
    (runner.Along Prompt (.start book) events → ∀ row ∈ rows book events, OwnScore events row) := by
  refine ⟨⟨timely_of_own, own_of_timely⟩, fun prompt => own_of_timely ?_⟩
  have settled := prompt.invariant (I := Settled) (fun _ _ => Settled.next) (Or.inl rfl)
  exact settled.imp fun s e h => h.1.timely e

/-- The answer to packet 0, with a score of 3.0, arrives after its timeout and
decides packet 1, which is never answered. -/
theorem late_answer_used :
    let answer := (FeatureReply.featReply false 0 0 0 0 ⟨0, 0, 0, 0⟩).bytes ++ [0, 3, 0, 0]
    let events : List Event := [.send ⟨1, 1, 1000000, 5⟩, .poll 20000001, .arrive answer,
      .send ⟨1, -1, 1000100, 5⟩, .poll 100]
    ¬∀ row ∈ rows .init events, row.fpgaScore = 0 ∨ ∃ data, Event.arrive data ∈ events ∧
      replySeq data = row.seq ∧ replayScore data = some row.fpgaScore := by
  intro answer events own
  have logged : (rows .init events)[1]? =
      some ⟨1, .none, 3, .hold, some answer⟩ := by decide +kernel
  rcases own _ (List.mem_of_getElem? logged) with zero | ⟨data, arrived, seq, -⟩
  · exact absurd zero (by decide)
  · have same : data = answer := by simpa [events] using arrived
    subst same
    exact absurd seq (by decide)

end HftLatencyLab.ReplayRunner
