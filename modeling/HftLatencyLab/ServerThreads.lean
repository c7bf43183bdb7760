import HftLatencyLab.QueueStages
import HftLatencyLab.ServerReply

/-! The threads of fpga/pynq/feature_echo_mt.py: receiver_thread, processor_thread and
sender_thread with `rx_queue` and `tx_queue` between them, in any order the interpreter runs
them in. The processor is the one without DMA, as under `--dummy`. receiver_thread and
sender_thread end on the first exception; processor_thread prints its own and goes on. -/

namespace HftLatencyLab.ServerThreads
open LobWire ServerReply ServerFallback QueueStages

structure Args where
  rxQueueSize : ℤ
  txQueueSize : ℤ
  enableTiming : Bool

/-- `queue.Queue(maxsize)`: one that is not positive sets no limit. -/
def queueDepth (maxsize : ℤ) : Option ℕ := if maxsize ≤ 0 then none else some maxsize.toNat

variable {α : Type} {args : Args} {arrivals : List (Rx α)}

/-- A reply is taken to be sent as it was queued, without the trailer sender_thread puts
behind it. -/
abbrev Threads (args : Args) (α : Type) : Type :=
  Stages PsState (Rx α) (Tx α) (queueDepth args.rxQueueSize) (queueDepth args.txQueueSize)

def threads (args : Args) (arrivals : List (Rx α)) : Threads args α := .start .start arrivals

theorem room_in_empty (maxsize : ℤ) : BoundedFifo.hasRoom (queueDepth maxsize) 0 = true := by
  unfold queueDepth
  split_ifs with unlimited
  · rfl
  · rw [BoundedFifo.hasRoom_some]
    omega

def pings (n : ℕ) : List (Rx Unit) :=
  (List.range n).map fun k => ⟨packHdr lobV1MsgPing 0 (BitVec.ofNat 32 k) 0 0, (), 5⟩

def narrow : Args := ⟨1, 1, false⟩

variable {s : Threads args α} {moves : List Move}

/-- Whatever the schedule, and whenever receiver or sender fail: what has been sent are the
first of the replies a single loop would have sent, in that loop's order. -/
theorem sent_as_by_one_loop
    (ran : (threads args arrivals).run (server args.enableTiming) moves = some s) :
    s.sent <+: txQueue args.enableTiming .start arrivals :=
  sent_prefix ran

/-- The second ping fails to be sent. -/
theorem sent_until_error :
    ∃ s, (threads narrow (pings 2)).run (server narrow.enableTiming)
        [.take, .queue, .handle, .take, .queue, .reply, .fetch, .send, .handle, .reply, .fetch,
          .sendFails] = some s ∧
      s.sent <+: txQueue narrow.enableTiming .start (pings 2) := by
  obtain ⟨s, ran⟩ := Option.isSome_iff_exists.mp
    (show ((threads narrow (pings 2)).run (server narrow.enableTiming)
      [.take, .queue, .handle, .take, .queue, .reply, .fetch, .send, .handle, .reply, .fetch,
        .sendFails]).isSome = true by decide +kernel)
  exact ⟨s, ran, sent_as_by_one_loop ran⟩

def resting (s : Threads args α) : Bool :=
  [Move.take, .queue, .handle, .reply, .fetch, .send].all fun mv =>
    (s.step (server args.enableTiming) mv).isNone

theorem quiet_of_resting {s : Threads args α} (rests : resting s = true) :
    s.Quiet (server args.enableTiming) := by
  intro mv smooth
  refine Option.isNone_iff_eq_none.mp (List.all_eq_true.mp rests mv ?_)
  cases mv with
  | takeFails => exact absurd rfl smooth.1
  | sendFails => exact absurd rfl smooth.2
  | _ => decide

/-- As long as no socket call fails the threads cannot wait for each other: they make at most
six moves a datagram, and can stop only with every reply sent. -/
theorem drained_when_blocked (smooth : ∀ mv ∈ moves, mv.Smooth)
    (ran : (threads args arrivals).run (server args.enableTiming) moves = some s) :
    moves.length ≤ 6 * arrivals.length ∧
      (s.Quiet (server args.enableTiming) →
        s.sent = txQueue args.enableTiming .start arrivals) := by
  constructor
  · have bounded := run_le_work smooth ran
    have start : (threads args arrivals).work = 6 * arrivals.length := rfl
    omega
  · exact sent_of_quiet ⟨room_in_empty _, room_in_empty _⟩ smooth ran

theorem three_pings_drained :
    ∃ s, (threads narrow (pings 3)).run (server narrow.enableTiming)
        [.take, .queue, .handle, .take, .queue, .take, .reply, .handle, .queue, .fetch, .reply,
          .handle, .send, .fetch, .reply, .send, .fetch, .send] = some s ∧
      s.sent = txQueue narrow.enableTiming .start (pings 3) := by
  have rests : ((threads narrow (pings 3)).run (server narrow.enableTiming)
      [.take, .queue, .handle, .take, .queue, .take, .reply, .handle, .queue, .fetch, .reply,
        .handle, .send, .fetch, .reply, .send, .fetch, .send]).any resting = true := by
    decide +kernel
  obtain ⟨s, ran, rest⟩ := (Option.any_eq_true _ _).mp rests
  exact ⟨s, ran, (drained_when_blocked (by decide) ran).2 (quiet_of_resting rest)⟩

/-- Once sender_thread has ended on an error nothing is sent any more. The server goes on: as long
as receiver_thread does, it stops only when it has handled every datagram, or at a full `tx_queue`
with a reply it cannot put there, and has then built two replies more than `tx_queue` holds beyond
what was sent. -/
theorem stuck_after_sender_error {after : List Move} {s' : Threads args α}
    (bounded : 0 < args.txQueueSize)
    (ran : (threads args arrivals).run (server args.enableTiming) moves = some s)
    (ended : s.sinkEnded = true)
    (went : s.run (server args.enableTiming) after = some s') :
    s'.sent = s.sent ∧ moves.length + after.length ≤ 6 * arrivals.length + 1 ∧
      ∃ handled, handled <+: arrivals ∧
        s'.state = (server args.enableTiming).final .start handled ∧
        ((txQueue args.enableTiming .start handled).length : ℤ) ≤
          s.sent.length + args.txQueueSize + 2 ∧
        (s'.sourceEnded = false → s'.Quiet (server args.enableTiming) → handled = arrivals ∨
          s'.answer.isSome ∧ (s'.tx.items.length : ℤ) = args.txQueueSize ∧
            ((txQueue args.enableTiming .start handled).length : ℤ) =
              s.sent.length + args.txQueueSize + 2) := by
  have idle := idle_of_ended ran ended
  obtain ⟨ended', same⟩ := ended_run ⟨ended, idle⟩ went
  have whole := Stages.run_append ran went
  have depth : queueDepth args.txQueueSize = some args.txQueueSize.toNat :=
    if_neg (by omega)
  have size : (args.txQueueSize.toNat : ℤ) = args.txQueueSize := Int.toNat_of_nonneg bounded.le
  have moved := run_le_budget whole
  have start : (threads args arrivals).budget = 6 * arrivals.length + 1 := rfl
  rw [List.length_append] at moved
  obtain ⟨handled, done, state, built, rests⟩ :=
    blocked_of_ended depth (room_in_empty _) whole ended'
  rw [same] at built rests
  change ((txQueue args.enableTiming .start handled).length : ℕ) ≤ _ at built
  refine ⟨same, by omega, handled, done, state, by omega, fun alive quiet => ?_⟩
  rcases rests alive quiet with all | ⟨waits, full, exactly⟩
  · exact Or.inl all
  · change ((txQueue args.enableTiming .start handled).length : ℕ) = _ at exactly
    exact Or.inr ⟨waits, by omega, by omega⟩

/-- The first of five pings is lost: one reply is in the queue and one waits, and the last two
pings are left. -/
theorem first_ping_lost :
    ∃ s s', (threads narrow (pings 5)).run (server narrow.enableTiming)
        [.take, .queue, .handle, .reply, .fetch, .sendFails] = some s ∧
      s.run (server narrow.enableTiming)
        [.take, .queue, .handle, .reply, .take, .queue, .handle, .take, .queue, .take] = some s' ∧
      s'.sent = s.sent ∧ s'.answer.isSome ∧ s'.tx.items.length = 1 := by
  have steps : ((threads narrow (pings 5)).run (server narrow.enableTiming)
      [.take, .queue, .handle, .reply, .fetch, .sendFails]).any (fun s =>
        s.sinkEnded && s.sent.isEmpty && (s.run (server narrow.enableTiming)
          [.take, .queue, .handle, .reply, .take, .queue, .handle, .take, .queue, .take]).any
          fun s' => !s'.sourceEnded && resting s') = true := by
    decide +kernel
  obtain ⟨s, ran, rest⟩ := (Option.any_eq_true _ _).mp steps
  simp only [Bool.and_eq_true] at rest
  obtain ⟨⟨ended, nothing⟩, later⟩ := rest
  obtain ⟨s', went, rests⟩ := (Option.any_eq_true _ _).mp later
  simp only [Bool.and_eq_true, Bool.not_eq_true'] at rests
  obtain ⟨alive, quiet⟩ := rests
  obtain ⟨same, -, handled, -, -, few, blocked⟩ :=
    stuck_after_sender_error (by decide) ran ended went
  have unsent : s.sent.length = 0 := by simpa using nothing
  refine ⟨s, s', ran, went, same, ?_⟩
  rcases blocked alive (quiet_of_resting quiet) with all | ⟨waits, full, -⟩
  · have five : (txQueue narrow.enableTiming .start (pings 5)).length = 5 := by decide +kernel
    rw [all, five, unsent] at few
    exact absurd few (by decide)
  · exact ⟨waits, Int.ofNat_inj.mp full⟩

end HftLatencyLab.ServerThreads
