import HftLatencyLab.LossyNet
import HftLatencyLab.ReflexLane
import HftLatencyLab.ReplayRunner

/-! runner.py (host/strategy/runner.py) and the threaded server without a DMA. The runner takes
the order flow of the reply for a score, and the server never sees the reset flag of its packets:
the flow grows by the quantity of one packet after the other, until it passes the threshold and
the runner buys for good, or rather until it no longer fits a reply. -/

namespace HftLatencyLab.TwoLaneRunner
open ByteOrder LobWire ServerHeader PythonBook ServerFallback FeatureReply ServerReply TimingTrailer
  ReflexLane ReplayRunner LossyNet

structure Row where
  seq : ℕ
  tSend : ℕ
  tReflex : ℕ
  tFpga : ℕ
  tDecide : ℕ
  reflexAct : ReflexAction
  fpgaScore : ℤ
  finalDec : Decision
  latencyGapNs : ℤ

structure Waiting where
  t0 : ℕ
  tReflex : ℕ
  reflexAct : ReflexAction

structure Runner where
  book : SimpleBook
  seq : ℕ
  waiting : Option Waiting
  socket : List (List Byte)

def Runner.start : Runner := ⟨.init, 0, none, []⟩

inductive Event
  | send (tSendNs : BitVec 64) (t0 tReflex : ℕ)
  /-- One turn of the wait loop, with the clock it reads, and `t_decide` if it is the last. -/
  | poll (clock tDecide : ℕ)

def price (seq : ℕ) : ℤ := 100000 + seq % 100

def packet (seq : ℕ) (tSendNs : BitVec 64) : List Byte :=
  bidPacket (BitVec.ofNat 32 seq) tSendNs (BitVec.ofInt 32 (price seq)) 10

/-- `struct.unpack('>i', data[32:36])`; a short datagram leaves the score 0. -/
def fpgaScore (data : List Byte) : ℤ :=
  if 48 ≤ data.length then fromBytesBigSigned (slice data 32 36) else 0

def conclude (s : Runner) (w : Waiting) (fpgaScore : ℤ) (tFpga tDecide : ℕ)
    (socket : List (List Byte)) : Runner × Option (List Byte) × Option Row :=
  ({ s with seq := s.seq + 1, waiting := none, socket := socket }, none,
    some { seq := s.seq
           tSend := w.t0
           tReflex := w.tReflex
           tFpga := tFpga
           tDecide := tDecide
           reflexAct := w.reflexAct
           fpgaScore := fpgaScore
           finalDec := decide w.reflexAct fpgaScore
           latencyGapNs := if tFpga > 0 then (tFpga : ℤ) - w.tReflex else -1 })

def act (count : ℕ) (s : Runner) : Event → Runner × Option (List Byte) × Option Row
  | .send tSendNs t0 tReflex =>
    if s.waiting.isNone ∧ s.seq < count ∧ s.seq < 2 ^ 32 then
      let book := (s.book.applyUpdate 0 (price s.seq) 10 1).1
      ({ s with book := book, waiting := some ⟨t0, tReflex, ReflexEngine.init.evaluate book⟩ },
        some (packet s.seq tSendNs), none)
    else (s, none, none)
  | .poll clock tDecide =>
    match s.waiting with
    | none => (s, none, none)
    | some w =>
      match s.socket with
      | data :: rest => conclude s w (fpgaScore data) clock tDecide rest
      | [] =>
        if (clock : ℤ) - w.t0 > 20000000 then conclude s w 0 0 tDecide []
        else (s, none, none)

def twoLanes (count : ℕ) (enableTiming : Bool) :
    Parties Runner PsState Event Turn (List Byte) (List Byte) Row where
  act := act count
  receive s data := { s with socket := s.socket ++ [data] }
  server := processorTurn enableTiming

theorem fpgaScore_reply (enableTiming : Bool) (r : FeatureReply.Reply)
    (timingData : Option TimingData) :
    fpgaScore (senderThread enableTiming r.bytes timingData) = r.feat.ofi.toInt := by
  obtain ⟨more, sent⟩ := senderThread_append enableTiming r.bytes timingData
  have long : 48 ≤ (r.bytes ++ more).length := by
    rw [List.length_append, Reply.length_bytes]
    omega
  have field : slice (r.bytes ++ more) 32 36 = toBE 4 r.feat.ofi.toNat := by
    have header : (packHdr r.msgType r.flags r.seq r.tSend r.tNow).length = 32 := length_packHdr ..
    rw [FeatureReply.Reply.bytes, List.append_assoc]
    have payload := slice_append_right (b := r.feat.bytes ++ more) header 0 4
    rw [Nat.add_zero] at payload
    rw [payload]
    simp [FeatPayload.bytes, slice]
  rw [sent, fpgaScore, if_pos long, field, fromBytesBigSigned_toBE _ (by norm_num)]

theorem bidPacket_turn (enableTiming : Bool) (s : PsState) (seq : BitVec 32) (tSendNs : BitVec 64)
    (price qty : BitVec 32) {x : Turn} (off : x.pl = .off) :
    let out := processorTurn enableTiming s (bidPacket seq tSendNs price qty) x
    out.1.ofi = s.ofi + qty.toInt ∧
      (int32 (s.ofi + qty.toInt) → ∃ reply, out.2 = some reply ∧
        fpgaScore reply = s.ofi + qty.toInt) ∧
      (¬int32 (s.ofi + qty.toInt) → out.2 = none) := by
  have request := parseRequest_bidPacket seq tSendNs price qty
  have book := psBook_deltasOf s request
  rw [deltasOf_bidPacket] at book
  have flow : (psBook s ⟨⟨false, 384, byteSwap 8 tSendNs.toNat⟩,
      bidPacket seq tSendNs price qty⟩).ofi = s.ofi + qty.toInt := by
    rw [book]
    exact psDelta_ofi s ⟨price.toInt, qty.toInt, 0, 0, 1⟩
  intro out
  have turn : out = processorTurn enableTiming s (bidPacket seq tSendNs price qty) x := rfl
  unfold processorTurn at turn
  rw [request, off] at turn
  dsimp only [plFeatures] at turn
  generalize psBook s ⟨⟨false, 384, byteSwap 8 tSendNs.toNat⟩,
    bidPacket seq tSendNs price qty⟩ = after at flow turn
  obtain ⟨kept, shown⟩ := psFeatures_ofi after (byteSwap 8 tSendNs.toNat)
  have imb := psFeatures_imb after (byteSwap 8 tSendNs.toNat)
  rw [shown, flow] at turn
  rw [flow] at kept
  refine ⟨by rw [turn]; exact kept, fun fits => ?_, fun wide => ?_⟩
  · have packed (burst vol : ℤ) : packFeat (s.ofi + qty.toInt)
        (psFeatures after (byteSwap 8 tSendNs.toNat)).2.imbQ115 burst vol = some _ :=
      if_pos ⟨fits, imb⟩
    rw [turn, packed]
    refine ⟨_, rfl, (fpgaScore_reply enableTiming _ _).trans ?_⟩
    exact BitVec.toInt_ofInt_eq_self (by norm_num) fits.1 fits.2
  · have unpacked (burst vol : ℤ) : packFeat (s.ofi + qty.toInt)
        (psFeatures after (byteSwap 8 tSendNs.toNat)).2.imbQ115 burst vol = none :=
      if_neg fun both => wide both.1
    rw [turn, unpacked]
    rfl

theorem evaluate_of_noAsk {book : SimpleBook} (noAsk : book.bestAsk = none) :
    ReflexEngine.init.evaluate book = .none := by
  have crossed : book.isCrossed = false := by
    unfold SimpleBook.isCrossed
    rw [noAsk]
    cases book.bestBid <;> rfl
  have spread : book.getSpread = none := by
    unfold SimpleBook.getSpread
    rw [noAsk]
    cases book.bestBid <;> rfl
  rw [ReflexEngine.evaluate, crossed, spread]
  rfl

theorem applyUpdate_bestAsk (book : SimpleBook) (price qty : ℤ) :
    (book.applyUpdate 0 price qty 1).1.bestAsk = book.bestAsk := by
  simp only [SimpleBook.applyUpdate, decide_true, if_true]
  split
  · rfl
  · simp only [SimpleBook.improveBest, if_true]
    split <;> rfl

structure Bidding (s : Runner) : Prop where
  noAsk : s.book.bestAsk = none
  reflex : ∀ w ∈ s.waiting, w.reflexAct = .none
  socket : ∀ data ∈ s.socket, 0 ≤ fpgaScore data

structure Passive (row : Row) : Prop where
  reflex : row.reflexAct = .none
  score : 0 ≤ row.fpgaScore
  final : row.finalDec = ReplayRunner.decide .none row.fpgaScore

theorem Bidding.conclude {s : Runner} (bidding : Bidding s) {w : Waiting}
    (reflex : w.reflexAct = .none) {score : ℤ} (shown : 0 ≤ score) (tFpga tDecide : ℕ)
    {socket : List (List Byte)} (rest : ∀ data ∈ socket, 0 ≤ fpgaScore data) :
    Bidding (conclude s w score tFpga tDecide socket).1 ∧
      ∀ row ∈ (TwoLaneRunner.conclude s w score tFpga tDecide socket).2.2, Passive row := by
  refine ⟨⟨bidding.noAsk, by simp [TwoLaneRunner.conclude], rest⟩, fun row logged => ?_⟩
  obtain rfl : _ = row := Option.some.inj logged
  exact ⟨reflex, shown, by rw [reflex]⟩

theorem Bidding.act {s : Runner} (bidding : Bidding s) (count : ℕ) (e : Event) :
    Bidding (act count s e).1 ∧
      (∀ data ∈ (TwoLaneRunner.act count s e).2.1,
        ∃ seq tSendNs price, data = bidPacket seq tSendNs price 10) ∧
      ∀ row ∈ (TwoLaneRunner.act count s e).2.2, Passive row := by
  cases e with
  | send tSendNs t0 tReflex =>
    unfold TwoLaneRunner.act
    dsimp only
    split
    · have still := (applyUpdate_bestAsk s.book (price s.seq) 10).trans bidding.noAsk
      refine ⟨⟨still, fun w waits => ?_, bidding.socket⟩, fun data sent => ?_, by simp⟩
      · obtain rfl : _ = w := Option.some.inj waits
        exact evaluate_of_noAsk still
      · exact ⟨_, _, _, (Option.some.inj sent).symm⟩
    · exact ⟨bidding, by simp, by simp⟩
  | poll clock tDecide =>
    unfold TwoLaneRunner.act
    dsimp only
    split
    · exact ⟨bidding, by simp, by simp⟩
    · next w waits =>
      have reflex := bidding.reflex w waits
      split
      · next data rest held =>
        have shown := bidding.socket
        rw [held, List.forall_mem_cons] at shown
        obtain ⟨still, logs⟩ := bidding.conclude reflex shown.1 clock tDecide shown.2
        exact ⟨still, by simp [TwoLaneRunner.conclude], logs⟩
      · split
        · have rest : ∀ data ∈ ([] : List (List Byte)), 0 ≤ fpgaScore data := by simp
          obtain ⟨still, logs⟩ := bidding.conclude reflex le_rfl 0 tDecide rest
          exact ⟨still, by simp [TwoLaneRunner.conclude], logs⟩
        · exact ⟨bidding, by simp, by simp⟩

theorem promises (count : ℕ) (enableTiming : Bool) :
    Promises (twoLanes count enableTiming) Bidding (fun s => 0 ≤ s.ofi)
      (fun data => ∃ seq tSendNs price, data = bidPacket seq tSendNs price 10)
      (fun reply => 0 ≤ fpgaScore reply) (fun x => x.pl = .off) Passive where
  acts s e bidding := bidding.act count e
  receives s reply bidding shown := by
    refine ⟨bidding.noAsk, bidding.reflex, fun data mem => ?_⟩
    rcases List.mem_append.mp mem with old | new
    · exact bidding.socket data old
    · rw [List.mem_singleton.mp new]
      exact shown
  serves := by
    rintro s _ x nonneg ⟨seq, tSendNs, price, rfl⟩ off
    obtain ⟨grows, replied, silent⟩ := bidPacket_turn enableTiming s seq tSendNs price 10 off
    have ten : (10 : BitVec 32).toInt = 10 := by decide
    rw [ten] at grows replied silent
    have next : 0 ≤ s.ofi + 10 := by omega
    refine ⟨?_, fun reply sent => ?_⟩
    · change 0 ≤ (processorTurn enableTiming s (bidPacket seq tSendNs price 10) x).1.ofi
      rw [grows]
      exact next
    · change reply ∈ (processorTurn enableTiming s (bidPacket seq tSendNs price 10) x).2 at sent
      by_cases fits : int32 (s.ofi + 10)
      · obtain ⟨reply', isReply, score⟩ := replied fits
        rw [isReply] at sent
        obtain rfl : reply' = reply := Option.some.inj sent
        rw [score]
        exact next
      · rw [silent fits] at sent
        cases sent

theorem decide_of_nonneg {score : ℤ} (nonneg : 0 ≤ score) :
    ReplayRunner.decide .none score = if score > 200 then .buy else .hold := by
  have above : (score : ℚ) > scoreThreshold ↔ score > 200 := by
    rw [scoreThreshold, gt_iff_lt, show (200 : ℚ) = ((200 : ℤ) : ℚ) by norm_num, Int.cast_lt]
  have below : ¬(score : ℚ) < -scoreThreshold := by
    rw [scoreThreshold, show (-200 : ℚ) = ((-200 : ℤ) : ℚ) by norm_num, Int.cast_lt]
    omega
  simp only [ReplayRunner.decide, reduceCtorEq, if_false, above, below]

/-- With a flow that is not negative when the run begins, and whatever is lost, repeated or late,
the runner cancels nothing and sells nothing: it buys on a score past the threshold, and otherwise
holds. -/
theorem buys_or_holds {s : PsState} (flow : 0 ≤ s.ofi) (count : ℕ) (enableTiming : Bool)
    {moves : List (Move Event Turn)} (off : ∀ mv ∈ moves, mv.Admits fun x => x.pl = .off) :
    ∀ row ∈ log (twoLanes count enableTiming) .start s moves,
      row.reflexAct = .none ∧ row.finalDec = if row.fpgaScore > 200 then .buy else .hold := by
  have start : Bidding .start := ⟨rfl, by simp [Runner.start], by simp [Runner.start]⟩
  intro row logged
  obtain ⟨reflex, nonneg, final⟩ :=
    (promises count enableTiming).log_kept start flow off row logged
  refine ⟨reflex, final.trans ?_⟩
  exact decide_of_nonneg nonneg

def repeated : List (Move Event Turn) :=
  let x : Turn := ⟨0, ⟨0, 0, 0, 0, 0, 0⟩, .off⟩
  .act (.send 1 5 6) :: List.replicate 21 (.serve 0 x) ++ [.deliver 20, .act (.poll 7 8)]

theorem buys_or_holds_repeated :
    (log (twoLanes 1 false) .start .start repeated).map (fun row => (row.fpgaScore, row.finalDec)) =
        [(210, .buy)] ∧
      ∀ row ∈ log (twoLanes 1 false) .start .start repeated,
        row.finalDec = if row.fpgaScore > 200 then .buy else .hold := by
  have off : ∀ mv ∈ repeated, mv.Admits fun x => x.pl = .off := by
    intro mv mem
    rcases List.mem_append.mp mem with early | late
    · rcases List.mem_cons.mp early with rfl | served
      · trivial
      · rw [List.eq_of_mem_replicate served]
        rfl
    · simp only [List.mem_cons, List.not_mem_nil, or_false] at late
      rcases late with rfl | rfl <;> trivial
  refine ⟨by decide +kernel, fun row logged => ?_⟩
  exact (buys_or_holds (s := .start) le_rfl 1 false off row logged).2

/-- One packet, handled and answered before the next: the readings of its clocks. -/
structure Round where
  tSendNs : BitVec 64
  t0 : ℕ
  tReflex : ℕ
  x : Turn
  clock : ℕ
  tDecide : ℕ

def Round.moves (k : ℕ) (r : Round) : List (Move Event Turn) :=
  [.act (.send r.tSendNs r.t0 r.tReflex), .serve k r.x, .deliver k, .act (.poll r.clock r.tDecide)]

def schedule (rounds : ℕ → Round) (n : ℕ) : List (Move Event Turn) :=
  (List.range n).flatMap fun k => (rounds k).moves k

def score (k : ℕ) : ℤ := if 10 * (k + 1) < 2 ^ 31 then 10 * (k + 1) else 0

structure Ready (n : ℕ) (s : Net Runner PsState (List Byte) (List Byte)) : Prop where
  seq : s.client.seq = n
  free : s.client.waiting = none
  socket : s.client.socket = []
  noAsk : s.client.book.bestAsk = none
  requests : s.requests.length = n
  replies : s.replies.length = min n 214748364
  flow : s.server.ofi = 10 * n

section Step

variable {count n : ℕ} {enableTiming : Bool} {s : Net Runner PsState (List Byte) (List Byte)}

theorem final_of_four {σ ι ο : Type*} {m : Mealy σ ι (Option ο)} {s₀ s₁ s₂ s₃ s₄ : σ}
    {a b c d : ι} {o : ο} (first : m.step s₀ a = (s₁, none)) (second : m.step s₁ b = (s₂, none))
    (third : m.step s₂ c = (s₃, none)) (fourth : m.step s₃ d = (s₄, some o)) :
    m.final s₀ [a, b, c, d] = s₄ ∧ m.answers s₀ [a, b, c, d] = [o] := by
  simp [Mealy.final, Mealy.next, Mealy.answers, Mealy.outputs, Mealy.out, first, second, third,
    fourth]

variable (enableTiming) in
theorem Ready.round (ready : Ready n s) (more : n < count) (packs : n < 2 ^ 32) {r : Round}
    (off : r.x.pl = .off) (late : 214748364 ≤ n → (r.clock : ℤ) - r.t0 > 20000000) :
    Ready (n + 1) ((net (twoLanes count enableTiming)).final s (r.moves n)) ∧
      ((net (twoLanes count enableTiming)).answers s (r.moves n)).map
          (fun row => (row.seq, row.reflexAct, row.fpgaScore, row.finalDec)) =
        [(n, .none, score n, ReplayRunner.decide .none (score n))] := by
  obtain ⟨⟨book, seq, waiting, socket⟩, server, requests, replies⟩ := s
  obtain ⟨rfl, rfl, rfl, noAsk, sent, answered, flow⟩ := ready
  dsimp only at noAsk sent answered flow more packs late ⊢
  let book' := (book.applyUpdate 0 (price seq) 10 1).1
  have still : book'.bestAsk = none := (applyUpdate_bestAsk book (price seq) 10).trans noAsk
  let w : Waiting := ⟨r.t0, r.tReflex, .none⟩
  have sends : act count ⟨book, seq, none, []⟩ (.send r.tSendNs r.t0 r.tReflex) =
      (⟨book', seq, some w, []⟩, some (packet seq r.tSendNs), none) := by
    have due : (none : Option Waiting).isNone = true ∧ seq < count ∧ seq < 2 ^ 32 :=
      ⟨rfl, more, packs⟩
    rw [act, if_pos due]
    change ((⟨book', seq, some ⟨r.t0, r.tReflex, ReflexEngine.init.evaluate book'⟩, []⟩ : Runner),
      some (packet seq r.tSendNs), none) = _
    rw [evaluate_of_noAsk still]
  have first := step_act (P := twoLanes count enableTiming)
    ⟨⟨book, seq, none, []⟩, server, requests, replies⟩ (.send r.tSendNs r.t0 r.tReflex)
  rw [show (twoLanes count enableTiming).act = act count from rfl, sends] at first
  have here : (requests ++ [packet seq r.tSendNs])[seq]? = some (packet seq r.tSendNs) := by
    rw [← sent]
    exact List.getElem?_concat_length
  have second := step_serve (P := twoLanes count enableTiming)
    (n := ⟨⟨book', seq, some w, []⟩, server, requests ++ [packet seq r.tSendNs], replies⟩) here r.x
  obtain ⟨grows, replied, silent⟩ := bidPacket_turn enableTiming server (BitVec.ofNat 32 seq)
    r.tSendNs (BitVec.ofInt 32 (price seq)) 10 off
  have ten : (10 : BitVec 32).toInt = 10 := by decide
  rw [ten, flow] at grows replied silent
  let server' := (processorTurn enableTiming server (packet seq r.tSendNs) r.x).1
  change server'.ofi = _ at grows
  by_cases fits : seq < 214748364
  · -- The reply is there, and the runner takes it.
    obtain ⟨data, reply, shown⟩ := replied (by unfold int32; omega)
    change (processorTurn enableTiming server (packet seq r.tSendNs) r.x).2 = some data at reply
    have last : (replies ++ [data])[seq]? = some data := by
      have len : replies.length = seq := by omega
      rw [← len]
      exact List.getElem?_concat_length
    rw [show (twoLanes count enableTiming).server = processorTurn enableTiming from rfl, reply]
      at second
    have third := step_deliver (P := twoLanes count enableTiming)
      (n := ⟨⟨book', seq, some w, []⟩, server', requests ++ [packet seq r.tSendNs],
        replies ++ [data]⟩) last
    have takes : act count ⟨book', seq, some w, [data]⟩ (.poll r.clock r.tDecide) =
        conclude ⟨book', seq, some w, [data]⟩ w (fpgaScore data) r.clock r.tDecide [] := rfl
    have fourth := step_act (P := twoLanes count enableTiming)
      ⟨⟨book', seq, some w, [data]⟩, server', requests ++ [packet seq r.tSendNs],
        replies ++ [data]⟩ (.poll r.clock r.tDecide)
    rw [show (twoLanes count enableTiming).act = act count from rfl, takes] at fourth
    obtain ⟨final, logged⟩ := final_of_four first second third fourth
    rw [Round.moves, final, logged]
    have now : score seq = 10 * (seq + 1) := if_pos (by omega)
    constructor
    · refine ⟨rfl, rfl, rfl, still, by simp [sent, conclude], ?_, ?_⟩
      · change (replies ++ [data]).length = _
        rw [List.length_append, List.length_singleton, answered, Nat.min_eq_left fits.le,
          Nat.min_eq_left fits]
      · rw [grows]
        push_cast
        ring
    · have value : fpgaScore data = score seq := by
        rw [shown, now]
        ring
      rw [← value]
      rfl
  · -- There is none, and the runner gives up.
    have none := silent (by unfold int32; omega)
    change (processorTurn enableTiming server (packet seq r.tSendNs) r.x).2 = Option.none at none
    have missing : replies[seq]? = Option.none := by
      rw [List.getElem?_eq_none_iff]
      omega
    rw [show (twoLanes count enableTiming).server = processorTurn enableTiming from rfl, none,
      Option.toList_none, List.append_nil] at second
    have third := step_deliver_none (P := twoLanes count enableTiming)
      (n := ⟨⟨book', seq, some w, []⟩, server', requests ++ [packet seq r.tSendNs], replies⟩)
      missing
    have gives : act count ⟨book', seq, some w, []⟩ (.poll r.clock r.tDecide) =
        conclude ⟨book', seq, some w, []⟩ w 0 0 r.tDecide [] := if_pos (late (by omega))
    have fourth := step_act (P := twoLanes count enableTiming)
      ⟨⟨book', seq, some w, []⟩, server', requests ++ [packet seq r.tSendNs], replies⟩
      (.poll r.clock r.tDecide)
    rw [show (twoLanes count enableTiming).act = act count from rfl, gives] at fourth
    obtain ⟨final, logged⟩ := final_of_four first second third fourth
    rw [Round.moves, final, logged]
    have now : score seq = 0 := if_neg (by omega)
    constructor
    · refine ⟨rfl, rfl, rfl, still, by simp [sent, conclude], ?_, ?_⟩
      · have full : 214748364 ≤ seq := not_lt.mp fits
        change replies.length = _
        rw [answered, Nat.min_eq_right full, Nat.min_eq_right (full.trans seq.le_succ)]
      · rw [grows]
        push_cast
        ring
    · rw [now]
      rfl

theorem ready_start {s : PsState} (flow : s.ofi = 0) :
    Ready 0 (.start .start s : Net Runner PsState (List Byte) (List Byte)) where
  seq := rfl
  free := rfl
  socket := rfl
  noAsk := rfl
  requests := rfl
  replies := rfl
  flow := flow

variable (enableTiming) in
theorem lockstep_rows {s : PsState} (flow : s.ofi = 0) {rounds : ℕ → Round}
    (fits : n ≤ count ∧ n ≤ 2 ^ 32)
    (off : ∀ k, (rounds k).x.pl = .off)
    (late : ∀ k, 214748364 ≤ k → ((rounds k).clock : ℤ) - (rounds k).t0 > 20000000) :
    Ready n ((net (twoLanes count enableTiming)).final (.start .start s)
        (schedule rounds n)) ∧
      ((log (twoLanes count enableTiming) .start s (schedule rounds n)).map fun row =>
          (row.seq, row.reflexAct, row.fpgaScore, row.finalDec)) =
        (List.range n).map fun k => (k, .none, score k, ReplayRunner.decide .none (score k)) := by
  induction n with
  | zero => exact ⟨ready_start flow, rfl⟩
  | succ n ih =>
    obtain ⟨ready, rows⟩ := ih ⟨by omega, by omega⟩
    have more : n < count := by omega
    obtain ⟨next, row⟩ := ready.round enableTiming more (by omega) (off n) (late n)
    have turn : schedule rounds (n + 1) = schedule rounds n ++ (rounds n).moves n := by
      rw [schedule, List.range_succ, List.flatMap_append, List.flatMap_singleton]
      rfl
    constructor
    · rw [turn, Mealy.final_append]
      exact next
    · rw [log, turn, Mealy.answers_append, List.map_append, List.range_succ, List.map_append]
      rw [log] at rows
      rw [rows, row]
      rfl

end Step

theorem decide_score (k : ℕ) : ReplayRunner.decide .none (score k) =
    if 20 ≤ k ∧ k < 214748364 then .buy else .hold := by
  have nonneg : 0 ≤ score k := by
    rw [score]
    split <;> omega
  have above : score k > 200 ↔ 20 ≤ k ∧ k < 214748364 := by
    rw [score]
    split <;> omega
  rw [decide_of_nonneg nonneg]
  exact if_congr above rfl rfl

/-- In step with a server whose flow is 0 when the run begins, the runner holds twenty times, then
buys on every packet, on a score that is ten times their number, until the score no longer fits
the reply and it holds for good. -/
theorem decisions_in_step {s : PsState} (flow : s.ofi = 0) {count n : ℕ} (enableTiming : Bool)
    {rounds : ℕ → Round} (fits : n ≤ count ∧ n ≤ 2 ^ 32) (off : ∀ k, (rounds k).x.pl = .off)
    (late : ∀ k, 214748364 ≤ k → ((rounds k).clock : ℤ) - (rounds k).t0 > 20000000) :
    ((log (twoLanes count enableTiming) .start s (schedule rounds n)).map fun row =>
        (row.seq, row.reflexAct, row.finalDec)) =
      (List.range n).map fun k =>
        (k, .none, if 20 ≤ k ∧ k < 214748364 then .buy else .hold) := by
  obtain ⟨-, rows⟩ := lockstep_rows enableTiming flow fits off late
  have shorter := congrArg
    (List.map fun row : ℕ × ReflexAction × ℤ × Decision => (row.1, row.2.1, row.2.2.2)) rows
  simpa only [List.map_map, Function.comp_def, decide_score] using shorter

theorem decisions_in_step_bought :
    ((log (twoLanes 1000 false) .start .start
        (schedule (fun k => ⟨0, k, k + 1, ⟨0, ⟨0, 0, 0, 0, 0, 0⟩, .off⟩, k + 20000001, 0⟩) 22)).map
      fun row => (row.seq, row.reflexAct, row.finalDec)) =
      ((List.range 20).map fun k => (k, .none, .hold)) ++
        [(20, .none, .buy), (21, .none, .buy)] := by
  have late (k : ℕ) : ((k + 20000001 : ℕ) : ℤ) - k > 20000000 := by
    push_cast
    ring_nf
    norm_num
  exact decisions_in_step (s := .start) rfl false ⟨by norm_num, by norm_num⟩ (fun _ => rfl)
    fun k _ => late k

end HftLatencyLab.TwoLaneRunner
