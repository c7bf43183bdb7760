import HftLatencyLab.MealyRun
import HftLatencyLab.ProbeStream

/-! The chain of the latency probe: traffic_gen_const, a width converter, mlp_core_stream
and score_sink, with a FIFO between any two. Whichever stage moves next, nothing is lost
on the way: what the sink has read and what it will read is always the same list. -/

namespace HftLatencyLab.ProbeChain
open AxiStream ProbeStream

structure Burst where
  args : GenArgs
  beats : ℕ
  starts : args.start = true
  words : args.numWords.toNat = 4 * beats
  nonempty : 1 ≤ beats

def txWord : GenWrite → Option Axis32
  | .txStream w => some w
  | _ => none

def Burst.sent (b : Burst) : List Axis32 := (trafficGenConst b.args).filterMap txWord

def packBeat (w0 w1 w2 w3 : Axis32) : Axis128 where
  data := w3.data ++ w2.data ++ w1.data ++ w0.data
  keep := w3.keep ++ w2.keep ++ w1.keep ++ w0.keep
  strb := w3.strb ++ w2.strb ++ w1.strb ++ w0.strb
  last := w3.last

/-- `din.range((i + 1) * 32 - 1, i * 32)` -/
def lane (din : BitVec 128) (i : ℕ) : BitVec 32 := din.extractLsb' (i * 32) 32

def foldWord (inw : Axis128) : Axis32 where
  data := (List.range 4).foldl (fun acc i => acc ^^^ lane inw.data i) 0
  keep := 0xF
  strb := 0xF
  last := inw.last

/-- `done_pulse`, what stays in the input stream, and the word written. -/
def mlpCoreStream : List Axis128 → Bool × List Axis128 × List Axis32
  | [] => (false, [], [])
  | inw :: rest => (true, rest, [foldWord inw])

structure Chain where
  /-- Words the generator has not written yet. -/
  unsent : List Axis32
  txStream : List Axis32
  /-- Words the converter holds for its next beat. -/
  held : List Axis32
  feat : List Axis128
  score : List Axis32

inductive Move
  | generate
  | convert
  | core
  | sink
deriving DecidableEq

structure SinkCall where
  read : Option Axis32
  donePulse : Bool
deriving DecidableEq

def generate (c : Chain) : Chain :=
  match c.unsent with
  | [] => c
  | w :: unsent => { c with unsent := unsent, txStream := c.txStream ++ [w] }

def convert (c : Chain) : Chain :=
  match c.txStream, c.held with
  | [], _ => c
  | w :: txStream, [w0, w1, w2] =>
    { c with txStream := txStream, held := [], feat := c.feat ++ [packBeat w0 w1 w2 w] }
  | w :: txStream, held => { c with txStream := txStream, held := held ++ [w] }

def core (c : Chain) : Chain :=
  let (_, feat, written) := mlpCoreStream c.feat
  { c with feat := feat, score := c.score ++ written }

def sink (c : Chain) : Chain × SinkCall :=
  let (donePulse, score) := scoreSink c.score
  ({ c with score := score }, ⟨c.score.head?, donePulse⟩)

def chain : Mealy Chain Move (Option SinkCall) where
  step c
    | .generate => (generate c, none)
    | .convert => (convert c, none)
    | .core => (core c, none)
    | .sink => ((sink c).1, some (sink c).2)

def Chain.start (bursts : List Burst) : Chain where
  unsent := bursts.flatMap Burst.sent
  txStream := []
  held := []
  feat := []
  score := []

def scoresOf : List Axis32 → List Axis32
  | w0 :: w1 :: w2 :: w3 :: words => foldWord (packBeat w0 w1 w2 w3) :: scoresOf words
  | _ => []

def Chain.toRead (c : Chain) : List Axis32 :=
  c.score ++ (c.feat.map foldWord ++ scoresOf (c.held ++ (c.txStream ++ c.unsent)))

def Chain.Partial (c : Chain) : Prop := c.held.length < 4

theorem partial_start (bursts : List Burst) : (Chain.start bursts).Partial := Nat.zero_lt_succ 3

theorem toRead_generate (c : Chain) : (generate c).toRead = c.toRead := by
  obtain ⟨unsent, txStream, held, feat, score⟩ := c
  cases unsent with
  | nil => rfl
  | cons w unsent => simp [generate, Chain.toRead]

theorem toRead_core (c : Chain) : (core c).toRead = c.toRead := by
  obtain ⟨unsent, txStream, held, feat, score⟩ := c
  cases feat with
  | nil => simp [core, mlpCoreStream, Chain.toRead]
  | cons inw feat => simp [core, mlpCoreStream, Chain.toRead]

theorem convert_keeps (c : Chain) (h : c.Partial) :
    (convert c).Partial ∧ (convert c).toRead = c.toRead := by
  obtain ⟨unsent, txStream, held, feat, score⟩ := c
  cases txStream with
  | nil => exact ⟨h, rfl⟩
  | cons w txStream =>
    match held, h with
    | [], _ => exact ⟨by simp [Chain.Partial, convert], rfl⟩
    | [w0], _ => exact ⟨by simp [Chain.Partial, convert], rfl⟩
    | [w0, w1], _ => exact ⟨by simp [Chain.Partial, convert], rfl⟩
    | [w0, w1, w2], _ =>
      exact ⟨by simp [Chain.Partial, convert], by simp [convert, Chain.toRead, scoresOf]⟩

theorem sink_reads (c : Chain) : c.toRead = (sink c).2.read.toList ++ (sink c).1.toRead := by
  obtain ⟨unsent, txStream, held, feat, score⟩ := c
  cases score with
  | nil => rfl
  | cons w score => rfl

/-- Nothing is lost or doubled, whichever stages move. -/
theorem reads_toRead (c : Chain) (h : c.Partial) (moves : List Move) :
    c.toRead = (chain.outputs c moves).filterMap (fun call => call.bind SinkCall.read) ++
      (chain.final c moves).toRead := by
  refine Mealy.drains (I := Chain.Partial) ?_ ?_ h moves
  · intro c move h
    cases move with
    | generate =>
      change (generate c).Partial
      unfold generate
      split <;> exact h
    | convert => exact (convert_keeps c h).1
    | core => exact h
    | sink => exact h
  · intro c move h
    cases move with
    | generate => exact (toRead_generate c).symm
    | convert => exact (convert_keeps c h).2.symm
    | core => exact (toRead_core c).symm
    | sink => exact sink_reads c

def genWord (a : GenArgs) (i : ℕ) : Axis32 where
  data := a.word i
  keep := 0xF
  strb := 0xF
  last := i == a.numWords.toNat - 1

theorem filterMap_emitWord (a : GenArgs) (is : List ℕ) :
    (is.flatMap (emitWord a)).filterMap txWord = is.map (genWord a) := by
  induction is with
  | nil => rfl
  | cons i is ih =>
    rw [List.flatMap_cons, List.filterMap_append, ih, List.map_cons]
    unfold emitWord
    by_cases isLast : i == a.numWords.toNat - 1 <;> simp [txWord, genWord, isLast]

theorem sent_eq (b : Burst) : b.sent = (List.range (4 * b.beats)).map (genWord b.args) := by
  rw [Burst.sent, trafficGenConst, if_pos b.starts, ← b.words, ← filterMap_emitWord]
  change List.filterMap txWord (_ ++ [.done true]) = _
  rw [List.filterMap_append]
  exact List.append_nil _

/-- `w_const0 xor w_const1 xor w_const2 xor w_const3` -/
def Burst.score (b : Burst) : BitVec 32 :=
  b.args.wConst0 ^^^ b.args.wConst1 ^^^ b.args.wConst2 ^^^ b.args.wConst3

def Burst.scoreWord (b : Burst) (i : ℕ) : Axis32 where
  data := b.score
  keep := 0xF
  strb := 0xF
  last := i + 1 == b.beats

theorem getLsbD_four (d0 d1 d2 d3 : BitVec 32) (j : ℕ) :
    (d3 ++ d2 ++ d1 ++ d0 : BitVec (32 + 32 + 32 + 32)).getLsbD j =
      if j < 32 then d0.getLsbD j else if j < 64 then d1.getLsbD (j - 32)
      else if j < 96 then d2.getLsbD (j - 64) else d3.getLsbD (j - 96) := by
  simp only [BitVec.getLsbD_append]
  split_ifs <;> first | rfl | omega

theorem lane_packed (d0 d1 d2 d3 : BitVec 32) :
    let din : BitVec 128 := d3 ++ d2 ++ d1 ++ d0
    lane din 0 = d0 ∧ lane din 1 = d1 ∧ lane din 2 = d2 ∧ lane din 3 = d3 := by
  intro din
  have bits (i j : ℕ) (hj : j < 32) : (lane din i).getLsbD j = din.getLsbD (i * 32 + j) := by
    simp [lane, hj]
  have four := getLsbD_four d0 d1 d2 d3
  refine ⟨?_, ?_, ?_, ?_⟩ <;> apply BitVec.eq_of_getLsbD_eq <;> intro j hj
  · refine (bits 0 j hj).trans ((four _).trans ?_)
    rw [if_pos (by omega), Nat.zero_mul, Nat.zero_add]
  · refine (bits 1 j hj).trans ((four _).trans ?_)
    rw [if_neg (by omega), if_pos (by omega)]
    congr 1
    omega
  · refine (bits 2 j hj).trans ((four _).trans ?_)
    rw [if_neg (by omega), if_neg (by omega), if_pos (by omega)]
    congr 1
    omega
  · refine (bits 3 j hj).trans ((four _).trans ?_)
    rw [if_neg (by omega), if_neg (by omega), if_neg (by omega)]
    congr 1
    omega

theorem foldWord_packBeat (w0 w1 w2 w3 : Axis32) :
    foldWord (packBeat w0 w1 w2 w3) =
      ⟨w0.data ^^^ w1.data ^^^ w2.data ^^^ w3.data, 0xF, 0xF, w3.last⟩ := by
  obtain ⟨h0, h1, h2, h3⟩ := lane_packed w0.data w1.data w2.data w3.data
  have fold (din : BitVec 128) : (List.range 4).foldl (fun acc i => acc ^^^ lane din i) 0 =
      0 ^^^ lane din 0 ^^^ lane din 1 ^^^ lane din 2 ^^^ lane din 3 := rfl
  rw [foldWord, fold]
  simp [packBeat, h0, h1, h2, h3]

theorem scoresOf_range' (f : ℕ → Axis32) (i k : ℕ) (rest : List Axis32) :
    scoresOf ((List.range' (4 * i) (4 * k)).map f ++ rest) =
      (List.range' i k).map (fun j =>
        foldWord (packBeat (f (4 * j)) (f (4 * j + 1)) (f (4 * j + 2)) (f (4 * j + 3)))) ++
      scoresOf rest := by
  induction k generalizing i with
  | zero => rfl
  | succ k ih =>
    have four : List.range' (4 * i) (4 * (k + 1)) =
        4 * i :: (4 * i + 1) :: (4 * i + 2) :: (4 * i + 3) ::
          List.range' (4 * (i + 1)) (4 * k) := by
      rfl
    rw [four, List.range'_succ]
    simp only [List.map_cons, List.cons_append, scoresOf, ih]

theorem scoresOf_sent (b : Burst) (rest : List Axis32) :
    scoresOf (b.sent ++ rest) = (List.range b.beats).map b.scoreWord ++ scoresOf rest := by
  have words := scoresOf_range' (genWord b.args) 0 b.beats rest
  rw [Nat.mul_zero, ← List.range_eq_range', ← List.range_eq_range'] at words
  rw [sent_eq, words]
  congr 1
  apply List.map_congr_left
  intro i hi
  have inside := List.mem_range.mp hi
  have last : (4 * i + 3 == b.args.numWords.toNat - 1) = (i + 1 == b.beats) := by
    rw [b.words, Bool.eq_iff_iff, beq_iff_eq, beq_iff_eq]
    omega
  have word (j : ℕ) : b.args.word (4 * i + j) = b.args.word j := by
    simp only [GenArgs.word, Nat.mul_add_mod_self_left]
  have first : b.args.word (4 * i) = b.args.word 0 := word 0
  rw [foldWord_packBeat]
  simp only [genWord, last, Burst.scoreWord, first, word]
  rfl

def expected (bursts : List Burst) : List (BitVec 32 × Bool) :=
  bursts.flatMap (fun b => (List.range b.beats).map (fun i => (b.score, i + 1 == b.beats)))

def finished : List Burst → ℕ → ℕ
  | [], _ => 0
  | b :: bursts, n => if b.beats ≤ n then finished bursts (n - b.beats) + 1 else 0

def sinkCalls (bursts : List Burst) (moves : List Move) : List SinkCall :=
  (chain.outputs (.start bursts) moves).filterMap id

def consumed (calls : List SinkCall) : List (BitVec 32 × Bool) :=
  calls.filterMap (fun call => call.read.map (fun w => (w.data, call.donePulse)))

theorem toRead_start (bursts : List Burst) :
    (Chain.start bursts).toRead.map (fun w => (w.data, w.last)) = expected bursts := by
  change (scoresOf (bursts.flatMap Burst.sent)).map _ = _
  unfold expected
  induction bursts with
  | nil => rfl
  | cons b bursts ih =>
    rw [List.flatMap_cons, List.flatMap_cons, scoresOf_sent, List.map_append, ih, List.map_map]
    rfl

theorem sink_pulse (c : Chain) : (sink c).2.donePulse = (sink c).2.read.any Axis32.last := by
  obtain ⟨unsent, txStream, held, feat, score⟩ := c
  cases score <;> rfl

theorem pulse_of_call {bursts : List Burst} {moves : List Move} {call : SinkCall}
    (mem : call ∈ sinkCalls bursts moves) : call.donePulse = call.read.any Axis32.last := by
  obtain ⟨out, called, same⟩ := List.mem_filterMap.mp mem
  obtain ⟨pre, move, post, -, rfl⟩ := (Mealy.mem_outputs _ _ _ _).mp called
  cases move with
  | generate => cases same
  | convert => cases same
  | core => cases same
  | sink =>
    have out : (sink (chain.final (.start bursts) pre)).2 = call := Option.some.inj same
    rw [← out]
    exact sink_pulse _

theorem consumed_eq {calls : List SinkCall}
    (pulses : ∀ call ∈ calls, call.donePulse = call.read.any Axis32.last) :
    consumed calls = (calls.filterMap SinkCall.read).map (fun w => (w.data, w.last)) := by
  rw [consumed, List.map_filterMap]
  apply List.filterMap_congr
  intro call mem
  rw [pulses call mem]
  cases call.read <;> rfl

theorem countP_consumed {calls : List SinkCall}
    (pulses : ∀ call ∈ calls, call.donePulse = call.read.any Axis32.last) :
    calls.countP SinkCall.donePulse = (consumed calls).countP Prod.snd := by
  induction calls with
  | nil => rfl
  | cons call calls ih =>
    have later := ih fun c mem => pulses c (List.mem_cons_of_mem call mem)
    have now := pulses call List.mem_cons_self
    rw [List.countP_cons, later]
    cases read : call.read with
    | none =>
      rw [read] at now
      simp [now, read, consumed]
    | some w => simp [read, consumed, List.countP_cons]

theorem countP_marks {k m : ℕ} (short : m ≤ k) (pos : 1 ≤ k) :
    (List.range m).countP (fun i => i + 1 == k) = if k ≤ m then 1 else 0 := by
  induction m with
  | zero => rw [if_neg (by omega), List.range_zero, List.countP_nil]
  | succ m ih =>
    rw [List.range_succ, List.countP_append, ih (by omega), if_neg (by omega), Nat.zero_add,
      List.countP_singleton]
    by_cases last : m + 1 = k
    · rw [if_pos (by simpa using last), if_pos (by omega)]
    · rw [if_neg (by simpa using last), if_neg (by omega)]

theorem countP_expected (bursts : List Burst) (n : ℕ) :
    ((expected bursts).take n).countP Prod.snd = finished bursts n := by
  induction bursts generalizing n with
  | nil => simp [expected, finished]
  | cons b bursts ih =>
    have pos := b.nonempty
    have marks := countP_marks (Nat.min_le_right n b.beats) pos
    have split : expected (b :: bursts) =
        (List.range b.beats).map (fun i => (b.score, i + 1 == b.beats)) ++ expected bursts := rfl
    rw [split, List.take_append, List.countP_append, List.length_map, List.length_range,
      ← List.map_take, List.take_range, List.countP_map, ih]
    change List.countP (fun i => i + 1 == b.beats) _ + _ = _
    rw [marks, finished]
    by_cases all : b.beats ≤ n
    · rw [if_pos (by omega), if_pos all, Nat.add_comm]
    · have none : n - b.beats = 0 := by omega
      rw [if_neg (by omega), if_neg all, none, Nat.zero_add]
      cases bursts with
      | nil => rfl
      | cons c bursts => exact if_neg (by have := c.nonempty; omega)

theorem pulses_of_run {bursts : List Burst} {moves : List Move} :
    ∀ call ∈ sinkCalls bursts moves, call.donePulse = call.read.any Axis32.last :=
  fun _ mem => pulse_of_call mem

theorem consumed_toRead (bursts : List Burst) (moves : List Move) :
    expected bursts = consumed (sinkCalls bursts moves) ++
      (chain.final (.start bursts) moves).toRead.map (fun w => (w.data, w.last)) := by
  have reads := reads_toRead (.start bursts) (partial_start bursts) moves
  have same : (sinkCalls bursts moves).filterMap SinkCall.read =
      (chain.outputs (.start bursts) moves).filterMap (fun call => call.bind SinkCall.read) := by
    rw [sinkCalls, List.filterMap_filterMap]
    rfl
  rw [consumed_eq pulses_of_run, ← toRead_start, reads, List.map_append, same]

theorem pulses_finished (bursts : List Burst) (moves : List Move) :
    (sinkCalls bursts moves).countP SinkCall.donePulse =
      finished bursts (consumed (sinkCalls bursts moves)).length := by
  have short : consumed (sinkCalls bursts moves) <+: expected bursts :=
    ⟨_, (consumed_toRead bursts moves).symm⟩
  rw [countP_consumed pulses_of_run, ← countP_expected, ← List.prefix_iff_eq_take.mp short]

/-- Whatever the order of the moves: the scores read are the first of the expected ones, a
call that reads one pulses iff it is the final score of its burst, a call that reads none
does not pulse, and there are as many pulses as bursts read to their end. -/
theorem probe_chain (bursts : List Burst) (moves : List Move) :
    consumed (sinkCalls bursts moves) <+: expected bursts ∧
      (∀ call ∈ sinkCalls bursts moves, call.read = none → call.donePulse = false) ∧
      (sinkCalls bursts moves).countP SinkCall.donePulse =
        finished bursts (consumed (sinkCalls bursts moves)).length := by
  refine ⟨⟨_, (consumed_toRead bursts moves).symm⟩, fun call mem idle => ?_,
    pulses_finished bursts moves⟩
  rw [pulse_of_call mem, idle]
  rfl

theorem finished_all (bursts : List Burst) : finished bursts (expected bursts).length =
    bursts.length := by
  induction bursts with
  | nil => rfl
  | cons b bursts ih =>
    have long : (expected (b :: bursts)).length = b.beats + (expected bursts).length := by
      simp [expected]
    rw [finished, long, if_pos (Nat.le_add_right _ _), Nat.add_sub_cancel_left, ih,
      List.length_cons]

theorem read_of_drained {bursts : List Burst} {moves : List Move}
    (drained : (chain.final (.start bursts) moves).toRead = []) :
    consumed (sinkCalls bursts moves) = expected bursts ∧
      (sinkCalls bursts moves).countP SinkCall.donePulse = bursts.length := by
  have all := consumed_toRead bursts moves
  rw [drained, List.map_nil, List.append_nil] at all
  rw [pulses_finished, ← all]
  exact ⟨rfl, finished_all bursts⟩

def twoBeats : Burst where
  args := ⟨8, true, 1, 2, 3, 4⟩
  beats := 2
  starts := rfl
  words := rfl
  nonempty := by decide

example :
    let moves := .sink :: (List.replicate 8 [Move.generate, .convert]).flatten ++
      [.core, .core, .sink, .sink, .sink]
    (chain.final (.start [twoBeats]) moves).toRead = [] ∧
      consumed (sinkCalls [twoBeats] moves) = [(4, false), (4, true)] := by
  decide

end HftLatencyLab.ProbeChain
