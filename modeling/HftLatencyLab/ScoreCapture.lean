import HftLatencyLab.MlpInfer
import Mathlib.Algebra.Order.Floor.Div
import Mathlib.Data.List.ReduceOption

/-! The capture of mlp_runtime (fpga/pynq/mlp_runtime.py) on the score stream. A transfer ends
behind a word with TLAST and every score is sent with TLAST, so a transfer moves one score at
most; the other words that the program writes for it are what the buffer held from the start. -/

namespace HftLatencyLab.ScoreCapture
open AxiStream ByteOrder FeatureParser FeatureBook FeaturePipeline WeightLoad MlpInfer

/-- The S2MM channel of the AXI DMA: the words that a transfer of the given length stores of those
that arrive. -/
structure S2mm where
  moved : ℕ → List Axis32 → List (BitVec 32)
  /-- A transfer is over behind the first word with TLAST. -/
  ends : ∀ {n : ℕ} {bs : List Axis32} {b : Axis32} (rest : List Axis32),
    (∀ x ∈ bs, x.last = false) → b.last = true → bs.length < n →
      moved n (bs ++ b :: rest) = (bs ++ [b]).map Axis32.data
  /-- Without one it stores what arrives, up to its length. -/
  fills : ∀ {n : ℕ} {bs : List Axis32}, (∀ x ∈ bs, x.last = false) →
    moved n bs = (bs.take n).map Axis32.data

inductive Outcome
  | done
  | error
  | timeout
deriving DecidableEq

/-- What lies outside of the program in one pass: the words that a reset of the channel has
lost, those that arrive before the polling ends, and how it ends. -/
structure Pass where
  lost : ℕ
  arrives : ℕ
  outcome : Outcome

structure Capture where
  total : ℕ
  buf : List (BitVec 32)
  /-- The score stream from here on. -/
  stream : List Axis32
  file : List Byte
  firstVals : Option (List ℚ)
  timeouts : ℕ
  errors : ℕ

def chunkWords (countWords : ℤ) : ℕ := (min 4092 (max 1 countWords)).toNat

/-- `memoryview(view).tobytes()` -/
def viewBytes (view : List (BitVec 32)) : List Byte := view.flatMap fun w => toLE 4 w.toNat

/-- `np.frombuffer(b, dtype="<u4").astype(np.int32) / float(1 << 16)` -/
def fromBuffer (b : List Byte) : List ℚ :=
  (List.range (b.length / 4)).map fun i => ScorePath.captureScore (b.drop (4 * i))

/-- One pass of `while total < count_words`. -/
def transfer (dma : S2mm) (chunk count : ℕ) (s : Capture) (p : Pass) : Capture :=
  let nWords := min chunk (count - s.total)
  let stream := s.stream.drop p.lost
  let moved := dma.moved nWords (stream.take p.arrives)
  let buf := moved ++ s.buf.drop moved.length
  let b := viewBytes (buf.take nWords)
  { total := s.total + nWords
    buf := buf
    stream := stream.drop moved.length
    file := s.file ++ b
    firstVals := s.firstVals.or (some (fromBuffer (b.take 32)))
    timeouts := if p.outcome = .timeout then s.timeouts + 1 else s.timeouts
    errors := if p.outcome = .error then s.errors + 1 else s.errors }

/-- None if a transfer raises, which is the end of the passes. -/
def captureLoop (dma : S2mm) (chunk count : ℕ) : Capture → List Pass → Option Capture
  | s, [] => if s.total < count then none else some s
  | s, p :: ps =>
    if s.total < count then captureLoop dma chunk count (transfer dma chunk count s p) ps
    else some s

/-- `mem` is what the allocated words hold. -/
def Capture.start (chunk : ℕ) (mem : ℕ → BitVec 32) (stream : List Axis32) : Capture where
  total := 0
  buf := (List.range chunk).map mem
  stream := stream
  file := []
  firstVals := none
  timeouts := 0
  errors := 0

def captureScores (dma : S2mm) (countWords : ℤ) (mem : ℕ → BitVec 32) (stream : List Axis32)
    (ps : List Pass) : Option Capture :=
  let chunk := chunkWords countWords
  captureLoop dma chunk countWords.toNat (.start chunk mem stream) ps

theorem moved_last (dma : S2mm) {bs : List Axis32} (last : ∀ b ∈ bs, b.last = true) (n : ℕ) :
    dma.moved (n + 1) bs = bs.head?.toList.map Axis32.data := by
  cases bs with
  | nil => exact dma.fills (List.forall_mem_nil _)
  | cons b bs =>
    rw [List.forall_mem_cons] at last
    exact dma.ends bs (List.forall_mem_nil _) last.1 (Nat.succ_pos n)

theorem overwritten (t : Option (BitVec 32)) (w : BitVec 32) (rest : List (BitVec 32)) :
    t.toList ++ (w :: rest).drop t.toList.length = t.getD w :: rest := by
  cases t <;> rfl

def Pass.taken (p : Pass) (stream : List Axis32) : Option (BitVec 32) :=
  ((stream.drop p.lost).take p.arrives).head?.map Axis32.data

theorem taken_sublist (p : Pass) (stream : List Axis32) :
    ((p.taken stream).toList ++
      ((stream.drop p.lost).drop (p.taken stream).toList.length).map Axis32.data).Sublist
        (stream.map Axis32.data) := by
  have later : ((stream.drop p.lost).map Axis32.data).Sublist (stream.map Axis32.data) :=
    (List.drop_sublist _ _).map _
  refine List.Sublist.trans ?_ later
  rw [Pass.taken]
  cases p.arrives <;> cases stream.drop p.lost <;> exact List.Sublist.refl _

variable {dma : S2mm} {chunk count : ℕ}

theorem transfer_last {s : Capture} {p : Pass} {w : BitVec 32} {rest : List (BitVec 32)}
    (buf : s.buf = w :: rest) (pos : 0 < chunk) (more : s.total < count)
    (last : ∀ b ∈ s.stream, b.last = true) :
    (transfer dma chunk count s p).total = s.total + min chunk (count - s.total) ∧
      (transfer dma chunk count s p).buf = (p.taken s.stream).getD w :: rest ∧
      (transfer dma chunk count s p).stream =
        (s.stream.drop p.lost).drop (p.taken s.stream).toList.length ∧
      (transfer dma chunk count s p).file = s.file ++
        viewBytes (((p.taken s.stream).getD w :: rest).take (min chunk (count - s.total))) := by
  obtain ⟨n, size⟩ : ∃ n, min chunk (count - s.total) = n + 1 :=
    Nat.exists_eq_succ_of_ne_zero (by omega)
  have arrived : ∀ b ∈ (s.stream.drop p.lost).take p.arrives, b.last = true := fun b mem =>
    last b (List.mem_of_mem_drop (List.mem_of_mem_take mem))
  have moved : dma.moved (min chunk (count - s.total)) ((s.stream.drop p.lost).take p.arrives) =
      (p.taken s.stream).toList := by
    rw [size, moved_last dma arrived, Pass.taken]
    cases ((s.stream.drop p.lost).take p.arrives).head? <;> rfl
  unfold transfer
  simp only [moved, buf, overwritten, and_self]

def shown (rest : List (BitVec 32)) : BitVec 32 → List (Option (BitVec 32)) → List (BitVec 32)
  | _, [] => []
  | w, t :: ts => (t.getD w :: rest) ++ shown rest (t.getD w) ts

theorem ceilDiv_step {r c : ℕ} (pos : 0 < c) (more : 0 < r) : r ⌈/⌉ c = (r - c) ⌈/⌉ c + 1 := by
  rw [Nat.ceilDiv_eq_add_pred_div, Nat.ceilDiv_eq_add_pred_div]
  rcases le_total r c with few | many
  · have none : r - c = 0 := Nat.sub_eq_zero_of_le few
    have once : (r + c - 1) / c = 1 := Nat.div_eq_of_lt_le (by omega) (by omega)
    have never : (0 + c - 1) / c = 0 := Nat.div_eq_of_lt (by omega)
    rw [none, once, never]
  · have split : r + c - 1 = (r - c + c - 1) + c := by omega
    rw [split, Nat.add_div_right _ pos]

/-- The passes from `s` to `s'` took these scores and wrote the rest of the buffer with them. -/
structure Wrote (chunk count : ℕ) (rest : List (BitVec 32)) (w : BitVec 32) (s : Capture)
    (takes : List (Option (BitVec 32))) (s' : Capture) : Prop where
  total : s'.total = s.total + (count - s.total)
  passes : takes.length = (count - s.total) ⌈/⌉ chunk
  order : takes.reduceOption.Sublist (s.stream.map Axis32.data)
  file : s'.file = s.file ++ viewBytes ((shown rest w takes).take (count - s.total))

theorem Wrote.refl {s : Capture} (full : ¬s.total < count) (rest : List (BitVec 32))
    (w : BitVec 32) : Wrote chunk count rest w s [] s := by
  have none : count - s.total = 0 := by omega
  constructor
  · omega
  · rw [none, zero_ceilDiv, List.length_nil]
  · exact List.nil_sublist _
  · rw [shown, List.take_nil, viewBytes, List.flatMap_nil, List.append_nil]

theorem Wrote.step {s s' : Capture} {p : Pass} {w : BitVec 32} {rest : List (BitVec 32)}
    {takes : List (Option (BitVec 32))} (size : rest.length + 1 = chunk) (buf : s.buf = w :: rest)
    (more : s.total < count) (last : ∀ b ∈ s.stream, b.last = true)
    (later : Wrote chunk count rest ((p.taken s.stream).getD w) (transfer dma chunk count s p)
      takes s') :
    Wrote chunk count rest w s (p.taken s.stream :: takes) s' := by
  have pos : 0 < chunk := by omega
  obtain ⟨total, -, stream, file⟩ := transfer_last (p := p) buf pos more last
  have left : count - (transfer dma chunk count s p).total = count - s.total - chunk := by
    rw [total]
    omega
  constructor
  · rw [later.total, total]
    omega
  · rw [List.length_cons, later.passes, left, ← ceilDiv_step pos (by omega)]
  · have order := later.order
    rw [stream] at order
    have split : (p.taken s.stream :: takes).reduceOption =
        (p.taken s.stream).toList ++ takes.reduceOption := by
      cases p.taken s.stream <;> rfl
    rw [split]
    exact (order.append_left _).trans (taken_sublist p s.stream)
  · have whole : ((p.taken s.stream).getD w :: rest).length = chunk := size
    rw [later.file, file, left, shown, List.take_append, whole, viewBytes, viewBytes, viewBytes,
      List.flatMap_append, List.append_assoc, min_comm, ← whole, ← List.take_eq_take_min]

theorem captureLoop_last {w : BitVec 32} {rest : List (BitVec 32)} (size : rest.length + 1 = chunk)
    {s : Capture} (buf : s.buf = w :: rest) (last : ∀ b ∈ s.stream, b.last = true)
    {ps : List Pass} (enough : (count - s.total) ⌈/⌉ chunk ≤ ps.length) :
    ∃ s' takes, captureLoop dma chunk count s ps = some s' ∧
      Wrote chunk count rest w s takes s' := by
  have pos : 0 < chunk := by omega
  induction ps generalizing s w with
  | nil =>
    by_cases more : s.total < count
    · rw [ceilDiv_step pos (by omega)] at enough
      cases enough
    · exact ⟨s, [], by rw [captureLoop, if_neg more], .refl more rest w⟩
  | cons p ps ih =>
    by_cases more : s.total < count
    · obtain ⟨total, renewed, stream, -⟩ := transfer_last (p := p) buf pos more last
      have still : ∀ b ∈ (transfer dma chunk count s p).stream, b.last = true := by
        rw [stream]
        exact fun b mem => last b (List.mem_of_mem_drop (List.mem_of_mem_drop mem))
      have left : count - (transfer dma chunk count s p).total = count - s.total - chunk := by
        rw [total]
        omega
      rw [ceilDiv_step pos (by omega), List.length_cons, Nat.add_le_add_iff_right, ← left] at enough
      obtain ⟨s', takes, ran, later⟩ := ih renewed still enough
      exact ⟨s', p.taken s.stream :: takes, by rw [captureLoop, if_pos more, ran],
        later.step size buf more last⟩
    · exact ⟨s, [], by rw [captureLoop, if_neg more], .refl more rest w⟩

theorem pumpTurn_last {depth : Option ℕ} {s s' : PumpState depth} {inAxis rest : List Axis64}
    {beat : FeatureBeat} (fired : pumpTurn s inAxis = .ok (s', rest, beat)) :
    beat.axo.last = true := by
  unfold pumpTurn at fired
  cases parsed : parseStreamOnePacket inAxis s.ds with
  | error e =>
    rw [parsed] at fired
    cases fired
  | ok p =>
    simp only [parsed, bind, Except.bind, pure, Except.pure] at fired
    split at fired
    · cases fired
      rfl
    · split at fired <;> cases fired
      rfl

section Fabric

variable {F : Type} (O : Floats F) (k : Scales F) (delayCycles : BitVec 32) (c : WeightCache)
  (depth : Option ℕ) (r : Regs) (inAxis : List Axis64)

def scoreStream : List Axis32 :=
  scoreBeats O k delayCycles c ((featurePipeline depth r inAxis).fired.map Prod.snd)

theorem scoreStream_last : ∀ b ∈ scoreStream O k delayCycles c depth r inAxis, b.last = true := by
  intro b mem
  obtain ⟨beat, fired, rfl⟩ := List.mem_map.mp mem
  obtain ⟨f, turn, rfl⟩ := List.mem_map.mp fired
  exact StreamPump.fired_of_fire (fun _ _ _ _ _ => pumpTurn_last) _ _ f turn

/-- However many words it is asked for, whatever the fabric is fed with, the capture writes that
many words and takes one score of the stream, at most, for each of its transfers; a transfer shows
that score, or the one before it, and behind it the words that the buffer held when it was
allocated. -/
theorem captured_words (dma : S2mm) (countWords : ℤ) (mem : ℕ → BitVec 32) {ps : List Pass}
    (enough : countWords.toNat ⌈/⌉ chunkWords countWords ≤ ps.length) :
    ∃ s takes,
      captureScores dma countWords mem (scoreStream O k delayCycles c depth r inAxis) ps = some s ∧
        s.total = countWords.toNat ∧
        takes.length = countWords.toNat ⌈/⌉ chunkWords countWords ∧
        takes.reduceOption.Sublist
          ((scoreStream O k delayCycles c depth r inAxis).map Axis32.data) ∧
        s.file = viewBytes ((shown
          ((List.range (chunkWords countWords - 1)).map fun i => mem (i + 1))
          (mem 0) takes).take countWords.toNat) := by
  have pos : 0 < chunkWords countWords := by
    unfold chunkWords
    omega
  obtain ⟨n, size⟩ : ∃ n, chunkWords countWords = n + 1 := Nat.exists_eq_succ_of_ne_zero pos.ne'
  let beats := scoreStream O k delayCycles c depth r inAxis
  have buf : (Capture.start (n + 1) mem beats).buf =
      mem 0 :: (List.range n).map fun i => mem (i + 1) := by
    rw [Capture.start, List.range_succ_eq_map, List.map_cons, List.map_map]
    rfl
  rw [captureScores, size]
  rw [size] at enough
  have long : ((List.range n).map fun i => mem (i + 1)).length + 1 = n + 1 := by
    rw [List.length_map, List.length_range]
  obtain ⟨s, takes, ran, wrote⟩ := captureLoop_last long buf
    (scoreStream_last O k delayCycles c depth r inAxis) enough
  exact ⟨s, takes, ran, wrote.total.trans (Nat.zero_add _), wrote.passes, wrote.order, wrote.file⟩

end Fabric

def axiDma : ℕ → List Axis32 → List (BitVec 32)
  | 0, _ => []
  | _ + 1, [] => []
  | n + 1, b :: bs => b.data :: if b.last then [] else axiDma n bs

theorem axiDma_ends {n : ℕ} {bs : List Axis32} {b : Axis32} (rest : List Axis32)
    (before : ∀ x ∈ bs, x.last = false) (last : b.last = true) (room : bs.length < n) :
    axiDma n (bs ++ b :: rest) = (bs ++ [b]).map Axis32.data := by
  induction bs generalizing n with
  | nil =>
    obtain ⟨n, rfl⟩ := Nat.exists_eq_succ_of_ne_zero (by omega : n ≠ 0)
    rw [List.nil_append, axiDma, if_pos last]
    rfl
  | cons x bs ih =>
    obtain ⟨n, rfl⟩ := Nat.exists_eq_succ_of_ne_zero (by omega : n ≠ 0)
    obtain ⟨first, later⟩ := List.forall_mem_cons.mp before
    rw [List.cons_append, axiDma, first, if_neg Bool.false_ne_true,
      ih later (Nat.lt_of_succ_lt_succ room)]
    rfl

theorem axiDma_fills {n : ℕ} {bs : List Axis32} (never : ∀ x ∈ bs, x.last = false) :
    axiDma n bs = (bs.take n).map Axis32.data := by
  induction bs generalizing n with
  | nil => cases n <;> rfl
  | cons x bs ih =>
    obtain ⟨first, later⟩ := List.forall_mem_cons.mp never
    cases n with
    | zero => rfl
    | succ n =>
      rw [axiDma, first, if_neg Bool.false_ne_true, ih later]
      rfl

def biased : WeightCache := { WeightCache.powerOn with sB1Scalar := 5 }

def axiS2mm : S2mm := ⟨axiDma, axiDma_ends, axiDma_fills⟩

/-- Three words are asked for. The score of the one packet comes first, and behind it are the second
and the third word of the buffer. -/
theorem captured_words_three :
    ∃ s takes, captureScores axiS2mm 3 (fun i => BitVec.ofNat 32 (7 + i))
        (scoreStream exact ⟨1, 1, 1, 1⟩ 0 biased (some 8) .powerOn (blankPacket 0).beats)
        [⟨0, 1, .done⟩] = some s ∧
      s.total = 3 ∧ takes = [some 0x50000] ∧
      s.file = viewBytes ((shown [8, 9] 7 takes).take 3) := by
  have once : (3 : ℤ).toNat ⌈/⌉ chunkWords 3 = 1 := by decide
  have enough : (3 : ℤ).toNat ⌈/⌉ chunkWords 3 ≤ [(⟨0, 1, .done⟩ : Pass)].length := once.le
  have scores : (scoreStream exact ⟨1, 1, 1, 1⟩ 0 biased (some 8) .powerOn
      (blankPacket 0).beats).map Axis32.data = [0x50000] := by decide +kernel
  have written : (captureScores axiS2mm 3 (fun i => BitVec.ofNat 32 (7 + i))
      (scoreStream exact ⟨1, 1, 1, 1⟩ 0 biased (some 8) .powerOn (blankPacket 0).beats)
      [⟨0, 1, .done⟩]).map Capture.file = some (viewBytes [0x50000, 8, 9]) := by decide +kernel
  obtain ⟨s, takes, ran, total, passes, order, file⟩ := captured_words exact ⟨1, 1, 1, 1⟩ 0 biased
    (some 8) .powerOn (blankPacket 0).beats axiS2mm 3 (fun i => BitVec.ofNat 32 (7 + i)) enough
  refine ⟨s, takes, ran, total, ?_, file⟩
  obtain ⟨t, rfl⟩ := List.length_eq_one_iff.mp (passes.trans once)
  rw [ran, Option.map_some, Option.some_inj, file] at written
  cases t with
  | none =>
    revert written
    decide
  | some score =>
    rw [scores] at order
    have found : score ∈ [0x50000] := order.subset (List.mem_singleton.mpr rfl)
    rw [List.mem_singleton.mp found]

end HftLatencyLab.ScoreCapture
