import HftLatencyLab.RestingPrice

/-! The turns of feature_pipeline on a stream of any beats, well-formed packets or not. A turn
that returns has taken in the deltas it parsed and emitted at the send time it read, so
what holds after any deltas and any send times holds on every stream. -/

namespace HftLatencyLab.PumpTurns
open AxiStream FeatureParser FeatureBook FeatureMath FeaturePipeline TopOfBook RestingPrice

/-- What a turn of `while (1)` reads. -/
structure Turn where
  deltas : List Delta
  tSendNs : BitVec 64

def turnMachine : Mealy Regs Turn FeatureBeat where
  step r x := emit (x.deltas.foldl updateBook (startMeasure r)) x.tSendNs

def Turn.steps (x : Turn) : List PumpStep := .start :: x.deltas.map .delta ++ [.emit x.tSendNs]

theorem foldl_steps (r : Regs) (x : Turn) :
    x.steps.foldl pumpStep r = turnMachine.next r x := by
  simp only [Turn.steps, List.cons_append, List.foldl_cons, List.foldl_append, List.foldl_map,
    List.foldl_nil]
  rfl

theorem pumpMachine_turns (r : Regs) (xs : List Turn) :
    pumpMachine.final r (xs.flatMap Turn.steps) = turnMachine.final r xs := by
  induction xs generalizing r with
  | nil => rfl
  | cons x xs ih =>
    have turn : pumpMachine.final r x.steps = turnMachine.next r x := foldl_steps r x
    rw [List.flatMap_cons, Mealy.final_append, turn, ih, Mealy.final_cons]

theorem turn_burst (r : Regs) (x : Turn) :
    (turnMachine.next r x).burstQ1616 =
      burstStep r.burstQ1616 (packetGap r.lastT x.tSendNs) := by
  obtain ⟨lastT, burst, -, -⟩ := updateBook_frame (startMeasure r) x.deltas
  change burstStep (x.deltas.foldl updateBook (startMeasure r)).burstQ1616
    (packetGap (x.deltas.foldl updateBook (startMeasure r)).lastT x.tSendNs) = _
  rw [lastT, burst, startMeasure_eq]

variable {depth : Option ℕ}

theorem writeDelta_items {ds ds' : BoundedFifo Delta depth} {d : Delta}
    (wrote : writeDelta ds d = .ok ds') : ds'.items = ds.items ++ [d] := by
  unfold writeDelta BoundedFifo.write? at wrote
  split at wrote
  · next written =>
    split at written
    · cases written
      cases wrote
      rfl
    · cases written
  · cases wrote

theorem parseDeltas_count {count : ℕ} {tSendNs : BitVec 64} {left i : ℕ}
    {inAxis inAxis' : List Axis64} {ds ds' : BoundedFifo Delta depth}
    (parsed : parseDeltas count tSendNs i left inAxis ds = .ok (inAxis', ds')) :
    ds'.items.length = ds.items.length + left := by
  induction left generalizing i inAxis ds with
  | zero =>
    cases parsed
    rfl
  | succ left ih =>
    match inAxis with
    | [] => cases parsed
    | [_] => cases parsed
    | d0 :: d1 :: rest =>
      simp only [parseDeltas, readBeat, bind, Except.bind] at parsed
      split at parsed
      · cases parsed
      · next wrote =>
        rw [ih parsed, writeDelta_items wrote, List.length_append, List.length_singleton]
        omega

theorem parse_count {inAxis : List Axis64} {p : Parsed depth}
    (parsed : parseStreamOnePacket inAxis .empty = .ok p) :
    p.packetDeltaCount.toNat = p.outDeltas.items.length := by
  match inAxis with
  | [] => cases parsed
  | [_] => cases parsed
  | [_, _] => cases parsed
  | [_, _, _] => cases parsed
  | hdr0 :: hdr1 :: hdr2 :: hdr3 :: rest =>
    simp only [parseStreamOnePacket, readBeat, bind, Except.bind, pure, Except.pure] at parsed
    split at parsed
    · cases parsed
    · next loop =>
      cases parsed
      rw [parseDeltas_count loop]
      exact (Nat.zero_add _).symm

theorem pumpTurn_turn {r : Regs} {inAxis rest : List Axis64} {s : PumpState depth}
    {beat : FeatureBeat} (turn : pumpTurn (idle depth r) inAxis = .ok (s, rest, beat)) :
    ∃ x, s = idle depth (turnMachine.next r x) ∧ beat = turnMachine.out r x := by
  cases parsed : parseStreamOnePacket inAxis (.empty : BoundedFifo Delta depth) with
  | error e => simp [pumpTurn, idle, parsed, bind, Except.bind] at turn
  | ok p =>
    rw [pumpTurn_parsed r inAxis p parsed (parse_count parsed)] at turn
    cases turn
    exact ⟨⟨p.outDeltas.items, p.packetTSendNs⟩, rfl, rfl⟩

theorem featurePipeline_turns (depth : Option ℕ) (r : Regs) (inAxis : List Axis64) :
    ∃ xs, (featurePipeline depth r inAxis).fired.map Prod.snd = turnMachine.outputs r xs := by
  have fires (t : Regs) (ins : List Axis64) (s' : _) (rest : List Axis64) (o : _)
      (turn : (pump depth).fire (idle depth t) ins = .ok (s', rest, o)) :=
    pumpTurn_turn turn
  exact (pump depth).run_outputs fires r inAxis

end HftLatencyLab.PumpTurns
