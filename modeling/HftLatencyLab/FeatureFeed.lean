import HftLatencyLab.PythonBook
import HftLatencyLab.TopOfBook

/-! Datagrams through the fabric: the beats of a feed, the features they come out
as, and what a packet leaves of the book, in the numbers of the software
references. -/

namespace HftLatencyLab.FeatureFeed
open AxiStream LobWire FeatureParser LobPacket FeatureBook FeatureMath FeaturePipeline TopOfBook
  PythonBook

def feedBeats (ms : List Datagram) : List Axis64 := ms.flatMap (fun m => toBeats m.bytes)

def feedMachine : Mealy Regs Datagram Features := featureMachine.on Datagram.packet

def feedFeatures (ms : List Datagram) : List Features := feedMachine.outputs .powerOn ms

theorem featWords_feedBeats (ms : List Datagram) (limit : ∀ m ∈ ms, m.deltas.length ≤ 128) :
    featWords none .powerOn (feedBeats ms) = (feedFeatures ms).map packFeatures := by
  have beats : feedBeats ms = (ms.map Datagram.packet).flatMap Packet.beats := by
    rw [feedBeats, List.flatMap_map]
    exact List.flatMap_congr (fun m _ => toBeats_bytes m)
  rw [beats, feedFeatures, feedMachine, Mealy.outputs_on, featWords_all]
  intro p hp
  obtain ⟨m, hm, rfl⟩ := List.mem_map.mp hp
  refine ⟨?_, by simp⟩
  rw [Packet.InLimit, packet_count]
  exact limit m hm

def afterDeltas (r : Regs) (m : Datagram) : Regs :=
  (parsedDeltas m.tSend m.deltas).foldl updateBook (startMeasure r)

theorem feedMachine_next (r : Regs) (m : Datagram) :
    feedMachine.next r m =
      { (computeFeatures m.tSend (afterDeltas r m)).1 with measuring := false } := by
  rw [afterDeltas, ← packet_deltas, ← packet_tSendNs m]
  rfl

theorem feedMachine_out (r : Regs) (m : Datagram) :
    feedMachine.out r m = (computeFeatures m.tSend (afterDeltas r m)).2 := by
  rw [afterDeltas, ← packet_deltas, ← packet_tSendNs m]
  rfl

theorem afterDeltas_frame (r : Regs) (m : Datagram) :
    (afterDeltas r m).lastT = r.lastT ∧ (afterDeltas r m).burstQ1616 = r.burstQ1616 ∧
      (afterDeltas r m).volQ1616 = r.volQ1616 ∧ (afterDeltas r m).midPrev = r.midPrev := by
  rw [afterDeltas, startMeasure_eq]
  exact updateBook_frame _ _

theorem foldl_tracks {σ : Type} {R : Regs → σ → Prop} {f : σ → UnpackedDelta → σ}
    (step : ∀ r s d t last, WellFormed d → R r s →
      R (updateBook r (parsedDelta d t last)) (f s d.unpacked))
    (t : BitVec 64) (ds : List LobV1Delta) (wf : ∀ d ∈ ds, WellFormed d) (r : Regs) (s : σ)
    (h : R r s) :
    R ((parsedDeltas t ds).foldl updateBook r) ((ds.map LobV1Delta.unpacked).foldl f s) := by
  induction ds generalizing r s with
  | nil => exact h
  | cons d ds ih =>
    exact ih (fun e he => wf e (List.mem_cons_of_mem d he)) _ _
      (step r s d t _ (wf d (List.mem_cons_self ..)) h)

/-- Well-formed packets, reset only on the first, with nonzero timestamps that do
not go back. -/
structure Feed (ms : List Datagram) : Prop where
  counts : ∀ m ∈ ms, m.deltas.length ≤ 128
  fields : ∀ m ∈ ms, ∀ d ∈ m.deltas, WellFormed d
  reset : ∀ m ∈ ms.tail, m.reset = false
  nonzero : ∀ m ∈ ms, m.tSend ≠ 0
  ordered : ms.Pairwise (fun a b => a.tSend.toNat ≤ b.tSend.toNat)

instance (ms : List Datagram) : Decidable (Feed ms) :=
  decidable_of_iff ((∀ m ∈ ms, m.deltas.length ≤ 128) ∧ (∀ m ∈ ms, ∀ d ∈ m.deltas, WellFormed d) ∧
      (∀ m ∈ ms.tail, m.reset = false) ∧ (∀ m ∈ ms, m.tSend ≠ 0) ∧
      ms.Pairwise (fun a b => a.tSend.toNat ≤ b.tSend.toNat))
    ⟨fun ⟨c, f, r, n, o⟩ => ⟨c, f, r, n, o⟩,
      fun h => ⟨h.counts, h.fields, h.reset, h.nonzero, h.ordered⟩⟩

theorem Feed.tail {m : Datagram} {ms : List Datagram} (feed : Feed (m :: ms)) : Feed ms where
  counts e he := feed.counts e (List.mem_cons_of_mem m he)
  fields e he := feed.fields e (List.mem_cons_of_mem m he)
  reset e he := feed.reset e (List.mem_of_mem_tail he)
  nonzero e he := feed.nonzero e (List.mem_cons_of_mem m he)
  ordered := (List.pairwise_cons.mp feed.ordered).2

section Step
variable {σ ο : Type} (start : σ) (lastTs : σ → Option ℤ)

/-- What such a feed promises each packet, of a program that keeps the last timestamp. -/
structure Fed (s : σ) (m : Datagram) : Prop where
  fields : ∀ d ∈ m.deltas, WellFormed d
  reset : m.reset = false ∨ s = start
  nonzero : m.tSend ≠ 0
  later : ∀ last ∈ lastTs s, last ≤ m.tSend.toNat

variable {start lastTs} {n : Mealy σ Datagram ο}
  (next : ∀ s m, lastTs (n.next s m) = some (m.tSend.toNat : ℤ))
include next

theorem along_fed_of_last {ms : List Datagram} (feed : Feed ms) (reset : ∀ m ∈ ms, m.reset = false)
    (s : σ) (later : ∀ last ∈ lastTs s, ∀ m ∈ ms, last ≤ m.tSend.toNat) :
    n.Along (Fed start lastTs) s ms := by
  induction ms generalizing s with
  | nil => trivial
  | cons m ms ih =>
    have before := (List.pairwise_cons.mp feed.ordered).1
    have head : m ∈ m :: ms := List.mem_cons_self ..
    refine ⟨⟨feed.fields m head, Or.inl (reset m head), feed.nonzero m head,
      fun last hl => later last hl m head⟩,
      ih feed.tail (fun e he => reset e (List.mem_cons_of_mem m he)) _ ?_⟩
    intro last hl e he
    rw [next s m, Option.mem_some_iff] at hl
    rw [← hl]
    exact_mod_cast before e he

theorem Feed.along {ms : List Datagram} (feed : Feed ms) (first : lastTs start = none) :
    n.Along (Fed start lastTs) start ms := by
  cases ms with
  | nil => trivial
  | cons m ms =>
    have before := (List.pairwise_cons.mp feed.ordered).1
    have head : m ∈ m :: ms := List.mem_cons_self ..
    refine ⟨⟨feed.fields m head, Or.inr rfl, feed.nonzero m head, by simp [first]⟩,
      along_fed_of_last next feed.tail feed.reset _ ?_⟩
    intro last hl e he
    rw [next start m, Option.mem_some_iff] at hl
    rw [← hl]
    exact_mod_cast before e he

end Step

end HftLatencyLab.FeatureFeed
