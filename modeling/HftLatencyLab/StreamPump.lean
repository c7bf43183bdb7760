import HftLatencyLab.MealyRun

/-! A process that fires again and again on an input stream, reading some of it
each time, until it blocks. The trace keeps how many inputs each firing took,
so that a loss of framing is visible in it. If every firing on a well-formed
block reads exactly that block, the process is a machine on blocks. -/

namespace HftLatencyLab

variable {σ τ ι ο ε π : Type*}

structure StreamPump (σ ι ο ε : Type*) where
  fire : σ → List ι → Except ε (σ × List ι × ο)
  consumes : ∀ s ins s' rest o, fire s ins = .ok (s', rest, o) → rest.length < ins.length

namespace StreamPump

structure Trace (ο ε : Type*) where
  fired : List (ℕ × ο)
  stopped : Option ε
deriving DecidableEq

def runFuel (m : StreamPump σ ι ο ε) : ℕ → σ → List ι → Trace ο ε
  | 0, _, _ => ⟨[], none⟩
  | n + 1, s, ins =>
    match m.fire s ins with
    | .error e => ⟨[], some e⟩
    | .ok (s', rest, o) =>
      let later := runFuel m n s' rest
      ⟨(ins.length - rest.length, o) :: later.fired, later.stopped⟩

def run (m : StreamPump σ ι ο ε) (s : σ) (ins : List ι) : Trace ο ε :=
  m.runFuel (ins.length + 1) s ins

theorem runFuel_eq (m : StreamPump σ ι ο ε) (n k : ℕ) (s : σ) (ins : List ι)
    (hn : ins.length < n) (hk : ins.length < k) : m.runFuel n s ins = m.runFuel k s ins := by
  induction n generalizing k s ins with
  | zero => omega
  | succ n ih =>
    obtain ⟨k, rfl⟩ : ∃ j, k = j + 1 := ⟨k - 1, by omega⟩
    simp only [runFuel]
    split
    · rfl
    · next s' rest o fired =>
      have shorter := m.consumes s ins s' rest o fired
      rw [ih k s' rest (by omega) (by omega)]

theorem run_error (m : StreamPump σ ι ο ε) {s : σ} {ins : List ι} {e : ε}
    (h : m.fire s ins = .error e) : m.run s ins = ⟨[], some e⟩ := by
  simp [run, runFuel, h]

theorem run_ok (m : StreamPump σ ι ο ε) {s s' : σ} {ins rest : List ι} {o : ο}
    (h : m.fire s ins = .ok (s', rest, o)) :
    m.run s ins = ⟨(ins.length - rest.length, o) :: (m.run s' rest).fired,
      (m.run s' rest).stopped⟩ := by
  have shorter := m.consumes s ins s' rest o h
  have enough := m.runFuel_eq ins.length (rest.length + 1) s' rest (by omega) (by omega)
  rw [run, runFuel]
  simp only [h, enough]
  rfl

theorem fired_of_fire {m : StreamPump σ ι ο ε} {P : ο → Prop}
    (fires : ∀ s ins s' rest o, m.fire s ins = .ok (s', rest, o) → P o) (s : σ) (ins : List ι) :
    ∀ f ∈ (m.run s ins).fired, P f.2 := by
  have within (n : ℕ) (s : σ) (ins : List ι) : ∀ f ∈ (m.runFuel n s ins).fired, P f.2 := by
    induction n generalizing s ins with
    | zero => exact List.forall_mem_nil _
    | succ n ih =>
      rw [runFuel]
      split
      · exact List.forall_mem_nil _
      · next s' rest o fired =>
        exact List.forall_mem_cons.mpr ⟨fires s ins s' rest o fired, ih s' rest⟩
  exact within (ins.length + 1) s ins

section Blocks

variable (m : StreamPump σ ι ο ε) (M : Mealy τ π ο) (embed : τ → σ) (enc : π → List ι)
  (valid : π → Prop)

/-- If `m`, in the states `embed t`, reads blocks whole and answers them as `M`
does, then its trace on a stream of blocks is the run of `M`, followed by its
trace on what comes after them. -/
theorem run_blocks
    (fires : ∀ t p rest, valid p →
      m.fire (embed t) (enc p ++ rest) = .ok (embed (M.next t p), rest, M.out t p))
    (t : τ) (ps : List π) (hv : ∀ p ∈ ps, valid p) (rest : List ι) :
    m.run (embed t) (ps.flatMap enc ++ rest) =
      ⟨(ps.map (fun p => (enc p).length)).zip (M.outputs t ps) ++
          (m.run (embed (M.final t ps)) rest).fired,
        (m.run (embed (M.final t ps)) rest).stopped⟩ := by
  induction ps generalizing t with
  | nil => rfl
  | cons p ps ih =>
    have now := fires t p (ps.flatMap enc ++ rest) (hv p (List.mem_cons_self ..))
    have later := ih (M.next t p) (fun q hq => hv q (List.mem_cons_of_mem p hq))
    rw [List.flatMap_cons, List.append_assoc, m.run_ok now, later]
    simp

end Blocks

/-- If every firing that returns, in the states `embed t`, is a step of `M`, then what a
trace puts out on any stream is a run of `M`. -/
theorem run_outputs (m : StreamPump σ ι ο ε) {M : Mealy τ π ο} {embed : τ → σ}
    (fires : ∀ t ins s' rest o, m.fire (embed t) ins = .ok (s', rest, o) →
      ∃ p, s' = embed (M.next t p) ∧ o = M.out t p) (t : τ) (ins : List ι) :
    ∃ ps, (m.run (embed t) ins).fired.map Prod.snd = M.outputs t ps := by
  induction length : ins.length using Nat.strongRecOn generalizing t ins with
  | _ n ih =>
    cases fired : m.fire (embed t) ins with
    | error e => exact ⟨[], by rw [m.run_error fired]; rfl⟩
    | ok result =>
      obtain ⟨s', rest, o⟩ := result
      obtain ⟨p, rfl, rfl⟩ := fires t ins s' rest o fired
      have shorter := m.consumes _ _ _ _ _ fired
      obtain ⟨ps, later⟩ := ih rest.length (by omega) (M.next t p) rest rfl
      exact ⟨p :: ps, by rw [m.run_ok fired, List.map_cons, later, Mealy.outputs_cons]⟩

theorem run_records (m : StreamPump σ ι ο ε) {s : σ} {enc : π → List ι} {out : π → ο}
    {valid : π → Prop}
    (fires : ∀ p rest, valid p → m.fire s (enc p ++ rest) = .ok (s, rest, out p))
    {e : ε} (stops : m.fire s [] = .error e) {ps : List π} (hv : ∀ p ∈ ps, valid p) :
    (m.run s (ps.flatMap enc)).fired.map Prod.snd = ps.map out ∧
      (m.run s (ps.flatMap enc)).stopped = some e := by
  induction ps with
  | nil =>
    rw [List.flatMap_nil, m.run_error stops]
    exact ⟨rfl, rfl⟩
  | cons p ps ih =>
    obtain ⟨fired, stopped⟩ := ih (fun q hq => hv q (List.mem_cons_of_mem p hq))
    rw [List.flatMap_cons, m.run_ok (fires p _ (hv p List.mem_cons_self))]
    exact ⟨by simp [fired], stopped⟩

end StreamPump

end HftLatencyLab
