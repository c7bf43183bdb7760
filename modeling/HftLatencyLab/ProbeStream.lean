import HftLatencyLab.AxiStream
import Mathlib.Data.List.Basic

/-! The blocks of the streaming latency probe. traffic_gen_const is the list of
writes one call makes, in program order: its ports keep what was written last,
and its words go out on the stream. score_sink looks at one word a call. -/

namespace HftLatencyLab.ProbeStream
open AxiStream

structure GenArgs where
  numWords : BitVec 32
  start : Bool
  wConst0 : BitVec 32
  wConst1 : BitVec 32
  wConst2 : BitVec 32
  wConst3 : BitVec 32
deriving DecidableEq

inductive GenWrite where
  | done (b : Bool)
  | hwStart (b : Bool)
  | lastPulse (b : Bool)
  | txStream (w : Axis32)
deriving DecidableEq

/-- `switch (i & 3U)` -/
def GenArgs.word (a : GenArgs) (i : ℕ) : BitVec 32 :=
  match i % 4 with
  | 0 => a.wConst0
  | 1 => a.wConst1
  | 2 => a.wConst2
  | _ => a.wConst3

def emitWord (a : GenArgs) (i : ℕ) : List GenWrite :=
  let isLast := i == a.numWords.toNat - 1
  .txStream { data := a.word i, keep := 0xF, strb := 0xF, last := isLast } ::
    if isLast then [.lastPulse true] else []

def trafficGenConst (a : GenArgs) : List GenWrite :=
  [.done false, .hwStart false, .lastPulse false] ++
    if a.start then
      .hwStart true :: ((List.range a.numWords.toNat).flatMap (emitWord a) ++ [.done true])
    else []

structure GenPorts where
  done : Bool
  hwStart : Bool
  lastPulse : Bool
deriving DecidableEq

def GenPorts.write (p : GenPorts) : GenWrite → GenPorts
  | .done b => { p with done := b }
  | .hwStart b => { p with hwStart := b }
  | .lastPulse b => { p with lastPulse := b }
  | .txStream _ => p

/-- `done_pulse`, and what stays in the stream. -/
def scoreSink : List Axis32 → Bool × List Axis32
  | [] => (false, [])
  | w :: rest => (w.last, rest)

/-- No write that lowers `hw_start` comes after one that raises it. -/
def Ordered (ws : List GenWrite) : Prop :=
  ws.Pairwise (fun x y => x = .hwStart true → y ≠ .hwStart false)

theorem emitWord_ne (a : GenArgs) (i : ℕ) : ∀ w ∈ emitWord a i, w ≠ .hwStart false := by
  intro w hw
  unfold emitWord at hw
  rcases List.mem_cons.mp hw with rfl | hw
  · simp
  · split at hw
    · rw [List.mem_singleton.mp hw]
      simp
    · simp at hw

theorem ordered_append {xs ys : List GenWrite} (hx : ∀ x ∈ xs, x ≠ .hwStart true)
    (hy : ∀ y ∈ ys, y ≠ .hwStart false) : Ordered (xs ++ ys) := by
  refine List.pairwise_append.mpr ⟨?_, ?_, ?_⟩
  · exact List.pairwise_of_forall_mem_list (fun x hm _ _ raise => absurd raise (hx x hm))
  · exact List.pairwise_of_forall_mem_list (fun _ _ y hm _ => hy y hm)
  · intro x _ y hm _
    exact hy y hm

theorem ordered_trafficGenConst (a : GenArgs) : Ordered (trafficGenConst a) := by
  refine ordered_append (by simp) ?_
  intro w hw
  cases start : a.start
  · simp [start] at hw
  · rw [start, if_pos rfl] at hw
    rcases List.mem_cons.mp hw with rfl | hw
    · simp
    · rcases List.mem_append.mp hw with hw | hw
      · obtain ⟨i, -, hi⟩ := List.mem_flatMap.mp hw
        exact emitWord_ne a i w hi
      · rw [List.mem_singleton.mp hw]
        simp

theorem write_hwStart_of_never (p : GenPorts) {ws : List GenWrite}
    (h : ∀ w ∈ ws, w ≠ .hwStart false) (up : p.hwStart = true) :
    (ws.foldl GenPorts.write p).hwStart = true := by
  induction ws generalizing p with
  | nil => exact up
  | cons w ws ih =>
    refine ih _ (fun x hx => h x (List.mem_cons_of_mem w hx)) ?_
    cases w with
    | done b => exact up
    | hwStart b =>
      cases b
      · exact absurd rfl (h _ (List.mem_cons_self ..))
      · rfl
    | lastPulse b => exact up
    | txStream w => exact up

theorem hwStart_mem_of_rise (p : GenPorts) {ws : List GenWrite} (down : p.hwStart = false)
    (up : (ws.foldl GenPorts.write p).hwStart = true) : .hwStart true ∈ ws := by
  induction ws generalizing p with
  | nil => rw [List.foldl_nil, down] at up; cases up
  | cons w ws ih =>
    by_cases raise : w = .hwStart true
    · rw [raise]
      exact List.mem_cons_self ..
    · refine List.mem_cons_of_mem w (ih (p.write w) ?_ up)
      cases w with
      | done b => exact down
      | hwStart b =>
        cases b
        · rfl
        · exact absurd rfl raise
      | lastPulse b => exact down
      | txStream w => exact down

end HftLatencyLab.ProbeStream
