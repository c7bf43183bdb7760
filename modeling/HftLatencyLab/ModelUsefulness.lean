import HftLatencyLab.ReplayRunner
import Mathlib.Algebra.Order.Field.Rat
import Mathlib.Tactic.Positivity

/-! latency_analysis/analyze_model_usefulness.py on what replay_runner logs. The score is read
without a sign and the inventory is never touched, so the runner can only buy or hold, and the hit
rate of its decisions is the share of the moves that went up. -/

namespace HftLatencyLab.ModelUsefulness
open ByteOrder TimingTrailer ReplayRunner

/-- `BUY -> +1, SELL -> -1, other -> 0` -/
def directionFromDec : Decision → ℤ
  | .buy => 1
  | .sell => -1
  | _ => 0

def sign (x : ℤ) : ℤ := if x > 0 then 1 else if x < 0 then -1 else 0

/-- `xs[i]`, from the end if `i` is negative; none is an IndexError. -/
def pyGet {α : Type*} (xs : List α) (i : ℤ) : Option α :=
  if 0 ≤ i then xs[i.toNat]? else if -i ≤ xs.length then xs[(xs.length + i).toNat]? else none

structure Tally where
  hits : ℕ
  trades : ℕ
  numUp : ℕ
  numDown : ℕ
deriving DecidableEq

def Tally.start : Tally := ⟨0, 0, 0, 0⟩

def Tally.count (t : Tally) (direction label : ℤ) : Tally where
  hits := if direction = label then t.hits + 1 else t.hits
  trades := t.trades + 1
  numUp := if label > 0 then t.numUp + 1 else t.numUp
  numDown := if label > 0 then t.numDown else if label < 0 then t.numDown + 1 else t.numDown

/-- One pass of the loop of `compute_hit_rate`, over the prices of the messages. -/
def evaluate (prices : List ℤ) (horizon : ℤ) (t : Tally) (r : Row) : Option Tally :=
  if (r.seq : ℤ) < 0 ∨ (r.seq : ℤ) ≥ prices.length then some t
  else
    let futureIdx := r.seq + horizon
    if futureIdx ≥ prices.length then some t
    else
      let direction := directionFromDec r.finalDec
      if direction = 0 then some t
      else do
        let currentPrice ← pyGet prices r.seq
        let futurePrice ← pyGet prices futureIdx
        some (t.count direction (sign (futurePrice - currentPrice)))

/-- `hit_rate` and the tally; none if the assertion or an index fails. -/
def computeHitRate (replayRows : List Row) (prices : List ℤ) (horizon : ℤ) : Option (ℚ × Tally) :=
  if replayRows.length ≤ prices.length then
    (replayRows.foldlM (evaluate prices horizon) .start).map fun t =>
      (if t.trades > 0 then (t.hits : ℚ) / t.trades else 0, t)
  else none

/-- The runner on an open socket: whatever datagram arrives is there to be received. -/
def anyPeer : Mealy Runner Event (Option Row) where
  step s e :=
    match e with
    | .arrive data => ({ s with socket := s.socket ++ [data] }, none)
    | e => runner.step s e

def replayRows (book : SimpleBook) (events : List Event) : List Row :=
  anyPeer.answers (.start book) events

theorem step_poll (s : Runner) (elapsedNs : ℕ) :
    anyPeer.step s (.poll elapsedNs) = runner.step s (.poll elapsedNs) := rfl

theorem out_anyPeer {s : Runner} {e : Event} {row : Row} (logged : anyPeer.out s e = some row) :
    runner.out s e = some row := by
  cases e with
  | send msg => exact logged
  | arrive data => cases logged
  | poll elapsedNs => exact logged

theorem mem_replayRows {book : SimpleBook} {events : List Event} {row : Row} :
    row ∈ replayRows book events ↔ ∃ pre e post, events = pre ++ e :: post ∧
      anyPeer.out (anyPeer.final (.start book) pre) e = some row := by
  simp [replayRows, Mealy.answers, Mealy.mem_outputs, eq_comm]

theorem evaluate_ne_cancelAll (book : SimpleBook) :
    ReflexEngine.init.evaluate book ≠ .cancelAll := by
  have calm : ¬|ReflexEngine.init.inventory| > ReflexEngine.init.maxInventory := by decide
  unfold ReflexEngine.evaluate
  rw [if_neg calm]
  split_ifs <;> exact nofun

theorem replayScore_nonneg {data : List Byte} {score : ℚ} (read : replayScore data = some score) :
    0 ≤ score := by
  unfold replayScore at read
  split at read
  · rw [← Option.some.inj read]
    positivity
  · cases read

def Calm (s : Runner) : Prop := s.waiting ≠ some .cancelAll

theorem Calm.next {s : Runner} (calm : Calm s) (e : Event) : Calm (anyPeer.next s e) := by
  cases e with
  | send msg =>
    cases wait : s.waiting with
    | some act =>
      have idle : anyPeer.next s (.send msg) = s := by
        simp only [Mealy.next, anyPeer, runner, wait]
      rwa [idle]
    | none =>
      have sent : (anyPeer.next s (.send msg)).waiting =
          some (ReflexEngine.init.evaluate (applyMsg s.book msg)) := by
        simp only [Mealy.next, anyPeer, runner, wait]
      rw [Calm, sent]
      exact fun same => evaluate_ne_cancelAll _ (Option.some.inj same)
  | arrive data => exact calm
  | poll elapsedNs =>
    rcases poll_cases s elapsedNs with ⟨silent, -⟩ | ⟨act, -, -, logged⟩
    · rwa [Mealy.next, step_poll, silent]
    · rw [Mealy.next, step_poll, logged]
      intro same
      cases same

/-- What a row can say: buy on a crossed book or a score past the threshold, otherwise hold. -/
structure BuyOrHold (row : Row) : Prop where
  reflex : row.reflexAct ≠ .cancelAll
  score : 0 ≤ row.fpgaScore
  decided : row.finalDec =
    if row.reflexAct = .takeLiquidity ∨ row.fpgaScore > scoreThreshold then .buy else .hold

theorem decide_buyOrHold {act : ReflexAction} (reflex : act ≠ .cancelAll) {score : ℚ}
    (nonneg : 0 ≤ score) : ReplayRunner.decide act score =
      if act = .takeLiquidity ∨ score > scoreThreshold then .buy else .hold := by
  have above : ¬score < -scoreThreshold := by
    have negative : -scoreThreshold < 0 := by
      unfold scoreThreshold
      norm_num
    exact not_lt.mpr (negative.le.trans nonneg)
  unfold ReplayRunner.decide
  rw [if_neg reflex, if_neg above]
  by_cases take : act = .takeLiquidity
  · rw [if_pos take, if_pos (Or.inl take)]
  · rw [if_neg take]
    by_cases past : score > scoreThreshold
    · rw [if_pos past, if_pos (Or.inr past)]
    · rw [if_neg past, if_neg (not_or.mpr ⟨take, past⟩)]

theorem out_buyOrHold {s : Runner} (calm : Calm s) {e : Event} {row : Row}
    (logged : anyPeer.out s e = some row) : BuyOrHold row := by
  obtain ⟨elapsedNs, act, -, wait, -, rfl⟩ := out_eq_some_iff.mp (out_anyPeer logged)
  have reflex : act ≠ .cancelAll := fun same => calm (wait.trans (congrArg some same))
  have nonneg : 0 ≤ ((s.socket.head?.bind replayScore).getD 0) := by
    cases read : s.socket.head?.bind replayScore with
    | none => exact le_rfl
    | some score =>
      obtain ⟨data, -, scored⟩ := Option.bind_eq_some_iff.mp read
      exact replayScore_nonneg scored
  exact ⟨reflex, nonneg, decide_buyOrHold reflex nonneg⟩

/-- Whatever arrives at the socket and whenever, the runner never sells and never cancels. -/
theorem replay_buys_or_holds (book : SimpleBook) (events : List Event) :
    ∀ row ∈ replayRows book events, BuyOrHold row := by
  intro row mem
  obtain ⟨pre, e, post, -, logged⟩ := mem_replayRows.mp mem
  have calm : Calm (anyPeer.final (.start book) pre) :=
    anyPeer.final_invariant (I := Calm) (fun s e calm => calm.next e) _ pre nofun
  exact out_buyOrHold calm logged

/-- A stray datagram decides the first packet, the second is answered twice, and the third is
decided on the second of these answers. -/
def threeMessages : List Event :=
  [.arrive [0], .send ⟨1, 1, 100, 10⟩, .poll 0, .send ⟨1, 1, 101, 10⟩,
    .arrive (List.replicate 48 0 ++ [0xFF, 0, 0, 0]),
    .arrive (List.replicate 48 0 ++ [0xFF, 0, 0, 0]), .poll 0, .send ⟨1, 1, 103, 10⟩, .poll 0,
    .send ⟨1, 1, 102, 10⟩, .poll 20000001]

theorem replay_buys_or_holds_three :
    (replayRows .init threeMessages).map Row.finalDec = [.hold, .buy, .buy, .hold] ∧
      ∀ row ∈ replayRows .init threeMessages, BuyOrHold row :=
  ⟨by decide +kernel, replay_buys_or_holds .init threeMessages⟩

section HitRate

variable (prices : List ℤ) (horizon : ℤ)

def Evaluated (r : Row) : Prop :=
  r.finalDec = .buy ∧ (r.seq : ℤ) < prices.length ∧ r.seq + horizon < prices.length

def priceDelta (r : Row) : Option ℤ := do
  let currentPrice ← pyGet prices r.seq
  let futurePrice ← pyGet prices (r.seq + horizon)
  some (futurePrice - currentPrice)

def Rose (r : Row) : Prop := Evaluated prices horizon r ∧ ∃ d ∈ priceDelta prices horizon r, 0 < d

def Fell (r : Row) : Prop := Evaluated prices horizon r ∧ ∃ d ∈ priceDelta prices horizon r, d < 0

instance (r : Row) : Decidable (Evaluated prices horizon r) := inferInstanceAs (Decidable (_ ∧ _))

instance (r : Row) : Decidable (Rose prices horizon r) := inferInstanceAs (Decidable (_ ∧ _))

instance (r : Row) : Decidable (Fell prices horizon r) := inferInstanceAs (Decidable (_ ∧ _))

/-- The tally `t'` is `t` and what some rows add. -/
structure Adds (t t' : Tally) (rows : List Row) : Prop where
  trades : t'.trades = t.trades + rows.countP (Evaluated prices horizon ·)
  numUp : t'.numUp = t.numUp + rows.countP (Rose prices horizon ·)
  numDown : t'.numDown = t.numDown + rows.countP (Fell prices horizon ·)
  hits : t'.hits = t.hits + rows.countP (Rose prices horizon ·)

variable {prices horizon}

theorem Adds.trans {t t' t'' : Tally} {rows rows' : List Row}
    (first : Adds prices horizon t t' rows) (rest : Adds prices horizon t' t'' rows') :
    Adds prices horizon t t'' (rows ++ rows') := by
  constructor
  · rw [rest.trades, first.trades, List.countP_append, Nat.add_assoc]
  · rw [rest.numUp, first.numUp, List.countP_append, Nat.add_assoc]
  · rw [rest.numDown, first.numDown, List.countP_append, Nat.add_assoc]
  · rw [rest.hits, first.hits, List.countP_append, Nat.add_assoc]

theorem adds_idle {t : Tally} {r : Row} (idle : ¬Evaluated prices horizon r) :
    Adds prices horizon t t [r] := by
  have rose : ¬Rose prices horizon r := fun up => idle up.1
  have fell : ¬Fell prices horizon r := fun down => idle down.1
  constructor <;> simp [idle, rose, fell]

theorem sign_pos_iff {d : ℤ} : sign d > 0 ↔ 0 < d := by
  unfold sign
  split_ifs <;> omega

theorem sign_neg_iff {d : ℤ} : sign d < 0 ↔ d < 0 := by
  unfold sign
  split_ifs <;> omega

theorem adds_count {t : Tally} {r : Row} {d : ℤ} (evaluated : Evaluated prices horizon r)
    (moved : priceDelta prices horizon r = some d) :
    Adds prices horizon t (t.count 1 (sign d)) [r] := by
  have rose : Rose prices horizon r ↔ 0 < d := by simp [Rose, evaluated, moved]
  have fell : Fell prices horizon r ↔ d < 0 := by simp [Fell, evaluated, moved]
  have hit : 1 = sign d ↔ 0 < d := by
    rw [← sign_pos_iff]
    unfold sign
    split_ifs <;> decide
  constructor
  · simp [Tally.count, evaluated]
  · simp only [Tally.count, sign_pos_iff, List.countP_singleton, decide_eq_true_eq, rose]
    split <;> rfl
  · have fewer : d < 0 → ¬0 < d := fun down => by omega
    simp only [Tally.count, sign_pos_iff, sign_neg_iff, List.countP_singleton, decide_eq_true_eq,
      fell]
    split_ifs <;> omega
  · simp only [Tally.count, hit, List.countP_singleton, decide_eq_true_eq, rose]
    split <;> rfl

theorem evaluate_adds {t t' : Tally} {r : Row} (decided : r.finalDec = .buy ∨ r.finalDec = .hold)
    (counted : evaluate prices horizon t r = some t') : Adds prices horizon t t' [r] := by
  unfold evaluate at counted
  dsimp only at counted
  split_ifs at counted with outside past idle
  · rw [← Option.some.inj counted]
    exact adds_idle fun evaluated => by
      have := evaluated.2.1
      omega
  · rw [← Option.some.inj counted]
    exact adds_idle fun evaluated => by
      have := evaluated.2.2
      omega
  · rw [← Option.some.inj counted]
    refine adds_idle fun evaluated => ?_
    rw [evaluated.1] at idle
    exact absurd idle (by decide)
  · have bought : r.finalDec = .buy := by
      rcases decided with buy | hold
      · exact buy
      · exact absurd (by rw [hold]; rfl) idle
    obtain ⟨current, now, counted⟩ := Option.bind_eq_some_iff.mp counted
    obtain ⟨future, later, counted⟩ := Option.bind_eq_some_iff.mp counted
    have moved : priceDelta prices horizon r = some (future - current) := by
      rw [priceDelta, now, later]
      rfl
    rw [← Option.some.inj counted, bought]
    exact adds_count ⟨bought, by omega, by omega⟩ moved

theorem foldlM_adds {rows : List Row}
    (decided : ∀ r ∈ rows, r.finalDec = .buy ∨ r.finalDec = .hold) {t t' : Tally}
    (counted : rows.foldlM (evaluate prices horizon) t = some t') :
    Adds prices horizon t t' rows := by
  induction rows generalizing t with
  | nil =>
    rw [List.foldlM_nil] at counted
    rw [← Option.some.inj counted]
    exact ⟨rfl, rfl, rfl, rfl⟩
  | cons r rows ih =>
    rw [List.foldlM_cons] at counted
    obtain ⟨next, first, rest⟩ := Option.bind_eq_some_iff.mp counted
    have here := evaluate_adds (decided r List.mem_cons_self) first
    exact here.trans (ih (fun r' mem => decided r' (List.mem_cons_of_mem r mem)) rest)

end HitRate

/-- For every run and horizon the hit rate is the share of upward moves among the packets bought
on: there is no sale to be counted, and what the analysis prints as hits and as up-moves is one
number. -/
theorem hit_rate_up (book : SimpleBook) (events : List Event) (prices : List ℤ) (horizon : ℤ) :
    (∀ row ∈ replayRows book events, row.finalDec ≠ .sell) ∧
      ∀ rate t, computeHitRate (replayRows book events) prices horizon = some (rate, t) →
        t.trades = (replayRows book events).countP (Evaluated prices horizon ·) ∧
          t.numUp = (replayRows book events).countP (Rose prices horizon ·) ∧
          t.numDown = (replayRows book events).countP (Fell prices horizon ·) ∧
          t.hits = t.numUp ∧ rate = if t.trades > 0 then (t.numUp : ℚ) / t.trades else 0 := by
  have decided : ∀ r ∈ replayRows book events, r.finalDec = .buy ∨ r.finalDec = .hold := by
    intro r mem
    rw [(replay_buys_or_holds book events r mem).decided]
    split
    · exact Or.inl rfl
    · exact Or.inr rfl
  constructor
  · intro row mem sold
    rcases decided row mem with buy | hold
    · exact absurd (sold.symm.trans buy) nofun
    · exact absurd (sold.symm.trans hold) nofun
  · intro rate t computed
    unfold computeHitRate at computed
    split at computed
    · obtain ⟨t', counted, same⟩ := Option.map_eq_some_iff.mp computed
      obtain ⟨rfl, rfl⟩ := Prod.mk.inj same
      have adds := foldlM_adds decided counted
      have zero (n : ℕ) : 0 + n = n := Nat.zero_add n
      have up : t'.hits = t'.numUp := adds.hits.trans adds.numUp.symm
      exact ⟨adds.trades.trans (zero _), adds.numUp.trans (zero _), adds.numDown.trans (zero _), up,
        by rw [up]⟩
    · cases computed

theorem hit_rate_up_three :
    computeHitRate (replayRows .init threeMessages) [100, 101, 103, 102] 1 =
        some (1 / 2, ⟨1, 2, 1, 1⟩) ∧
      (replayRows .init threeMessages).countP (Rose [100, 101, 103, 102] 1 ·) = 1 := by
  have computed : computeHitRate (replayRows .init threeMessages) [100, 101, 103, 102] 1 =
      some (1 / 2, ⟨1, 2, 1, 1⟩) := by decide +kernel
  have tallied := (hit_rate_up .init threeMessages [100, 101, 103, 102] 1).2 _ _ computed
  exact ⟨computed, tallied.2.1.symm⟩

end HftLatencyLab.ModelUsefulness
