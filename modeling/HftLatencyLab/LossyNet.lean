import HftLatencyLab.MealyRun
import Mathlib.Data.List.Induction

/-! A client and a server over a network that loses, repeats and reorders what either sends:
whatever was ever sent may be handed over, at any time and any number of times, or never. A
guarantee on both parties, each relying on the other's, holds of everything the client logs; a
server that only answers leaves nothing in the log that was not asked for. -/

namespace HftLatencyLab

variable {γ σ ε χ κ ρ ω : Type*}

/-- `ε`: the client's own steps; `χ`: what else the server's step depends on. -/
structure Parties (γ σ ε χ κ ρ ω : Type*) where
  /-- A step of the client, with what it sends and what it logs. -/
  act : γ → ε → γ × Option κ × Option ω
  /-- A datagram reaches the client. -/
  receive : γ → ρ → γ
  server : σ → κ → χ → σ × Option ρ

namespace LossyNet

structure Net (γ σ κ ρ : Type*) where
  client : γ
  server : σ
  requests : List κ
  replies : List ρ

def Net.start (c : γ) (s : σ) : Net γ σ κ ρ := ⟨c, s, [], []⟩

inductive Move (ε χ : Type*)
  | act (e : ε)
  /-- The server gets request `i`. -/
  | serve (i : ℕ) (x : χ)
  /-- The client gets reply `j`. -/
  | deliver (j : ℕ)

def Net.serve (P : Parties γ σ ε χ κ ρ ω) (n : Net γ σ κ ρ) (request : κ) (x : χ) :
    Net γ σ κ ρ :=
  let (s, reply) := P.server n.server request x
  { n with server := s, replies := n.replies ++ reply.toList }

/-- What was never sent is not handed over. -/
def net (P : Parties γ σ ε χ κ ρ ω) : Mealy (Net γ σ κ ρ) (Move ε χ) (Option ω) where
  step n mv :=
    match mv with
    | .act e =>
      let (c, request, logged) := P.act n.client e
      ({ n with client := c, requests := n.requests ++ request.toList }, logged)
    | .serve i x =>
      match n.requests[i]? with
      | some request => (n.serve P request x, none)
      | none => (n, none)
    | .deliver j =>
      match n.replies[j]? with
      | some reply => ({ n with client := P.receive n.client reply }, none)
      | none => (n, none)

def log (P : Parties γ σ ε χ κ ρ ω) (c : γ) (s : σ) (moves : List (Move ε χ)) : List ω :=
  (net P).answers (.start c s) moves

variable {P : Parties γ σ ε χ κ ρ ω}

theorem step_act (n : Net γ σ κ ρ) (e : ε) :
    (net P).step n (.act e) = ({ n with
      client := (P.act n.client e).1
      requests := n.requests ++ (P.act n.client e).2.1.toList }, (P.act n.client e).2.2) := rfl

theorem step_serve {n : Net γ σ κ ρ} {i : ℕ} {request : κ} (found : n.requests[i]? = some request)
    (x : χ) : (net P).step n (.serve i x) = ({ n with
      server := (P.server n.server request x).1
      replies := n.replies ++ (P.server n.server request x).2.toList }, none) := by
  simp only [net, found]
  rfl

theorem step_deliver {n : Net γ σ κ ρ} {j : ℕ} {reply : ρ} (found : n.replies[j]? = some reply) :
    (net P).step n (.deliver j) = ({ n with client := P.receive n.client reply }, none) := by
  simp only [net, found]

theorem step_deliver_none {n : Net γ σ κ ρ} {j : ℕ} (missing : n.replies[j]? = none) :
    (net P).step n (.deliver j) = (n, none) := by
  simp only [net, missing]

/-- Each party keeps its invariant as long as the other's datagrams are as promised. -/
structure Promises (P : Parties γ σ ε χ κ ρ ω) (client : γ → Prop) (server : σ → Prop)
    (request : κ → Prop) (reply : ρ → Prop) (turn : χ → Prop) (logged : ω → Prop) : Prop where
  acts : ∀ c e, client c → client (P.act c e).1 ∧ (∀ k ∈ (P.act c e).2.1, request k) ∧
    ∀ w ∈ (P.act c e).2.2, logged w
  receives : ∀ c r, client c → reply r → client (P.receive c r)
  serves : ∀ s k x, server s → request k → turn x →
    server (P.server s k x).1 ∧ ∀ r ∈ (P.server s k x).2, reply r

section Invariant

variable {client : γ → Prop} {server : σ → Prop} {request : κ → Prop} {reply : ρ → Prop}
  {turn : χ → Prop} {logged : ω → Prop}

def Move.Admits (turn : χ → Prop) : Move ε χ → Prop
  | .serve _ x => turn x
  | _ => True

structure Kept (client : γ → Prop) (server : σ → Prop) (request : κ → Prop) (reply : ρ → Prop)
    (n : Net γ σ κ ρ) : Prop where
  client : client n.client
  server : server n.server
  requests : ∀ k ∈ n.requests, request k
  replies : ∀ r ∈ n.replies, reply r

theorem mem_append_toList {α : Type*} {xs : List α} {o : Option α} {p : α → Prop}
    (all : ∀ x ∈ xs, p x) (more : ∀ x ∈ o, p x) : ∀ x ∈ xs ++ o.toList, p x := by
  intro x mem
  rcases List.mem_append.mp mem with old | new
  · exact all x old
  · exact more x (Option.mem_toList.mp new)

theorem Kept.step (promises : Promises P client server request reply turn logged)
    {n : Net γ σ κ ρ} (kept : Kept client server request reply n) {mv : Move ε χ}
    (admits : mv.Admits turn) :
    Kept client server request reply ((net P).next n mv) ∧ ∀ w ∈ (net P).out n mv, logged w := by
  cases mv with
  | act e =>
    obtain ⟨still, sends, logs⟩ := promises.acts n.client e kept.client
    exact ⟨⟨still, kept.server, mem_append_toList kept.requests sends, kept.replies⟩, logs⟩
  | serve i x =>
    rw [Mealy.next, Mealy.out, net]
    dsimp only
    split
    · next k found =>
      obtain ⟨still, answers⟩ := promises.serves n.server k x kept.server
        (kept.requests k (List.mem_of_getElem? found)) admits
      exact ⟨⟨kept.client, still, kept.requests, mem_append_toList kept.replies answers⟩, by simp⟩
    · exact ⟨kept, by simp⟩
  | deliver j =>
    rw [Mealy.next, Mealy.out, net]
    dsimp only
    split
    · next r found =>
      have received := promises.receives n.client r kept.client
        (kept.replies r (List.mem_of_getElem? found))
      exact ⟨⟨received, kept.server, kept.requests, kept.replies⟩, by simp⟩
    · exact ⟨kept, by simp⟩

/-- Everything logged is as promised, whatever the network does. -/
theorem Promises.log_kept (promises : Promises P client server request reply turn logged) {c : γ}
    {s : σ} (clientStart : client c) (serverStart : server s) {moves : List (Move ε χ)}
    (admits : ∀ mv ∈ moves, mv.Admits turn) : ∀ w ∈ log P c s moves, logged w := by
  have start : Kept client server request reply (.start c s : Net γ σ κ ρ) :=
    ⟨clientStart, serverStart, fun _ mem => absurd mem List.not_mem_nil,
      fun _ mem => absurd mem List.not_mem_nil⟩
  have along : (net P).Along (fun _ mv => mv.Admits turn) (.start c s) moves :=
    Mealy.along_inputs.mpr admits
  have kept := along.invariant (fun n mv kept admits => (kept.step promises admits).1) start
  intro w mem
  obtain ⟨o, fired, rfl⟩ := List.mem_filterMap.mp mem
  obtain ⟨pre, mv, post, split, out⟩ := (Mealy.mem_outputs _ _ _ _).mp fired
  obtain ⟨inv, admits⟩ := Mealy.along_iff.mp kept pre mv post split
  exact (inv.step promises admits).2 w out.symm

theorem Promises.log_congr (promises : Promises P client server request reply turn logged)
    {Q : Parties γ σ ε χ κ ρ ω} (acts : P.act = Q.act) (receives : P.receive = Q.receive)
    (alike : ∀ s k x, request k → P.server s k x = Q.server s k x) {c : γ} {s : σ}
    (clientStart : client c) (serverStart : server s) {moves : List (Move ε χ)}
    (admits : ∀ mv ∈ moves, mv.Admits turn) : log P c s moves = log Q c s moves := by
  have start : Kept client server request reply (.start c s : Net γ σ κ ρ) :=
    ⟨clientStart, serverStart, fun _ mem => absurd mem List.not_mem_nil,
      fun _ mem => absurd mem List.not_mem_nil⟩
  rw [log, log]
  generalize (Net.start c s : Net γ σ κ ρ) = n at start
  induction moves generalizing n with
  | nil => rfl
  | cons mv moves ih =>
    have same : (net P).step n mv = (net Q).step n mv := by
      cases mv with
      | act e => simp only [net, acts]
      | deliver j => simp only [net, receives]
      | serve i x =>
        cases found : n.requests[i]? with
        | none => simp only [net, found]
        | some k =>
          rw [step_serve found, step_serve found,
            alike _ k x (start.requests k (List.mem_of_getElem? found))]
    have next := ih (fun mv' mem => admits mv' (List.mem_cons_of_mem mv mem)) _
      (start.step promises (admits mv List.mem_cons_self)).1
    rw [← List.singleton_append, Mealy.answers_append, Mealy.answers_append,
      Mealy.answers_singleton, Mealy.answers_singleton, Mealy.out, Mealy.out, ← same]
    change _ ++ (net P).answers ((net P).step n mv).1 moves =
      _ ++ (net Q).answers ((net Q).step n mv).1 moves
    rw [← same]
    exact congrArg _ next

end Invariant

/-- The server answers what it is asked; a report of the client's is one on an answer it holds. -/
structure Answering (P : Parties γ σ ε χ κ ρ ω) (held : γ → List ρ) (request : κ → Prop)
    (answers : κ → χ → ρ → Prop) (reports : ω → Prop) (read : ε → ρ → ω → Prop) : Prop where
  acts : ∀ c e, held (P.act c e).1 ⊆ held c
  sends : ∀ c e, ∀ k ∈ (P.act c e).2.1, request k
  logs : ∀ c e, ∀ w ∈ (P.act c e).2.2, reports w → ∃ r ∈ held c, read e r w
  receives : ∀ c r, held (P.receive c r) ⊆ held c ++ [r]
  serves : ∀ s k x, request k → ∀ r ∈ (P.server s k x).2, answers k x r

section Origin

variable {held : γ → List ρ} {request : κ → Prop} {answers : κ → χ → ρ → Prop}
  {reports : ω → Prop} {read : ε → ρ → ω → Prop}

/-- Where an answer comes from: a turn of the server on request `i`. -/
def Answered (answers : κ → χ → ρ → Prop) (requests : List κ) (moves : List (Move ε χ))
    (r : ρ) : Prop :=
  ∃ i x k, Move.serve i x ∈ moves ∧ requests[i]? = some k ∧ answers k x r

theorem Answered.mono {requests requests' : List κ} {moves moves' : List (Move ε χ)} {r : ρ}
    (answered : Answered answers requests moves r) (more : requests <+: requests')
    (after : moves ⊆ moves') : Answered answers requests' moves' r := by
  obtain ⟨i, x, k, served, found, own⟩ := answered
  obtain ⟨rest, rfl⟩ := more
  refine ⟨i, x, k, after served, ?_, own⟩
  rw [List.getElem?_append_left (List.getElem?_eq_some_iff.mp found).1, found]

structure Traced (held : γ → List ρ) (request : κ → Prop) (answers : κ → χ → ρ → Prop)
    (n : Net γ σ κ ρ) (moves : List (Move ε χ)) : Prop where
  requests : ∀ k ∈ n.requests, request k
  replies : ∀ r, r ∈ held n.client ∨ r ∈ n.replies → Answered answers n.requests moves r

theorem requests_next (n : Net γ σ κ ρ) (mv : Move ε χ) :
    n.requests <+: ((net P).next n mv).requests := by
  cases mv with
  | act e => exact List.prefix_append _ _
  | serve i x =>
    rw [Mealy.next, net]
    dsimp only
    split <;> exact List.prefix_rfl
  | deliver j =>
    rw [Mealy.next, net]
    dsimp only
    split <;> exact List.prefix_rfl

theorem requests_final (n : Net γ σ κ ρ) (moves : List (Move ε χ)) :
    n.requests <+: ((net P).final n moves).requests := by
  induction moves generalizing n with
  | nil => exact List.prefix_rfl
  | cons mv moves ih => exact (requests_next n mv).trans (ih _)

theorem Traced.next (answering : Answering P held request answers reports read)
    {n : Net γ σ κ ρ} {moves : List (Move ε χ)} (traced : Traced held request answers n moves)
    (mv : Move ε χ) : Traced held request answers ((net P).next n mv) (moves ++ [mv]) := by
  obtain ⟨requests, replies⟩ := traced
  have earlier : moves ⊆ moves ++ [mv] := List.subset_append_left _ _
  cases mv with
  | act e =>
    refine ⟨mem_append_toList requests (answering.sends n.client e), ?_⟩
    rintro r (mine | wire)
    · exact (replies r (Or.inl (answering.acts _ e mine))).mono (List.prefix_append _ _) earlier
    · exact (replies r (Or.inr wire)).mono (List.prefix_append _ _) earlier
  | serve i x =>
    cases found : n.requests[i]? with
    | none =>
      have idle : (net P).next n (.serve i x) = n := by
        simp only [Mealy.next, net, found]
      rw [idle]
      exact ⟨requests, fun r known => (replies r known).mono List.prefix_rfl earlier⟩
    | some k =>
      rw [Mealy.next, step_serve found]
      refine ⟨requests, ?_⟩
      rintro r (mine | wire)
      · exact (replies r (Or.inl mine)).mono List.prefix_rfl earlier
      · rcases List.mem_append.mp wire with old | new
        · exact (replies r (Or.inr old)).mono List.prefix_rfl earlier
        · exact ⟨i, x, k, List.mem_append_right _ List.mem_cons_self, found,
            answering.serves _ k x (requests k (List.mem_of_getElem? found)) r
              (Option.mem_toList.mp new)⟩
  | deliver j =>
    cases found : n.replies[j]? with
    | none =>
      rw [Mealy.next, step_deliver_none found]
      exact ⟨requests, fun r known => (replies r known).mono List.prefix_rfl earlier⟩
    | some reply =>
      rw [Mealy.next, step_deliver found]
      refine ⟨requests, ?_⟩
      rintro r (mine | wire)
      · rcases List.mem_append.mp (answering.receives _ _ mine) with old | new
        · exact (replies r (Or.inl old)).mono List.prefix_rfl earlier
        · rw [List.mem_singleton.mp new]
          exact (replies reply (Or.inr (List.mem_of_getElem? found))).mono List.prefix_rfl earlier
      · exact (replies r (Or.inr wire)).mono List.prefix_rfl earlier

theorem traced_final (answering : Answering P held request answers reports read) {c : γ} {s : σ}
    (empty : held c = []) (moves : List (Move ε χ)) :
    Traced held request answers ((net P).final (.start c s) moves) moves := by
  induction moves using List.reverseRecOn with
  | nil =>
    refine ⟨fun _ mem => absurd mem List.not_mem_nil, ?_⟩
    rintro r (mine | wire)
    · exact absurd (empty ▸ mine : r ∈ []) List.not_mem_nil
    · exact absurd wire List.not_mem_nil
  | append_singleton moves mv ih =>
    rw [Mealy.final_append]
    exact ih.next answering mv

/-- Whatever the network does, a report is one on an answer the server gave in a turn on a request
that was sent. -/
theorem Answering.log_traced (answering : Answering P held request answers reports read) {c : γ}
    {s : σ} (empty : held c = []) (moves : List (Move ε χ)) :
    ∀ w ∈ LossyNet.log P c s moves, reports w →
      ∃ e i x k r, Move.act e ∈ moves ∧ Move.serve i x ∈ moves ∧
        ((net P).final (.start c s) moves).requests[i]? = some k ∧ request k ∧ answers k x r ∧
        read e r w := by
  intro w logged report
  obtain ⟨o, fired, rfl⟩ := List.mem_filterMap.mp logged
  obtain ⟨pre, mv, post, rfl, out⟩ := (Mealy.mem_outputs _ _ _ _).mp fired
  have traced := traced_final answering (s := s) empty pre
  have whole : ((net P).final (.start c s) pre).requests <+:
      ((net P).final (.start c s) (pre ++ mv :: post)).requests := by
    rw [Mealy.final_append]
    exact requests_final _ _
  cases mv with
  | act e =>
    obtain ⟨r, mine, reads⟩ := answering.logs _ e w out.symm report
    obtain ⟨i, x, k, served, found, own⟩ := traced.replies r (Or.inl mine)
    obtain ⟨rest, more⟩ := whole
    refine ⟨e, i, x, k, r, by simp, List.mem_append_left _ served, ?_,
      traced.requests k (List.mem_of_getElem? found), own, reads⟩
    rw [← more, List.getElem?_append_left (List.getElem?_eq_some_iff.mp found).1, found]
  | serve i x =>
    rw [Mealy.out, net] at out
    dsimp only at out
    split at out <;> cases out
  | deliver j =>
    rw [Mealy.out, net] at out
    dsimp only at out
    split at out <;> cases out

end Origin

theorem client_log {I : γ → List ω → Prop}
    (acts : ∀ c e ws, I c ws → I (P.act c e).1 (ws ++ (P.act c e).2.2.toList))
    (receives : ∀ c r ws, I c ws → I (P.receive c r) ws) {c : γ} {s : σ} (start : I c [])
    (moves : List (Move ε χ)) :
    I ((net P).final (.start c s) moves).client (log P c s moves) := by
  induction moves using List.reverseRecOn with
  | nil => exact start
  | append_singleton moves mv ih =>
    rw [log, Mealy.answers_append, Mealy.final_append, Mealy.answers_singleton]
    generalize (net P).final (.start c s) moves = n at ih
    change I ((net P).next n mv).client (log P c s moves ++ ((net P).out n mv).toList)
    cases mv with
    | act e => exact acts n.client e _ ih
    | serve i x =>
      rw [Mealy.next, Mealy.out, net]
      dsimp only
      split
      · simpa [Net.serve] using ih
      · simpa using ih
    | deliver j =>
      rw [Mealy.next, Mealy.out, net]
      dsimp only
      split
      · next r found => simpa using receives n.client r _ ih
      · simpa using ih

end LossyNet

end HftLatencyLab
