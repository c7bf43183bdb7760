import Mathlib.Data.List.Forall2

/-! Synchronous machines that answer every input with one output, and what one
step has to preserve for a whole run to preserve it. `Along` states a condition
on every step of a run, at the state in which that step is taken. -/

namespace HftLatencyLab

variable {σ τ ι κ ο ω : Type*}

structure Mealy (σ ι ο : Type*) where
  step : σ → ι → σ × ο

namespace Mealy

def next (m : Mealy σ ι ο) (s : σ) (x : ι) : σ := (m.step s x).1

def out (m : Mealy σ ι ο) (s : σ) (x : ι) : ο := (m.step s x).2

def final (m : Mealy σ ι ο) (s : σ) (xs : List ι) : σ := xs.foldl m.next s

def outputs (m : Mealy σ ι ο) : σ → List ι → List ο
  | _, [] => []
  | s, x :: xs => m.out s x :: outputs m (m.next s x) xs

def Along (m : Mealy σ ι ο) (C : σ → ι → Prop) : σ → List ι → Prop
  | _, [] => True
  | s, x :: xs => C s x ∧ Along m C (m.next s x) xs

instance decidableAlong (m : Mealy σ ι ο) (C : σ → ι → Prop) [∀ s x, Decidable (C s x)] :
    ∀ s xs, Decidable (m.Along C s xs)
  | _, [] => isTrue trivial
  | s, x :: xs =>
    have := decidableAlong m C (m.next s x) xs
    inferInstanceAs (Decidable (C s x ∧ m.Along C (m.next s x) xs))

@[simp] theorem final_nil (m : Mealy σ ι ο) (s : σ) : m.final s [] = s := rfl

@[simp] theorem final_cons (m : Mealy σ ι ο) (s : σ) (x : ι) (xs : List ι) :
    m.final s (x :: xs) = m.final (m.next s x) xs := rfl

@[simp] theorem outputs_nil (m : Mealy σ ι ο) (s : σ) : m.outputs s [] = [] := rfl

@[simp] theorem outputs_cons (m : Mealy σ ι ο) (s : σ) (x : ι) (xs : List ι) :
    m.outputs s (x :: xs) = m.out s x :: m.outputs (m.next s x) xs := rfl

@[simp] theorem length_outputs (m : Mealy σ ι ο) (s : σ) (xs : List ι) :
    (m.outputs s xs).length = xs.length := by
  induction xs generalizing s with
  | nil => rfl
  | cons x xs ih => simp [ih]

theorem final_append (m : Mealy σ ι ο) (s : σ) (xs ys : List ι) :
    m.final s (xs ++ ys) = m.final (m.final s xs) ys := by
  simp [final]

theorem final_take_succ (m : Mealy σ ι ο) (s : σ) (xs : List ι) (i : ℕ) (h : i < xs.length) :
    m.final s (xs.take (i + 1)) = m.next (m.final s (xs.take i)) xs[i] := by
  rw [List.take_succ_eq_append_getElem h, final_append]
  rfl

theorem outputs_append (m : Mealy σ ι ο) (s : σ) (xs ys : List ι) :
    m.outputs s (xs ++ ys) = m.outputs s xs ++ m.outputs (m.final s xs) ys := by
  induction xs generalizing s with
  | nil => rfl
  | cons x xs ih => simp [ih]

theorem outputs_getElem (m : Mealy σ ι ο) (s : σ) (xs : List ι) (i : ℕ)
    (h : i < (m.outputs s xs).length) (hi : i < xs.length) :
    (m.outputs s xs)[i] = m.out (m.final s (xs.take i)) xs[i] := by
  induction xs generalizing s i with
  | nil => simp at hi
  | cons x xs ih =>
    cases i with
    | zero => rfl
    | succ i =>
      simp only [outputs_cons, List.getElem_cons_succ, List.take_succ_cons, final_cons]
      exact ih _ i _ (by simpa using hi)

theorem outputs_take (m : Mealy σ ι ο) (s : σ) (xs : List ι) (n : ℕ) :
    (m.outputs s xs).take n = m.outputs s (xs.take n) := by
  induction xs generalizing s n with
  | nil => simp
  | cons x xs ih =>
    cases n with
    | zero => rfl
    | succ n => simp only [outputs_cons, List.take_succ_cons, ih]

/-- An output that shows the state it leaves shows at the end of a run the final
state; before the first output there is the initial one. -/
theorem getLast?_outputs {α : Type*} (m : Mealy σ ι ο) {v : σ → α} {r : ο → α}
    (shows : ∀ s x, r (m.out s x) = v (m.next s x)) (s : σ) (xs : List ι) :
    (m.outputs s xs).getLast?.elim (v s) r = v (m.final s xs) := by
  induction xs generalizing s with
  | nil => rfl
  | cons x xs ih =>
    rw [final_cons, ← ih, outputs_cons, List.getLast?_cons]
    cases (m.outputs (m.next s x) xs).getLast? with
    | none => exact shows s x
    | some y => rfl

def on (m : Mealy σ ι ο) (f : κ → ι) : Mealy σ κ ο where
  step s x := m.step s (f x)

theorem outputs_on (m : Mealy σ ι ο) (f : κ → ι) (s : σ) (xs : List κ) :
    (m.on f).outputs s xs = m.outputs s (xs.map f) := by
  induction xs generalizing s with
  | nil => rfl
  | cons x xs ih =>
    rw [outputs_cons, List.map_cons, outputs_cons, ih]
    rfl

/-- An invariant kept by every step holds after every run. -/
theorem final_invariant (m : Mealy σ ι ο) {I : σ → Prop}
    (keep : ∀ s x, I s → I (m.next s x)) (s : σ) (xs : List ι) (h : I s) :
    I (m.final s xs) := by
  induction xs generalizing s with
  | nil => exact h
  | cons x xs ih => exact ih _ (keep s x h)

/-- Conservation: where every step gives out the head of what is still to come, or nothing,
a run has given out what its final state has no longer to give. -/
theorem drains {α : Type*} {m : Mealy σ ι ο} {I : σ → Prop} {rest : σ → List α}
    {given : ο → Option α} (keep : ∀ s x, I s → I (m.next s x))
    (conserve : ∀ s x, I s → rest s = (given (m.out s x)).toList ++ rest (m.next s x)) {s : σ}
    (start : I s) (xs : List ι) :
    rest s = (m.outputs s xs).filterMap given ++ rest (m.final s xs) := by
  induction xs generalizing s with
  | nil => rfl
  | cons x xs ih =>
    have later := ih (keep s x start)
    rw [conserve s x start, later, outputs_cons, final_cons]
    cases given_x : given (m.out s x) with
    | none => simp [given_x]
    | some a => simp [given_x]

theorem mem_outputs (m : Mealy σ ι ο) (s : σ) (xs : List ι) (o : ο) :
    o ∈ m.outputs s xs ↔
      ∃ pre x post, xs = pre ++ x :: post ∧ o = m.out (m.final s pre) x := by
  induction xs generalizing s with
  | nil => simp
  | cons x xs ih =>
    rw [outputs_cons, List.mem_cons, ih]
    constructor
    · rintro (rfl | ⟨pre, y, post, rfl, rfl⟩)
      · exact ⟨[], x, xs, rfl, rfl⟩
      · exact ⟨x :: pre, y, post, rfl, rfl⟩
    · rintro ⟨_ | ⟨z, pre⟩, y, post, split, rfl⟩
      · obtain ⟨rfl, rfl⟩ := List.cons.inj split
        exact Or.inl rfl
      · obtain ⟨rfl, rfl⟩ := List.cons.inj split
        exact Or.inr ⟨pre, y, post, rfl, rfl⟩

theorem along_iff {m : Mealy σ ι ο} {C : σ → ι → Prop} {s : σ} {xs : List ι} :
    m.Along C s xs ↔ ∀ pre x post, xs = pre ++ x :: post → C (m.final s pre) x := by
  induction xs generalizing s with
  | nil => simp [Along]
  | cons x xs ih =>
    rw [Along, ih]
    constructor
    · rintro ⟨here, later⟩ (_ | ⟨z, pre⟩) y post split
      · obtain ⟨rfl, rfl⟩ := List.cons.inj split
        exact here
      · obtain ⟨rfl, rest⟩ := List.cons.inj split
        exact later pre y post rest
    · intro every
      exact ⟨every [] x xs rfl, fun pre y post rest => every (x :: pre) y post (by simp [rest])⟩

/-- An invariant kept by the steps that meet `C` holds along a run that does. -/
theorem Along.invariant {m : Mealy σ ι ο} {I : σ → Prop} {C : σ → ι → Prop}
    (keep : ∀ s x, I s → C s x → I (m.next s x)) {s : σ} {xs : List ι} (start : I s)
    (along : m.Along C s xs) : m.Along (fun s x => I s ∧ C s x) s xs := by
  induction xs generalizing s with
  | nil => trivial
  | cons x xs ih => exact ⟨⟨start, along.1⟩, ih (keep s x start along.1) along.2⟩

theorem along_append {m : Mealy σ ι ο} {C : σ → ι → Prop} {s : σ} {xs ys : List ι} :
    m.Along C s (xs ++ ys) ↔ m.Along C s xs ∧ m.Along C (m.final s xs) ys := by
  induction xs generalizing s with
  | nil => simp [Along]
  | cons x xs ih => rw [List.cons_append, Along, ih, Along, and_assoc, final_cons]

theorem Along.prefixes {m : Mealy σ ι ο} {I : σ → Prop} {C : σ → ι → Prop}
    (keep : ∀ s x, I s → C s x → I (m.next s x)) {s : σ} {xs : List ι} (start : I s)
    (along : m.Along C s xs) {pre : List ι} (short : pre <+: xs) : I (m.final s pre) := by
  obtain ⟨post, rfl⟩ := short
  have before := (along_append.mp along).1
  induction pre generalizing s with
  | nil => exact start
  | cons x pre ih => exact ih (keep s x start before.1) along.2 before.2

theorem Along.imp {m : Mealy σ ι ο} {C D : σ → ι → Prop} (weaker : ∀ s x, C s x → D s x)
    {s : σ} {xs : List ι} (along : m.Along C s xs) : m.Along D s xs := by
  induction xs generalizing s with
  | nil => trivial
  | cons x xs ih => exact ⟨weaker s x along.1, ih along.2⟩

theorem along_iff_along {m : Mealy σ ι ο} {C D : σ → ι → Prop} (agree : ∀ s x, C s x ↔ D s x)
    {s : σ} {xs : List ι} : m.Along C s xs ↔ m.Along D s xs :=
  ⟨Along.imp fun s x => (agree s x).mp, Along.imp fun s x => (agree s x).mpr⟩

theorem along_congr {m : Mealy σ ι ο} {I : σ → Prop} {C D : σ → ι → Prop}
    (keep : ∀ s x, I s → I (m.next s x)) (agree : ∀ s x, I s → (C s x ↔ D s x)) {s : σ}
    (start : I s) (xs : List ι) : m.Along C s xs ↔ m.Along D s xs := by
  induction xs generalizing s with
  | nil => rfl
  | cons x xs ih => rw [Along, Along, agree s x start, ih (keep s x start)]

/-- Along a run that meets `S`, where a step from a good state leads to a good state iff it
meets `C`: the states of the run are all good iff its steps all meet `C`. -/
theorem prefixes_iff_along {m : Mealy σ ι ο} {I G : σ → Prop} {S C : σ → ι → Prop}
    (keep : ∀ s x, I s → S s x → I (m.next s x))
    (step : ∀ s x, I s → G s → S s x → (G (m.next s x) ↔ C s x)) {s : σ} (start : I s)
    (good : G s) {xs : List ι} (along : m.Along S s xs) :
    (∀ pre, pre <+: xs → G (m.final s pre)) ↔ m.Along C s xs := by
  induction xs generalizing s with
  | nil => simp [Along, good]
  | cons x xs ih =>
    obtain ⟨here, later⟩ := along
    have kept := keep s x start here
    have prefixes : (∀ pre, pre <+: x :: xs → G (m.final s pre)) ↔
        ∀ pre, pre <+: xs → G (m.final (m.next s x) pre) := by
      constructor
      · intro every pre short
        exact every (x :: pre) (List.cons_prefix_cons.mpr ⟨rfl, short⟩)
      · intro rest pre short
        rcases List.prefix_cons_iff.mp short with rfl | ⟨rest', rfl, shorter⟩
        · exact good
        · exact rest rest' shorter
    rw [prefixes, Along, ← step s x start good here]
    constructor
    · intro every
      have now : G (m.next s x) := every [] List.nil_prefix
      exact ⟨now, (ih kept now later).mp every⟩
    · rintro ⟨now, rest⟩
      exact (ih kept now later).mpr rest

theorem along_true {m : Mealy σ ι ο} {s : σ} (xs : List ι) : m.Along (fun _ _ => True) s xs := by
  induction xs generalizing s with
  | nil => trivial
  | cons x xs ih => exact ⟨trivial, ih⟩

/-- Where a step from a good state leads to a good state iff it meets `C`, the states of a
run are all good iff its steps all meet `C`. -/
theorem prefixes_iff {m : Mealy σ ι ο} {I G : σ → Prop} {C : σ → ι → Prop}
    (keep : ∀ s x, I s → I (m.next s x))
    (step : ∀ s x, I s → G s → (G (m.next s x) ↔ C s x)) {s : σ} (start : I s) (good : G s)
    (xs : List ι) : (∀ pre, pre <+: xs → G (m.final s pre)) ↔ m.Along C s xs :=
  prefixes_iff_along (fun s x inv _ => keep s x inv) (fun s x inv good _ => step s x inv good)
    start good (along_true xs)

theorem along_inputs {m : Mealy σ ι ο} {P : ι → Prop} {s : σ} {xs : List ι} :
    m.Along (fun _ x => P x) s xs ↔ ∀ x ∈ xs, P x := by
  induction xs generalizing s with
  | nil => simp [Along]
  | cons x xs ih => rw [Along, ih, List.forall_mem_cons]

theorem Along.and {m : Mealy σ ι ο} {C D : σ → ι → Prop} {s : σ} {xs : List ι}
    (hC : m.Along C s xs) (hD : m.Along D s xs) : m.Along (fun s x => C s x ∧ D s x) s xs := by
  induction xs generalizing s with
  | nil => trivial
  | cons x xs ih => exact ⟨⟨hC.1, hD.1⟩, ih hC.2 hD.2⟩

theorem outputs_related (m : Mealy σ ι ο) (n : Mealy τ ι ω) {R : σ → τ → Prop}
    {O : ο → ω → Prop} {C : σ → ι → Prop}
    (step : ∀ s t x, R s t → C s x → R (m.next s x) (n.next t x) ∧ O (m.out s x) (n.out t x))
    (s : σ) (t : τ) (xs : List ι) (h : R s t) (along : m.Along C s xs) :
    List.Forall₂ O (m.outputs s xs) (n.outputs t xs) := by
  induction xs generalizing s t with
  | nil => exact List.Forall₂.nil
  | cons x xs ih =>
    obtain ⟨here, rest⟩ := along
    obtain ⟨keep, now⟩ := step s t x h here
    exact List.Forall₂.cons now (ih _ _ keep rest)

theorem outputs_eq (m : Mealy σ ι ο) (n : Mealy τ ι ο) {R : σ → τ → Prop}
    (step : ∀ s t x, R s t → R (m.next s x) (n.next t x) ∧ m.out s x = n.out t x)
    (s : σ) (t : τ) (xs : List ι) (h : R s t) : m.outputs s xs = n.outputs t xs := by
  induction xs generalizing s t with
  | nil => rfl
  | cons x xs ih =>
    obtain ⟨keep, now⟩ := step s t x h
    rw [outputs_cons, outputs_cons, now, ih _ _ keep]

/-- As `outputs_related`, when the outputs of a step agree exactly under a
second condition `D` and the relation survives only the steps that meet it:
the runs agree everywhere iff every step meets `D`. -/
theorem outputs_related_iff (m : Mealy σ ι ο) (n : Mealy τ ι ω) {R : σ → τ → Prop}
    {O : ο → ω → Prop} {C D : σ → ι → Prop}
    (agree : ∀ s t x, R s t → C s x → (O (m.out s x) (n.out t x) ↔ D s x))
    (keep : ∀ s t x, R s t → C s x → D s x → R (m.next s x) (n.next t x))
    (s : σ) (t : τ) (xs : List ι) (h : R s t) (along : m.Along C s xs) :
    List.Forall₂ O (m.outputs s xs) (n.outputs t xs) ↔ m.Along D s xs := by
  induction xs generalizing s t with
  | nil => simp [Along]
  | cons x xs ih =>
    obtain ⟨here, rest⟩ := along
    rw [outputs_cons, outputs_cons, List.forall₂_cons, agree s t x h here, Along]
    constructor
    · rintro ⟨now, later⟩
      exact ⟨now, (ih _ _ (keep s t x h here now) rest).mp later⟩
    · rintro ⟨now, later⟩
      exact ⟨now, (ih _ _ (keep s t x h here now) rest).mpr later⟩

/-- The outputs of a run without its silent steps. -/
def answers (m : Mealy σ ι (Option ο)) (s : σ) (xs : List ι) : List ο :=
  (m.outputs s xs).filterMap id

theorem answers_cons_none {m : Mealy σ ι (Option ο)} {s : σ} {x : ι} (silent : m.out s x = none)
    (xs : List ι) : m.answers s (x :: xs) = m.answers (m.next s x) xs := by
  simp [answers, silent]

theorem answers_cons_some {m : Mealy σ ι (Option ο)} {s : σ} {x : ι} {o : ο}
    (answered : m.out s x = some o) (xs : List ι) :
    m.answers s (x :: xs) = o :: m.answers (m.next s x) xs := by
  simp [answers, answered]

theorem answers_append (m : Mealy σ ι (Option ο)) (s : σ) (xs ys : List ι) :
    m.answers s (xs ++ ys) = m.answers s xs ++ m.answers (m.final s xs) ys := by
  rw [answers, outputs_append, List.filterMap_append]
  rfl

theorem answers_singleton (m : Mealy σ ι (Option ο)) (s : σ) (x : ι) :
    m.answers s [x] = (m.out s x).toList := by
  cases out : m.out s x with
  | none => exact answers_cons_none out []
  | some o => exact answers_cons_some out []

theorem length_answers_le {m : Mealy σ ι (Option ο)} {V : ι → Prop} [DecidablePred V]
    (silent : ∀ s x, ¬V x → m.out s x = none) (s : σ) (xs : List ι) :
    (m.answers s xs).length ≤ (xs.filter V).length := by
  induction xs generalizing s with
  | nil => simp [answers]
  | cons x xs ih =>
    have later := ih (m.next s x)
    by_cases asks : V x
    · rw [List.filter_cons_of_pos (by simpa using asks), List.length_cons]
      cases out : m.out s x with
      | none =>
        rw [answers_cons_none out]
        omega
      | some o =>
        rw [answers_cons_some out, List.length_cons]
        omega
    · rw [List.filter_cons_of_neg (by simpa using asks), answers_cons_none (silent s x asks)]
      exact later

/-- A machine silent on all but the inputs in `V` gives, in their order, one answer
related by `R` to each of them iff every step on one of them does. -/
theorem answers_iff {m : Mealy σ ι (Option ο)} {V : ι → Prop} [DecidablePred V]
    {R : ι → ο → Prop} (silent : ∀ s x, ¬V x → m.out s x = none) (s : σ) (xs : List ι) :
    List.Forall₂ R (xs.filter V) (m.answers s xs) ↔
      m.Along (fun s x => V x → ∃ o ∈ m.out s x, R x o) s xs := by
  induction xs generalizing s with
  | nil => simp [answers, Along]
  | cons x xs ih =>
    rw [Along, ← ih]
    by_cases asks : V x
    · rw [List.filter_cons_of_pos (by simpa using asks)]
      cases out : m.out s x with
      | none =>
        rw [answers_cons_none out]
        constructor
        · intro all
          have short := length_answers_le silent (m.next s x) xs
          have long := all.length_eq
          rw [List.length_cons] at long
          omega
        · rintro ⟨answered, -⟩
          exact absurd (answered asks) (by simp)
      | some o =>
        rw [answers_cons_some out, List.forall₂_cons]
        simp [asks]
    · rw [List.filter_cons_of_neg (by simpa using asks), answers_cons_none (silent s x asks)]
      simp [asks]

end Mealy

end HftLatencyLab
