import Mathlib.Data.List.Basic

/-! Steps that act on one key of the state and leave all others alone. After a
run the value at a key is the fold of the steps on that key only, so the order of
steps on different keys is immaterial. -/

namespace HftLatencyLab

variable {σ ι κ α : Type*} [DecidableEq κ]

/-- From states with `I`, a step `x` with `C` changes the view at its own key by
`act` and at no other key. -/
structure KeyedFold (step : σ → ι → σ) (view : σ → κ → α) (key : ι → κ) (act : α → ι → α)
    (I : σ → Prop) (C : ι → Prop) : Prop where
  keep : ∀ s x, I s → C x → I (step s x)
  own : ∀ s x, I s → C x → view (step s x) (key x) = act (view s (key x)) x
  frame : ∀ s x k, I s → C x → key x ≠ k → view (step s x) k = view s k

namespace KeyedFold

variable {step : σ → ι → σ} {view : σ → κ → α} {key : ι → κ} {act : α → ι → α}
  {I : σ → Prop} {C : ι → Prop}

omit [DecidableEq κ] in
theorem invariant (h : KeyedFold step view key act I C) {s : σ} (start : I s) {xs : List ι}
    (along : ∀ x ∈ xs, C x) : I (xs.foldl step s) := by
  induction xs generalizing s with
  | nil => exact start
  | cons x xs ih =>
    have here : C x := along x List.mem_cons_self
    exact ih (h.keep s x start here) fun y hy => along y (List.mem_cons_of_mem x hy)

theorem view_foldl (h : KeyedFold step view key act I C) {s : σ} (start : I s) {xs : List ι}
    (along : ∀ x ∈ xs, C x) (k : κ) :
    view (xs.foldl step s) k = (xs.filter (fun x => key x = k)).foldl act (view s k) := by
  induction xs generalizing s with
  | nil => rfl
  | cons x xs ih =>
    have here : C x := along x List.mem_cons_self
    have later := ih (h.keep s x start here) fun y hy => along y (List.mem_cons_of_mem x hy)
    rw [List.foldl_cons, later]
    by_cases same : key x = k
    · subst same
      simp [h.own s x start here]
    · simp [same, h.frame s x k start here same]

theorem mem_of_filter_eq {xs ys : List ι}
    (same : ∀ k, xs.filter (fun x => key x = k) = ys.filter (fun x => key x = k))
    {y : ι} (hy : y ∈ ys) : y ∈ xs := by
  have mine : y ∈ ys.filter (fun x => key x = key y) := by simp [hy]
  rw [← same] at mine
  exact (List.mem_filter.mp mine).1

theorem view_reorder (h : KeyedFold step view key act I C) {s : σ} (start : I s)
    {xs ys : List ι} (along : ∀ x ∈ xs, C x)
    (same : ∀ k, xs.filter (fun x => key x = k) = ys.filter (fun x => key x = k)) (k : κ) :
    view (xs.foldl step s) k = view (ys.foldl step s) k := by
  have along' : ∀ y ∈ ys, C y := fun y hy => along y (mem_of_filter_eq same hy)
  rw [h.view_foldl start along, h.view_foldl start along', same k]

end KeyedFold

end HftLatencyLab
