import Mathlib.Data.List.Basic

/-! Loops whose body may stop the program: `foldlM` in `Option` over the inputs. What one
pass of the body keeps holds at the end, and a loop no pass of which stops comes to its end. -/

namespace HftLatencyLab

variable {σ ι : Type*}

theorem foldlM_invariant {f : σ → ι → Option σ} {I : List ι → σ → Prop}
    (keep : ∀ done x s s', I done s → f s x = some s' → I (done ++ [x]) s')
    {done xs : List ι} {s s' : σ} (start : I done s) (run : xs.foldlM f s = some s') :
    I (done ++ xs) s' := by
  induction xs generalizing done s with
  | nil =>
    have same : s = s' := Option.some.inj run
    rwa [List.append_nil, ← same]
  | cons x xs ih =>
    rw [List.foldlM_cons] at run
    obtain ⟨next, now, later⟩ := Option.bind_eq_some_iff.mp run
    have rest := ih (keep done x s next start now) later
    rwa [List.append_assoc, List.singleton_append] at rest

theorem foldlM_progress {f : σ → ι → Option σ} {J : ℕ → σ → Prop}
    (pass : ∀ n s x, J (n + 1) s → ∃ s', f s x = some s' ∧ J n s') (xs : List ι) {n : ℕ} {s : σ}
    (enough : J (n + xs.length) s) : ∃ s', xs.foldlM f s = some s' ∧ J n s' := by
  induction xs generalizing s with
  | nil => exact ⟨s, rfl, enough⟩
  | cons x xs ih =>
    obtain ⟨next, now, left⟩ := pass _ s x enough
    obtain ⟨s', later, rest⟩ := ih left
    refine ⟨s', ?_, rest⟩
    rw [List.foldlM_cons, now]
    exact later

end HftLatencyLab
