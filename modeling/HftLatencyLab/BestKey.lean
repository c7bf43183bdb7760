import Mathlib.Data.Finset.Max

/-! The best key of a finite set, kept in a cache: the key of largest rank, or
`none` for the empty set. What an insertion and a removal owe the cache, and how
far it determines itself. -/

namespace HftLatencyLab.BestKey

variable {κ ρ : Type*} [LinearOrder ρ] {rank : κ → ρ} {keys : Finset κ} {cache : Option κ}

def IsBest (rank : κ → ρ) (keys : Finset κ) : Option κ → Prop
  | none => keys = ∅
  | some best => best ∈ keys ∧ ∀ k ∈ keys, rank k ≤ rank best

def raise (rank : κ → ρ) (key : κ) : Option κ → Option κ
  | none => some key
  | some best => if rank best < rank key then some key else some best

theorem IsBest.eq_none_iff (h : IsBest rank keys cache) : cache = none ↔ keys = ∅ := by
  cases cache with
  | none => simpa [IsBest] using h
  | some best =>
    have nonempty : keys ≠ ∅ := Finset.ne_empty_of_mem h.1
    simp [nonempty]

theorem IsBest.unique {cache' : Option κ} (injective : Function.Injective rank)
    (h : IsBest rank keys cache) (h' : IsBest rank keys cache') : cache = cache' := by
  cases cache with
  | none => rw [(h'.eq_none_iff).mpr h]
  | some best =>
    cases cache' with
    | none => rw [(h.eq_none_iff).mpr h']
    | some best' =>
      have same : rank best = rank best' := le_antisymm (h'.2 best h.1) (h.2 best' h'.1)
      rw [injective same]

variable [DecidableEq κ]

theorem IsBest.insert (h : IsBest rank keys cache) (key : κ) :
    IsBest rank (insert key keys) (raise rank key cache) := by
  cases cache with
  | none =>
    have empty : keys = ∅ := h
    simp [empty, raise, IsBest]
  | some best =>
    obtain ⟨held, top⟩ := h
    by_cases better : rank best < rank key
    · rw [raise, if_pos better]
      refine ⟨Finset.mem_insert_self key keys, fun k hk => ?_⟩
      rcases Finset.mem_insert.mp hk with rfl | old
      · exact le_rfl
      · exact (top k old).trans better.le
    · rw [raise, if_neg better]
      refine ⟨Finset.mem_insert_of_mem held, fun k hk => ?_⟩
      rcases Finset.mem_insert.mp hk with rfl | old
      · exact not_lt.mp better
      · exact top k old

theorem IsBest.erase (h : IsBest rank keys cache) {key : κ} (other : some key ≠ cache) :
    IsBest rank (keys.erase key) cache := by
  cases cache with
  | none =>
    have empty : keys = ∅ := h
    simp [empty, IsBest]
  | some best =>
    obtain ⟨held, top⟩ := h
    have kept : best ≠ key := by
      intro same
      exact other (congrArg some same.symm)
    exact ⟨Finset.mem_erase.mpr ⟨kept, held⟩, fun k hk => top k (Finset.mem_of_mem_erase hk)⟩

end HftLatencyLab.BestKey
