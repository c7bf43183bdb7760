import Mathlib.Algebra.Order.Floor.Div

/-! The loop `while (idx < bound) { ..; idx += step; }` on a counter of `w` bits, which wraps. It
ends just as long as the first index not below the bound is one of the register; for a step that
divides the range of the register, and from 0 on, that is up to a bound of the range less the
step, and beyond it the loop never ends. -/

namespace HftLatencyLab.CounterLoop

variable {w : ℕ} {α : Type*}

/-- What the rounds from `idx` on yield. `none`: the loop has not ended within `fuel` tests. -/
def loop (body : BitVec w → α) (step bound : BitVec w) : ℕ → BitVec w → Option (List α)
  | 0, _ => none
  | fuel + 1, idx =>
    if idx < bound then (loop body step bound fuel (idx + step)).map (body idx :: ·)
    else some []

variable {body : BitVec w → α} {step bound : BitVec w}

theorem loop_more {fuel : ℕ} {idx : BitVec w} {xs : List α}
    (ends : loop body step bound fuel idx = some xs) (more : ℕ) :
    loop body step bound (fuel + more) idx = some xs := by
  induction fuel generalizing idx xs with
  | zero => cases ends
  | succ fuel ih =>
    rw [Nat.succ_add]
    by_cases inside : idx < bound
    · rw [loop, if_pos inside, Option.map_eq_some_iff] at ends
      obtain ⟨ys, later, rfl⟩ := ends
      rw [loop, if_pos inside, ih later, Option.map_some]
    · rw [loop, if_neg inside] at ends ⊢
      exact ends

theorem loop_unique {fuel fuel' : ℕ} {idx : BitVec w} {xs ys : List α}
    (ends : loop body step bound fuel idx = some xs)
    (ends' : loop body step bound fuel' idx = some ys) : xs = ys := by
  have one := loop_more ends fuel'
  have other := loop_more ends' fuel
  rw [Nat.add_comm fuel' fuel, one] at other
  exact Option.some.inj other

def rounds (step bound : BitVec w) : ℕ := bound.toNat ⌈/⌉ step.toNat

def index (step : BitVec w) (k : ℕ) : BitVec w := BitVec.ofNat w (step.toNat * k)

theorem index_zero (step : BitVec w) : index step 0 = 0 := by
  rw [index, Nat.mul_zero]
  rfl

theorem index_succ (step : BitVec w) (k : ℕ) : index step k + step = index step (k + 1) := by
  rw [index, index, Nat.mul_succ, BitVec.ofNat_add, BitVec.ofNat_toNat, BitVec.setWidth_eq]

theorem index_toNat (fits : step.toNat * rounds step bound < 2 ^ w) {k : ℕ}
    (made : k ≤ rounds step bound) : (index step k).toNat = step.toNat * k := by
  have unwrapped : step.toNat * k < 2 ^ w := (Nat.mul_le_mul_left step.toNat made).trans_lt fits
  rw [index, BitVec.toNat_ofNat, Nat.mod_eq_of_lt unwrapped]

section Positive

variable (pos : 0 < step.toNat)
include pos

theorem rounds_le_iff {k : ℕ} : rounds step bound ≤ k ↔ bound.toNat ≤ step.toNat * k :=
  ceilDiv_le_iff_le_mul pos

section Unwrapped

variable (fits : step.toNat * rounds step bound < 2 ^ w)
include fits

theorem index_lt_iff {k : ℕ} (made : k ≤ rounds step bound) :
    index step k < bound ↔ k < rounds step bound := by
  rw [BitVec.lt_def, index_toNat fits made, ← not_le, ← rounds_le_iff pos, not_le]

theorem loop_eq (n : ℕ) {k fuel : ℕ} (left : k + n = rounds step bound) (enough : n < fuel) :
    loop body step bound fuel (index step k) =
      some ((List.range' k n).map fun j => body (index step j)) := by
  induction n generalizing k fuel with
  | zero =>
    obtain ⟨fuel, rfl⟩ := Nat.exists_eq_succ_of_ne_zero (Nat.ne_of_gt enough)
    have ended : ¬index step k < bound := by
      rw [index_lt_iff pos fits (by omega)]
      omega
    rw [loop, if_neg ended]
    rfl
  | succ n ih =>
    obtain ⟨fuel, rfl⟩ := Nat.exists_eq_succ_of_ne_zero (Nat.ne_of_gt (by omega : 0 < fuel))
    have inside : index step k < bound := by
      rw [index_lt_iff pos fits (by omega)]
      omega
    have later : loop body step bound fuel (index step (k + 1)) = _ := ih (by omega) (by omega)
    rw [loop, if_pos inside, index_succ, later, Option.map_some, List.range'_succ, List.map_cons]

end Unwrapped

end Positive

section Divides

variable (divides : step.toNat ∣ 2 ^ w)
include divides

theorem step_pos : 0 < step.toNat := Nat.pos_of_dvd_of_pos divides (Nat.two_pow_pos w)

theorem rounds_fit (within : bound.toNat ≤ 2 ^ w - step.toNat) :
    step.toNat * rounds step bound < 2 ^ w := by
  have pos := step_pos divides
  obtain ⟨c, range⟩ := divides
  have most : rounds step bound ≤ c - 1 := by
    rw [rounds_le_iff pos, Nat.mul_sub_one, ← range]
    exact within
  have product := Nat.mul_le_mul_left step.toNat most
  have room : 0 < 2 ^ w := Nat.two_pow_pos w
  rw [Nat.mul_sub_one, ← range] at product
  omega

theorem loop_diverges (beyond : 2 ^ w - step.toNat < bound.toNat) (fuel : ℕ) {idx : BitVec w}
    (aligned : step.toNat ∣ idx.toNat) : loop body step bound fuel idx = none := by
  induction fuel generalizing idx with
  | zero => rfl
  | succ fuel ih =>
    have below : idx.toNat + step.toNat ≤ 2 ^ w :=
      Nat.le_of_lt_add_of_dvd (Nat.add_lt_add_right idx.isLt _)
        (Nat.dvd_add aligned (dvd_refl _)) divides
    have inside : idx < bound := by
      rw [BitVec.lt_def]
      omega
    have next : step.toNat ∣ (idx + step).toNat := by
      rw [BitVec.toNat_add]
      exact (Nat.dvd_mod_iff divides).mpr (Nat.dvd_add aligned (dvd_refl _))
    rw [loop, if_pos inside, ih next, Option.map_none]

theorem loop_within (within : bound.toNat ≤ 2 ^ w - step.toNat) {fuel : ℕ}
    (enough : rounds step bound < fuel) :
    loop body step bound fuel 0 =
      some ((List.range' 0 (rounds step bound)).map fun j => body (index step j)) := by
  have made : loop body step bound fuel (index step 0) = _ :=
    loop_eq (step_pos divides) (rounds_fit divides within) _ (Nat.zero_add _) enough
  rwa [index_zero] at made

theorem ends_iff : (∃ fuel xs, loop body step bound fuel 0 = some xs) ↔
    bound.toNat ≤ 2 ^ w - step.toNat := by
  constructor
  · rintro ⟨fuel, xs, ends⟩
    by_contra beyond
    have never : loop body step bound fuel 0 = none :=
      loop_diverges divides (not_le.mp beyond) fuel (by simp)
    rw [ends] at never
    cases never
  · intro within
    exact ⟨_, _, loop_within divides within (Nat.lt_succ_self _)⟩

end Divides

end HftLatencyLab.CounterLoop
