import Mathlib.Data.Multiset.AddSub
import Mathlib.Tactic.Common

/-! A ledger of things in custody. They are taken in, used while they are held and let go once;
a ledger holds at most so many at a time. A run that breaks one of these rules is `none`. -/

namespace HftLatencyLab.Custody

inductive Move (α : Type*) where
  | take (xs : List α)
  | touch (xs : List α)
  | release (xs : List α)

variable {α : Type*} [DecidableEq α] {capacity : ℕ}

def step (capacity : ℕ) (held : Multiset α) : Move α → Option (Multiset α)
  | .take xs => if held.card + xs.length ≤ capacity then some (held + xs) else none
  | .touch xs => if (xs : Multiset α) ≤ held then some held else none
  | .release xs => if (xs : Multiset α) ≤ held then some (held - xs) else none

def run (capacity : ℕ) (held : Multiset α) (moves : List (Move α)) : Option (Multiset α) :=
  moves.foldlM (step capacity) held

def Settles (capacity : ℕ) (moves : List (Move α)) : Prop :=
  run capacity 0 moves = some 0

@[simp] theorem run_nil (held : Multiset α) : run capacity held [] = some held := rfl

theorem run_append (held : Multiset α) (moves rest : List (Move α)) :
    run capacity held (moves ++ rest) =
      (run capacity held moves).bind fun after => run capacity after rest :=
  List.foldlM_append

theorem run_cons (held : Multiset α) (move : Move α) (rest : List (Move α)) :
    run capacity held (move :: rest) =
      (step capacity held move).bind fun after => run capacity after rest :=
  List.foldlM_cons

theorem run_take {held : Multiset α} {xs : List α} (room : held.card + xs.length ≤ capacity) :
    run capacity held [.take xs] = some (held + xs) := by
  rw [run_cons, step, if_pos room, Option.bind_some, run_nil]

theorem run_touch {held : Multiset α} {xs : List α} (mem : (xs : Multiset α) ≤ held) :
    run capacity held [.touch xs] = some held := by
  rw [run_cons, step, if_pos mem, Option.bind_some, run_nil]

theorem run_release (held : Multiset α) (xs : List α) :
    run capacity (held + (xs : Multiset α)) [.release xs] = some held := by
  rw [run_cons, step, if_pos (Multiset.le_add_left _ _), Option.bind_some, run_nil,
    Multiset.add_sub_cancel_right]

theorem run_release_each (held : Multiset α) (xs : List α) :
    run capacity (held + (xs : Multiset α)) (xs.map fun x => .release [x]) = some held := by
  induction xs with
  | nil => simp
  | cons x xs ih =>
    have last : ((x :: xs : List α) : Multiset α) = (xs : Multiset α) + ([x] : List α) := by
      rw [Multiset.coe_add, Multiset.coe_eq_coe]
      exact (List.perm_append_singleton x xs).symm
    rw [List.map_cons, run_cons, last, ← Multiset.add_assoc, step,
      if_pos (Multiset.le_add_left _ _), Option.bind_some, Multiset.add_sub_cancel_right, ih]

theorem Settles.nil : Settles capacity ([] : List (Move α)) := rfl

theorem Settles.append {moves rest : List (Move α)} (first : Settles capacity moves)
    (second : Settles capacity rest) : Settles capacity (moves ++ rest) := by
  rw [Settles, run_append, first, Option.bind_some, second]

theorem Settles.flatMap {ι : Type*} {moves : ι → List (Move α)} {xs : List ι}
    (each : ∀ x ∈ xs, Settles capacity (moves x)) : Settles capacity (xs.flatMap moves) := by
  induction xs with
  | nil => exact Settles.nil
  | cons x xs ih =>
    rw [List.flatMap_cons]
    exact (each x List.mem_cons_self).append
      (ih fun y mem => each y (List.mem_cons_of_mem x mem))

theorem step_card {held after : Multiset α} {move : Move α}
    (moved : step capacity held move = some after) (room : held.card ≤ capacity) :
    after.card ≤ capacity := by
  cases move with
  | take xs =>
    rw [step] at moved
    split_ifs at moved with fits
    obtain rfl := Option.some.inj moved
    rwa [Multiset.card_add, Multiset.coe_card]
  | touch xs =>
    rw [step] at moved
    split_ifs at moved
    obtain rfl := Option.some.inj moved
    exact room
  | release xs =>
    rw [step] at moved
    split_ifs at moved
    obtain rfl := Option.some.inj moved
    exact (Multiset.card_le_card (Multiset.sub_le_self _ _)).trans room

theorem run_card {held after : Multiset α} {moves : List (Move α)}
    (ran : run capacity held moves = some after) (room : held.card ≤ capacity) :
    after.card ≤ capacity := by
  induction moves generalizing held with
  | nil =>
    obtain rfl := Option.some.inj ran
    exact room
  | cons move moves ih =>
    rw [run_cons] at ran
    obtain ⟨mid, moved, rest⟩ := Option.bind_eq_some_iff.mp ran
    exact ih rest (step_card moved room)

/-- Cut off anywhere, a settled run has kept the rules, and holds no more than it may. -/
theorem Settles.cut {moves rest : List (Move α)} (settles : Settles capacity (moves ++ rest)) :
    ∃ held, run capacity 0 moves = some held ∧ held.card ≤ capacity := by
  rw [Settles, run_append] at settles
  obtain ⟨held, ran, -⟩ := Option.bind_eq_some_iff.mp settles
  exact ⟨held, ran, run_card ran (by simp)⟩

end HftLatencyLab.Custody
