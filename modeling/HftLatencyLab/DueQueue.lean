import HftLatencyLab.MealyRun
import Mathlib.Data.Nat.Init
import Mathlib.Order.Nat

/-! A first-in first-out queue in which every new entry releases the entries at the front
that are due when it comes. Entry by entry: one is released at the first entry, from its
own on and from where the one before it was released, that finds it due. -/

namespace HftLatencyLab.DueQueue

variable {α : Type*} (due : α → α → Bool)

/-- `due e w`: the waiting `w` is due when `e` comes. -/
def queue : Mealy (List α) α (List (α × α)) where
  step waiting e :=
    ((waiting ++ [e]).dropWhile (due e),
      ((waiting ++ [e]).takeWhile (due e)).map (fun w => (w, e)))

/-- The first position from `start` on at which `w` is due. -/
def firstDue (vs : List α) (w : α) (start : ℕ) : Option ℕ :=
  ((vs.drop start).findIdx? (fun e => due e w)).map (start + ·)

def searchFrom (vs : List α) : ℕ → Option ℕ
  | 0 => some 0
  | k + 1 =>
    (searchFrom vs k).bind fun start => vs[k]?.bind fun w =>
      (firstDue due vs w start).map (max · (k + 1))

def releasedAt (vs : List α) (k : ℕ) : Option ℕ :=
  (searchFrom due vs k).bind fun start => vs[k]?.bind fun w => firstDue due vs w start

def release (vs : List α) (k : ℕ) : Option (α × α) :=
  vs[k]?.bind fun w => (releasedAt due vs k).bind fun j => vs[j]?.map (fun e => (w, e))

variable {due} {vs : List α}

theorem firstDue_spec {w : α} {start j : ℕ} (first : firstDue due vs w start = some j) :
    start ≤ j ∧ ∃ e, vs[j]? = some e ∧ due e w := by
  simp only [firstDue, Option.map_eq_some_iff] at first
  obtain ⟨i, found, rfl⟩ := first
  obtain ⟨inside, isDue, -⟩ := List.findIdx?_eq_some_iff_getElem.mp found
  refine ⟨Nat.le_add_right start i, _, ?_, isDue⟩
  rw [List.getElem_drop, List.getElem?_eq_getElem]

theorem firstDue_le {w e : α} {start j : ℕ} (le : start ≤ j) (here : vs[j]? = some e)
    (isDue : due e w) : ∃ i, firstDue due vs w start = some i ∧ i ≤ j := by
  have inside : (vs.drop start)[j - start]? = some e := by
    rw [List.getElem?_drop, Nat.add_sub_cancel' le, here]
  cases found : (vs.drop start).findIdx? (fun e => due e w) with
  | none =>
    have never := List.findIdx?_eq_none_iff.mp found e (List.mem_of_getElem? inside)
    rw [isDue] at never
    contradiction
  | some i =>
    refine ⟨start + i, by rw [firstDue, found]; rfl, ?_⟩
    by_contra later
    obtain ⟨_, _, first⟩ := List.findIdx?_eq_some_iff_getElem.mp found
    obtain ⟨bound, value⟩ := List.getElem?_eq_some_iff.mp inside
    have notYet := first (j - start) (by omega)
    rw [value] at notYet
    exact notYet isDue

theorem firstDue_eq_some_iff {w : α} {start j : ℕ} :
    firstDue due vs w start = some j ↔
      start ≤ j ∧ (∃ e, vs[j]? = some e ∧ due e w) ∧
        ∀ i, start ≤ i → i < j → ∀ e, vs[i]? = some e → due e w = false := by
  constructor
  · intro first
    obtain ⟨le, isDue⟩ := firstDue_spec first
    refine ⟨le, isDue, fun i from_start before e here => ?_⟩
    by_contra early
    obtain ⟨i', first', le'⟩ := firstDue_le from_start here (eq_true_of_ne_false early)
    rw [first] at first'
    have same := Option.some.inj first'
    omega
  · rintro ⟨le, ⟨e, here, isDue⟩, before⟩
    obtain ⟨i, first, soon⟩ := firstDue_le le here isDue
    obtain ⟨from_start, e', here', isDue'⟩ := firstDue_spec first
    have same : i = j := by
      by_contra other
      have notDue := before i from_start (by omega) e' here'
      rw [notDue] at isDue'
      contradiction
    rw [first, same]

theorem firstDue_skip {w : α} {start : ℕ}
    (before : ∀ i < start, ∀ e, vs[i]? = some e → due e w = false) :
    firstDue due vs w start = firstDue due vs w 0 := by
  ext j
  rw [firstDue_eq_some_iff, firstDue_eq_some_iff]
  constructor
  · rintro ⟨-, isDue, first⟩
    refine ⟨Nat.zero_le j, isDue, fun i _ early e here => ?_⟩
    by_cases skipped : i < start
    · exact before i skipped e here
    · exact first i (by omega) early e here
  · rintro ⟨-, ⟨e, here, isDue⟩, first⟩
    refine ⟨?_, ⟨e, here, isDue⟩, fun i _ early => first i (Nat.zero_le i) early⟩
    by_contra skipped
    have notDue := before j (by omega) e here
    rw [notDue] at isDue
    contradiction

theorem searchFrom_succ (k : ℕ) :
    searchFrom due vs (k + 1) = (releasedAt due vs k).map (max · (k + 1)) := by
  simp only [searchFrom, releasedAt, Option.map_bind, Function.comp_def]

theorem releasedAt_start {k i : ℕ} (released : releasedAt due vs k = some i) :
    ∃ start ≤ i, searchFrom due vs k = some start := by
  simp only [releasedAt, Option.bind_eq_some_iff] at released
  obtain ⟨start, search, w, -, first⟩ := released
  exact ⟨start, (firstDue_spec first).1, search⟩

theorem releasedAt_lt {k i : ℕ} (released : releasedAt due vs k = some i) : i < vs.length := by
  simp only [releasedAt, Option.bind_eq_some_iff] at released
  obtain ⟨start, -, w, -, first⟩ := released
  obtain ⟨-, e, here, -⟩ := firstDue_spec first
  exact (List.getElem?_eq_some_iff.mp here).1

theorem release_some {k : ℕ} {w e : α} (pair : release due vs k = some (w, e)) :
    vs[k]? = some w ∧ ∃ j, releasedAt due vs k = some j ∧ vs[j]? = some e := by
  simp only [release, Option.bind_eq_some_iff, Option.map_eq_some_iff, Prod.mk.injEq] at pair
  obtain ⟨w', waiting, j, released, e', here, rfl, rfl⟩ := pair
  exact ⟨waiting, j, released, here⟩

/-- Nothing is due at an entry that came before it, and whatever finds an entry due finds those
before it due. -/
structure Ordered (due : α → α → Bool) (vs : List α) : Prop where
  later : ∀ {i k : ℕ} {e w : α}, i ≤ k → vs[i]? = some e → vs[k]? = some w → due e w = false
  mono : ∀ {i k : ℕ} {e w w' : α}, i ≤ k → vs[i]? = some w → vs[k]? = some w' →
    due e w' → due e w

theorem Ordered.firstDue_eq_none (ordered : Ordered due vs) {i k : ℕ} {w w' : α} (le : i ≤ k)
    (front : vs[i]? = some w) (behind : vs[k]? = some w') {start start' : ℕ}
    (later : start ≤ start') (never : firstDue due vs w start = none) :
    firstDue due vs w' start' = none := by
  cases found : firstDue due vs w' start' with
  | none => rfl
  | some j =>
    obtain ⟨from_start, e, at_j, isDue⟩ := firstDue_spec found
    obtain ⟨i, first, -⟩ := firstDue_le (later.trans from_start) at_j
      (ordered.mono le front behind isDue)
    rw [never] at first
    contradiction

theorem Ordered.releasedAt_eq (ordered : Ordered due vs) {k : ℕ} {w : α}
    (here : vs[k]? = some w) : releasedAt due vs k = firstDue due vs w (k + 1) := by
  have own : firstDue due vs w (k + 1) = firstDue due vs w 0 :=
    firstDue_skip fun i before e at_i => ordered.later (by omega) at_i here
  induction k generalizing w with
  | zero => rw [own, releasedAt, searchFrom, Option.bind_some, here, Option.bind_some]
  | succ k ih =>
    have inside : k + 1 < vs.length := (List.getElem?_eq_some_iff.mp here).1
    have front : vs[k]? = some vs[k] := List.getElem?_eq_getElem (by omega)
    have released := ih front
      (firstDue_skip fun i before e at_i => ordered.later (by omega) at_i front)
    rw [releasedAt, searchFrom_succ, released, here]
    cases first : firstDue due vs vs[k] (k + 1) with
    | none =>
      exact (ordered.firstDue_eq_none (Nat.le_succ k) front here (Nat.le_succ (k + 1)) first).symm
    | some j =>
      have notDue {e : α} (waits : due e vs[k] = false) : due e w = false := by
        by_contra isDue
        have earlier := ordered.mono (Nat.le_succ k) front here (eq_true_of_ne_false isDue)
        rw [waits] at earlier
        contradiction
      obtain ⟨-, -, minimal⟩ := firstDue_eq_some_iff.mp first
      rw [own]
      refine firstDue_skip fun i (before : i < max j (k + 1)) e at_i => ?_
      by_cases early : i ≤ k + 1
      · exact ordered.later early at_i here
      · exact notDue (minimal i (by omega) (by omega) e at_i)

/-- Before entry `j` comes, `m` entries are released and the next is not. -/
structure Front (due : α → α → Bool) (vs : List α) (j m : ℕ) : Prop where
  le : m ≤ j
  search : ∃ start ≤ j, searchFrom due vs m = some start
  waits : ∀ i, releasedAt due vs m = some i → j ≤ i

theorem Front.start : Front due vs 0 0 where
  le := le_rfl
  search := ⟨0, le_rfl, rfl⟩
  waits _ _ := Nat.zero_le _

theorem Front.waits_behind {j m : ℕ} (front : Front due vs j m) {k i : ℕ} (behind : m ≤ k)
    (released : releasedAt due vs k = some i) : j ≤ i := by
  induction k, behind using Nat.le_induction generalizing i with
  | base => exact front.waits i released
  | succ k _ ih =>
    obtain ⟨start, le, search⟩ := releasedAt_start released
    rw [searchFrom_succ, Option.map_eq_some_iff] at search
    obtain ⟨before, released', rfl⟩ := search
    have earlier := ih released'
    omega

theorem Front.released {j m : ℕ} (front : Front due vs j m) {e w : α} (here : vs[j]? = some e)
    (waiting : vs[m]? = some w) (isDue : due e w) : releasedAt due vs m = some j := by
  obtain ⟨start, le, search⟩ := front.search
  obtain ⟨i, first, soon⟩ := firstDue_le le here isDue
  have released : releasedAt due vs m = some i := by
    simp [releasedAt, search, waiting, first]
  have late := front.waits i released
  rw [released, le_antisymm soon late]

theorem Front.next {j m : ℕ} (released : releasedAt due vs m = some j) {j' : ℕ}
    (le : m + 1 ≤ j') (stay : max j (m + 1) = j') : Front due vs j' (m + 1) := by
  have search : searchFrom due vs (m + 1) = some j' := by
    rw [searchFrom_succ, released, Option.map_some, stay]
  refine ⟨le, ⟨j', le_rfl, search⟩, fun i released' => ?_⟩
  obtain ⟨start, le', search'⟩ := releasedAt_start released'
  rw [search] at search'
  obtain rfl := Option.some.inj search'
  exact le'

theorem Front.stays {j m : ℕ} (front : Front due vs j m) {e w : α} (here : vs[j]? = some e)
    (waiting : vs[m]? = some w) (notDue : due e w = false) : Front due vs (j + 1) m := by
  obtain ⟨start, le, search⟩ := front.search
  refine ⟨front.le.trans (Nat.le_succ j), ⟨start, le.trans (Nat.le_succ j), search⟩,
    fun i released => ?_⟩
  have late := front.waits i released
  have other : i ≠ j := by
    rintro rfl
    simp only [releasedAt, search, waiting, Option.bind_some] at released
    obtain ⟨-, e', here', isDue⟩ := firstDue_spec released
    rw [here] at here'
    rw [← Option.some.inj here', notDue] at isDue
    contradiction
  omega

theorem front_cons {j m : ℕ} (le : m ≤ j) {e : α} (here : vs[j]? = some e) :
    ∃ w, vs[m]? = some w ∧ (vs.take (j + 1)).drop m = w :: (vs.take (j + 1)).drop (m + 1) := by
  have inside : j < vs.length := (List.getElem?_eq_some_iff.mp here).1
  have bound : m < (vs.take (j + 1)).length := by
    rw [List.length_take]
    omega
  refine ⟨vs[m], List.getElem?_eq_getElem (by omega), ?_⟩
  rw [List.drop_eq_getElem_cons bound, List.getElem_take]

theorem Front.step {j m : ℕ} (front : Front due vs j m) {e : α} (here : vs[j]? = some e) :
    ∃ p, Front due vs (j + 1) (m + p) ∧
      ((vs.take (j + 1)).drop m).dropWhile (due e) = (vs.take (j + 1)).drop (m + p) ∧
      (((vs.take (j + 1)).drop m).takeWhile (due e)).map (fun w => (w, e)) =
        (List.range' m p).filterMap (release due vs) := by
  obtain ⟨w, at_m, split⟩ := front_cons front.le here
  cases isDue : due e w with
  | false =>
    refine ⟨0, front.stays here at_m isDue, ?_, ?_⟩
    · rw [split, List.dropWhile_cons_of_neg (by simp [isDue])]
      exact split.symm
    · rw [split, List.takeWhile_cons_of_neg (by simp [isDue])]
      rfl
  | true =>
    have released := front.released here at_m isDue
    have pair : release due vs m = some (w, e) := by
      simp [release, at_m, released, here]
    rw [split, List.dropWhile_cons_of_pos isDue, List.takeWhile_cons_of_pos isDue, List.map_cons]
    rcases front.le.lt_or_eq with more | rfl
    · -- The next one moves to the front, and is asked the same.
      have moved : Front due vs j (m + 1) := Front.next released more (max_eq_left more)
      obtain ⟨p, front', left, out⟩ := moved.step here
      refine ⟨1 + p, ?_, ?_, ?_⟩
      · rwa [← Nat.add_assoc]
      · rw [left, Nat.add_assoc]
      · rw [out, Nat.add_comm 1 p, List.range'_succ, List.filterMap_cons_some pair]
    · have empty : (vs.take (m + 1)).drop (m + 1) = [] := by simp
      refine ⟨1, Front.next released le_rfl (max_eq_right (Nat.le_succ m)), ?_, ?_⟩
      · rw [empty]
        rfl
      · rw [empty, List.range'_one, List.filterMap_cons_some pair]
        rfl
termination_by j - m

/-- The queue releases every entry that is ever released, in order. -/
theorem queue_outputs (xs : List α) {done : List α} {m : ℕ} (whole : vs = done ++ xs)
    (front : Front due vs done.length m) :
    ((queue due).outputs (done.drop m) xs).flatten =
      (List.range' m (vs.length - m)).filterMap (release due vs) := by
  induction xs generalizing done m with
  | nil =>
    have length : vs.length = done.length := by rw [whole, List.append_nil]
    refine (List.filterMap_eq_nil_iff.mpr fun k mem => ?_).symm
    have behind : m ≤ k := (List.mem_range'_1.mp mem).1
    cases released : releasedAt due vs k with
    | none => simp [release, released]
    | some i =>
      have late := front.waits_behind behind released
      have early := releasedAt_lt released
      omega
  | cons e xs ih =>
    have here : vs[done.length]? = some e := by
      rw [whole, List.getElem?_append_right le_rfl, Nat.sub_self, List.getElem?_cons_zero]
    have arrived : vs.take (done.length + 1) = done ++ [e] := by
      rw [whole, List.take_length_add_append]
      rfl
    have joined : done.drop m ++ [e] = (done ++ [e]).drop m :=
      (List.drop_append_of_le_length front.le).symm
    obtain ⟨p, front', left, out⟩ := front.step here
    rw [arrived, ← joined] at left out
    have later : ((queue due).outputs ((done ++ [e]).drop (m + p)) xs).flatten =
        (List.range' (m + p) (vs.length - (m + p))).filterMap (release due vs) := by
      apply ih
      · rw [whole, List.append_assoc, List.singleton_append]
      · rwa [List.length_append, List.length_singleton]
    have range : List.range' m (vs.length - m) =
        List.range' m p ++ List.range' (m + p) (vs.length - (m + p)) := by
      have short : m + p ≤ done.length + 1 := front'.le
      have length : done.length + 1 ≤ vs.length := (List.getElem?_eq_some_iff.mp here).1
      rw [List.range'_append_1]
      congr 1
      omega
    rw [range, List.filterMap_append, ← out, ← later, ← left]
    rfl

theorem queue_released (vs : List α) :
    ((queue due).outputs [] vs).flatten = (List.range vs.length).filterMap (release due vs) := by
  have whole : vs = [] ++ vs := rfl
  rw [List.range_eq_range']
  exact queue_outputs vs whole Front.start

end HftLatencyLab.DueQueue
