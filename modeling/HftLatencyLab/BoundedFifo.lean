import Mathlib.Data.List.Basic

/-! A first-in first-out channel with an optional depth. A write into a full
channel is refused, so a sequential program that writes before it reads stops
there; `none` is the channel of a software simulation, which never fills. -/

namespace HftLatencyLab

variable {α : Type*}

structure BoundedFifo (α : Type*) (depth : Option ℕ) where
  items : List α
  fits : ∀ d ∈ depth, items.length ≤ d

namespace BoundedFifo

variable {depth : Option ℕ}

@[ext] theorem ext {p q : BoundedFifo α depth} (h : p.items = q.items) : p = q := by
  cases p
  cases q
  cases h
  rfl

def empty : BoundedFifo α depth := ⟨[], by simp⟩

/-- Whether a channel that holds `n` entries takes one more. -/
def hasRoom (depth : Option ℕ) (n : ℕ) : Bool := depth.all (fun d => decide (n < d))

def write? (q : BoundedFifo α depth) (a : α) : Option (BoundedFifo α depth) :=
  if h : hasRoom depth q.items.length then
    some ⟨q.items ++ [a], by
      intro d hd
      subst hd
      have room : q.items.length < d := by simpa [hasRoom] using h
      rw [List.length_append]
      exact room⟩
  else none

def read? (q : BoundedFifo α depth) : Option (α × BoundedFifo α depth) :=
  match h : q.items with
  | [] => none
  | a :: rest => some (a, ⟨rest, by
      intro d hd
      have full := q.fits d hd
      rw [h, List.length_cons] at full
      omega⟩)

@[simp] theorem items_empty : (empty : BoundedFifo α depth).items = [] := rfl

theorem hasRoom_some (d n : ℕ) : hasRoom (some d) n = true ↔ n < d := by
  simp [hasRoom]

theorem write?_eq_none_iff (q : BoundedFifo α depth) (a : α) :
    q.write? a = none ↔ hasRoom depth q.items.length = false := by
  unfold write?
  split <;> simp_all

theorem write?_of_room {q : BoundedFifo α depth} (a : α)
    (h : hasRoom depth q.items.length = true) :
    ∃ q', q.write? a = some q' ∧ q'.items = q.items ++ [a] :=
  ⟨_, dif_pos h, rfl⟩

theorem read?_of_cons {q : BoundedFifo α depth} {a : α} {rest : List α}
    (h : q.items = a :: rest) : ∃ q', q.read? = some (a, q') ∧ q'.items = rest := by
  obtain ⟨items, fits⟩ := q
  cases h
  exact ⟨_, rfl, rfl⟩

theorem items_of_write? {q q' : BoundedFifo α depth} {a : α} (h : q.write? a = some q') :
    q'.items = q.items ++ [a] := by
  unfold write? at h
  split_ifs at h
  rw [← Option.some.inj h]

theorem items_of_read? {q q' : BoundedFifo α depth} {a : α} (h : q.read? = some (a, q')) :
    q.items = a :: q'.items := by
  unfold read? at h
  split at h
  · cases h
  · next first rest items =>
    obtain ⟨rfl, rfl⟩ := Prod.mk.inj (Option.some.inj h)
    exact items

end BoundedFifo

end HftLatencyLab
