import Mathlib.Data.List.Basic

/-! Patterns as a backtracking matcher runs them: literals, runs of a class of characters taken
as long as they can be, and runs of at least one that are captured. A match is the list of
captures, and a search takes the first place with a match. -/

namespace HftLatencyLab.TextPattern

inductive Item where
  /-- The character itself. -/
  | lit (c : Char)
  /-- `p*` -/
  | star (p : Char → Bool)
  /-- `(p+)` -/
  | plus (p : Char → Bool)
  /-- `$` -/
  | eol

def lits (w : List Char) : List Item := w.map .lit

variable {γ : Type}

def run (p : Char → Bool) (k : List Char → List Char → Option γ) :
    List Char → List Char → Option γ
  | taken, [] => k taken []
  | taken, c :: t =>
    if p c then (run p k (taken ++ [c]) t).or (k taken (c :: t)) else k taken (c :: t)

def matchHere : List Item → List Char → Option (List (List Char))
  | [], _ => some []
  | .lit _ :: _, [] => none
  | .lit c :: items, d :: t => if d = c then matchHere items t else none
  | .star p :: items, t => run p (fun _ rest => matchHere items rest) [] t
  | .plus _ :: _, [] => none
  | .plus p :: items, c :: t =>
    if p c then run p (fun taken rest => (matchHere items rest).map (taken :: ·)) [c] t else none
  | .eol :: items, t => if t = [] then matchHere items t else none

def search (items : List Item) : List Char → Option (List (List Char))
  | [] => matchHere items []
  | c :: t => (matchHere items (c :: t)).or (search items t)

def after? (w : List Char) : List Char → Option (List Char)
  | [] => if w = [] then some [] else none
  | c :: t => if w <+: c :: t then some ((c :: t).drop w.length) else after? w t

def Stops (p : Char → Bool) (t : List Char) : Prop := ∀ c ∈ t.head?, p c = false

theorem stops_nil (p : Char → Bool) : Stops p [] := by simp [Stops]

theorem stops_cons {p : Char → Bool} {c : Char} (other : p c = false) (t : List Char) :
    Stops p (c :: t) := by
  simp [Stops, other]

theorem matchHere_lits (w : List Char) (items : List Item) (t : List Char) :
    matchHere (lits w ++ items) (w ++ t) = matchHere items t := by
  induction w with
  | nil => rfl
  | cons c w ih =>
    rw [lits, List.map_cons, List.cons_append, List.cons_append, matchHere, if_pos rfl]
    exact ih

theorem run_longer {p : Char → Bool} {k : List Char → List Char → Option γ} {ds rest : List Char}
    (all : ∀ c ∈ ds, p c = true) {taken : List Char} {g : γ}
    (longer : run p k (taken ++ ds) rest = some g) : run p k taken (ds ++ rest) = some g := by
  induction ds generalizing taken with
  | nil => rwa [List.append_nil] at longer
  | cons d ds ih =>
    have more := ih (fun c mem => all c (List.mem_cons_of_mem d mem))
      (by rwa [List.append_assoc] : run p k ((taken ++ [d]) ++ ds) rest = some g)
    rw [List.cons_append, run, if_pos (all d List.mem_cons_self), more]
    rfl

theorem run_longest {p : Char → Bool} {k : List Char → List Char → Option γ} {ds rest : List Char}
    (all : ∀ c ∈ ds, p c = true) (stops : Stops p rest) {taken : List Char} {g : γ}
    (matched : k (taken ++ ds) rest = some g) : run p k taken (ds ++ rest) = some g := by
  refine run_longer all ?_
  cases rest with
  | nil => exact matched
  | cons c t =>
    have other : p c = false := stops c rfl
    rw [run, other]
    exact matched

theorem matchHere_star {p : Char → Bool} {items : List Item} {ds rest : List Char}
    {gs : List (List Char)} (all : ∀ c ∈ ds, p c = true) (stops : Stops p rest)
    (matched : matchHere items rest = some gs) :
    matchHere (.star p :: items) (ds ++ rest) = some gs := by
  rw [matchHere]
  exact run_longest all stops matched

theorem matchHere_plus {p : Char → Bool} {items : List Item} {ds rest : List Char}
    {gs : List (List Char)} (some_of : ds ≠ []) (all : ∀ c ∈ ds, p c = true)
    (stops : Stops p rest) (matched : matchHere items rest = some gs) :
    matchHere (.plus p :: items) (ds ++ rest) = some (ds :: gs) := by
  cases ds with
  | nil => exact absurd rfl some_of
  | cons d ds =>
    rw [List.cons_append, matchHere, if_pos (all d List.mem_cons_self)]
    refine run_longest (fun c mem => all c (List.mem_cons_of_mem d mem)) stops ?_
    rw [matched]
    rfl

theorem run_some {p : Char → Bool} {k : List Char → List Char → Option γ} {taken t : List Char}
    {g : γ} (matched : run p k taken t = some g) :
    ∃ ds rest, t = ds ++ rest ∧ (∀ c ∈ ds, p c = true) ∧ k (taken ++ ds) rest = some g := by
  induction t generalizing taken with
  | nil => exact ⟨[], [], rfl, by simp, by rwa [List.append_nil]⟩
  | cons c t ih =>
    have stop (here : k taken (c :: t) = some g) :
        ∃ ds rest, c :: t = ds ++ rest ∧ (∀ c ∈ ds, p c = true) ∧ k (taken ++ ds) rest = some g :=
      ⟨[], c :: t, rfl, by simp, by rwa [List.append_nil]⟩
    rw [run] at matched
    split_ifs at matched with member
    · rcases Option.or_eq_some_iff.mp matched with longer | ⟨-, here⟩
      · obtain ⟨ds, rest, rfl, all, agreed⟩ := ih longer
        refine ⟨c :: ds, rest, rfl, List.forall_mem_cons.mpr ⟨member, all⟩, ?_⟩
        rwa [List.append_assoc, List.singleton_append] at agreed
      · exact stop here
    · exact stop matched

theorem search_of_match {items : List Item} {t : List Char} {gs : List (List Char)}
    (matched : matchHere items t = some gs) : search items t = some gs := by
  cases t with
  | nil => exact matched
  | cons c t => rw [search, matched, Option.some_or]

theorem isPrefix_of_match {w : List Char} {items : List Item} {t : List Char}
    {gs : List (List Char)} (matched : matchHere (lits w ++ items) t = some gs) : w <+: t := by
  induction w generalizing t with
  | nil => exact List.nil_prefix
  | cons c w ih =>
    cases t with
    | nil => cases matched
    | cons d t =>
      rw [lits, List.map_cons, List.cons_append, matchHere] at matched
      split_ifs at matched with same
      rw [same]
      exact List.prefix_cons_inj c |>.mpr (ih matched)

theorem search_of_absent {w : List Char} (items : List Item) {t : List Char}
    (absent : after? w t = none) : search (lits w ++ items) t = none := by
  have nowhere {t : List Char} (apart : ¬w <+: t) : matchHere (lits w ++ items) t = none :=
    Option.eq_none_iff_forall_ne_some.mpr fun gs matched => apart (isPrefix_of_match matched)
  induction t with
  | nil =>
    rw [after?] at absent
    refine nowhere fun ahead => ?_
    rw [if_pos (List.prefix_nil.mp ahead)] at absent
    cases absent
  | cons c t ih =>
    rw [after?] at absent
    split_ifs at absent with ahead
    rw [search, nowhere ahead, ih absent]
    rfl

/-- Wherever `w` begins in the segment, it is over with a different character. -/
def clear (w : List Char) : List Char → Bool
  | [] => true
  | c :: seg => !w.isPrefixOf (c :: seg) && !(c :: seg).isPrefixOf w && clear w seg

theorem clear_of_ne {a : Char} (w : List Char) {seg : List Char} (free : ∀ c ∈ seg, c ≠ a) :
    clear (a :: w) seg = true := by
  induction seg with
  | nil => rfl
  | cons c seg ih =>
    have apart : c ≠ a := free c List.mem_cons_self
    have later := ih fun d mem => free d (List.mem_cons_of_mem c mem)
    simp [clear, List.isPrefixOf, apart, apart.symm, later]

theorem clear_cons {w : List Char} {c : Char} {seg : List Char}
    (cleared : clear w (c :: seg) = true) (rest : List Char) :
    (¬w <+: c :: (seg ++ rest)) ∧ clear w seg = true := by
  simp only [clear, Bool.and_eq_true, Bool.not_eq_true', ← Bool.not_eq_true,
    List.isPrefixOf_iff_prefix] at cleared
  obtain ⟨⟨longer, shorter⟩, later⟩ := cleared
  refine ⟨fun ahead => ?_, later⟩
  rcases List.prefix_or_prefix_of_prefix ahead (List.prefix_append (c :: seg) rest) with h | h
  · exact longer h
  · exact shorter h

theorem search_clear {w : List Char} (items : List Item) {seg : List Char}
    (cleared : clear w seg = true) (rest : List Char) :
    search (lits w ++ items) (seg ++ rest) = search (lits w ++ items) rest := by
  induction seg with
  | nil => rfl
  | cons c seg ih =>
    obtain ⟨apart, later⟩ := clear_cons cleared rest
    have fails : matchHere (lits w ++ items) (c :: (seg ++ rest)) = none :=
      Option.eq_none_iff_forall_ne_some.mpr fun gs matched => apart (isPrefix_of_match matched)
    rw [List.cons_append, search, fails, Option.none_or]
    exact ih later

theorem after?_clear {w seg : List Char} (cleared : clear w seg = true) (rest : List Char) :
    after? w (seg ++ rest) = after? w rest := by
  induction seg with
  | nil => rfl
  | cons c seg ih =>
    obtain ⟨apart, later⟩ := clear_cons cleared rest
    rw [List.cons_append, after?, if_neg apart]
    exact ih later

theorem after?_append (w rest : List Char) : after? w (w ++ rest) = some rest := by
  cases w with
  | nil => cases rest <;> simp [after?]
  | cons c w =>
    have ahead : c :: w <+: c :: (w ++ rest) := List.prefix_append (c :: w) rest
    rw [List.cons_append, after?, if_pos ahead, ← List.cons_append, List.drop_left]

theorem isPrefix_separated_iff {w : List Char} {sep : Char} (apart : sep ∉ w)
    (l rest : List Char) : w <+: l ++ sep :: rest ↔ w <+: l := by
  refine ⟨fun ahead => ?_, fun ahead => ahead.trans (List.prefix_append l _)⟩
  induction w generalizing l with
  | nil => exact List.nil_prefix
  | cons c w ih =>
    cases l with
    | nil =>
      have same : c = sep := (List.cons_prefix_cons.mp ahead).1
      exact absurd (same ▸ List.mem_cons_self) apart
    | cons d l =>
      obtain ⟨same, later⟩ := List.cons_prefix_cons.mp ahead
      have further := ih (fun mem => apart (List.mem_cons_of_mem c mem)) l later
      exact List.cons_prefix_cons.mpr ⟨same, further⟩

theorem after?_separated_iff {w : List Char} {sep : Char} (apart : sep ∉ w)
    (l rest : List Char) :
    after? w (l ++ sep :: rest) = none ↔ after? w l = none ∧ after? w rest = none := by
  induction l with
  | nil =>
    cases w with
    | nil => simp [after?]
    | cons c w =>
      have ahead : ¬c :: w <+: sep :: rest := fun ahead =>
        absurd ((List.cons_prefix_cons.mp ahead).1 ▸ List.mem_cons_self) apart
      have later : after? (c :: w) (sep :: rest) = after? (c :: w) rest := if_neg ahead
      rw [List.nil_append, later]
      simp [after?]
  | cons d l ih =>
    rw [List.cons_append, after?, after?, ← List.cons_append]
    simp only [isPrefix_separated_iff apart]
    by_cases ahead : w <+: d :: l
    · simp [ahead]
    · simp [ahead, ih]

theorem after?_missing {a : Char} {w t : List Char} (letter : a ∈ w) (missing : a ∉ t) :
    after? w t = none := by
  induction t with
  | nil =>
    rw [after?, if_neg (List.ne_nil_of_mem letter)]
  | cons c t ih =>
    have apart : ¬w <+: c :: t := fun ahead => missing (ahead.subset letter)
    rw [after?, if_neg apart]
    exact ih fun mem => missing (List.mem_cons_of_mem c mem)

end HftLatencyLab.TextPattern
