import HftLatencyLab.TextPattern
import Mathlib.Algebra.Order.BigOperators.Group.List
import Mathlib.Algebra.Order.Field.Rat
import Mathlib.Algebra.Order.Group.Abs
import Mathlib.Algebra.Order.Ring.Cast
import Mathlib.Data.List.DropRight
import Mathlib.Data.List.ReduceOption
import Mathlib.Tactic.NormNum

/-! The logs of the soc_latency_diag scripts and what analyze_soc.py reads from them. Each
series of counts is printed as a block of lines, and the reader searches the joined lines of a
block with five patterns. A block whose minimum is below zero is dropped, since the patterns
have no sign; every other block is read back as it was printed. Texts are ASCII, and a log is
the list of its lines. -/

namespace HftLatencyLab.SocLogs
open TextPattern

abbrev Text := List Char

structure Series where
  first : ℤ
  rest : List ℤ

def Series.all (xs : Series) : List ℤ := xs.first :: xs.rest

def Series.min (xs : Series) : ℤ := xs.rest.foldl Min.min xs.first

def Series.max (xs : Series) : ℤ := xs.rest.foldl Max.max xs.first

def Series.mean (xs : Series) : ℚ := xs.all.sum / xs.all.length

def Series.median (xs : Series) : ℚ :=
  let sorted := xs.all.mergeSort
  let i := sorted.length / 2
  if sorted.length % 2 = 1 then sorted.getD i 0
  else (sorted.getD (i - 1) 0 + sorted.getD i 0) / 2

/-- How Python rounds: the tenths that `:.1f` prints of a magnitude, and `statistics.stdev`. -/
structure Numbers where
  tenths : ℚ → ℕ
  stdev : List ℤ → ℚ
  stdev_nonneg : ∀ xs, 0 ≤ stdev xs

def natText (n : ℕ) : Text := Nat.toDigits 10 n

def intText (z : ℤ) : Text := (if z < 0 then ['-'] else []) ++ natText z.natAbs

variable (N : Numbers)

/-- `:.1f` -/
def Numbers.fixed1 (x : ℚ) : Text :=
  (if x < 0 then ['-'] else []) ++
    (natText (N.tenths |x| / 10) ++ '.' :: natText (N.tenths |x| % 10))

def Numbers.spread (xs : Series) : ℚ := if xs.all.length > 1 then N.stdev xs.all else 0

def toNs (c : ℚ) : ℚ := c * 8

def Numbers.bodyLines (xs : Series) : List Text :=
  ["  Samples        : ".toList ++ natText xs.all.length,
    "  Cycles (avg)   : ".toList ++ N.fixed1 xs.mean,
    "         median  : ".toList ++ N.fixed1 xs.median,
    "         min/max : ".toList ++ (intText xs.min ++ (" / ".toList ++ intText xs.max)),
    "         stdev   : ".toList ++ N.fixed1 (N.spread xs),
    "  Latency ns (avg): ".toList ++ (N.fixed1 (toNs xs.mean) ++ " ns".toList),
    "             min : ".toList ++ (N.fixed1 (toNs xs.min) ++ " ns".toList),
    "             max : ".toList ++ (N.fixed1 (toNs xs.max) ++ " ns".toList)]

/-- `print(f"\n[{label}]")` and the lines below it. -/
def Numbers.block (label : Text) (xs : Series) : List Text :=
  [] :: ('[' :: (label ++ [']'])) :: N.bodyLines xs

inductive Config where
  | delayed (delayCycles numWords : ℕ)
  | undelayed (numWords : ℕ)

structure Label where
  trace : Bool
  config : Config

def Config.text : Config → Text
  | .delayed d n => "delay_cycles=".toList ++ (natText d ++ (" num_words=".toList ++ natText n))
  | .undelayed n => "num_words=".toList ++ natText n

theorem Config.text_delayed (d n : ℕ) : (delayed d n).text =
    "delay_cycles=".toList ++ (natText d ++ (" num_words=".toList ++ natText n)) := rfl

theorem Config.text_undelayed (n : ℕ) :
    (undelayed n).text = "num_words=".toList ++ natText n := rfl

def Label.text (l : Label) : Text :=
  (if l.trace then "TRACE summary ".toList else []) ++ l.config.text

/-- `f"{label} :: {name}"` -/
def Label.of (l : Label) (name : Text) : Text := l.text ++ (" :: ".toList ++ name)

/-- What a script prints at a time: the counts of soc_latency_diag.py or
soc_latency_diag_core.py, pairs of counts of soc_latency_diag_nodma.py or
soc_latency_diag_mlp_only.py, or some other line. -/
inductive Entry where
  | cycles (label : Label) (counts : List (BitVec 32))
  | nodma (label : Label) (pairs : List (BitVec 32 × BitVec 32))
  | mlpOnly (label : Label) (pairs : List (BitVec 32 × BitVec 32))
  | other (line : Text)

structure Block where
  label : Text
  metric : Text
  series : Series

/-- `[f(p) for p in pairs]` -/
def series {α : Type} (f : α → ℤ) : List α → Option Series
  | [] => none
  | p :: ps => some ⟨f p, ps.map f⟩

def count (c : BitVec 32) : ℤ := c.toNat

def Label.named (l : Label) (name : String) (xs : Option Series) : Option Block :=
  xs.map fun xs => ⟨l.of name.toList, name.toList, xs⟩

def Entry.blocks : Entry → List Block
  | .cycles l counts =>
    let metric := if l.trace then "TRACE" else "MLP_timer"
    ((series count counts).map fun xs => ⟨l.text, metric.toList, xs⟩).toList
  | .nodma l pairs =>
    [l.named "Fabric" (series (fun p => count p.1) pairs),
      l.named "MLP_internal" (series (fun p => count p.2) pairs),
      l.named "Overhead" (series (fun p => Max.max (count p.1 - count p.2) 0) pairs)].reduceOption
  | .mlpOnly l pairs =>
    [l.named "TGen" (series (fun p => count p.1) pairs),
      l.named "MLP" (series (fun p => count p.2) pairs),
      l.named "MLP_only" (series (fun p => count p.2 - count p.1) pairs)].reduceOption
  | .other _ => []

def noData (l : Label) : Text := l.text ++ ": NO DATA".toList

def Numbers.lines (e : Entry) : List Text :=
  match e with
  | .cycles l [] => [noData l]
  | .nodma l [] => [noData l]
  | .mlpOnly l [] => [noData l]
  | .other line => [line]
  | e => e.blocks.flatMap fun b => N.block b.label b.series

/-- `\s` -/
def isSpace (c : Char) : Bool := 9 ≤ c.toNat && c.toNat ≤ 13 || 28 ≤ c.toNat && c.toNat ≤ 32

/-- `.` -/
def isAny (c : Char) : Bool := c != '\n'

/-- `[0-9.]` -/
def isNum (c : Char) : Bool := c.isDigit || c == '.'

/-- `^\[(.+)]\s*$` -/
def headerRe : List Item := [.lit '[', .plus isAny, .lit ']', .star isSpace, .eol]

/-- `w\s*:\s*(p+)`, and what comes behind it -/
def fieldRe (w : String) (p : Char → Bool) (more : List Item) : List Item :=
  lits w.toList ++ .star isSpace :: .lit ':' :: .star isSpace :: .plus p :: more

def samplesRe : List Item := fieldRe "Samples" Char.isDigit []

def avgRe : List Item := fieldRe "Cycles (avg)" isNum []

def medianRe : List Item := fieldRe "median" isNum []

/-- `\s*/\s*([0-9.]+)` -/
def slashRe : List Item := [.star isSpace, .lit '/', .star isSpace, .plus isNum]

def minmaxRe : List Item := fieldRe "min/max" isNum slashRe

def stdevRe : List Item := fieldRe "stdev" isNum []

def strip (t : Text) : Text := (t.dropWhile isSpace).rdropWhile isSpace

/-- `'\n'.join` -/
def joinLines : List Text → Text
  | [] => []
  | l :: ls => l ++ ls.flatMap ('\n' :: ·)

/-- The number `float` reads, if it does not raise. -/
def decimal (t : Text) : Option ℚ :=
  let whole := t.takeWhile Char.isDigit
  match t.dropWhile Char.isDigit with
  | [] => if whole = [] then none else some ((Nat.ofDigitChars 10 whole 0 : ℕ) : ℚ)
  | '.' :: fraction =>
    if fraction.all Char.isDigit && !(whole ++ fraction).isEmpty then
      some ((Nat.ofDigitChars 10 (whole ++ fraction) 0 : ℕ) / 10 ^ fraction.length)
    else none
  | _ => none

def deriveMetricName (label : Text) : Text :=
  match after? "::".toList label with
  | some metric => strip metric
  | none =>
    if "TRACE summary".toList <+: label then "TRACE".toList
    else if (after? "num_words".toList label).isSome ||
        (after? "delay_cycles".toList label).isSome then "MLP_timer".toList
    else "summary".toList

/-- The numbers of Python: `float` of a decimal, and `int` of a float. -/
structure Floats (F : Type) where
  float : ℚ → F
  int : F → ℤ
  int_float : ∀ n : ℕ, n ≤ 2 ^ 53 → int (float n) = n

structure SummaryRecord (F : Type) where
  overlay : Text
  label : Text
  metric : Text
  samples : ℕ
  cyclesAvg : F
  cyclesMedian : F
  cyclesMin : ℤ
  cyclesMax : ℤ
  cyclesStdev : F
deriving DecidableEq

variable {F : Type} (O : Floats F)

def readBlock (overlay label text : Text) : Option (SummaryRecord F) :=
  match search samplesRe text, search avgRe text, search medianRe text, search minmaxRe text,
    search stdevRe text with
  | some [samples], some [avg], some [median], some [mn, mx], some [stdev] => do
    let avg ← decimal avg
    let median ← decimal median
    let mn ← decimal mn
    let mx ← decimal mx
    let stdev ← decimal stdev
    return {
      overlay := overlay
      label := label
      metric := deriveMetricName label
      samples := Nat.ofDigitChars 10 samples 0
      cyclesAvg := O.float avg
      cyclesMedian := O.float median
      cyclesMin := O.int (O.float mn)
      cyclesMax := O.int (O.float mx)
      cyclesStdev := O.float stdev }
  | _, _, _, _, _ => none

structure Parser (F : Type) where
  records : List (SummaryRecord F)
  currentLabel : Option Text
  buf : List Text

def Parser.start : Parser F := ⟨[], none, []⟩

def flushBlock (overlay : Text) (s : Parser F) : Parser F :=
  match s.currentLabel, s.buf with
  | none, _ => { s with currentLabel := none, buf := [] }
  | some [], _ => { s with currentLabel := none, buf := [] }
  | some _, [] => { s with currentLabel := none, buf := [] }
  | some label, buf =>
    { records := s.records ++ (readBlock O overlay label (joinLines buf)).toList
      currentLabel := none
      buf := [] }

def parseLine (overlay : Text) (s : Parser F) (line : Text) : Parser F :=
  match matchHere headerRe line with
  | some groups =>
    { flushBlock O overlay s with currentLabel := some (strip groups.flatten), buf := [] }
  | none =>
    match s.currentLabel with
    | none => s
    | some _ =>
      if line.all isSpace then flushBlock O overlay s else { s with buf := s.buf ++ [line] }

def parseLogSummaries (overlay : Text) (lines : List Text) : List (SummaryRecord F) :=
  (flushBlock O overlay (lines.foldl (parseLine O overlay) .start)).records

theorem digits_natText (n : ℕ) : ∀ c ∈ natText n, c.isDigit = true :=
  fun _ mem => Nat.isDigit_of_mem_toDigits (by decide) (by decide) mem

theorem natText_ne_nil (n : ℕ) : natText n ≠ [] := Nat.toDigits_ne_nil

theorem isNum_of_isDigit {c : Char} (digit : c.isDigit = true) : isNum c = true := by
  simp [isNum, digit]

theorem fixed1_of_nonneg {x : ℚ} (nonneg : 0 ≤ x) :
    N.fixed1 x = natText (N.tenths |x| / 10) ++ '.' :: natText (N.tenths |x| % 10) := by
  rw [Numbers.fixed1, if_neg (not_lt.mpr nonneg)]
  rfl

theorem intText_of_nonneg {z : ℤ} (nonneg : 0 ≤ z) : intText z = natText z.natAbs := by
  rw [intText, if_neg (not_lt.mpr nonneg)]
  rfl

def isSigned (c : Char) : Bool := isNum c || c == '-'

theorem signed_natText (n : ℕ) : ∀ c ∈ natText n, isSigned c = true := fun c mem => by
  simp [isSigned, isNum_of_isDigit (digits_natText n c mem)]

theorem signed_sign {P : Prop} [Decidable P] :
    ∀ c ∈ (if P then ['-'] else [] : Text), isSigned c = true := by
  split <;> simp [isSigned]

theorem signed_intText (z : ℤ) : ∀ c ∈ intText z, isSigned c = true := by
  intro c mem
  rcases List.mem_append.mp mem with sign | digits
  · exact signed_sign c sign
  · exact signed_natText _ c digits

theorem signed_fixed1 (x : ℚ) : ∀ c ∈ N.fixed1 x, isSigned c = true := by
  intro c mem
  rcases List.mem_append.mp mem with sign | number
  · exact signed_sign c sign
  rcases List.mem_append.mp number with whole | fraction
  · exact signed_natText _ c whole
  rcases List.mem_cons.mp fraction with rfl | tenth
  · rfl
  · exact signed_natText _ c tenth

theorem num_fixed1 {x : ℚ} (nonneg : 0 ≤ x) : ∀ c ∈ N.fixed1 x, isNum c = true := by
  intro c mem
  rw [fixed1_of_nonneg N nonneg] at mem
  rcases List.mem_append.mp mem with whole | fraction
  · exact isNum_of_isDigit (digits_natText _ c whole)
  rcases List.mem_cons.mp fraction with rfl | tenth
  · rfl
  · exact isNum_of_isDigit (digits_natText _ c tenth)

theorem fixed1_ne_nil (x : ℚ) : N.fixed1 x ≠ [] := by
  simp [Numbers.fixed1]

theorem takeWhile_digits {ds : Text} (digits : ∀ c ∈ ds, c.isDigit = true) {rest : Text}
    (stops : Stops Char.isDigit rest) :
    (ds ++ rest).takeWhile Char.isDigit = ds ∧ (ds ++ rest).dropWhile Char.isDigit = rest := by
  rw [List.takeWhile_append_of_pos digits, List.dropWhile_append_of_pos digits]
  cases rest with
  | nil => simp
  | cons c t =>
    have other : c.isDigit = false := stops c rfl
    simp [other]

theorem decimal_natText (n : ℕ) : decimal (natText n) = some (n : ℚ) := by
  obtain ⟨taken, left⟩ := takeWhile_digits (digits_natText n) (stops_nil Char.isDigit)
  rw [List.append_nil] at taken left
  rw [decimal, taken, left]
  dsimp only
  rw [if_neg (natText_ne_nil n), natText, Nat.ofDigitChars_ten_toDigits]

theorem natText_of_lt {n : ℕ} (digit : n < 10) : natText n = [n.digitChar] :=
  Nat.toDigits_of_lt_base digit

theorem decimal_fixed1 {x : ℚ} (nonneg : 0 ≤ x) :
    decimal (N.fixed1 x) = some ((N.tenths x : ℚ) / 10) := by
  rw [fixed1_of_nonneg N nonneg, abs_of_nonneg nonneg]
  generalize N.tenths x = t
  have stops : Stops Char.isDigit ('.' :: natText (t % 10)) := stops_cons rfl _
  obtain ⟨taken, left⟩ := takeWhile_digits (digits_natText (t / 10)) stops
  have fraction : (natText (t % 10)).all Char.isDigit = true :=
    List.all_eq_true.mpr (digits_natText _)
  have digit : t % 10 < 10 := Nat.mod_lt t (by decide)
  have whole : Nat.ofDigitChars 10 (natText (t / 10) ++ natText (t % 10)) 0 = t := by
    rw [natText_of_lt digit, Nat.ofDigitChars_append, natText, Nat.ofDigitChars_ten_toDigits,
      Nat.ofDigitChars_cons_digitChar_of_lt_ten digit, Nat.ofDigitChars_nil]
    omega
  have some_of : (natText (t / 10) ++ natText (t % 10)).isEmpty = false := by
    simp [natText_ne_nil]
  rw [decimal, taken, left]
  simp only [fraction, some_of, whole]
  simp [natText_of_lt digit]

theorem spread_nonneg (xs : Series) : 0 ≤ N.spread xs := by
  rw [Numbers.spread]
  split_ifs
  · exact N.stdev_nonneg _
  · exact le_rfl

theorem foldl_min_le (zs : List ℤ) (z : ℤ) :
    zs.foldl Min.min z ≤ z ∧ ∀ y ∈ zs, zs.foldl Min.min z ≤ y := by
  induction zs generalizing z with
  | nil => simp
  | cons y zs ih =>
    obtain ⟨first, rest⟩ := ih (Min.min z y)
    rw [List.foldl_cons, List.forall_mem_cons]
    exact ⟨first.trans (min_le_left z y), first.trans (min_le_right z y), rest⟩

theorem le_foldl_min {b : ℤ} (zs : List ℤ) {z : ℤ} (first : b ≤ z) (rest : ∀ y ∈ zs, b ≤ y) :
    b ≤ zs.foldl Min.min z := by
  induction zs generalizing z with
  | nil => exact first
  | cons y zs ih =>
    rw [List.forall_mem_cons] at rest
    exact ih (le_min first rest.1) rest.2

namespace Series

variable {xs : Series}

theorem min_nonneg_iff : 0 ≤ xs.min ↔ ∀ x ∈ xs.all, 0 ≤ x := by
  obtain ⟨first, rest⟩ := foldl_min_le xs.rest xs.first
  rw [all, List.forall_mem_cons]
  refine ⟨fun nonneg => ⟨nonneg.trans first, fun x mem => nonneg.trans (rest x mem)⟩, ?_⟩
  rintro ⟨head, tail⟩
  exact le_foldl_min xs.rest head tail

theorem min_le_max (xs : Series) : xs.min ≤ xs.max := by
  have above (zs : List ℤ) (z : ℤ) : z ≤ zs.foldl Max.max z := by
    induction zs generalizing z with
    | nil => exact le_rfl
    | cons y zs ih => exact (le_max_left z y).trans (ih _)
  exact (foldl_min_le xs.rest xs.first).1.trans (above xs.rest xs.first)

theorem mean_nonneg (nonneg : 0 ≤ xs.min) : 0 ≤ xs.mean := by
  have total : 0 ≤ xs.all.sum := List.sum_nonneg (min_nonneg_iff.mp nonneg)
  exact div_nonneg (by exact_mod_cast total) (Nat.cast_nonneg _)

theorem median_nonneg (nonneg : 0 ≤ xs.min) : 0 ≤ xs.median := by
  have entry (i : ℕ) : (0 : ℚ) ≤ (xs.all.mergeSort.getD i 0 : ℤ) := by
    rw [Int.cast_nonneg_iff, List.getD_eq_getElem?_getD]
    cases found : xs.all.mergeSort[i]? with
    | none => exact le_rfl
    | some x =>
      have mem : x ∈ xs.all := by
        simpa using List.mem_of_getElem? found
      exact min_nonneg_iff.mp nonneg x mem
  rw [median]
  split_ifs
  · exact entry _
  · exact div_nonneg (add_nonneg (entry _) (entry _)) (by norm_num)

end Series

def Numbers.segments (xs : Series) : List Text :=
  ["  Samples        : ".toList, natText xs.all.length,
    '\n' :: "  Cycles (avg)   : ".toList, N.fixed1 xs.mean,
    '\n' :: "         median  : ".toList, N.fixed1 xs.median,
    '\n' :: "         min/max : ".toList, intText xs.min, " / ".toList, intText xs.max,
    '\n' :: "         stdev   : ".toList, N.fixed1 (N.spread xs),
    '\n' :: "  Latency ns (avg): ".toList, N.fixed1 (toNs xs.mean), " ns".toList,
    '\n' :: "             min : ".toList, N.fixed1 (toNs xs.min), " ns".toList,
    '\n' :: "             max : ".toList, N.fixed1 (toNs xs.max), " ns".toList]

theorem joinLines_body (xs : Series) (others : List Text) :
    joinLines (N.bodyLines xs ++ others) =
      (N.segments xs).flatten ++ others.flatMap ('\n' :: ·) := by
  simp only [Numbers.bodyLines, Numbers.segments, joinLines, List.cons_append, List.nil_append,
    List.flatMap_cons, List.flatten_cons, List.flatten_nil, List.append_assoc]

theorem search_segment {w : String} {seg : Text} (cleared : clear w.toList seg = true)
    (p : Char → Bool) (more : List Item) (segs : List Text) (tail : Text) :
    search (fieldRe w p more) ((seg :: segs).flatten ++ tail) =
      search (fieldRe w p more) (segs.flatten ++ tail) := by
  rw [List.flatten_cons, List.append_assoc]
  exact search_clear _ cleared _

theorem search_number {w : String} (letter : w.toList.head?.any (!isSigned ·) = true) {ds : Text}
    (signed : ∀ c ∈ ds, isSigned c = true) (p : Char → Bool) (more : List Item)
    (segs : List Text) (tail : Text) :
    search (fieldRe w p more) ((ds :: segs).flatten ++ tail) =
      search (fieldRe w p more) (segs.flatten ++ tail) := by
  refine search_segment ?_ p more segs tail
  cases word : w.toList with
  | nil => rw [word] at letter; cases letter
  | cons a w =>
    refine clear_of_ne w fun c mem same => ?_
    rw [word, ← same, List.head?_cons, Option.any_some, signed c mem] at letter
    cases letter

theorem space_of_num {c : Char} (number : isNum c = true) : isSpace c = false := by
  have wide : 46 ≤ c.toNat := by
    simp only [isNum, Char.isDigit, Bool.or_eq_true, Bool.and_eq_true, decide_eq_true_eq,
      beq_iff_eq] at number
    rcases number with ⟨low, -⟩ | rfl
    · exact le_trans (by decide) (UInt32.le_iff_toNat_le.mp low)
    · decide
  rw [isSpace]
  simp only [Bool.or_eq_false_iff, Bool.and_eq_false_iff, decide_eq_false_iff_not]
  omega

theorem stops_space {ds : Text} (some_of : ds ≠ []) (number : ∀ c ∈ ds, isNum c = true)
    (rest : Text) : Stops isSpace (ds ++ rest) := by
  cases ds with
  | nil => exact absurd rfl some_of
  | cons d ds => exact stops_cons (space_of_num (number d List.mem_cons_self)) _

theorem match_field {w : String} {p : Char → Bool} {more : List Item} {gap ds rest : Text}
    {gs : List Text} (spaces : gap.all isSpace = true) (some_of : ds ≠ [])
    (all : ∀ c ∈ ds, p c = true) (number : ∀ c ∈ ds, isNum c = true) (stops : Stops p rest)
    (matched : matchHere more rest = some gs) :
    matchHere (fieldRe w p more) (w.toList ++ (gap ++ ':' :: ([' '] ++ (ds ++ rest)))) =
      some (ds :: gs) := by
  have solid := stops_space some_of number rest
  rw [fieldRe, matchHere_lits]
  refine matchHere_star (List.all_eq_true.mp spaces) (stops_cons rfl _) ?_
  rw [matchHere, if_pos rfl]
  exact matchHere_star (by simp [isSpace]) solid (matchHere_plus some_of all stops matched)

theorem search_found {w : String} {p : Char → Bool} {more : List Item} {line ds : Text}
    {segs : List Text} {tail : Text} {gs : List Text} (indent gap : Text)
    (shape : line = indent ++ (w.toList ++ (gap ++ [':', ' '])))
    (cleared : clear w.toList indent = true) (spaces : gap.all isSpace = true)
    (some_of : ds ≠ []) (all : ∀ c ∈ ds, p c = true) (number : ∀ c ∈ ds, isNum c = true)
    (stops : Stops p (segs.flatten ++ tail))
    (matched : matchHere more (segs.flatten ++ tail) = some gs) :
    search (fieldRe w p more) ((line :: ds :: segs).flatten ++ tail) = some (ds :: gs) := by
  have here := search_of_match (match_field (w := w) spaces some_of all number stops matched)
  rw [shape, List.flatten_cons, List.flatten_cons]
  simp only [List.append_assoc, List.cons_append, List.nil_append] at here ⊢
  rw [fieldRe] at here ⊢
  rw [search_clear _ cleared]
  exact here

section Body

variable (xs : Series) (tail : Text)

theorem search_samples :
    search samplesRe ((N.segments xs).flatten ++ tail) = some [natText xs.all.length] := by
  have digits := digits_natText xs.all.length
  exact search_found "  ".toList "        ".toList rfl (by decide) (by decide) (natText_ne_nil _)
    digits (fun c mem => isNum_of_isDigit (digits c mem)) (stops_cons rfl _) rfl

theorem search_avg (nonneg : 0 ≤ xs.min) :
    search avgRe ((N.segments xs).flatten ++ tail) = some [N.fixed1 xs.mean] := by
  have num := num_fixed1 N (Series.mean_nonneg nonneg)
  rw [avgRe, Numbers.segments, search_segment (by decide),
    search_number (by decide) (signed_natText _)]
  exact search_found "\n  ".toList "   ".toList rfl (by decide) (by decide) (fixed1_ne_nil N _)
    num num (stops_cons rfl _) rfl

theorem search_median (nonneg : 0 ≤ xs.min) :
    search medianRe ((N.segments xs).flatten ++ tail) = some [N.fixed1 xs.median] := by
  have num := num_fixed1 N (Series.median_nonneg nonneg)
  rw [medianRe, Numbers.segments, search_segment (by decide),
    search_number (by decide) (signed_natText _), search_segment (by decide),
    search_number (by decide) (signed_fixed1 N _)]
  exact search_found "\n         ".toList "  ".toList rfl (by decide) (by decide)
    (fixed1_ne_nil N _) num num (stops_cons rfl _) rfl

theorem search_stdev :
    search stdevRe ((N.segments xs).flatten ++ tail) = some [N.fixed1 (N.spread xs)] := by
  have num := num_fixed1 N (spread_nonneg N xs)
  rw [stdevRe, Numbers.segments, search_segment (by decide),
    search_number (by decide) (signed_natText _), search_segment (by decide),
    search_number (by decide) (signed_fixed1 N _), search_segment (by decide),
    search_number (by decide) (signed_fixed1 N _), search_segment (by decide),
    search_number (by decide) (signed_intText _), search_segment (by decide),
    search_number (by decide) (signed_intText _)]
  exact search_found "\n         ".toList "   ".toList rfl (by decide) (by decide)
    (fixed1_ne_nil N _) num num (stops_cons rfl _) rfl

theorem search_minmax (nonneg : 0 ≤ xs.min) :
    search minmaxRe ((N.segments xs).flatten ++ tail) =
      some [natText xs.min.natAbs, natText xs.max.natAbs] := by
  have num (n : ℕ) (c : Char) (mem : c ∈ natText n) : isNum c = true :=
    isNum_of_isDigit (digits_natText n c mem)
  rw [minmaxRe, Numbers.segments, search_segment (by decide),
    search_number (by decide) (signed_natText _), search_segment (by decide),
    search_number (by decide) (signed_fixed1 N _), search_segment (by decide),
    search_number (by decide) (signed_fixed1 N _), intText_of_nonneg nonneg,
    intText_of_nonneg (nonneg.trans xs.min_le_max)]
  refine search_found "\n         ".toList " ".toList rfl (by decide) (by decide)
    (natText_ne_nil _) (num _) (num _) (stops_cons rfl _) ?_
  rw [List.flatten_cons, List.append_assoc, List.flatten_cons, List.append_assoc]
  have most (rest : Text) (stops : Stops isNum rest) :
      matchHere [.plus isNum] (natText xs.max.natAbs ++ rest) = some [natText xs.max.natAbs] :=
    matchHere_plus (natText_ne_nil _) (num _) stops rfl
  have blank : ∀ c ∈ [' '], isSpace c = true := List.all_eq_true.mp rfl
  have solid := stops_space (natText_ne_nil xs.max.natAbs) (num _)
  have behind (rest : Text) (stops : Stops isNum rest) :
      matchHere slashRe ([' '] ++ '/' :: ([' '] ++ (natText xs.max.natAbs ++ rest))) =
        some [natText xs.max.natAbs] :=
    matchHere_star blank (stops_cons rfl _) (matchHere_star blank (solid _) (most rest stops))
  refine behind _ ?_
  exact stops_cons rfl _

theorem search_sign (ds : Text) (segs : List Text) :
    search (fieldRe "min/max" isNum slashRe)
        ((('\n' :: "         min/max : ".toList) :: ('-' :: ds) :: segs).flatten ++ tail) =
      search (fieldRe "min/max" isNum slashRe) ((ds :: segs).flatten ++ tail) :=
  rfl

theorem search_minmax_none (negative : xs.min < 0)
    (unlike : after? "min/max".toList tail = none) :
    search minmaxRe ((N.segments xs).flatten ++ tail) = none := by
  have signed : intText xs.min = '-' :: natText xs.min.natAbs := by
    rw [intText, if_pos negative]
    rfl
  rw [minmaxRe, Numbers.segments, search_segment (by decide),
    search_number (by decide) (signed_natText _), search_segment (by decide),
    search_number (by decide) (signed_fixed1 N _), search_segment (by decide),
    search_number (by decide) (signed_fixed1 N _), signed, search_sign,
    search_number (by decide) (signed_natText _), search_segment (by decide),
    search_number (by decide) (signed_intText _), search_segment (by decide),
    search_number (by decide) (signed_fixed1 N _), search_segment (by decide),
    search_number (by decide) (signed_fixed1 N _), search_segment (by decide),
    search_segment (by decide), search_number (by decide) (signed_fixed1 N _),
    search_segment (by decide), search_segment (by decide),
    search_number (by decide) (signed_fixed1 N _), search_segment (by decide)]
  exact search_of_absent _ unlike

end Body

def Numbers.record (overlay : Text) (b : Block) : SummaryRecord F where
  overlay := overlay
  label := b.label
  metric := b.metric
  samples := b.series.all.length
  cyclesAvg := O.float (N.tenths b.series.mean / 10)
  cyclesMedian := O.float (N.tenths b.series.median / 10)
  cyclesMin := b.series.min
  cyclesMax := b.series.max
  cyclesStdev := O.float (N.tenths (N.spread b.series) / 10)

def Series.Counts (xs : Series) : Prop := xs.max ≤ 2 ^ 53

theorem readBlock_body (overlay : Text) {b : Block} (named : deriveMetricName b.label = b.metric)
    (counts : b.series.Counts) {tail : Text} (unlike : after? "min/max".toList tail = none) :
    readBlock O overlay b.label ((N.segments b.series).flatten ++ tail) =
      if 0 ≤ b.series.min then some (N.record O overlay b) else none := by
  split_ifs with nonneg
  · have mean := decimal_fixed1 N (Series.mean_nonneg nonneg)
    have median := decimal_fixed1 N (Series.median_nonneg nonneg)
    have stdev := decimal_fixed1 N (spread_nonneg N b.series)
    have ordered := b.series.min_le_max
    have least := O.int_float b.series.min.natAbs (by unfold Series.Counts at counts; omega)
    have most := O.int_float b.series.max.natAbs (by unfold Series.Counts at counts; omega)
    rw [Int.natAbs_of_nonneg nonneg] at least
    rw [Int.natAbs_of_nonneg (nonneg.trans ordered)] at most
    have samples : Nat.ofDigitChars 10 (natText b.series.all.length) 0 = b.series.all.length :=
      Nat.ofDigitChars_ten_toDigits
    rw [readBlock, search_samples, search_avg N _ _ nonneg, search_median N _ _ nonneg,
      search_minmax N _ _ nonneg, search_stdev]
    dsimp only
    rw [mean, median, stdev, decimal_natText, decimal_natText]
    simp only [Option.bind_eq_bind, Option.bind_some, Option.pure_def, least, most, samples, named,
      Numbers.record]
  · rw [readBlock, search_minmax_none N _ _ (not_le.mp nonneg) unlike]
    split <;> simp_all

end HftLatencyLab.SocLogs
