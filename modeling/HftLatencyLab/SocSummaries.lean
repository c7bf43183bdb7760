import HftLatencyLab.SocLogs

/-! Whole logs of the soc_latency_diag scripts through analyze_soc.py: the records are those of
the series without a negative count, and the representative of mlp_only is never the series it
is meant to be. -/

namespace HftLatencyLab.SocSummaries
open TextPattern SocLogs

variable {F : Type}

/-- `w in t` -/
def contains (w : String) (t : Text) : Bool := (after? w.toList t).isSome

def lower (t : Text) : Text := t.map Char.toLower

def isOverlay (overlay : String) (r : SummaryRecord F) : Bool := r.overlay == overlay.toList

def isMetric (metric : String) (r : SummaryRecord F) : Bool := r.metric == metric.toList

/-- `"delay_cycles=0" in r.label and "num_words=4" in r.label` -/
def atOrigin (r : SummaryRecord F) : Bool :=
  contains "delay_cycles=0" r.label && contains "num_words=4" r.label

def pickFull (records : List (SummaryRecord F)) : Option (SummaryRecord F) :=
  (records.find? fun r => isOverlay "full" r && atOrigin r).or
    (records.find? fun r => isOverlay "full" r && contains "delay_cycles=0" r.label)

def isMlpOnly (r : SummaryRecord F) : Bool :=
  isOverlay "mlp_only" r && atOrigin r && "mlp".toList.isPrefixOf (lower r.metric)

def pickMlpOnly (records : List (SummaryRecord F)) : Option (SummaryRecord F) :=
  records.find? isMlpOnly

def pickNodma (records : List (SummaryRecord F)) : Option (SummaryRecord F) :=
  records.find? fun r => isOverlay "nodma" r && atOrigin r && isMetric "Fabric" r

def pickCore (records : List (SummaryRecord F)) : Option (SummaryRecord F) :=
  (records.find? fun r =>
    isOverlay "core" r && contains "num_words=4" r.label && isMetric "TRACE" r).or
    (records.find? fun r => isOverlay "core" r && contains "num_words=4" r.label)

def pickRepresentativeRecords (records : List (SummaryRecord F)) : List (SummaryRecord F) :=
  [pickFull records, pickMlpOnly records, pickNodma records, pickCore records].reduceOption

structure Logs where
  full : Option (List Text)
  mlpOnly : Option (List Text)
  nodma : Option (List Text)
  core : Option (List Text)

def parsed (O : Floats F) (overlay : String) : Option (List Text) → List (SummaryRecord F)
  | none => []
  | some lines => parseLogSummaries O overlay.toList lines

def allRecords (O : Floats F) (logs : Logs) : List (SummaryRecord F) :=
  parsed O "full" logs.full ++ (parsed O "mlp_only" logs.mlpOnly ++
    (parsed O "nodma" logs.nodma ++ parsed O "core" logs.core))

def isWord (c : Char) : Bool := c.isAlphanum || c == '_' || c == '=' || c == ' '

theorem word_natText (n : ℕ) : ∀ c ∈ natText n, isWord c = true := fun c mem => by
  simp [isWord, Char.isAlphanum, digits_natText n c mem]

theorem word_text (l : Label) : ∀ c ∈ l.text, isWord c = true := by
  obtain ⟨trace, config⟩ := l
  have ahead : ∀ c ∈ (if trace then "TRACE summary ".toList else []), isWord c = true := by
    cases trace <;> exact List.all_eq_true.mp rfl
  rw [Label.text, List.forall_mem_append]
  refine ⟨ahead, ?_⟩
  cases config with
  | delayed d n =>
    rw [Config.text_delayed, List.forall_mem_append, List.forall_mem_append,
      List.forall_mem_append]
    exact ⟨List.all_eq_true.mp rfl, word_natText d, List.all_eq_true.mp rfl, word_natText n⟩
  | undelayed n =>
    rw [Config.text_undelayed, List.forall_mem_append]
    exact ⟨List.all_eq_true.mp rfl, word_natText n⟩

theorem ne_of_word {a : Char} (other : isWord a = false) {t : Text}
    (words : ∀ c ∈ t, isWord c = true) : ∀ c ∈ t, c ≠ a := fun c mem same => by
  rw [← same, words c mem] at other
  cases other

theorem stops_text (l : Label) (rest : Text) : Stops isSpace (l.text ++ rest) := by
  obtain ⟨trace, config⟩ := l
  cases trace <;> cases config <;> exact stops_cons rfl _

theorem text_ends (l : Label) : ∃ t n, l.text = t ++ natText n := by
  obtain ⟨trace, config⟩ := l
  cases config with
  | delayed d n => exact ⟨_, n, by rw [Label.text, Config.text_delayed,
      ← List.append_assoc, ← List.append_assoc, ← List.append_assoc]⟩
  | undelayed n => exact ⟨_, n, by rw [Label.text, Config.text_undelayed, ← List.append_assoc]⟩

theorem strip_ends {t w : Text} (first : Stops isSpace (t ++ w)) (some_of : w ≠ [])
    (solid : ∀ c ∈ w, isSpace c = false) : strip (t ++ w) = t ++ w := by
  have left : (t ++ w).dropWhile isSpace = t ++ w := by
    cases whole : t ++ w with
    | nil => rfl
    | cons c rest =>
      rw [whole] at first
      have other : isSpace c = false := first c rfl
      simp [other]
  rw [strip, left, List.rdropWhile_eq_self_iff]
  intro whole
  rw [List.getLast_append_of_ne_nil whole some_of, solid _ (List.getLast_mem some_of)]
  decide

def Solid (name : Text) : Prop := name ≠ [] ∧ ∀ c ∈ name, isSpace c = false

theorem solid_of {name : Text} (some_of : name ≠ []) (solid : name.all (!isSpace ·) = true) :
    Solid name :=
  ⟨some_of, fun c mem => by simpa using List.all_eq_true.mp solid c mem⟩

theorem any_of_solid {c : Char} (solid : isSpace c = false) : isAny c = true := by
  rw [isAny, bne_iff_ne]
  rintro rfl
  cases solid

theorem strip_name {name : Text} (solid : Solid name) : strip (' ' :: name) = name := by
  have dropped : (' ' :: name).dropWhile isSpace = name.dropWhile isSpace := rfl
  have whole : strip name = name :=
    strip_ends (t := []) (fun c head => solid.2 c (List.mem_of_mem_head? head)) solid.1 solid.2
  rw [strip, dropped]
  exact whole

theorem metric_of (l : Label) {name : Text} (solid : Solid name) :
    deriveMetricName (l.of name) = name := by
  have free := clear_of_ne [':'] (ne_of_word (a := ':') (by decide) (word_text l))
  have found : after? "::".toList (l.of name) = some (' ' :: name) := by
    rw [Label.of]
    exact (after?_clear free _).trans (after?_append "::".toList (' ' :: name))
  rw [deriveMetricName, found]
  exact strip_name solid

theorem metric_text (l : Label) :
    deriveMetricName l.text = (if l.trace then "TRACE" else "MLP_timer").toList := by
  have plain : after? "::".toList l.text = none :=
    after?_missing (a := ':') (by decide) fun mem =>
      ne_of_word (by decide) (word_text l) ':' mem rfl
  rw [deriveMetricName, plain]
  obtain ⟨trace, config⟩ := l
  cases trace with
  | true =>
    have ahead : "TRACE summary".toList <+: (Label.mk true config).text :=
      ⟨' ' :: config.text, rfl⟩
    exact if_pos ahead
  | false =>
    have apart : ¬"TRACE summary".toList <+: (Label.mk false config).text := by
      cases config <;> exact fun ahead => absurd (List.cons_prefix_cons.mp ahead).1 (by decide)
    have known : ((after? "num_words".toList (Label.mk false config).text).isSome ||
        (after? "delay_cycles".toList (Label.mk false config).text).isSome) = true := by
      cases config with
      | delayed d n =>
        have found := after?_append "delay_cycles".toList
          ('=' :: (natText d ++ (" num_words=".toList ++ natText n)))
        exact Bool.or_eq_true_iff.mpr (Or.inr (Option.isSome_of_eq_some found))
      | undelayed n =>
        have found := after?_append "num_words".toList ('=' :: natText n)
        exact Bool.or_eq_true_iff.mpr (Or.inl (Option.isSome_of_eq_some found))
    dsimp only
    rw [if_neg apart, if_pos known]
    rfl

structure Sound (b : Block) : Prop where
  some_of : b.label ≠ []
  any : ∀ c ∈ b.label, isAny c = true
  strip : strip b.label = b.label
  metric : deriveMetricName b.label = b.metric
  counts : b.series.Counts

theorem counts_series {α : Type} {f : α → ℤ} (small : ∀ p, f p < 2 ^ 32) {ps : List α}
    {xs : Series} (made : series f ps = some xs) : xs.Counts := by
  have bounded (zs : List ℤ) (z : ℤ) (first : z < 2 ^ 32) (rest : ∀ y ∈ zs, y < 2 ^ 32) :
      zs.foldl Max.max z < 2 ^ 32 := by
    induction zs generalizing z with
    | nil => exact first
    | cons y zs ih =>
      rw [List.forall_mem_cons] at rest
      exact ih _ (max_lt first rest.1) rest.2
  cases ps with
  | nil => cases made
  | cons p ps =>
    obtain rfl : _ = xs := Option.some.inj made
    have := bounded (ps.map f) (f p) (small p) (by simpa using fun p _ => small p)
    exact this.le.trans (by norm_num)

theorem count_bounds (c : BitVec 32) : 0 ≤ count c ∧ count c < 2 ^ 32 := by
  have := c.isLt
  unfold count
  omega

theorem sound_text {l : Label} {xs : Series} (counts : xs.Counts) :
    Sound ⟨l.text, (if l.trace then "TRACE" else "MLP_timer").toList, xs⟩ := by
  obtain ⟨t, n, ends⟩ := text_ends l
  have digits (c : Char) (mem : c ∈ natText n) : isSpace c = false :=
    space_of_num (isNum_of_isDigit (digits_natText n c mem))
  refine ⟨?_, fun c mem => ?_, ?_, metric_text l, counts⟩
  · simp [ends, natText_ne_nil]
  · exact bne_iff_ne.mpr (ne_of_word (by decide) (word_text l) c mem)
  · have first := stops_text l []
    rw [List.append_nil, ends] at first
    dsimp only
    rw [ends]
    exact strip_ends first (natText_ne_nil n) digits

theorem sound_of {l : Label} {name : Text} (solid : Solid name) {xs : Series}
    (counts : xs.Counts) : Sound ⟨l.of name, name, xs⟩ := by
  refine ⟨?_, fun c mem => ?_, ?_, metric_of l solid, counts⟩
  · simp [Label.of]
  · rcases List.mem_append.mp mem with word | rest
    · exact bne_iff_ne.mpr (ne_of_word (by decide) (word_text l) c word)
    rcases List.mem_append.mp rest with colons | letter
    · have plain : ∀ c ∈ " :: ".toList, isAny c = true := List.all_eq_true.mp rfl
      exact plain c colons
    · exact any_of_solid (solid.2 c letter)
  · have first := stops_text l (" :: ".toList ++ name)
    rw [← List.append_assoc] at first
    rw [Label.of, ← List.append_assoc]
    exact strip_ends first solid.1 solid.2

theorem sound_named {α : Type} {l : Label} {name : String} (solid : Solid name.toList) {f : α → ℤ}
    (small : ∀ p, f p < 2 ^ 32) {ps : List α} {b : Block}
    (made : l.named name (series f ps) = some b) : Sound b := by
  obtain ⟨xs, read, rfl⟩ := Option.map_eq_some_iff.mp made
  exact sound_of solid (counts_series small read)

theorem sound_blocks (e : Entry) : ∀ b ∈ e.blocks, Sound b := by
  have fst (p : BitVec 32 × BitVec 32) := count_bounds p.1
  have snd (p : BitVec 32 × BitVec 32) := count_bounds p.2
  intro b mem
  cases e with
  | cycles l counts =>
    obtain ⟨xs, read, rfl⟩ := Option.map_eq_some_iff.mp (Option.mem_toList.mp mem)
    exact sound_text (counts_series (fun c => (count_bounds c).2) read)
  | nodma l pairs =>
    have made := List.reduceOption_mem_iff.mp mem
    simp only [List.mem_cons, List.not_mem_nil, or_false] at made
    rcases made with fabric | internal | overhead
    · exact sound_named (solid_of (by decide) rfl) (fun p => (fst p).2) fabric.symm
    · exact sound_named (solid_of (by decide) rfl) (fun p => (snd p).2) internal.symm
    · refine sound_named (solid_of (by decide) rfl) (fun p => ?_) overhead.symm
      have := fst p
      have := snd p
      omega
  | mlpOnly l pairs =>
    have made := List.reduceOption_mem_iff.mp mem
    simp only [List.mem_cons, List.not_mem_nil, or_false] at made
    rcases made with tgen | mlp | only
    · exact sound_named (solid_of (by decide) rfl) (fun p => (fst p).2) tgen.symm
    · exact sound_named (solid_of (by decide) rfl) (fun p => (snd p).2) mlp.symm
    · refine sound_named (solid_of (by decide) rfl) (fun p => ?_) only.symm
      have := fst p
      have := snd p
      omega
  | other line => cases mem

theorem matchHere_header {label : Text} (some_of : label ≠ []) (any : ∀ c ∈ label, isAny c = true) :
    matchHere headerRe ('[' :: (label ++ [']'])) = some [label] := by
  cases label with
  | nil => exact absurd rfl some_of
  | cons c t =>
    rw [List.forall_mem_cons] at any
    rw [headerRe, matchHere, if_pos rfl, List.cons_append, matchHere, if_pos any.1]
    exact run_longer any.2 rfl

/-- A line between the blocks: no header, and nothing like the line the reader may miss. -/
structure Quiet (line : Text) : Prop where
  header : matchHere headerRe line = none
  unlike : after? "min/max".toList line = none

theorem quiet_nil : Quiet [] := ⟨rfl, rfl⟩

theorem quiet_noData (l : Label) : Quiet (noData l) := by
  have first : matchHere headerRe (noData l) = none := by
    obtain ⟨trace, config⟩ := l
    cases trace <;> cases config <;> rfl
  refine ⟨first, after?_missing (a := '/') (by decide) fun mem => ?_⟩
  rcases List.mem_append.mp mem with word | rest
  · exact ne_of_word (by decide) (word_text l) '/' word rfl
  · revert rest
    decide

theorem quiet_plain {c : Char} {t : Text} (first : c ≠ '[') (slashes : '/' ∉ c :: t) :
    Quiet (c :: t) := by
  refine ⟨?_, after?_missing (a := '/') (by decide) slashes⟩
  rw [headerRe, matchHere, if_neg first]

theorem header_closes {line : Text} {gs : List Text} (matched : matchHere headerRe line = some gs) :
    ∃ front blanks, line = front ++ ']' :: blanks ∧ ∀ c ∈ blanks, isSpace c = true := by
  cases line with
  | nil => cases matched
  | cons c t =>
    rw [headerRe, matchHere] at matched
    split_ifs at matched
    cases t with
    | nil => cases matched
    | cons d t =>
      rw [matchHere] at matched
      split_ifs at matched
      obtain ⟨ds, rest, rfl, -, last⟩ := run_some matched
      obtain ⟨gs', bracket, -⟩ := Option.map_eq_some_iff.mp last
      cases rest with
      | nil => cases bracket
      | cons e rest =>
        rw [matchHere] at bracket
        split_ifs at bracket with closes
        rw [matchHere] at bracket
        obtain ⟨blanks, rest', rfl, all, done⟩ := run_some bracket
        rw [matchHere] at done
        split_ifs at done with ended
        rw [ended, List.append_nil, closes]
        exact ⟨c :: d :: ds, blanks, rfl, all⟩

def isHex (c : Char) : Bool := "0123456789ABCDEF-".toList.contains c

theorem hex_apart {c : Char} (hex : isHex c = true) : c ≠ ']' ∧ c ≠ 'm' ∧ isSpace c = false := by
  have checked : "0123456789ABCDEF-".toList.all
      (fun c => c != ']' && c != 'm' && !isSpace c) = true := by decide
  simpa [and_assoc] using List.all_eq_true.mp checked c (List.contains_iff_mem.mp hex)

/-- `:d`, `:02d` and `:08X` -/
def Numeral (n : Text) : Prop := n ≠ [] ∧ n.all isHex = true

def fillIn (pieces : List String) (numbers : List Text) : Text :=
  (List.zipWith (fun piece n => piece.toList ++ n) pieces numbers).flatten

def beforeAfter : List String :=
  [" MLP_AP(before/after)=0x", "/0x", " MLP_ISR(before/after)=0x", "/0x",
    " DBG_ITERS(before/after)=", "/"]

def iterFormats : List (List String) :=
  let full := ["cycles_mlp=", " cycles_feat=", " cycles_tgen=", " feat_only=", " mlp_only=",
    " feat_dbg=", " delay=", " num_words=", " DMA1_SR=0x"]
  let mlpOnly := ["cycles_tgen=", " cycles_mlp=", " mlp_only=", " delay=", " num_words=",
    " DMA1_SR=0x"]
  let nodma := ["cycles=", " internal=", " delay=", " num_words="]
  let aps := [" MLP_AP=0x", " MLP_ISR=0x"]
  let iters := [" DBG_ITERS(before/after)=", "/"]
  let line (outcome : String) (fields : List String) :=
    "[iter " :: ("] " ++ outcome ++ fields.headD "") :: fields.tail
  [line "TGEN TIMEOUT  " (["cycles=", " delay=", " num_words=", " DMA1_SR=0x"] ++ aps),
    line "MLP TIMEOUT   " (full ++ aps ++ iters), line "OK            " (full ++ beforeAfter),
    line "TGEN TIMEOUT  " (["delay=", " num_words=", " DMA1_SR=0x"] ++ aps),
    line "MLP TIMEOUT   " (mlpOnly ++ aps ++ iters), line "OK            " (mlpOnly ++ beforeAfter),
    line "TGEN TIMEOUT  " (["cycles=", " delay=", " num_words="] ++ aps),
    line "MLP TIMEOUT   " (nodma ++ aps ++ iters), line "OK            " (nodma ++ beforeAfter),
    line "TGEN TIMEOUT  " ["cycles=", " num_words="],
    line "NO_DATA      " ["cycles=", " num_words="],
    line "OK            " ["cycles=", " num_words="]]

theorem fillIn_unlike {pieces : List String}
    (cleared : ∀ piece ∈ pieces, clear "min/max".toList piece.toList = true) {numbers : List Text}
    (numerals : ∀ n ∈ numbers, Numeral n) :
    after? "min/max".toList (fillIn pieces numbers) = none := by
  induction pieces generalizing numbers with
  | nil => rfl
  | cons piece pieces ih =>
    cases numbers with
    | nil => rfl
    | cons n numbers =>
      rw [List.forall_mem_cons] at cleared numerals
      have apart (c : Char) (mem : c ∈ n) : c ≠ 'm' :=
        (hex_apart (List.all_eq_true.mp numerals.1.2 c mem)).2.1
      have filled : fillIn (piece :: pieces) (n :: numbers) =
          piece.toList ++ (n ++ fillIn pieces numbers) := List.append_assoc _ _ _
      have number : clear "min/max".toList n = true := clear_of_ne "in/max".toList apart
      rw [filled, after?_clear cleared.1, after?_clear number]
      exact ih cleared.2 numerals.2

theorem fillIn_last {piece : String} {pieces : List String} {numbers : List Text}
    (count : numbers.length = (piece :: pieces).length) (numerals : ∀ n ∈ numbers, Numeral n) :
    ∃ c ∈ (fillIn (piece :: pieces) numbers).getLast?, isHex c = true := by
  induction pieces generalizing piece numbers with
  | nil =>
    obtain ⟨n, rfl⟩ := List.length_eq_one_iff.mp count
    obtain ⟨filled, digits⟩ := numerals n (List.mem_singleton.mpr rfl)
    have last := List.getLast?_eq_some_getLast filled
    refine ⟨n.getLast filled, ?_, List.all_eq_true.mp digits _ (List.getLast_mem filled)⟩
    simp [fillIn, List.getLast?_append, last]
  | cons next pieces ih =>
    cases numbers with
    | nil => cases count
    | cons n numbers =>
      obtain ⟨c, last, digit⟩ := @ih next numbers (Nat.succ.inj count)
        (List.forall_mem_cons.mp numerals).2
      refine ⟨c, ?_, digit⟩
      have filled : fillIn (piece :: next :: pieces) (n :: numbers) =
          (piece.toList ++ n) ++ fillIn (next :: pieces) numbers := rfl
      rw [Option.mem_def] at last ⊢
      rw [filled, List.getLast?_append, last, Option.some_or]

theorem quiet_iter {format : List String} (printed : format ∈ iterFormats) {numbers : List Text}
    (count : numbers.length = format.length) (numerals : ∀ n ∈ numbers, Numeral n) :
    Quiet (fillIn format numbers) := by
  have checked : ∀ format ∈ iterFormats, format ≠ [] ∧
      ∀ piece ∈ format, clear "min/max".toList piece.toList = true := by decide
  obtain ⟨filled, cleared⟩ := checked format printed
  obtain ⟨piece, pieces, rfl⟩ := List.exists_cons_of_ne_nil filled
  refine ⟨Option.eq_none_iff_forall_ne_some.mpr fun gs matched => ?_,
    fillIn_unlike cleared numerals⟩
  obtain ⟨c, last, digit⟩ := fillIn_last count numerals
  obtain ⟨front, blanks, line, all⟩ := header_closes matched
  rw [line, List.getLast?_append_of_ne_nil front (List.cons_ne_nil _ _)] at last
  obtain ⟨noBracket, -, noSpace⟩ := hex_apart digit
  rcases List.mem_cons.mp (List.mem_of_getLast? last) with bracket | blank
  · exact noBracket bracket
  · exact Bool.false_ne_true (noSpace.symm.trans (all c blank))

theorem unlike_lines {others : List Text}
    (unlike : ∀ line ∈ others, after? "min/max".toList line = none) {l : Text}
    (ahead : after? "min/max".toList l = none) :
    after? "min/max".toList (l ++ others.flatMap ('\n' :: ·)) = none := by
  induction others generalizing l with
  | nil => rwa [List.flatMap_nil, List.append_nil]
  | cons line others ih =>
    rw [List.forall_mem_cons] at unlike
    rw [List.flatMap_cons, List.cons_append, after?_separated_iff (by decide)]
    exact ⟨ahead, ih unlike.2 unlike.1⟩

variable (N : Numbers) (O : Floats F) (overlay : Text)

theorem body_inside (xs : Series) :
    ∀ line ∈ N.bodyLines xs, matchHere headerRe line = none ∧ line.all isSpace = false := by
  have inside (lead rest : Text) (visible : lead.all isSpace = false) :
      (lead ++ rest).all isSpace = false := by
    rw [List.all_append, visible, Bool.false_and]
  rw [Numbers.bodyLines]
  simp only [List.forall_mem_cons]
  refine ⟨⟨rfl, ?_⟩, ⟨rfl, ?_⟩, ⟨rfl, ?_⟩, ⟨rfl, ?_⟩, ⟨rfl, ?_⟩, ⟨rfl, ?_⟩, ⟨rfl, ?_⟩, ⟨rfl, ?_⟩,
    List.forall_mem_nil _⟩
  all_goals exact inside _ _ (by decide)

theorem foldl_inside {lines : List Text}
    (inside : ∀ line ∈ lines, matchHere headerRe line = none ∧ line.all isSpace = false)
    (records : List (SummaryRecord F)) (label : Text) (buf : List Text) :
    lines.foldl (parseLine O overlay) ⟨records, some label, buf⟩ =
      ⟨records, some label, buf ++ lines⟩ := by
  induction lines generalizing buf with
  | nil => rw [List.append_nil, List.foldl_nil]
  | cons line lines ih =>
    rw [List.forall_mem_cons] at inside
    obtain ⟨⟨header, visible⟩, later⟩ := inside
    have step : parseLine O overlay ⟨records, some label, buf⟩ line =
        ⟨records, some label, buf ++ [line]⟩ := by
      simp only [parseLine, header, visible]
      rfl
    rw [List.foldl_cons, step, ih later, List.append_assoc, List.singleton_append]

def Pending (s : Parser F) (rs : List (SummaryRecord F)) : Prop :=
  ∀ others : List Text, (∀ line ∈ others, after? "min/max".toList line = none) →
    (flushBlock O overlay { s with buf := s.buf ++ others }).records = rs

variable {O overlay} {s : Parser F} {rs : List (SummaryRecord F)}

theorem Pending.flush (pending : Pending O overlay s rs) :
    (flushBlock O overlay s).records = rs := by
  have now := pending [] (List.forall_mem_nil _)
  rwa [List.append_nil] at now

theorem flushBlock_closed {s : Parser F} (closed : s.currentLabel = none) :
    (flushBlock O overlay s).records = s.records := by
  unfold flushBlock
  rw [closed]

theorem currentLabel_flush (s : Parser F) : (flushBlock O overlay s).currentLabel = none := by
  unfold flushBlock
  split <;> rfl

theorem flushBlock_open {label : Text} {lines : List Text} (some_of : label ≠ [])
    (filled : lines ≠ []) : (flushBlock O overlay ⟨rs, some label, lines⟩).records =
      rs ++ (readBlock O overlay label (joinLines lines)).toList := by
  cases label with
  | nil => exact absurd rfl some_of
  | cons c t =>
    cases lines with
    | nil => exact absurd rfl filled
    | cons line lines => rfl

theorem Pending.other (pending : Pending O overlay s rs) {line : Text} (quiet : Quiet line) :
    Pending O overlay (parseLine O overlay s line) rs := by
  unfold parseLine
  rw [quiet.header]
  cases current : s.currentLabel with
  | none => exact pending
  | some label =>
    dsimp only
    intro others unlike
    split_ifs with blank
    · refine Eq.trans (flushBlock_closed ?_) pending.flush
      exact currentLabel_flush s
    · have more := pending (line :: others) (List.forall_mem_cons.mpr ⟨quiet.unlike, unlike⟩)
      rw [List.append_cons, current] at more
      exact more

theorem Pending.block (pending : Pending O overlay s rs) {b : Block} (sound : Sound b) :
    Pending O overlay ((N.block b.label b.series).foldl (parseLine O overlay) s)
      (rs ++ if 0 ≤ b.series.min then [N.record O overlay b] else []) := by
  have blank := pending.other quiet_nil
  have header : parseLine O overlay (parseLine O overlay s []) ('[' :: (b.label ++ [']'])) =
      ⟨rs, some b.label, []⟩ := by
    rw [parseLine, matchHere_header sound.some_of sound.any]
    dsimp only
    rw [blank.flush, List.flatten_singleton, sound.strip]
  rw [Numbers.block, List.foldl_cons, List.foldl_cons, header,
    foldl_inside O overlay (body_inside N b.series)]
  intro others unlike
  have tail := unlike_lines unlike (l := []) rfl
  have read := readBlock_body N O overlay sound.metric sound.counts tail
  have filled : N.bodyLines b.series ++ others ≠ [] := List.cons_ne_nil _ _
  rw [List.nil_append] at read
  rw [List.nil_append, flushBlock_open sound.some_of filled, joinLines_body, read]
  split_ifs <;> rfl

theorem lines_cases (e : Entry) (quiet : ∀ line, e = .other line → Quiet line) :
    (∃ line, Quiet line ∧ N.lines e = [line] ∧ e.blocks = []) ∨
      N.lines e = e.blocks.flatMap fun b => N.block b.label b.series := by
  cases e with
  | cycles l counts =>
    cases counts with
    | nil => exact Or.inl ⟨_, quiet_noData l, rfl, rfl⟩
    | cons c cs => exact Or.inr rfl
  | nodma l pairs =>
    cases pairs with
    | nil => exact Or.inl ⟨_, quiet_noData l, rfl, rfl⟩
    | cons p ps => exact Or.inr rfl
  | mlpOnly l pairs =>
    cases pairs with
    | nil => exact Or.inl ⟨_, quiet_noData l, rfl, rfl⟩
    | cons p ps => exact Or.inr rfl
  | other line => exact Or.inl ⟨line, quiet line rfl, rfl, rfl⟩

def keptRecords (O : Floats F) (overlay : Text) (bs : List Block) : List (SummaryRecord F) :=
  (bs.filter fun b => 0 ≤ b.series.min).map (N.record O overlay)

theorem keptRecords_cons (O : Floats F) (overlay : Text) (b : Block) (bs : List Block) :
    keptRecords N O overlay (b :: bs) =
      (if 0 ≤ b.series.min then [N.record O overlay b] else []) ++ keptRecords N O overlay bs := by
  by_cases nonneg : 0 ≤ b.series.min <;> simp [keptRecords, nonneg]

theorem Pending.blocks (pending : Pending O overlay s rs) {bs : List Block}
    (sound : ∀ b ∈ bs, Sound b) :
    Pending O overlay
      ((bs.flatMap fun b => N.block b.label b.series).foldl (parseLine O overlay) s)
      (rs ++ keptRecords N O overlay bs) := by
  induction bs generalizing s rs with
  | nil => simpa [keptRecords] using pending
  | cons b bs ih =>
    rw [List.forall_mem_cons] at sound
    have later := ih (pending.block N sound.1) sound.2
    rwa [List.flatMap_cons, List.foldl_append, keptRecords_cons, ← List.append_assoc]

def logLines (log : List Entry) : List Text := log.flatMap N.lines

theorem Pending.log (pending : Pending O overlay s rs) {log : List Entry}
    (quiet : ∀ line, .other line ∈ log → Quiet line) :
    Pending O overlay ((logLines N log).foldl (parseLine O overlay) s)
      (rs ++ keptRecords N O overlay (log.flatMap Entry.blocks)) := by
  induction log generalizing s rs with
  | nil => simpa [logLines, keptRecords] using pending
  | cons e log ih =>
    have rest (line : Text) (mem : .other line ∈ log) : Quiet line :=
      quiet line (List.mem_cons_of_mem e mem)
    have own (line : Text) (same : e = .other line) : Quiet line :=
      quiet line (by rw [same]; exact List.mem_cons_self)
    have split : keptRecords N O overlay ((e :: log).flatMap Entry.blocks) =
        keptRecords N O overlay e.blocks ++ keptRecords N O overlay (log.flatMap Entry.blocks) := by
      simp [keptRecords]
    rw [logLines, List.flatMap_cons, List.foldl_append, split, ← List.append_assoc]
    refine ih ?_ rest
    rcases lines_cases N e own with ⟨line, silent, lines, blocks⟩ | lines
    · rw [lines, blocks]
      simpa [keptRecords] using pending.other silent
    · rw [lines]
      exact pending.blocks N (sound_blocks e)

theorem all_series {α : Type} {f : α → ℤ} {ps : List α} {xs : Series}
    (made : series f ps = some xs) : xs.all = ps.map f := by
  cases ps with
  | nil => cases made
  | cons p ps =>
    obtain rfl : _ = xs := Option.some.inj made
    rfl

theorem min_series {α : Type} {f : α → ℤ} {ps : List α} {xs : Series}
    (made : series f ps = some xs) : xs.min < 0 ↔ ∃ p ∈ ps, f p < 0 := by
  rw [← not_le, Series.min_nonneg_iff, all_series made]
  simp

theorem min_series_nonneg {α : Type} {f : α → ℤ} (nonneg : ∀ p, 0 ≤ f p) {ps : List α}
    {xs : Series} (made : series f ps = some xs) : 0 ≤ xs.min := by
  rw [← not_lt, min_series made]
  rintro ⟨p, -, negative⟩
  exact absurd (nonneg p) (not_le.mpr negative)

theorem only_negative (p : BitVec 32 × BitVec 32) : count p.2 - count p.1 < 0 ↔ p.2 < p.1 := by
  rw [BitVec.lt_def]
  unfold count
  omega

theorem named_eq_some {l : Label} {name : String} {xs : Option Series} {b : Block}
    (made : l.named name xs = some b) :
    ∃ ys, xs = some ys ∧ b = ⟨l.of name.toList, name.toList, ys⟩ := by
  obtain ⟨ys, read, rfl⟩ := Option.map_eq_some_iff.mp made
  exact ⟨ys, read, rfl⟩

theorem negative_iff {e : Entry} {b : Block} (mem : b ∈ e.blocks) :
    b.series.min < 0 ↔ ∃ l pairs, e = .mlpOnly l pairs ∧ b.metric = "MLP_only".toList ∧
      ∃ p ∈ pairs, p.2 < p.1 := by
  have fst (p : BitVec 32 × BitVec 32) : 0 ≤ count p.1 := (count_bounds p.1).1
  have snd (p : BitVec 32 × BitVec 32) : 0 ≤ count p.2 := (count_bounds p.2).1
  cases e with
  | cycles l counts =>
    obtain ⟨xs, read, rfl⟩ := Option.map_eq_some_iff.mp (Option.mem_toList.mp mem)
    have nonneg := min_series_nonneg (fun c => (count_bounds c).1) read
    exact iff_of_false (not_lt.mpr nonneg) (by simp)
  | nodma l pairs =>
    have made := List.reduceOption_mem_iff.mp mem
    simp only [List.mem_cons, List.not_mem_nil, or_false] at made
    have nonneg : 0 ≤ b.series.min := by
      rcases made with made | made | made
      all_goals obtain ⟨xs, read, rfl⟩ := named_eq_some made.symm
      · exact min_series_nonneg fst read
      · exact min_series_nonneg snd read
      · exact min_series_nonneg (fun p => le_max_right _ 0) read
    exact iff_of_false (not_lt.mpr nonneg) (by simp)
  | mlpOnly l pairs =>
    have made := List.reduceOption_mem_iff.mp mem
    simp only [List.mem_cons, List.not_mem_nil, or_false] at made
    rcases made with made | made | made
    all_goals obtain ⟨xs, read, rfl⟩ := named_eq_some made.symm
    · exact iff_of_false (not_lt.mpr (min_series_nonneg fst read)) (by simp)
    · exact iff_of_false (not_lt.mpr (min_series_nonneg snd read)) (by simp)
    · have below : xs.min < 0 ↔ ∃ p ∈ pairs, p.2 < p.1 := by
        rw [min_series read]
        simp only [only_negative]
      refine ⟨fun negative => ⟨l, pairs, rfl, rfl, below.mp negative⟩, ?_⟩
      rintro ⟨_, _, same, -, negative⟩
      cases same
      exact below.mpr negative
  | other line => cases mem

/-- From any log of the scripts the reader gets one record for each series without a negative
count, in the order of the log, and each says what was printed. A series with a negative count
is that of MLP_only where the MLP was once counted shorter than the traffic generator. -/
theorem records_of_log (N : Numbers) (O : Floats F) (overlay : Text) {log : List Entry}
    (quiet : ∀ line, .other line ∈ log → Quiet line) :
    parseLogSummaries O overlay (logLines N log) =
        ((log.flatMap Entry.blocks).filter fun b => 0 ≤ b.series.min).map (N.record O overlay) ∧
      ∀ e ∈ log, ∀ b ∈ e.blocks, b.series.min < 0 ↔
        ∃ l pairs, e = .mlpOnly l pairs ∧ b.metric = "MLP_only".toList ∧
          ∃ p ∈ pairs, p.2 < p.1 := by
  have start : Pending O overlay (Parser.start : Parser F) [] := fun _ _ => rfl
  exact ⟨(start.log N quiet).flush, fun e _ b mem => negative_iff mem⟩

def wholeNumbers : Numbers where
  tenths x := (x * 10).floor.toNat
  stdev _ := 0
  stdev_nonneg _ := le_rfl

def wholeFloats : Floats ℚ where
  float := id
  int := Rat.floor
  int_float n _ := Rat.floor_intCast n

def timeoutLine : Text :=
  fillIn (iterFormats.getD 3 [])
    ["07".toList, "0".toList, "4".toList, "00011100".toList, "00000081".toList, "00000000".toList]

def shortLog : List Entry :=
  [.other "Loading MLP-only Overlay...".toList, .mlpOnly ⟨false, .delayed 0 4⟩ [(9, 5)],
    .other timeoutLine]

theorem quiet_shortLog : ∀ line, .other line ∈ shortLog → Quiet line := by
  simp only [shortLog, List.mem_cons, Entry.other.injEq, List.not_mem_nil, or_false, reduceCtorEq,
    false_or]
  rintro line (rfl | rfl)
  · exact quiet_plain (by decide) (by decide)
  · exact quiet_iter (by decide) rfl (by unfold Numeral; decide)

theorem records_of_shortLog :
    (parseLogSummaries wholeFloats "mlp_only".toList (logLines wholeNumbers shortLog)).map
        SummaryRecord.metric = ["TGen".toList, "MLP".toList] := by
  rw [(records_of_log wholeNumbers wholeFloats "mlp_only".toList quiet_shortLog).1]
  rfl

theorem contains_of {w : String} (apart : ' ' ∉ w.toList) (letter : '=' ∈ w.toList) (l : Label)
    {name : Text} (plain : '=' ∉ name) : contains w (l.of name) = contains w l.text := by
  have named : after? w.toList ("::".toList ++ ' ' :: name) = none :=
    after?_missing letter (by simp [plain])
  have same := after?_separated_iff apart l.text ("::".toList ++ ' ' :: name)
  have whole : l.of name = l.text ++ ' ' :: ("::".toList ++ ' ' :: name) := rfl
  rw [contains, contains, whole, Bool.eq_iff_iff, Option.isSome_iff_ne_none,
    Option.isSome_iff_ne_none, ne_eq, ne_eq, same, and_iff_left named]

variable {N : Numbers} {O : Floats F}

def Label.origin (l : Label) : Bool :=
  contains "delay_cycles=0" l.text && contains "num_words=4" l.text

theorem atOrigin_of (l : Label) {name : Text} (plain : '=' ∉ name) {r : SummaryRecord F}
    (label : r.label = l.of name) : atOrigin r = Label.origin l := by
  rw [atOrigin, Label.origin, label, contains_of (by decide) (by decide) l plain,
    contains_of (by decide) (by decide) l plain]

theorem records_of_parsed {overlay : String} {log : Option (List Entry)}
    (quiet : ∀ es ∈ log, ∀ line, .other line ∈ es → Quiet line) :
    parsed O overlay (log.map (logLines N)) =
      keptRecords N O overlay.toList ((log.getD []).flatMap Entry.blocks) := by
  cases log with
  | none => rfl
  | some es => exact (records_of_log N O overlay.toList (quiet es rfl)).1

theorem pick_other {overlay : Text} (apart : overlay ≠ "mlp_only".toList) (bs : List Block) :
    pickMlpOnly (keptRecords N O overlay bs) = none := by
  refine List.find?_eq_none.mpr fun r mem picked => ?_
  obtain ⟨b, -, rfl⟩ := List.mem_map.mp mem
  simp only [isMlpOnly, Bool.and_eq_true] at picked
  exact apart (beq_iff_eq.mp picked.1.1)

theorem isMlpOnly_record (l : Label) {name : Text} (plain : '=' ∉ name) (xs : Series) :
    isMlpOnly (N.record O "mlp_only".toList ⟨l.of name, name, xs⟩) =
      (Label.origin l && "mlp".toList.isPrefixOf (lower name)) := by
  have overlay : isOverlay "mlp_only" (N.record O "mlp_only".toList ⟨l.of name, name, xs⟩) = true :=
    beq_self_eq_true _
  rw [isMlpOnly, overlay, atOrigin_of l plain rfl, Bool.true_and]
  rfl

theorem pickMlpOnly_append (rs ts : List (SummaryRecord F)) :
    pickMlpOnly (rs ++ ts) = (pickMlpOnly rs).or (pickMlpOnly ts) := List.find?_append

theorem pick_apart {l : Label} (apart : Label.origin l = false) {bs : List Block}
    (named : ∀ b ∈ bs, ∃ name, '=' ∉ name ∧ b = ⟨l.of name, name, b.series⟩) :
    pickMlpOnly (keptRecords N O "mlp_only".toList bs) = none := by
  refine List.find?_eq_none.mpr fun r mem => ?_
  obtain ⟨b, inside, rfl⟩ := List.mem_map.mp mem
  obtain ⟨name, plain, same⟩ := named b (List.mem_of_mem_filter inside)
  rw [same, isMlpOnly_record l plain, apart, Bool.false_and]
  exact Bool.false_ne_true

def mlpRecord (N : Numbers) (O : Floats F) (l : Label) (pairs : List (BitVec 32 × BitVec 32)) :
    Option (SummaryRecord F) :=
  if Label.origin l then
    (series (fun p => count p.2) pairs).map fun xs =>
      N.record O "mlp_only".toList ⟨l.of "MLP".toList, "MLP".toList, xs⟩
  else none

theorem pick_mlpOnly (l : Label) (pairs : List (BitVec 32 × BitVec 32)) :
    pickMlpOnly (keptRecords N O "mlp_only".toList (Entry.mlpOnly l pairs).blocks) =
      mlpRecord N O l pairs := by
  cases pairs with
  | nil => exact (ite_self none).symm
  | cons p ps =>
    let block (name : String) (f : BitVec 32 × BitVec 32 → ℤ) : Block :=
      ⟨l.of name.toList, name.toList, ⟨f p, ps.map f⟩⟩
    have nonneg (name : String) (f : BitVec 32 × BitVec 32 → ℤ) (all : ∀ p, 0 ≤ f p) :
        0 ≤ (block name f).series.min := by
      have made : series f (p :: ps) = some (block name f).series := rfl
      exact min_series_nonneg all made
    have tgen := nonneg "TGen" (fun p => count p.1) fun p => (count_bounds p.1).1
    have mlp := nonneg "MLP" (fun p => count p.2) fun p => (count_bounds p.2).1
    have blocks : (Entry.mlpOnly l (p :: ps)).blocks =
        [block "TGen" fun p => count p.1, block "MLP" fun p => count p.2,
          block "MLP_only" fun p => count p.2 - count p.1] := rfl
    cases origin : Label.origin l with
    | false =>
      rw [pick_apart origin fun b mem => ?_, mlpRecord, if_neg (by rw [origin]; decide)]
      rw [blocks] at mem
      simp only [List.mem_cons, List.not_mem_nil, or_false] at mem
      rcases mem with rfl | rfl | rfl
      all_goals exact ⟨_, by decide, rfl⟩
    | true =>
      have first : isMlpOnly (N.record O "mlp_only".toList (block "TGen" fun p => count p.1)) =
          false := by
        rw [isMlpOnly_record l (by decide), origin]
        decide
      have second : isMlpOnly (N.record O "mlp_only".toList (block "MLP" fun p => count p.2)) =
          true := by
        rw [isMlpOnly_record l (by decide), origin]
        decide
      rw [blocks, keptRecords_cons, if_pos tgen, keptRecords_cons, if_pos mlp,
        List.singleton_append, List.singleton_append, pickMlpOnly,
        List.find?_cons_of_neg (by rw [first]; decide), List.find?_cons_of_pos second,
        mlpRecord, if_pos origin]
      rfl

/-- What soc_latency_diag_mlp_only.py prints. -/
def Entry.OfMlpOnly : Entry → Prop
  | .mlpOnly _ _ => True
  | .other _ => True
  | _ => False

def Entry.mlp (N : Numbers) (O : Floats F) : Entry → Option (SummaryRecord F)
  | .mlpOnly l pairs => mlpRecord N O l pairs
  | _ => none

theorem pick_entries {log : List Entry} (own : ∀ e ∈ log, Entry.OfMlpOnly e) :
    pickMlpOnly (keptRecords N O "mlp_only".toList (log.flatMap Entry.blocks)) =
      log.findSome? (Entry.mlp N O) := by
  induction log with
  | nil => rfl
  | cons e log ih =>
    rw [List.forall_mem_cons] at own
    have split : keptRecords N O "mlp_only".toList ((e :: log).flatMap Entry.blocks) =
        keptRecords N O "mlp_only".toList e.blocks ++
          keptRecords N O "mlp_only".toList (log.flatMap Entry.blocks) := by
      simp [keptRecords]
    have here : pickMlpOnly (keptRecords N O "mlp_only".toList e.blocks) = Entry.mlp N O e := by
      cases e with
      | mlpOnly l pairs => exact pick_mlpOnly l pairs
      | other line => rfl
      | cycles l counts => exact absurd own.1 id
      | nodma l pairs => exact absurd own.1 id
    rw [split, pickMlpOnly_append, here, ih own.2, List.findSome?_cons]
    cases Entry.mlp N O e <;> rfl

theorem filter_picks {full mlpOnly nodma core : Option (SummaryRecord F)}
    (other : ∀ picked ∈ [full, nodma, core], ∀ r ∈ picked, isOverlay "mlp_only" r = false)
    (own : ∀ r ∈ mlpOnly, isOverlay "mlp_only" r = true) :
    [full, mlpOnly, nodma, core].reduceOption.filter (isOverlay "mlp_only") = mlpOnly.toList := by
  simp only [List.forall_mem_cons] at other
  obtain ⟨full', nodma', core', -⟩ := other
  have dropped {picked : Option (SummaryRecord F)}
      (apart : ∀ r ∈ picked, isOverlay "mlp_only" r = false) :
      picked.toList.filter (isOverlay "mlp_only") = [] := by
    cases picked with
    | none => rfl
    | some r => exact List.filter_cons_of_neg (by rw [apart r rfl]; decide)
  have whole : [full, mlpOnly, nodma, core].reduceOption =
      full.toList ++ (mlpOnly.toList ++ (nodma.toList ++ core.toList)) := by
    cases full <;> cases mlpOnly <;> cases nodma <;> cases core <;> rfl
  rw [whole, List.filter_append, List.filter_append, List.filter_append, dropped full',
    dropped nodma', dropped core']
  cases mlpOnly with
  | none => rfl
  | some r =>
    have kept : [r].filter (isOverlay "mlp_only") = [r] := List.filter_cons_of_pos (own r rfl)
    rw [Option.toList_some, kept]
    rfl

theorem overlay_apart {overlay : String} (apart : overlay ≠ "mlp_only") {r : SummaryRecord F}
    (own : isOverlay overlay r = true) : isOverlay "mlp_only" r = false := by
  rw [isOverlay, beq_iff_eq] at own
  rw [isOverlay, own, beq_eq_false_iff_ne]
  exact fun same => apart (String.toList_inj.mp same)

theorem picks_apart (records : List (SummaryRecord F)) :
    ∀ picked ∈ [pickFull records, pickNodma records, pickCore records],
      ∀ r ∈ picked, isOverlay "mlp_only" r = false := by
  simp only [List.forall_mem_cons]
  refine ⟨fun r mem => ?_, fun r mem => ?_, fun r mem => ?_, List.forall_mem_nil _⟩
  · rcases Option.or_eq_some_iff.mp mem with found | ⟨-, found⟩
    all_goals
      have own := List.find?_some found
      simp only [Bool.and_eq_true] at own
    · exact overlay_apart (by decide) own.1
    · exact overlay_apart (by decide) own.1
  · have own := List.find?_some mem
    simp only [Bool.and_eq_true] at own
    exact overlay_apart (by decide) own.1.1
  · rcases Option.or_eq_some_iff.mp mem with found | ⟨-, found⟩
    all_goals
      have own := List.find?_some found
      simp only [Bool.and_eq_true] at own
    · exact overlay_apart (by decide) own.1.1
    · exact overlay_apart (by decide) own.1

/-- Whatever the four logs hold, the representative of mlp_only is the series of the MLP at the
origin, with the traffic generator in it, and never that of MLP_only. -/
theorem representative_is_mlp (N : Numbers) (O : Floats F)
    (full mlpOnly nodma core : Option (List Entry))
    (quiet : ∀ log ∈ [full, mlpOnly, nodma, core], ∀ es ∈ log, ∀ line, .other line ∈ es →
      Quiet line)
    (own : ∀ es ∈ mlpOnly, ∀ e ∈ es, Entry.OfMlpOnly e) :
    (pickRepresentativeRecords (allRecords O ⟨full.map (logLines N), mlpOnly.map (logLines N),
        nodma.map (logLines N), core.map (logLines N)⟩)).filter (isOverlay "mlp_only") =
      ((mlpOnly.getD []).findSome? (Entry.mlp N O)).toList := by
  simp only [List.forall_mem_cons] at quiet
  obtain ⟨quietFull, quietMlpOnly, quietNodma, quietCore, -⟩ := quiet
  have entries : ∀ e ∈ mlpOnly.getD [], Entry.OfMlpOnly e := by
    cases mlpOnly with
    | none => exact List.forall_mem_nil _
    | some es => exact own es rfl
  generalize records : allRecords O _ = rs
  have picked : pickMlpOnly rs = (mlpOnly.getD []).findSome? (Entry.mlp N O) := by
    have fullApart : "full".toList ≠ "mlp_only".toList := by decide
    have nodmaApart : "nodma".toList ≠ "mlp_only".toList := by decide
    have coreApart : "core".toList ≠ "mlp_only".toList := by decide
    rw [← records, allRecords]
    dsimp only
    rw [records_of_parsed quietFull, records_of_parsed quietMlpOnly,
      records_of_parsed quietNodma, records_of_parsed quietCore, pickMlpOnly_append,
      pickMlpOnly_append, pickMlpOnly_append, pick_other fullApart, pick_other nodmaApart,
      pick_other coreApart, Option.none_or, Option.or_none, Option.or_none, pick_entries entries]
  rw [pickRepresentativeRecords, ← picked]
  refine filter_picks (picks_apart rs) fun r mem => ?_
  have chosen := List.find?_some mem
  simp only [isMlpOnly, Bool.and_eq_true] at chosen
  exact chosen.1.1

theorem representative_of_shortLog :
    (pickRepresentativeRecords (allRecords wholeFloats
        ⟨none, some (logLines wholeNumbers shortLog), none, none⟩)).filter
          (isOverlay "mlp_only") =
      [wholeNumbers.record wholeFloats "mlp_only".toList
        ⟨"delay_cycles=0 num_words=4 :: MLP".toList, "MLP".toList, ⟨5, []⟩⟩] := by
  have quiet : ∀ log ∈ [none, some shortLog, none, none], ∀ es ∈ log, ∀ line,
      .other line ∈ es → Quiet line := by
    simpa using quiet_shortLog
  have own : ∀ es ∈ some shortLog, ∀ e ∈ es, Entry.OfMlpOnly e := by
    simp [shortLog, Entry.OfMlpOnly]
  exact representative_is_mlp wholeNumbers wholeFloats none (some shortLog) none none quiet own

end HftLatencyLab.SocSummaries
