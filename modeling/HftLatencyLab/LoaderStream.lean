import HftLatencyLab.LoaderSync

/-! The whole stream of weight_loader, with the counters of all four loops as they are. The loops
over bytes advance by 4 and never end where the counter wraps before it reaches the size; the
loops over words always end. The end marker is on the last word of B1, so a stream whose B1 is
empty has none. -/

namespace HftLatencyLab.LoaderStream
open AxiStream ByteOrder CounterLoop WeightLoad LoaderSync

/-- `for (ap_uint<32> i = 0; i < words; ++i)`, with the mark on `i == words - 1`. -/
def wordLoop (ptr : ℕ → BitVec 32) (words : BitVec 32) (marksLast : Bool) (fuel : ℕ) :
    Option (List Axis32) :=
  loop (fun i => outw (ptr i.toNat) (marksLast && i == words - 1)) 1 words fuel 0

/-- `weightLoader`, with the loops over words run on their counters too. -/
def weightLoaderLoops (fuel : ℕ) (ddr : Ddr) (s : Sizes) (start : Bool) : Option (List Axis32) :=
  if start then do
    let w0 ← streamBytes ddr.w0 s.w0Bytes fuel 0
    let b0 ← wordLoop ddr.b0 s.b0Words false fuel
    let w1 ← streamBytes ddr.w1 s.w1Bytes fuel 0
    let b1 ← wordLoop ddr.b1 s.b1Words true fuel
    return w0 ++ (b0 ++ (w1 ++ b1))
  else some []

/-- The words are marked at the end and nowhere else. -/
def Delimited (words : List Axis32) : Prop :=
  ∀ (i : ℕ) (h : i < words.length), words[i].last = true ↔ i + 1 = words.length

def Delivers (ddr : Ddr) (s : Sizes) : Prop :=
  ∃ fuel words, weightLoaderLoops fuel ddr s true = some words ∧ words.length = emitted s ∧
    Delimited words

theorem one_divides : (1 : BitVec 32).toNat ∣ 2 ^ 32 := by decide

theorem rounds_one (words : BitVec 32) : rounds 1 words = words.toNat := by
  rw [rounds, Nat.ceilDiv_eq_add_pred_div]
  exact Nat.div_one _

theorem isLast_eq {i words : BitVec 32} (below : i.toNat < words.toNat) :
    (i == words - 1) = (i.toNat == words.toNat - 1) := by
  have one : (1 : BitVec 32) ≤ words := by
    change 1 ≤ words.toNat
    omega
  have last : (words - 1).toNat = words.toNat - 1 := BitVec.toNat_sub_of_le one
  rw [Bool.eq_iff_iff, beq_iff_eq, beq_iff_eq, ← BitVec.toNat_inj, last]

theorem wordLoop_eq (ptr : ℕ → BitVec 32) (words : BitVec 32) (marksLast : Bool) {fuel : ℕ}
    (enough : words.toNat < fuel) :
    wordLoop ptr words marksLast fuel = some (streamWords ptr words marksLast) := by
  have within : words.toNat ≤ 2 ^ 32 - (1 : BitVec 32).toNat := Nat.le_pred_of_lt words.isLt
  have fits := rounds_fit one_divides within
  rw [wordLoop, loop_within one_divides within (by rwa [rounds_one]), rounds_one, streamWords,
    List.range_eq_range']
  refine congrArg some (List.map_congr_left fun j mem => ?_)
  have below : j < words.toNat := by
    have inside := (List.mem_range'_1.mp mem).2
    omega
  have value : (index (1 : BitVec 32) j).toNat = j := by
    rw [index_toNat fits (by rw [rounds_one]; omega)]
    exact Nat.one_mul j
  rw [isLast_eq (by rwa [value]), value]

theorem weightLoaderLoops_eq (ddr : Ddr) (s : Sizes) (start : Bool) {fuel : ℕ}
    (hb0 : s.b0Words.toNat < fuel) (hb1 : s.b1Words.toNat < fuel) :
    weightLoaderLoops fuel ddr s start = weightLoader fuel ddr s start := by
  rw [weightLoaderLoops, weightLoader, wordLoop_eq _ _ _ hb0, wordLoop_eq _ _ _ hb1]
  rfl

theorem streamBytes_ended {ptr : ℕ → Byte} {bytes : BitVec 32} {fuel : ℕ} {words : List Axis32}
    (ended : streamBytes ptr bytes fuel 0 = some words) :
    bytes.toNat ≤ 2 ^ 32 - 4 ∧ words = byteWords ptr bytes 0 (wordCount bytes) := by
  rw [streamBytes_loop] at ended
  have within : bytes.toNat ≤ 2 ^ 32 - 4 := (ends_iff four_divides).mp ⟨fuel, words, ended⟩
  have made := streamBytes_eq ptr bytes within (Nat.lt_succ_self _)
  rw [streamBytes_loop] at made
  exact ⟨within, loop_unique ended made⟩

theorem wordLoop_ended {ptr : ℕ → BitVec 32} {words : BitVec 32} {marksLast : Bool} {fuel : ℕ}
    {sent : List Axis32} (ended : wordLoop ptr words marksLast fuel = some sent) :
    sent = streamWords ptr words marksLast :=
  loop_unique ended (wordLoop_eq ptr words marksLast (Nat.lt_succ_self _))

/-- The loops end just as long as both byte sizes leave room for the last step of the counter,
and then with the sections. -/
theorem loops_end_iff (ddr : Ddr) (s : Sizes) (words : List Axis32) :
    (∃ fuel, weightLoaderLoops fuel ddr s true = some words) ↔
      s.w0Bytes.toNat ≤ 2 ^ 32 - 4 ∧ s.w1Bytes.toNat ≤ 2 ^ 32 - 4 ∧ words = sentWords ddr s := by
  constructor
  · rintro ⟨fuel, ended⟩
    simp only [weightLoaderLoops, if_true, Option.bind_eq_bind, Option.bind_eq_some_iff,
      Option.pure_def, Option.some.injEq] at ended
    obtain ⟨w0, ends0, b0, ends1, w1, ends2, b1, ends3, rfl⟩ := ended
    obtain ⟨hw0, rfl⟩ := streamBytes_ended ends0
    obtain ⟨hw1, rfl⟩ := streamBytes_ended ends2
    exact ⟨hw0, hw1, by rw [wordLoop_ended ends1, wordLoop_ended ends3, sentWords]⟩
  · rintro ⟨hw0, hw1, rfl⟩
    refine ⟨emitted s + 1, ?_⟩
    have most : wordCount s.w0Bytes < emitted s + 1 ∧ s.b0Words.toNat < emitted s + 1 ∧
        wordCount s.w1Bytes < emitted s + 1 ∧ s.b1Words.toNat < emitted s + 1 := by
      unfold emitted
      omega
    obtain ⟨hf0, hb0, hf1, hb1⟩ := most
    rw [weightLoaderLoops_eq ddr s true hb0 hb1]
    exact weightLoader_eq ddr s _ hw0 hw1 hf0 hf1

theorem loops_never_end {s : Sizes} (beyond : 2 ^ 32 - 4 < s.w0Bytes.toNat ∨
    2 ^ 32 - 4 < s.w1Bytes.toNat) (ddr : Ddr) (fuel : ℕ) :
    weightLoaderLoops fuel ddr s true = none := by
  cases ended : weightLoaderLoops fuel ddr s true with
  | none => rfl
  | some words =>
    obtain ⟨hw0, hw1, -⟩ := (loops_end_iff ddr s words).mp ⟨fuel, ended⟩
    omega

theorem delimited_append_iff {front back : List Axis32} (unmarked : ∀ w ∈ front, w.last = false) :
    Delimited (front ++ back) ↔ Delimited back ∧ (back = [] → front = []) := by
  have total : (front ++ back).length = front.length + back.length := List.length_append
  constructor
  · intro h
    constructor
    · intro i inside
      have there := h (front.length + i) (by omega)
      rw [List.getElem_append_right (Nat.le_add_right _ _)] at there
      simp only [Nat.add_sub_cancel_left] at there
      rw [there]
      omega
    · rintro rfl
      by_contra some
      have pos := List.length_pos_of_ne_nil some
      rw [List.append_nil] at h
      have marked := (h (front.length - 1) (by omega)).mpr (by omega)
      rw [unmarked _ (List.getElem_mem _)] at marked
      contradiction
  · rintro ⟨h, empty⟩ i inside
    by_cases before : i < front.length
    · rw [List.getElem_append_left before, unmarked _ (List.getElem_mem before)]
      have some : back ≠ [] := by
        intro none
        rw [empty none] at before
        exact Nat.not_lt_zero i before
      have pos := List.length_pos_of_ne_nil some
      simp only [Bool.false_eq_true, false_iff]
      omega
    · rw [List.getElem_append_right (by omega), h (i - front.length) (by omega)]
      omega

theorem delimited_b1 (ptr : ℕ → BitVec 32) (words : BitVec 32) :
    Delimited (streamWords ptr words true) := by
  intro i inside
  simp only [streamWords, List.length_map, List.length_range] at inside ⊢
  rw [List.getElem_map, List.getElem_range, outw, Bool.true_and, beq_iff_eq]
  omega

def beforeB1 (ddr : Ddr) (s : Sizes) : List Axis32 :=
  byteWords ddr.w0 s.w0Bytes 0 (wordCount s.w0Bytes) ++
    (streamWords ddr.b0 s.b0Words false ++ byteWords ddr.w1 s.w1Bytes 0 (wordCount s.w1Bytes))

theorem sentWords_eq (ddr : Ddr) (s : Sizes) :
    sentWords ddr s = beforeB1 ddr s ++ streamWords ddr.b1 s.b1Words true := by
  rw [sentWords, beforeB1, List.append_assoc, List.append_assoc]

theorem beforeB1_unmarked (ddr : Ddr) (s : Sizes) : ∀ w ∈ beforeB1 ddr s, w.last = false := by
  have bytes (ptr : ℕ → Byte) (size : BitVec 32) (n : ℕ) :
      ∀ w ∈ byteWords ptr size 0 n, w.last = false := by
    intro w mem
    obtain ⟨j, -, rfl⟩ := List.mem_map.mp mem
    rfl
  intro w mem
  rcases List.mem_append.mp mem with w0 | mem
  · exact bytes _ _ _ w w0
  · rcases List.mem_append.mp mem with b0 | w1
    · obtain ⟨j, -, rfl⟩ := List.mem_map.mp b0
      rfl
    · exact bytes _ _ _ w w1

theorem beforeB1_eq_nil_iff (ddr : Ddr) (s : Sizes) : beforeB1 ddr s = [] ↔
    s.w0Bytes.toNat = 0 ∧ s.b0Words.toNat = 0 ∧ s.w1Bytes.toNat = 0 := by
  rw [← List.length_eq_zero_iff]
  simp only [beforeB1, byteWords, streamWords, List.length_append, List.length_map,
    List.length_range', List.length_range, wordCount]
  omega

theorem delimited_sentWords_iff (ddr : Ddr) (s : Sizes) :
    Delimited (sentWords ddr s) ↔ 0 < s.b1Words.toNat ∨ s = ⟨0, 0, 0, 0⟩ := by
  have marked := delimited_b1 ddr.b1 s.b1Words
  have b1 : streamWords ddr.b1 s.b1Words true = [] ↔ s.b1Words.toNat = 0 := by
    rw [← List.length_eq_zero_iff, streamWords, List.length_map, List.length_range]
  have none : s = ⟨0, 0, 0, 0⟩ ↔ s.w0Bytes.toNat = 0 ∧ s.b0Words.toNat = 0 ∧
      s.w1Bytes.toNat = 0 ∧ s.b1Words.toNat = 0 := by
    obtain ⟨w0, b0, w1, b1⟩ := s
    simp [← BitVec.toNat_inj]
  rw [sentWords_eq, delimited_append_iff (beforeB1_unmarked ddr s), b1, beforeB1_eq_nil_iff, none]
  simp only [marked, true_and]
  omega

/-- The stream is finite, complete and marked at its end just as long as both byte sizes leave
room for the last step of the counter, and B1 is there if anything is. -/
theorem whole_stream_iff (ddr : Ddr) (s : Sizes) :
    Delivers ddr s ↔ s.w0Bytes.toNat ≤ 2 ^ 32 - 4 ∧ s.w1Bytes.toNat ≤ 2 ^ 32 - 4 ∧
      (0 < s.b1Words.toNat ∨ s = ⟨0, 0, 0, 0⟩) := by
  rw [← delimited_sentWords_iff ddr s]
  constructor
  · rintro ⟨fuel, words, ended, -, marked⟩
    obtain ⟨hw0, hw1, rfl⟩ := (loops_end_iff ddr s words).mp ⟨fuel, ended⟩
    exact ⟨hw0, hw1, marked⟩
  · rintro ⟨hw0, hw1, marked⟩
    obtain ⟨fuel, ended⟩ := (loops_end_iff ddr s _).mpr ⟨hw0, hw1, rfl⟩
    exact ⟨fuel, _, ended, length_sentWords ddr s, marked⟩

def onesDdr : Ddr := ⟨fun _ => 1, fun _ => 1, fun _ => 1, fun _ => 1⟩

/-- Two words of B0 alone, neither of them marked, and a W0 the counter wraps under. -/
theorem b0_alone_unmarked :
    weightLoaderLoops 3 onesDdr ⟨0, 2, 0, 0⟩ true = some [outw 1 false, outw 1 false] ∧
      ¬Delivers onesDdr ⟨0, 2, 0, 0⟩ ∧ ¬Delivers onesDdr ⟨0xFFFFFFFD, 2, 0, 1⟩ := by
  refine ⟨rfl, ?_, ?_⟩
  · rintro ⟨fuel, words, ended, -, marked⟩
    obtain ⟨-, -, rfl⟩ := (loops_end_iff _ _ _).mp ⟨fuel, ended⟩
    exact absurd ((delimited_sentWords_iff _ _).mp marked) (by decide)
  · rintro ⟨fuel, words, ended, -⟩
    obtain ⟨within, -⟩ := (loops_end_iff _ _ _).mp ⟨fuel, ended⟩
    exact absurd within (by decide)

end HftLatencyLab.LoaderStream
