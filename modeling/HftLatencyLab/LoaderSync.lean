import HftLatencyLab.WeightLoad

/-! How many words the loader sends and how many the reload branch of mlp_infer_stream takes,
for sizes of any kind. The reload never takes more; it takes no more of W0 and W1 than their
arrays hold, so the rest of a larger configuration stays in the stream; and it takes all of B0,
also what s_b0 has no place for. -/

namespace HftLatencyLab.LoaderSync
open AxiStream ByteOrder WeightLoad

def emitted (s : Sizes) : ℕ :=
  wordCount s.w0Bytes + s.b0Words.toNat + wordCount s.w1Bytes + s.b1Words.toNat

def consumed (s : Sizes) : ℕ :=
  min 32 (wordCount s.w0Bytes) + s.b0Words.toNat + min 8 (wordCount s.w1Bytes) + s.b1Words.toNat

theorem length_sentWords (ddr : Ddr) (s : Sizes) : (sentWords ddr s).length = emitted s := by
  simp only [sentWords, emitted, byteWords, streamWords, List.length_append, List.length_map,
    List.length_range', List.length_range]
  omega

theorem length_weightLoader (ddr : Ddr) (s : Sizes) (fuel : ℕ)
    (hw0 : s.w0Bytes.toNat ≤ 2 ^ 32 - 4) (hw1 : s.w1Bytes.toNat ≤ 2 ^ 32 - 4)
    (hf0 : wordCount s.w0Bytes < fuel) (hf1 : wordCount s.w1Bytes < fuel) :
    ∃ words, weightLoader fuel ddr s true = some words ∧ words.length = emitted s :=
  ⟨_, weightLoader_eq ddr s fuel hw0 hw1 hf0 hf1, length_sentWords ddr s⟩

theorem consumed_le_emitted (s : Sizes) : consumed s ≤ emitted s := by
  unfold consumed emitted
  omega

theorem emitted_eq_consumed_iff (s : Sizes) :
    emitted s = consumed s ↔ s.w0Bytes.toNat ≤ 128 ∧ s.w1Bytes.toNat ≤ 32 := by
  unfold emitted consumed wordCount
  omega

variable {α : Type}

theorem loadBytes_consumes (store : α → ℕ → Byte → α) (bytes : BitVec 32) (left w : ℕ)
    (wload : List Axis32) (a : α)
    (enough : min left (wordCount bytes - w) ≤ wload.length) :
    ∃ a', loadBytes store bytes left w wload a =
      .ok (wload.drop (min left (wordCount bytes - w)), a') := by
  induction left generalizing w wload a with
  | zero => exact ⟨a, by rw [loadBytes, Nat.zero_min, List.drop_zero]⟩
  | succ left ih =>
    by_cases ended : w * 4 ≥ bytes.toNat
    · have none : wordCount bytes - w = 0 := by
        unfold wordCount
        omega
      exact ⟨a, by rw [loadBytes, if_pos ended, none, Nat.min_zero, List.drop_zero]⟩
    · have one : min (left + 1) (wordCount bytes - w) =
          min left (wordCount bytes - (w + 1)) + 1 := by
        unfold wordCount
        omega
      rw [one] at enough ⊢
      cases wload with
      | nil => simp at enough
      | cons word rest =>
        rw [List.length_cons] at enough
        obtain ⟨a', later⟩ := ih (w + 1) rest (storeWord store bytes w word.data a) (by omega)
        refine ⟨a', ?_⟩
        rw [loadBytes, if_neg ended, List.drop_succ_cons, ← later]
        rfl

theorem loadWords_consumes {store : α → ℕ → BitVec 32 → Except LoadError α} {size : ℕ}
    (ok : ∀ a i d, i < size → ∃ a', store a i d = .ok a') (n i : ℕ) (fits : i + n ≤ size)
    (wload : List Axis32) (a : α) (enough : n ≤ wload.length) :
    ∃ a', loadWords store n i wload a = .ok (wload.drop n, a') := by
  induction n generalizing i wload a with
  | zero => exact ⟨a, rfl⟩
  | succ n ih =>
    cases wload with
    | nil => simp at enough
    | cons word rest =>
      rw [List.length_cons] at enough
      obtain ⟨stored, put⟩ := ok a i word.data (by omega)
      obtain ⟨a', later⟩ := ih (i + 1) (by omega) rest stored (by omega)
      refine ⟨a', ?_⟩
      simp only [loadWords, readWord, bind, Except.bind, put, List.drop_succ_cons]
      exact later

theorem loadWords_overruns {store : α → ℕ → BitVec 32 → Except LoadError α} {size : ℕ}
    (ok : ∀ a i d, i < size → ∃ a', store a i d = .ok a')
    (full : ∀ a i d, size ≤ i → store a i d = .error .outOfBounds) (n i : ℕ) (before : i ≤ size)
    (more : size < i + n) (wload : List Axis32) (a : α) (enough : n ≤ wload.length) :
    loadWords store n i wload a = .error .outOfBounds := by
  induction n generalizing i wload a with
  | zero => omega
  | succ n ih =>
    cases wload with
    | nil => simp at enough
    | cons word rest =>
      rw [List.length_cons] at enough
      by_cases inside : i < size
      · obtain ⟨stored, put⟩ := ok a i word.data inside
        simp only [loadWords, readWord, bind, Except.bind, put]
        exact ih (i + 1) (by omega) (by omega) rest stored (by omega)
      · simp only [loadWords, readWord, bind, Except.bind, full a i word.data (by omega)]

theorem storeB0_inside (a : Vector (BitVec 32) 32) (i : ℕ) (d : BitVec 32) (h : i < 32) :
    ∃ a', storeB0 a i d = .ok a' := ⟨_, storeB0_ok a i d h⟩

theorem storeB0_outside (a : Vector (BitVec 32) 32) (i : ℕ) (d : BitVec 32) (h : 32 ≤ i) :
    storeB0 a i d = .error .outOfBounds := by
  rw [storeB0, dif_neg (by omega)]

theorem storeB1_inside (size : ℕ) (a : BitVec 32) (i : ℕ) (d : BitVec 32) (_ : i < size) :
    ∃ a', storeB1 a i d = .ok a' := ⟨_, rfl⟩

theorem reload_consumes (s : Sizes) (c : WeightCache) (hb0 : s.b0Words.toNat ≤ 32)
    {wload : List Axis32} (enough : consumed s ≤ wload.length) :
    ∃ after, reload s wload c = .ok (wload.drop (consumed s), after) := by
  unfold consumed at enough ⊢
  obtain ⟨sW0, w0⟩ := loadBytes_consumes storeW0 s.w0Bytes 32 0 wload c.sW0 (by omega)
  rw [Nat.sub_zero] at w0
  obtain ⟨sB0, b0⟩ := loadWords_consumes storeB0_inside s.b0Words.toNat 0 (by omega)
    (wload.drop (min 32 (wordCount s.w0Bytes))) c.sB0 (by rw [List.length_drop]; omega)
  rw [List.drop_drop] at b0
  obtain ⟨sW1, w1⟩ := loadBytes_consumes storeW1 s.w1Bytes 8 0
    (wload.drop (min 32 (wordCount s.w0Bytes) + s.b0Words.toNat)) c.sW1
    (by rw [List.length_drop]; omega)
  rw [Nat.sub_zero, List.drop_drop] at w1
  obtain ⟨sB1, b1⟩ := loadWords_consumes (storeB1_inside s.b1Words.toNat) s.b1Words.toNat 0
    (by omega)
    (wload.drop (min 32 (wordCount s.w0Bytes) + s.b0Words.toNat +
      min 8 (wordCount s.w1Bytes))) c.sB1Scalar (by rw [List.length_drop]; omega)
  rw [List.drop_drop] at b1
  refine ⟨⟨sW0, sB0, sW1, sB1⟩, ?_⟩
  simp only [reload, w0, b0, w1, b1, bind, Except.bind, pure, Except.pure]

theorem reload_overruns (s : Sizes) (c : WeightCache) (hb0 : 32 < s.b0Words.toNat)
    {wload : List Axis32} (enough : consumed s ≤ wload.length) :
    reload s wload c = .error .outOfBounds := by
  unfold consumed at enough
  obtain ⟨sW0, w0⟩ := loadBytes_consumes storeW0 s.w0Bytes 32 0 wload c.sW0 (by omega)
  rw [Nat.sub_zero] at w0
  have b0 := loadWords_overruns storeB0_inside storeB0_outside s.b0Words.toNat 0 (by omega)
    (by omega) (wload.drop (min 32 (wordCount s.w0Bytes))) c.sB0
    (by rw [List.length_drop]; omega)
  simp only [reload, w0, b0, bind, Except.bind]

/-- With room for the biases the reload takes its words from the front of what the loader sends
and leaves the rest. -/
theorem reload_leaves {words : List Axis32} {s : Sizes} (c : WeightCache)
    (hb0 : s.b0Words.toNat ≤ 32) (length : words.length = emitted s) :
    ∃ after, reload s words c = .ok (words.drop (consumed s), after) ∧
      (words.drop (consumed s) = [] ↔ s.w0Bytes.toNat ≤ 128 ∧ s.w1Bytes.toNat ≤ 32) := by
  have less := consumed_le_emitted s
  obtain ⟨after, loaded⟩ := reload_consumes s c hb0 (by omega : consumed s ≤ words.length)
  refine ⟨after, loaded, ?_⟩
  rw [List.drop_eq_nil_iff, length, ← emitted_eq_consumed_iff]
  omega

/-- The reload takes every word of the loader and stores within the arrays just as long as each
section fits its array. -/
theorem in_step_iff (ddr : Ddr) (s : Sizes) (c : WeightCache) (fuel : ℕ)
    (hw0 : s.w0Bytes.toNat ≤ 2 ^ 32 - 4) (hw1 : s.w1Bytes.toNat ≤ 2 ^ 32 - 4)
    (hf0 : wordCount s.w0Bytes < fuel) (hf1 : wordCount s.w1Bytes < fuel) :
    ∃ words, weightLoader fuel ddr s true = some words ∧
      ((∃ after, reload s words c = .ok ([], after)) ↔
        s.w0Bytes.toNat ≤ 128 ∧ s.b0Words.toNat ≤ 32 ∧ s.w1Bytes.toNat ≤ 32) := by
  obtain ⟨words, sent, length⟩ := length_weightLoader ddr s fuel hw0 hw1 hf0 hf1
  refine ⟨words, sent, ?_⟩
  by_cases hb0 : s.b0Words.toNat ≤ 32
  · obtain ⟨after, loaded, rest⟩ := reload_leaves c hb0 length
    constructor
    · rintro ⟨after', all⟩
      rw [loaded, Except.ok.injEq, Prod.mk.injEq] at all
      exact ⟨(rest.mp all.1).1, hb0, (rest.mp all.1).2⟩
    · rintro ⟨h0, -, h1⟩
      exact ⟨after, by rw [loaded, rest.mpr ⟨h0, h1⟩]⟩
  · have less := consumed_le_emitted s
    have overrun := reload_overruns s c (by omega) (by omega : consumed s ≤ words.length)
    constructor
    · rintro ⟨after, all⟩
      rw [overrun] at all
      cases all
    · rintro ⟨-, fits, -⟩
      exact absurd fits hb0

theorem in_step_six_bytes :
    ∃ words, weightLoader 3 ⟨fun i => i, fun _ => 1, fun _ => 2, fun _ => 3⟩ ⟨6, 2, 5, 3⟩ true =
        some words ∧
      ((∃ after, reload ⟨6, 2, 5, 3⟩ words .powerOn = .ok ([], after)) ↔
        (6 : BitVec 32).toNat ≤ 128 ∧ (2 : BitVec 32).toNat ≤ 32 ∧ (5 : BitVec 32).toNat ≤ 32) :=
  in_step_iff ⟨fun i => i, fun _ => 1, fun _ => 2, fun _ => 3⟩ ⟨6, 2, 5, 3⟩ .powerOn 3 (by decide)
    (by decide) (by decide) (by decide)

/-- One word of W0 too many is left for the next reload. -/
theorem thirty_third_word_stays :
    (weightLoader 34 ⟨fun _ => 7, fun _ => 0, fun _ => 0, fun _ => 0⟩ ⟨132, 0, 0, 0⟩ true).map
        (fun words => (reload ⟨132, 0, 0, 0⟩ words .powerOn).map Prod.fst) =
      some (.ok [outw 0x07070707 false]) := by
  rfl

end HftLatencyLab.LoaderSync
