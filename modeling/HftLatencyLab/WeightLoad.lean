import HftLatencyLab.AxiStream
import HftLatencyLab.ByteOrder
import HftLatencyLab.CounterLoop
import HftLatencyLab.FixedWidth
import Mathlib.Data.List.Range
import Mathlib.Data.Vector.Basic

/-! The weights on their way from DDR into the cache of mlp_infer_stream:
weight_loader packs bytes four to a word, most significant first, and the reload
branch unpacks them into the static arrays. Each byte loop is one definition
with the array it fills as a parameter. -/

namespace HftLatencyLab.WeightLoad
open AxiStream ByteOrder FixedWidth CounterLoop

structure Sizes where
  w0Bytes : BitVec 32
  b0Words : BitVec 32
  w1Bytes : BitVec 32
  b1Words : BitVec 32
deriving DecidableEq

structure Ddr where
  w0 : ℕ → Byte
  b0 : ℕ → BitVec 32
  w1 : ℕ → Byte
  b1 : ℕ → BitVec 32

def packWord (b0 b1 b2 b3 : Byte) : BitVec 32 :=
  b0.setWidth 32 <<< 24 ||| b1.setWidth 32 <<< 16 ||| b2.setWidth 32 <<< 8 ||| b3.setWidth 32

def outw (data : BitVec 32) (last : Bool) : Axis32 where
  data := data
  keep := 0xF
  strb := 0xF
  last := last

/-- `(idx + k < bytes) ? ptr[idx + k] : 0`, where the sum does not wrap. -/
def byteOrPad (ptr : ℕ → Byte) (bytes : BitVec 32) (i : ℕ) : Byte :=
  if i < bytes.toNat then ptr i else 0

def wordAt (ptr : ℕ → Byte) (bytes : BitVec 32) (i : ℕ) : Axis32 :=
  outw (packWord (byteOrPad ptr bytes i) (byteOrPad ptr bytes (i + 1))
    (byteOrPad ptr bytes (i + 2)) (byteOrPad ptr bytes (i + 3))) false

/-- `while (idx < bytes)`, with an index that wraps. `none`: the loop has not
ended within `fuel` tests. -/
def streamBytes (ptr : ℕ → Byte) (bytes : BitVec 32) : ℕ → BitVec 32 → Option (List Axis32)
  | 0, _ => none
  | fuel + 1, idx =>
    if idx < bytes then
      (streamBytes ptr bytes fuel (idx + 4)).map (wordAt ptr bytes idx.toNat :: ·)
    else some []

/-- The loops over words; only that of B1 marks its last word. -/
def streamWords (ptr : ℕ → BitVec 32) (words : BitVec 32) (marksLast : Bool) : List Axis32 :=
  (List.range words.toNat).map (fun i => outw (ptr i) (marksLast && i == words.toNat - 1))

def weightLoader (fuel : ℕ) (ddr : Ddr) (s : Sizes) (start : Bool) : Option (List Axis32) :=
  if start then do
    let w0 ← streamBytes ddr.w0 s.w0Bytes fuel 0
    let w1 ← streamBytes ddr.w1 s.w1Bytes fuel 0
    return w0 ++ (streamWords ddr.b0 s.b0Words false ++
      (w1 ++ streamWords ddr.b1 s.b1Words true))
  else some []

structure WeightCache where
  sW0 : Vector (Vector Byte 4) 32
  sB0 : Vector (BitVec 32) 32
  sW1 : Vector Byte 32
  sB1Scalar : BitVec 32
deriving DecidableEq

def WeightCache.powerOn : WeightCache where
  sW0 := .replicate 32 (.replicate 4 0)
  sB0 := .replicate 32 0
  sW1 := .replicate 32 0
  sB1Scalar := 0

inductive LoadError where
  | wloadEmpty
  | outOfBounds
deriving DecidableEq

def readWord : List Axis32 → Except LoadError (BitVec 32 × List Axis32)
  | [] => .error .wloadEmpty
  | w :: rest => .ok (w.data, rest)

def tmpByte (d : BitVec 32) (k : ℕ) : Byte := (d >>> (24 - 8 * k)).setWidth 8

def storeW0 (sW0 : Vector (Vector Byte 4) 32) (idx : ℕ) (b : Byte) : Vector (Vector Byte 4) 32 :=
  if h : idx / 4 < 32 then
    sW0.set (idx / 4) ((sW0.get ⟨idx / 4, h⟩).set (idx % 4) b (Nat.mod_lt idx (by norm_num))) h
  else sW0

def storeW1 (sW1 : Vector Byte 32) (idx : ℕ) (b : Byte) : Vector Byte 32 :=
  if h : idx < 32 then sW1.set idx b h else sW1

variable {α : Type}

/-- The unrolled loop over the bytes of word `w`. -/
def storeWord (store : α → ℕ → Byte → α) (bytes : BitVec 32) (w : ℕ) (d : BitVec 32) (a : α) : α :=
  (List.range 4).foldl
    (fun a k => if w * 4 + k < bytes.toNat then store a (w * 4 + k) (tmpByte d k) else a) a

/-- The loop over at most `left` more words, from word `w` on. -/
def loadBytes (store : α → ℕ → Byte → α) (bytes : BitVec 32) :
    ℕ → ℕ → List Axis32 → α → Except LoadError (List Axis32 × α)
  | 0, _, wload, a => .ok (wload, a)
  | left + 1, w, wload, a =>
    if w * 4 ≥ bytes.toNat then .ok (wload, a)
    else do
      let (d, wload) ← readWord wload
      loadBytes store bytes left (w + 1) wload (storeWord store bytes w d a)

/-- The loop over `left` more words, from index `i` on. -/
def loadWords (store : α → ℕ → BitVec 32 → Except LoadError α) :
    ℕ → ℕ → List Axis32 → α → Except LoadError (List Axis32 × α)
  | 0, _, wload, a => .ok (wload, a)
  | left + 1, i, wload, a => do
    let (d, wload) ← readWord wload
    let a ← store a i d
    loadWords store left (i + 1) wload a

def storeB0 (sB0 : Vector (BitVec 32) 32) (i : ℕ) (d : BitVec 32) :
    Except LoadError (Vector (BitVec 32) 32) :=
  if h : i < 32 then .ok (sB0.set i d h) else .error .outOfBounds

def storeB1 (sB1Scalar : BitVec 32) (i : ℕ) (d : BitVec 32) : Except LoadError (BitVec 32) :=
  .ok (if i = 0 then d else sB1Scalar)

def reload (s : Sizes) (wload : List Axis32) (c : WeightCache) :
    Except LoadError (List Axis32 × WeightCache) := do
  let (wload, sW0) ← loadBytes storeW0 s.w0Bytes 32 0 wload c.sW0
  let (wload, sB0) ← loadWords storeB0 s.b0Words.toNat 0 wload c.sB0
  let (wload, sW1) ← loadBytes storeW1 s.w1Bytes 8 0 wload c.sW1
  let (wload, sB1Scalar) ← loadWords storeB1 s.b1Words.toNat 0 wload c.sB1Scalar
  return (wload, ⟨sW0, sB0, sW1, sB1Scalar⟩)

def wordCount (bytes : BitVec 32) : ℕ := (bytes.toNat + 3) / 4

def byteWords (ptr : ℕ → Byte) (bytes : BitVec 32) (w n : ℕ) : List Axis32 :=
  (List.range' w n).map (fun j => wordAt ptr bytes (4 * j))

theorem byteWords_succ (ptr : ℕ → Byte) (bytes : BitVec 32) (w n : ℕ) :
    byteWords ptr bytes w (n + 1) =
      wordAt ptr bytes (4 * w) :: byteWords ptr bytes (w + 1) n := by
  rw [byteWords, List.range'_succ, List.map_cons]
  rfl

theorem streamBytes_loop (ptr : ℕ → Byte) (bytes : BitVec 32) (fuel : ℕ) (idx : BitVec 32) :
    streamBytes ptr bytes fuel idx =
      loop (fun i => wordAt ptr bytes i.toNat) 4 bytes fuel idx := by
  induction fuel generalizing idx with
  | zero => rfl
  | succ fuel ih => rw [streamBytes, loop, ih]

theorem four_divides : (4 : BitVec 32).toNat ∣ 2 ^ 32 := by decide

theorem rounds_four (bytes : BitVec 32) : rounds 4 bytes = wordCount bytes :=
  Nat.ceilDiv_eq_add_pred_div bytes.toNat 4

theorem streamBytes_eq (ptr : ℕ → Byte) (bytes : BitVec 32) (hb : bytes.toNat ≤ 2 ^ 32 - 4)
    {fuel : ℕ} (hf : wordCount bytes < fuel) :
    streamBytes ptr bytes fuel 0 = some (byteWords ptr bytes 0 (wordCount bytes)) := by
  have within : bytes.toNat ≤ 2 ^ 32 - (4 : BitVec 32).toNat := hb
  have fits := rounds_fit four_divides within
  rw [streamBytes_loop, loop_within four_divides within (by rwa [rounds_four]), byteWords,
    ← rounds_four]
  refine congrArg some (List.map_congr_left fun j mem => ?_)
  have made : j < 0 + rounds 4 bytes := (List.mem_range'_1.mp mem).2
  rw [index_toNat fits (by omega)]
  rfl

theorem tmpByte_packWord (b0 b1 b2 b3 : Byte) :
    tmpByte (packWord b0 b1 b2 b3) 0 = b0 ∧ tmpByte (packWord b0 b1 b2 b3) 1 = b1 ∧
      tmpByte (packWord b0 b1 b2 b3) 2 = b2 ∧ tmpByte (packWord b0 b1 b2 b3) 3 = b3 := by
  have lane (j : ℕ) (hj : j < 4) :
      (packWord b0 b1 b2 b3 >>> (8 * j)).setWidth 8 = [b3, b2, b1, b0][j] := by
    have base : (2 : ℕ) ^ (8 * j) = 256 ^ j := by
      rw [pow_mul]
      norm_num
    apply BitVec.eq_of_toNat_eq
    rw [← lane_ofLE [b3, b2, b1, b0] j hj, BitVec.toNat_setWidth, BitVec.toNat_ushiftRight,
      packWord, toNat_be32, Nat.shiftRight_eq_div_pow, base]
    rfl
  exact ⟨lane 3 (by norm_num), lane 2 (by norm_num), lane 1 (by norm_num), lane 0 (by norm_num)⟩

/-- Storing `ptr i` at `i`, for the indices of a byte array. -/
def storeAt (store : α → ℕ → Byte → α) (ptr : ℕ → Byte) (bytes : BitVec 32) (a : α) (i : ℕ) : α :=
  if i < bytes.toNat then store a i (ptr i) else a

theorem storeWord_wordAt (store : α → ℕ → Byte → α) (ptr : ℕ → Byte) (bytes : BitVec 32) (w : ℕ)
    (a : α) : storeWord store bytes w (wordAt ptr bytes (4 * w)).data a =
      (List.range' (4 * w) 4).foldl (storeAt store ptr bytes) a := by
  obtain ⟨t0, t1, t2, t3⟩ := tmpByte_packWord (byteOrPad ptr bytes (4 * w))
    (byteOrPad ptr bytes (4 * w + 1)) (byteOrPad ptr bytes (4 * w + 2))
    (byteOrPad ptr bytes (4 * w + 3))
  have step (a : α) (i : ℕ) : (if i < bytes.toNat then store a i (byteOrPad ptr bytes i) else a) =
      storeAt store ptr bytes a i := by
    unfold storeAt byteOrPad
    split <;> rfl
  simp only [storeWord, wordAt, outw, List.range_succ, List.range_zero, List.nil_append,
    List.cons_append, List.foldl_cons, List.foldl_nil, t0, t1, t2, t3, mul_comm w 4, add_zero, step]
  rfl

theorem loadBytes_byteWords (store : α → ℕ → Byte → α) (ptr : ℕ → Byte) (bytes : BitVec 32)
    (n w left : ℕ) (h : w + n = wordCount bytes) (hl : n ≤ left) (rest : List Axis32) (a : α) :
    loadBytes store bytes left w (byteWords ptr bytes w n ++ rest) a =
      .ok (rest, (List.range' (4 * w) (4 * n)).foldl (storeAt store ptr bytes) a) := by
  induction n generalizing w left a with
  | zero =>
    have ended : w * 4 ≥ bytes.toNat := by
      unfold wordCount at h
      omega
    cases left with
    | zero => rfl
    | succ left =>
      rw [loadBytes, if_pos ended]
      rfl
  | succ n ih =>
    have more : ¬w * 4 ≥ bytes.toNat := by
      unfold wordCount at h
      omega
    obtain ⟨left, rfl⟩ := Nat.exists_eq_succ_of_ne_zero (Nat.ne_of_gt (by omega : 0 < left))
    have later := ih (w + 1) left (by omega) (by omega)
      (storeWord store bytes w (wordAt ptr bytes (4 * w)).data a)
    have split : List.range' (4 * w) (4 * (n + 1)) =
        List.range' (4 * w) 4 ++ List.range' (4 * (w + 1)) (4 * n) := by
      rw [show 4 * (n + 1) = 4 + 4 * n by ring, ← List.range'_append]
      ring_nf
    rw [loadBytes, if_neg more, byteWords_succ, List.cons_append, split, List.foldl_append,
      ← storeWord_wordAt]
    exact later

def dataWords (ptr : ℕ → BitVec 32) (last : ℕ → Bool) (i n : ℕ) : List Axis32 :=
  (List.range' i n).map (fun j => outw (ptr j) (last j))

theorem streamWords_eq (ptr : ℕ → BitVec 32) (words : BitVec 32) (marksLast : Bool) :
    streamWords ptr words marksLast =
      dataWords ptr (fun j => marksLast && j == words.toNat - 1) 0 words.toNat := by
  rw [streamWords, List.range_eq_range', dataWords]

theorem loadWords_dataWords {store : α → ℕ → BitVec 32 → Except LoadError α}
    {put : α → ℕ → BitVec 32 → α} {size : ℕ}
    (ok : ∀ a i d, i < size → store a i d = .ok (put a i d)) (ptr : ℕ → BitVec 32)
    (last : ℕ → Bool) (n i : ℕ) (fits : i + n ≤ size) (rest : List Axis32) (a : α) :
    loadWords store n i (dataWords ptr last i n ++ rest) a =
      .ok (rest, (List.range' i n).foldl (fun a j => put a j (ptr j)) a) := by
  induction n generalizing i a with
  | zero => rfl
  | succ n ih =>
    have later := ih (i + 1) (by omega) (put a i (ptr i))
    have stored : store a i (outw (ptr i) (last i)).data = .ok (put a i (ptr i)) :=
      ok a i (ptr i) (by omega)
    rw [dataWords, List.range'_succ, List.map_cons, List.cons_append, List.foldl_cons]
    simp only [loadWords, readWord, bind, Except.bind, stored]
    exact later

theorem read_storeAt {store : α → ℕ → Byte → α} {read : α → ℕ → Byte} {size : ℕ}
    (law : ∀ a i b k, k < size → read (store a i b) k = if i = k then b else read a k)
    (ptr : ℕ → Byte) (bytes : BitVec 32) (a : α) (n k : ℕ) (hk : k < size) :
    read ((List.range' 0 n).foldl (storeAt store ptr bytes) a) k =
      if k < n ∧ k < bytes.toNat then ptr k else read a k := by
  induction n with
  | zero => simp
  | succ n ih =>
    rw [List.range'_concat, List.foldl_append, List.foldl_cons, List.foldl_nil, storeAt]
    by_cases inside : 0 + 1 * n < bytes.toNat
    · rw [if_pos inside, law _ _ _ k hk, ih]
      by_cases here : 0 + 1 * n = k
      · rw [if_pos here, if_pos (by omega), here]
      · rw [if_neg here]
        congr 1
        exact propext (by omega)
    · rw [if_neg inside, ih]
      congr 1
      exact propext (by omega)

def readW0 (sW0 : Vector (Vector Byte 4) 32) (k : ℕ) : Byte :=
  if h : k / 4 < 32 then (sW0.get ⟨k / 4, h⟩).get ⟨k % 4, Nat.mod_lt k (by norm_num)⟩ else 0

def readW1 (sW1 : Vector Byte 32) (k : ℕ) : Byte := if h : k < 32 then sW1.get ⟨k, h⟩ else 0

theorem readW0_storeW0 (a : Vector (Vector Byte 4) 32) (i : ℕ) (b : Byte) (k : ℕ) (hk : k < 128) :
    readW0 (storeW0 a i b) k = if i = k then b else readW0 a k := by
  have row : k / 4 < 32 := by omega
  unfold readW0 storeW0
  rw [dif_pos row, dif_pos row]
  by_cases inside : i / 4 < 32
  · rw [dif_pos inside, get_set]
    by_cases sameRow : i / 4 = k / 4
    · rw [if_pos sameRow, get_set]
      by_cases sameColumn : i % 4 = k % 4
      · rw [if_pos sameColumn, if_pos (by omega)]
      · rw [if_neg sameColumn, if_neg (by omega)]
        simp only [sameRow]
    · rw [if_neg sameRow, if_neg (by omega)]
  · rw [dif_neg inside, if_neg (by omega)]

theorem readW1_storeW1 (a : Vector Byte 32) (i : ℕ) (b : Byte) (k : ℕ) (hk : k < 32) :
    readW1 (storeW1 a i b) k = if i = k then b else readW1 a k := by
  unfold readW1 storeW1
  rw [dif_pos hk, dif_pos hk]
  by_cases inside : i < 32
  · rw [dif_pos inside, get_set]
  · rw [dif_neg inside, if_neg (by omega)]

/-- A cache holds what the loader saw, as far as the sizes go, and is otherwise
as before. -/
structure Copied (ddr : Ddr) (s : Sizes) (before after : WeightCache) : Prop where
  w0 : ∀ k < 128, readW0 after.sW0 k =
    if k < s.w0Bytes.toNat then ddr.w0 k else readW0 before.sW0 k
  b0 : ∀ k : Fin 32, after.sB0.get k =
    if k.val < s.b0Words.toNat then ddr.b0 k else before.sB0.get k
  w1 : ∀ k < 32, readW1 after.sW1 k =
    if k < s.w1Bytes.toNat then ddr.w1 k else readW1 before.sW1 k
  b1 : after.sB1Scalar = if 0 < s.b1Words.toNat then ddr.b1 0 else before.sB1Scalar

def sentWords (ddr : Ddr) (s : Sizes) : List Axis32 :=
  byteWords ddr.w0 s.w0Bytes 0 (wordCount s.w0Bytes) ++
    (streamWords ddr.b0 s.b0Words false ++
      (byteWords ddr.w1 s.w1Bytes 0 (wordCount s.w1Bytes) ++
        streamWords ddr.b1 s.b1Words true))

theorem weightLoader_eq (ddr : Ddr) (s : Sizes) (fuel : ℕ)
    (hw0 : s.w0Bytes.toNat ≤ 2 ^ 32 - 4) (hw1 : s.w1Bytes.toNat ≤ 2 ^ 32 - 4)
    (hf0 : wordCount s.w0Bytes < fuel) (hf1 : wordCount s.w1Bytes < fuel) :
    weightLoader fuel ddr s true = some (sentWords ddr s) := by
  rw [weightLoader, if_pos rfl, streamBytes_eq ddr.w0 s.w0Bytes hw0 hf0,
    streamBytes_eq ddr.w1 s.w1Bytes hw1 hf1]
  rfl

def putB0 (a : Vector (BitVec 32) 32) (i : ℕ) (d : BitVec 32) : Vector (BitVec 32) 32 :=
  if h : i < 32 then a.set i d h else a

theorem storeB0_ok (a : Vector (BitVec 32) 32) (i : ℕ) (d : BitVec 32) (h : i < 32) :
    storeB0 a i d = .ok (putB0 a i d) := by
  rw [storeB0, putB0, dif_pos h, dif_pos h]

theorem read_putB0 (a : Vector (BitVec 32) 32) (ptr : ℕ → BitVec 32) (n : ℕ) (hn : n ≤ 32)
    (k : Fin 32) :
    ((List.range' 0 n).foldl (fun a j => putB0 a j (ptr j)) a).get k =
      if k.val < n then ptr k else a.get k := by
  induction n with
  | zero => simp
  | succ n ih =>
    have inside : 0 + 1 * n < 32 := by omega
    rw [List.range'_concat, List.foldl_append, List.foldl_cons, List.foldl_nil, putB0,
      dif_pos inside, get_set, ih (by omega)]
    by_cases here : 0 + 1 * n = k.val
    · rw [if_pos here, if_pos (by omega), here]
    · rw [if_neg here]
      congr 1
      exact propext (by omega)

theorem wordCount_le {bytes : BitVec 32} {n : ℕ} (h : bytes.toNat ≤ 4 * n) :
    wordCount bytes ≤ n := by
  unfold wordCount
  omega

def reloaded (ddr : Ddr) (s : Sizes) (c : WeightCache) : WeightCache where
  sW0 := (List.range' 0 (4 * wordCount s.w0Bytes)).foldl (storeAt storeW0 ddr.w0 s.w0Bytes) c.sW0
  sB0 := (List.range' 0 s.b0Words.toNat).foldl (fun a j => putB0 a j (ddr.b0 j)) c.sB0
  sW1 := (List.range' 0 (4 * wordCount s.w1Bytes)).foldl (storeAt storeW1 ddr.w1 s.w1Bytes) c.sW1
  sB1Scalar := (List.range' 0 s.b1Words.toNat).foldl (fun a j => if j = 0 then ddr.b1 j else a)
    c.sB1Scalar

theorem copied_reloaded (ddr : Ddr) (s : Sizes) (c : WeightCache) (hb0 : s.b0Words.toNat ≤ 32)
    (hb1 : s.b1Words.toNat ≤ 1) : Copied ddr s c (reloaded ddr s c) where
  w0 k hk := by
    rw [reloaded, read_storeAt readW0_storeW0 _ _ _ _ k hk]
    congr 1
    unfold wordCount
    exact propext (by omega)
  b0 k := read_putB0 c.sB0 ddr.b0 _ hb0 k
  w1 k hk := by
    rw [reloaded, read_storeAt readW1_storeW1 _ _ _ _ k hk]
    congr 1
    unfold wordCount
    exact propext (by omega)
  b1 := by
    unfold reloaded
    generalize s.b1Words.toNat = n at hb1
    obtain rfl | rfl : n = 0 ∨ n = 1 := by omega
    · rfl
    · rfl

theorem reload_weightLoader (ddr : Ddr) (s : Sizes) (c : WeightCache) (fuel : ℕ)
    (hw0 : s.w0Bytes.toNat ≤ 128) (hb0 : s.b0Words.toNat ≤ 32) (hw1 : s.w1Bytes.toNat ≤ 32)
    (hb1 : s.b1Words.toNat ≤ 1) (hf : 32 < fuel) :
    ∃ words, weightLoader fuel ddr s true = some words ∧
      reload s words c = .ok ([], reloaded ddr s c) := by
  have n0 : wordCount s.w0Bytes ≤ 32 := wordCount_le hw0
  have n1 : wordCount s.w1Bytes ≤ 8 := wordCount_le hw1
  have words := weightLoader_eq ddr s fuel (by omega) (by omega) (by omega) (by omega)
  rw [sentWords, streamWords_eq, streamWords_eq] at words
  have w0 := loadBytes_byteWords storeW0 ddr.w0 s.w0Bytes _ 0 32 (Nat.zero_add _) n0
  have b0 := loadWords_dataWords storeB0_ok ddr.b0
    (fun j => false && j == s.b0Words.toNat - 1) s.b0Words.toNat 0 (by omega)
  have w1 := loadBytes_byteWords storeW1 ddr.w1 s.w1Bytes _ 0 8 (Nat.zero_add _) n1
  have storeB1_ok : ∀ a i d, i < 1 → storeB1 a i d = .ok (if i = 0 then d else a) :=
    fun _ _ _ _ => rfl
  have b1 := loadWords_dataWords storeB1_ok ddr.b1
    (fun j => true && j == s.b1Words.toNat - 1) s.b1Words.toNat 0 (by omega) []
  rw [List.append_nil] at b1
  refine ⟨_, words, ?_⟩
  simp only [reload, w0, b0, w1, b1, bind, Except.bind, pure, Except.pure]
  rfl

theorem readW0_at (a : Vector (Vector Byte 4) 32) (h : Fin 32) (d : Fin 4) :
    readW0 a (4 * h.val + d.val) = (a.get h).get d := by
  have row : (4 * h.val + d.val) / 4 = h.val := by omega
  have column : (4 * h.val + d.val) % 4 = d.val := by omega
  have inside : (4 * h.val + d.val) / 4 < 32 := by omega
  rw [readW0, dif_pos inside]
  congr 1
  · congr 1
    exact Fin.ext row
  · exact Fin.ext column

theorem readW1_at (a : Vector Byte 32) (i : Fin 32) : readW1 a i.val = a.get i := by
  rw [readW1, dif_pos i.isLt]

/-- A reload with equal sizes in both cores empties the stream and leaves in each
array the weights up to the size, and the old entries beyond it. -/
theorem reload_copies (ddr : Ddr) (s : Sizes) (c : WeightCache) (fuel : ℕ)
    (hw0 : s.w0Bytes.toNat ≤ 128) (hb0 : s.b0Words.toNat ≤ 32) (hw1 : s.w1Bytes.toNat ≤ 32)
    (hb1 : s.b1Words.toNat ≤ 1) (hf : 32 < fuel) :
    ∃ words after, weightLoader fuel ddr s true = some words ∧
      reload s words c = .ok ([], after) ∧
      (∀ (h : Fin 32) (d : Fin 4), (after.sW0.get h).get d =
        if 4 * h.val + d.val < s.w0Bytes.toNat then ddr.w0 (4 * h.val + d.val)
        else (c.sW0.get h).get d) ∧
      (∀ i : Fin 32, after.sB0.get i =
        if i.val < s.b0Words.toNat then ddr.b0 i else c.sB0.get i) ∧
      (∀ i : Fin 32, after.sW1.get i =
        if i.val < s.w1Bytes.toNat then ddr.w1 i else c.sW1.get i) ∧
      after.sB1Scalar = if s.b1Words.toNat = 1 then ddr.b1 0 else c.sB1Scalar := by
  obtain ⟨words, sent, loaded⟩ := reload_weightLoader ddr s c fuel hw0 hb0 hw1 hb1 hf
  have copied := copied_reloaded ddr s c hb0 hb1
  refine ⟨words, reloaded ddr s c, sent, loaded, fun h d => ?_, copied.b0, fun i => ?_, ?_⟩
  · rw [← readW0_at, ← readW0_at]
    exact copied.w0 _ (by omega)
  · rw [← readW1_at, ← readW1_at]
    exact copied.w1 i.val i.isLt
  · rw [copied.b1]
    congr 1
    exact propext (by omega)

/-- Six bytes of W0 and five of W1: both tails end within a word. -/
theorem reload_copies_tails :
    let ddr : Ddr := ⟨fun i => BitVec.ofNat 8 (i + 1), fun i => BitVec.ofNat 32 i,
      fun i => BitVec.ofNat 8 (i + 7), fun _ => 9⟩
    let s : Sizes := ⟨6, 2, 5, 1⟩
    ∃ words after, weightLoader 33 ddr s true = some words ∧
      reload s words .powerOn = .ok ([], after) ∧ (after.sW0.get 1).get 1 = 6 ∧
      (after.sW0.get 1).get 2 = 0 ∧ after.sW1.get 4 = 11 ∧ after.sB1Scalar = 9 := by
  intro ddr s
  obtain ⟨words, after, sent, loaded, w0, -, w1, b1⟩ := reload_copies ddr s .powerOn 33
    (by decide) (by decide) (by decide) (by decide) (by decide)
  exact ⟨words, after, sent, loaded, (w0 1 1).trans (by decide), (w0 1 2).trans (by decide),
    (w1 4).trans (by decide), b1.trans (by decide)⟩

end HftLatencyLab.WeightLoad
