import Mathlib.Data.Nat.ModEq
import Mathlib.Tactic.Ring
import Mathlib.Tactic.NormNum
import Mathlib.Tactic.Positivity

/-! Byte strings and the numbers they spell, least or most significant byte
first. `byteSwap` is what reading with the other order computes, and a word
survives such a reading exactly when its byte string is a palindrome. The last
section reads the usual shift-and-or expressions back as byte strings. -/

namespace HftLatencyLab.ByteOrder

abbrev Byte := BitVec 8

def ofLE : List Byte → ℕ
  | [] => 0
  | b :: bs => b.toNat + 256 * ofLE bs

def ofBE (bs : List Byte) : ℕ := ofLE bs.reverse

def toLE : ℕ → ℕ → List Byte
  | 0, _ => []
  | n + 1, x => BitVec.ofNat 8 x :: toLE n (x / 256)

def toBE (n x : ℕ) : List Byte := (toLE n x).reverse

@[simp] theorem length_toLE (n x : ℕ) : (toLE n x).length = n := by
  induction n generalizing x with
  | zero => rfl
  | succ n ih => simp [toLE, ih]

@[simp] theorem length_toBE (n x : ℕ) : (toBE n x).length = n := by
  simp [toBE]

theorem ofLE_lt (bs : List Byte) : ofLE bs < 256 ^ bs.length := by
  induction bs with
  | nil => simp [ofLE]
  | cons b bs ih =>
    have hb := b.isLt
    rw [ofLE, List.length_cons, pow_succ]
    omega

theorem ofBE_lt (bs : List Byte) : ofBE bs < 256 ^ bs.length := by
  simpa [ofBE] using ofLE_lt bs.reverse

theorem ofLE_toLE (n x : ℕ) : ofLE (toLE n x) = x % 256 ^ n := by
  induction n generalizing x with
  | zero => simp [toLE, ofLE, Nat.mod_one]
  | succ n ih =>
    have split : x % 256 ^ (n + 1) = x % 256 + 256 * (x / 256 % 256 ^ n) := by
      rw [pow_succ' 256 n, Nat.mod_mul]
    rw [toLE, ofLE, ih, BitVec.toNat_ofNat, split]

theorem toLE_ofLE (bs : List Byte) : toLE bs.length (ofLE bs) = bs := by
  induction bs with
  | nil => rfl
  | cons b bs ih =>
    have hb := b.isLt
    have head : BitVec.ofNat 8 (b.toNat + 256 * ofLE bs) = b := by
      apply BitVec.eq_of_toNat_eq
      rw [BitVec.toNat_ofNat]
      omega
    have tail : (b.toNat + 256 * ofLE bs) / 256 = ofLE bs := by omega
    rw [List.length_cons, ofLE, toLE, head, tail, ih]

theorem ofLE_injective {xs ys : List Byte} (len : xs.length = ys.length)
    (h : ofLE xs = ofLE ys) : xs = ys := by
  rw [← toLE_ofLE xs, ← toLE_ofLE ys, h, len]

theorem ofBE_toBE {n x : ℕ} (h : x < 256 ^ n) : ofBE (toBE n x) = x := by
  rw [ofBE, toBE, List.reverse_reverse, ofLE_toLE, Nat.mod_eq_of_lt h]

theorem toLE_append (m n x : ℕ) : toLE (m + n) x = toLE m x ++ toLE n (x / 256 ^ m) := by
  induction m generalizing x with
  | zero => simp [toLE]
  | succ m ih =>
    have split : x / 256 ^ (m + 1) = x / 256 / 256 ^ m := by
      rw [pow_succ' 256 m, Nat.div_div_eq_div_mul]
    rw [Nat.succ_add, toLE, toLE, ih, split, List.cons_append]

theorem toLE_eq_map (n x : ℕ) :
    toLE n x = (List.range n).map (fun i => BitVec.ofNat 8 (x / 256 ^ i)) := by
  induction n generalizing x with
  | zero => rfl
  | succ n ih =>
    have shift : ∀ i, x / 256 / 256 ^ i = x / 256 ^ (i + 1) := fun i => by
      rw [pow_succ' 256 i, Nat.div_div_eq_div_mul]
    rw [toLE, ih, List.range_succ_eq_map, List.map_cons, List.map_map, pow_zero, Nat.div_one]
    simp only [Function.comp_def, shift]

theorem toLE_mod (n x : ℕ) : toLE n (x % 256 ^ n) = toLE n x := by
  rw [← ofLE_toLE]
  have h := toLE_ofLE (toLE n x)
  rwa [length_toLE] at h

theorem toLE_concat (m n : ℕ) {hi lo : ℕ} (h : lo < 256 ^ m) :
    toLE (m + n) (hi * 256 ^ m + lo) = toLE m lo ++ toLE n hi := by
  have pos : 0 < 256 ^ m := by positivity
  have quotient : (hi * 256 ^ m + lo) / 256 ^ m = hi := by
    rw [Nat.mul_comm, Nat.mul_add_div pos, Nat.div_eq_of_lt h, Nat.add_zero]
  have remainder : (hi * 256 ^ m + lo) % 256 ^ m = lo := by
    rw [Nat.mul_comm, Nat.mul_add_mod, Nat.mod_eq_of_lt h]
  rw [toLE_append, quotient, ← toLE_mod, remainder]

theorem lane_ofLE (bs : List Byte) (k : ℕ) (h : k < bs.length) :
    ofLE bs / 256 ^ k % 256 = (bs[k]).toNat := by
  induction bs generalizing k with
  | nil => simp at h
  | cons b bs ih =>
    have hb := b.isLt
    cases k with
    | zero => simp only [ofLE, pow_zero, List.getElem_cons_zero]; omega
    | succ k =>
      have tail : (b.toNat + 256 * ofLE bs) / 256 = ofLE bs := by omega
      rw [ofLE, pow_succ', ← Nat.div_div_eq_div_mul, tail, List.getElem_cons_succ]
      exact ih k (by simpa using h)

def byteSwap (n x : ℕ) : ℕ := ofBE (toLE n x)

def ByteSymmetric (n x : ℕ) : Prop := (toLE n x).reverse = toLE n x

instance (n x : ℕ) : Decidable (ByteSymmetric n x) :=
  inferInstanceAs (Decidable ((toLE n x).reverse = toLE n x))

theorem byteSwap_lt (n x : ℕ) : byteSwap n x < 256 ^ n := by
  simpa [byteSwap] using ofBE_lt (toLE n x)

theorem toLE_byteSwap (n x : ℕ) : toLE n (byteSwap n x) = toBE n x := by
  have h := toLE_ofLE (toLE n x).reverse
  rw [List.length_reverse, length_toLE] at h
  rw [byteSwap, ofBE, h, toBE]

theorem byteSwap_eq_iff {n x : ℕ} (h : x < 256 ^ n) :
    byteSwap n x = x ↔ ByteSymmetric n x := by
  have value : ofLE (toLE n x) = x := by rw [ofLE_toLE, Nat.mod_eq_of_lt h]
  rw [ByteSymmetric, byteSwap, ofBE]
  constructor
  · intro same
    exact ofLE_injective (by simp) (same.trans value.symm)
  · intro same
    rw [same, value]

def swapped16 (x : BitVec 16) : BitVec 16 := BitVec.ofNat 16 (byteSwap 2 x.toNat)

def swapped32 (x : BitVec 32) : BitVec 32 := BitVec.ofNat 32 (byteSwap 4 x.toNat)

theorem swapped16_toNat (x : BitVec 16) : (swapped16 x).toNat = byteSwap 2 x.toNat := by
  rw [swapped16, BitVec.toNat_ofNat]
  exact Nat.mod_eq_of_lt (byteSwap_lt 2 x.toNat)

theorem swapped32_toNat (x : BitVec 32) : (swapped32 x).toNat = byteSwap 4 x.toNat := by
  rw [swapped32, BitVec.toNat_ofNat]
  exact Nat.mod_eq_of_lt (byteSwap_lt 4 x.toNat)

theorem swapped16_eq_iff (x : BitVec 16) : swapped16 x = x ↔ ByteSymmetric 2 x.toNat := by
  rw [← byteSwap_eq_iff x.isLt, ← swapped16_toNat, BitVec.toNat_inj]

theorem swapped32_eq_iff (x : BitVec 32) : swapped32 x = x ↔ ByteSymmetric 4 x.toNat := by
  rw [← byteSwap_eq_iff x.isLt, ← swapped32_toNat, BitVec.toNat_inj]

theorem or_eq_add {k a b : ℕ} (ha : 2 ^ k ∣ a) (hb : b < 2 ^ k) : a ||| b = a + b := by
  obtain ⟨c, rfl⟩ := ha
  exact (Nat.two_pow_add_eq_or_of_lt hb c).symm

theorem or_byte {acc d k : ℕ} (ha : acc < 256 ^ k) (hd : d < 256) :
    acc ||| d * 256 ^ k = acc + d * 256 ^ k ∧ acc + d * 256 ^ k < 256 ^ (k + 1) := by
  have base : (256 : ℕ) ^ k = 2 ^ (8 * k) := by rw [pow_mul]; norm_num
  constructor
  · rw [base] at ha ⊢
    rw [Nat.or_comm, or_eq_add (Dvd.intro_left d rfl) ha, Nat.add_comm]
  · have top : d * 256 ^ k ≤ 255 * 256 ^ k := Nat.mul_le_mul_right _ (by omega)
    rw [pow_succ]
    omega

theorem and_byteMask (x k : ℕ) : x &&& 0xFF * 256 ^ k = x / 256 ^ k % 256 * 256 ^ k := by
  have base : (256 : ℕ) ^ k = 2 ^ (8 * k) := by rw [pow_mul]; norm_num
  have low : x / 2 ^ (8 * k) % 256 = (x >>> (8 * k)) &&& 0xFF := by
    rw [Nat.shiftRight_eq_div_pow]
    exact (Nat.and_two_pow_sub_one_eq_mod _ 8).symm
  rw [base, low, ← Nat.shiftLeft_eq, ← Nat.shiftLeft_eq]
  apply Nat.eq_of_testBit_eq
  intro i
  by_cases h : 8 * k ≤ i
  · simp [Nat.testBit_and, Nat.testBit_shiftLeft, Nat.testBit_shiftRight, h]
  · simp [Nat.testBit_and, Nat.testBit_shiftLeft, h]

theorem shiftRight_and_byteMask (x j k : ℕ) :
    (x >>> (8 * j)) &&& 0xFF * 256 ^ k = x / 256 ^ (j + k) % 256 * 256 ^ k := by
  have base : (2 : ℕ) ^ (8 * j) = 256 ^ j := by rw [pow_mul]; norm_num
  rw [and_byteMask, Nat.shiftRight_eq_div_pow, base, Nat.div_div_eq_div_mul, ← pow_add]

theorem shiftLeft_and_byteMask (x j k : ℕ) :
    (x <<< (8 * j)) &&& 0xFF * 256 ^ (j + k) = x / 256 ^ k % 256 * 256 ^ (j + k) := by
  have base : (2 : ℕ) ^ (8 * j) = 256 ^ j := by rw [pow_mul]; norm_num
  have pos : 0 < 256 ^ j := by positivity
  rw [and_byteMask, Nat.shiftLeft_eq, base, pow_add, mul_comm x, Nat.mul_div_mul_left _ _ pos]

theorem toNat_append {m n : ℕ} (x : BitVec m) (y : BitVec n) :
    (x ++ y).toNat = x.toNat * 2 ^ n + y.toNat := by
  rw [BitVec.toNat_append, ← Nat.shiftLeft_add_eq_or_of_lt y.isLt, Nat.shiftLeft_eq]

theorem append_inj {m n : ℕ} {x x' : BitVec m} {y y' : BitVec n} (h : x ++ y = x' ++ y') :
    x = x' ∧ y = y' := by
  have hy := y.isLt
  have hy' := y'.isLt
  have value : x.toNat * 2 ^ n + y.toNat = x'.toNat * 2 ^ n + y'.toNat := by
    rw [← toNat_append, ← toNat_append, h]
  have upper := congrArg (· / 2 ^ n) value
  have lower := congrArg (· % 2 ^ n) value
  simp only [Nat.add_div_of_dvd_right (Dvd.intro_left _ rfl), Nat.mul_add_mod_self_right,
    Nat.mul_div_cancel _ (Nat.two_pow_pos n), Nat.div_eq_of_lt hy, Nat.div_eq_of_lt hy',
    Nat.mod_eq_of_lt hy, Nat.mod_eq_of_lt hy', add_zero] at upper lower
  exact ⟨BitVec.eq_of_toNat_eq upper, BitVec.eq_of_toNat_eq lower⟩

theorem toNat_setWidth_shiftLeft {w k : ℕ} (b : Byte) (hk : k + 8 ≤ w) :
    (b.setWidth w <<< k).toNat = b.toNat * 2 ^ k := by
  have hb := b.isLt
  have narrow : b.toNat < 2 ^ w :=
    lt_of_lt_of_le hb (Nat.pow_le_pow_right (by norm_num) (by omega))
  have fits : b.toNat * 2 ^ k < 2 ^ w := by
    calc b.toNat * 2 ^ k < 2 ^ 8 * 2 ^ k := by gcongr
      _ = 2 ^ (8 + k) := (pow_add 2 8 k).symm
      _ ≤ 2 ^ w := Nat.pow_le_pow_right (by norm_num) (by omega)
  rw [BitVec.toNat_shiftLeft, BitVec.toNat_setWidth, Nat.mod_eq_of_lt narrow,
    Nat.shiftLeft_eq, Nat.mod_eq_of_lt fits]

theorem toNat_or_byte {w k : ℕ} (acc : BitVec w) (b : Byte) (m : ℕ) (hk : k + 8 ≤ w)
    (h : acc.toNat = m * 2 ^ (k + 8)) :
    (acc ||| b.setWidth w <<< k).toNat = (m * 256 + b.toNat) * 2 ^ k := by
  have hb := b.isLt
  rw [BitVec.toNat_or, toNat_setWidth_shiftLeft b hk, h,
    or_eq_add (k := k + 8) (Dvd.intro_left m rfl)
      (by rw [pow_add, mul_comm]; gcongr)]
  rw [pow_add]
  ring

theorem toNat_be16 (b0 b1 : Byte) :
    (b0.setWidth 16 <<< 8 ||| b1.setWidth 16).toNat = ofBE [b0, b1] := by
  have h0 := toNat_setWidth_shiftLeft (w := 16) (k := 8) b0 (by norm_num)
  have h1 := toNat_or_byte (k := 0) _ b1 _ (by norm_num) h0
  simp only [BitVec.shiftLeft_zero] at h1
  rw [h1]
  simp only [ofBE, List.reverse_cons, List.reverse_nil, List.nil_append, List.cons_append, ofLE]
  ring

theorem toNat_be32 (b0 b1 b2 b3 : Byte) :
    (b0.setWidth 32 <<< 24 ||| b1.setWidth 32 <<< 16 ||| b2.setWidth 32 <<< 8
      ||| b3.setWidth 32).toNat = ofBE [b0, b1, b2, b3] := by
  have h0 := toNat_setWidth_shiftLeft (w := 32) (k := 24) b0 (by norm_num)
  have h1 := toNat_or_byte (k := 16) _ b1 _ (by norm_num) h0
  have h2 := toNat_or_byte (k := 8) _ b2 _ (by norm_num) h1
  have h3 := toNat_or_byte (k := 0) _ b3 _ (by norm_num) h2
  simp only [BitVec.shiftLeft_zero] at h3
  rw [h3]
  simp only [ofBE, List.reverse_cons, List.reverse_nil, List.nil_append, List.cons_append, ofLE]
  ring

theorem toNat_be64 (b0 b1 b2 b3 b4 b5 b6 b7 : Byte) :
    (b0.setWidth 64 <<< 56 ||| b1.setWidth 64 <<< 48 ||| b2.setWidth 64 <<< 40
      ||| b3.setWidth 64 <<< 32 ||| b4.setWidth 64 <<< 24 ||| b5.setWidth 64 <<< 16
      ||| b6.setWidth 64 <<< 8 ||| b7.setWidth 64).toNat =
      ofBE [b0, b1, b2, b3, b4, b5, b6, b7] := by
  have h0 := toNat_setWidth_shiftLeft (w := 64) (k := 56) b0 (by norm_num)
  have h1 := toNat_or_byte (k := 48) _ b1 _ (by norm_num) h0
  have h2 := toNat_or_byte (k := 40) _ b2 _ (by norm_num) h1
  have h3 := toNat_or_byte (k := 32) _ b3 _ (by norm_num) h2
  have h4 := toNat_or_byte (k := 24) _ b4 _ (by norm_num) h3
  have h5 := toNat_or_byte (k := 16) _ b5 _ (by norm_num) h4
  have h6 := toNat_or_byte (k := 8) _ b6 _ (by norm_num) h5
  have h7 := toNat_or_byte (k := 0) _ b7 _ (by norm_num) h6
  simp only [BitVec.shiftLeft_zero] at h7
  rw [h7]
  simp only [ofBE, List.reverse_cons, List.reverse_nil, List.nil_append, List.cons_append, ofLE]
  ring

end HftLatencyLab.ByteOrder
