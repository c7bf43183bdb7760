import HftLatencyLab.WeightLoad
import Mathlib.Algebra.BigOperators.Fin
import Mathlib.Algebra.Order.BigOperators.Group.Finset

/-! The integer layers of mlp_infer_stream on a freshly loaded cache, against the
accumulators of emulate_mlp_int8. The cache keeps weights as `ap_uint<8>`, so a
negative weight is widened to itself plus 256. -/

namespace HftLatencyLab.MlpLayers
open ByteOrder FixedWidth WeightLoad

/-- `acc += (ap_int<32>) x[i] * (ap_int<32>) w[i]` -/
def accumulate {n : ℕ} (x : Vector (BitVec 8) n) (w : Vector Byte n) (bias : BitVec 32) :
    BitVec 32 :=
  (List.finRange n).foldl
    (fun acc i => acc + (x.get i).signExtend 32 * (w.get i).setWidth 32) bias

def layer0Acc (c : WeightCache) (xi : Vector (BitVec 8) 4) (h : Fin 32) : BitVec 32 :=
  accumulate xi (c.sW0.get h) (c.sB0.get h)

def layer1Acc (c : WeightCache) (y0 : Vector (BitVec 8) 32) : BitVec 32 :=
  accumulate y0 c.sW1 c.sB1Scalar

/-- `x @ w.T + b` in int32, with int8 weights. -/
def emulateAcc {n : ℕ} (x : Vector (BitVec 8) n) (w : Fin n → BitVec 8) (b : BitVec 32) :
    BitVec 32 :=
  BitVec.ofInt 32 ((∑ i, (x.get i).toInt * (w i).toInt) + b.toInt)

def w0Row (ddr : Ddr) (h : Fin 32) (d : Fin 4) : BitVec 8 := ddr.w0 (4 * h + d)

def w1Row (ddr : Ddr) (h : Fin 32) : BitVec 8 := ddr.w1 h

def emulateAcc0 (ddr : Ddr) (xi : Vector (BitVec 8) 4) (h : Fin 32) : BitVec 32 :=
  emulateAcc xi (w0Row ddr h) (ddr.b0 h)

def emulateAcc1 (ddr : Ddr) (y0 : Vector (BitVec 8) 32) : BitVec 32 :=
  emulateAcc y0 (w1Row ddr) (ddr.b1 0)

theorem product_eq (x : BitVec 8) (w : Byte) :
    x.signExtend 32 * w.setWidth 32 = BitVec.ofInt 32 (x.toInt * w.toNat) := by
  apply BitVec.eq_of_toInt_eq
  rw [BitVec.toInt_mul, BitVec.toInt_signExtend_of_le (by norm_num),
    toInt_setWidth_of_lt w (by norm_num), BitVec.toInt_ofInt]

theorem accumulate_eq {n : ℕ} (x : Vector (BitVec 8) n) (w : Vector Byte n) (bias : BitVec 32) :
    accumulate x w bias =
      BitVec.ofInt 32 ((∑ i, (x.get i).toInt * (w.get i).toNat) + bias.toInt) := by
  have fold (is : List (Fin n)) (acc : BitVec 32) :
      is.foldl (fun acc i => acc + (x.get i).signExtend 32 * (w.get i).setWidth 32) acc =
        BitVec.ofInt 32 ((is.map (fun i => (x.get i).toInt * ((w.get i).toNat : ℤ))).sum
          + acc.toInt) := by
    induction is generalizing acc with
    | nil => simp
    | cons i is ih =>
      rw [List.foldl_cons, ih, List.map_cons, List.sum_cons, product_eq]
      simp only [BitVec.ofInt_add, BitVec.ofInt_toInt]
      ac_rfl
  rw [accumulate, fold, Fin.sum_univ_def]

theorem toNat_eq_toInt (w : Byte) : (w.toNat : ℤ) = w.toInt + if w.toInt < 0 then 256 else 0 := by
  have hw := w.isLt
  have value := BitVec.toInt_eq_toNat_cond w
  split at value <;> split <;> omega

def strayInput {n : ℕ} (x : Vector (BitVec 8) n) (w : Fin n → BitVec 8) : ℤ :=
  ∑ i, if (w i).toInt < 0 then (x.get i).toInt else 0

theorem sum_unsigned {n : ℕ} (x : Vector (BitVec 8) n) (w : Fin n → BitVec 8) :
    ∑ i, (x.get i).toInt * ((w i).toNat : ℤ) =
      (∑ i, (x.get i).toInt * (w i).toInt) + 256 * strayInput x w := by
  rw [strayInput, Finset.mul_sum, ← Finset.sum_add_distrib]
  refine Finset.sum_congr rfl (fun i _ => ?_)
  rw [toNat_eq_toInt]
  split <;> ring

theorem strayInput_bound {n : ℕ} (x : Vector (BitVec 8) n) (w : Fin n → BitVec 8) :
    |strayInput x w| ≤ 128 * n := by
  have term (i : Fin n) : |if (w i).toInt < 0 then (x.get i).toInt else 0| ≤ 128 := by
    have hi := BitVec.toInt_lt (x := x.get i)
    have lo := BitVec.le_toInt (x.get i)
    rw [abs_le]
    split <;> omega
  calc |strayInput x w| ≤ ∑ i, |if (w i).toInt < 0 then (x.get i).toInt else 0| :=
        Finset.abs_sum_le_sum_abs _ _
    _ ≤ ∑ _i : Fin n, 128 := Finset.sum_le_sum (fun i _ => term i)
    _ = 128 * n := by simp [mul_comm]

theorem ofInt_eq_iff (a b : ℤ) : BitVec.ofInt 32 a = BitVec.ofInt 32 b ↔ (2 ^ 32 : ℤ) ∣ a - b := by
  rw [← BitVec.toNat_inj, BitVec.toNat_ofInt, BitVec.toNat_ofInt]
  norm_num
  omega

theorem accumulate_signed_iff {n : ℕ} (hn : n ≤ 2 ^ 16) (x : Vector (BitVec 8) n)
    (w : Vector Byte n) (bias : BitVec 32) :
    accumulate x w bias = emulateAcc x w.get bias ↔ strayInput x w.get = 0 := by
  have bound := abs_le.mp (strayInput_bound x w.get)
  have sum := sum_unsigned x w.get
  rw [accumulate_eq, emulateAcc, ofInt_eq_iff, sum]
  generalize strayInput x w.get = stray at bound ⊢
  have step : ∀ s b : ℤ, s + 256 * stray + b - (s + b) = 256 * stray := by
    intro s b
    ring
  rw [step]
  omega

def fullSizes : Sizes := ⟨128, 32, 32, 1⟩

variable {ddr : Ddr} {before after : WeightCache}

theorem loaded_row (loaded : Copied ddr fullSizes before after)
    (h : Fin 32) : (after.sW0.get h).get = w0Row ddr h := by
  funext d
  have full : 4 * h.val + d.val < fullSizes.w0Bytes.toNat := by
    change _ < 128
    omega
  rw [← readW0_at, loaded.w0 _ (by change _ < 128 at full; exact full), if_pos full, w0Row]

theorem loaded_w1 (loaded : Copied ddr fullSizes before after) :
    after.sW1.get = w1Row ddr := by
  funext h
  have full : h.val < fullSizes.w1Bytes.toNat := h.isLt
  have value := loaded.w1 h h.isLt
  rw [if_pos full, readW1, dif_pos h.isLt] at value
  exact value

theorem loaded_b0 (loaded : Copied ddr fullSizes before after)
    (h : Fin 32) : after.sB0.get h = ddr.b0 h := by
  have full : h.val < fullSizes.b0Words.toNat := h.isLt
  rw [loaded.b0 h, if_pos full]

theorem loaded_b1 (loaded : Copied ddr fullSizes before after) :
    after.sB1Scalar = ddr.b1 0 := by
  rw [loaded.b1]
  rfl

/-- The loader streams the full network, the reload branch stores it, and then
each layer accumulates the signed dot products of the reference exactly when the
inputs of its negative weights cancel. -/
theorem layers_signed_iff (ddr : Ddr) (before : WeightCache) (xi : Vector (BitVec 8) 4)
    (y0 : Vector (BitVec 8) 32) :
    ∃ fuel words after, weightLoader fuel ddr fullSizes true = some words ∧
      reload fullSizes words before = .ok ([], after) ∧
      (((∀ h, layer0Acc after xi h = emulateAcc0 ddr xi h) ∧
          layer1Acc after y0 = emulateAcc1 ddr y0) ↔
        (∀ h, strayInput xi (w0Row ddr h) = 0) ∧ strayInput y0 (w1Row ddr) = 0) := by
  obtain ⟨words, sent, stored⟩ := reload_weightLoader ddr fullSizes before 33 (by decide)
    (by decide) (by decide) (by decide) (by decide)
  have loaded := copied_reloaded ddr fullSizes before (by decide) (by decide)
  refine ⟨33, words, _, sent, stored, ?_⟩
  have layer0 (h : Fin 32) := accumulate_signed_iff (by norm_num) xi
    ((reloaded ddr fullSizes before).sW0.get h) ((reloaded ddr fullSizes before).sB0.get h)
  have layer1 := accumulate_signed_iff (by norm_num) y0 (reloaded ddr fullSizes before).sW1
    (reloaded ddr fullSizes before).sB1Scalar
  simp only [loaded_row loaded, loaded_b0 loaded] at layer0
  rw [loaded_w1 loaded, loaded_b1 loaded] at layer1
  simp only [layer0Acc, layer1Acc, emulateAcc0, emulateAcc1, loaded_b0 loaded, loaded_b1 loaded,
    layer0, layer1]

def minusOne : Ddr where
  w0 i := if i = 0 then 0xFF else 0
  b0 _ := 0
  w1 _ := 0
  b1 _ := 0

/-- On input 1 it counts 255. -/
theorem minus_one_counts_255 :
    ∃ words after, weightLoader 33 minusOne fullSizes true = some words ∧
      reload fullSizes words .powerOn = .ok ([], after) ∧
      layer0Acc after #v[1, 0, 0, 0] 0 = 255 ∧ emulateAcc0 minusOne #v[1, 0, 0, 0] 0 = -1 := by
  obtain ⟨words, sent, stored⟩ := reload_weightLoader minusOne fullSizes .powerOn 33 (by decide)
    (by decide) (by decide) (by decide) (by decide)
  have loaded := copied_reloaded minusOne fullSizes .powerOn (by decide) (by decide)
  refine ⟨words, _, sent, stored, ?_, by decide⟩
  rw [layer0Acc, loaded_b0 loaded, accumulate_eq, loaded_row loaded]
  decide

end HftLatencyLab.MlpLayers
