import HftLatencyLab.FeaturePipeline

/-! The feature beat between its writer and its two readers. feature_pipeline
puts each field in its bit range, least significant byte in the lowest lane;
mlp_infer_stream and processor_thread assemble the lanes most significant byte
first, the order protocol/lob_v1.h gives for the payload. -/

namespace HftLatencyLab.FeatureBeat
open ByteOrder LobWire FeatureMath FeaturePipeline

def be32ToU32 (b0 b1 b2 b3 : Byte) : BitVec 32 :=
  b0.setWidth 32 <<< 24 ||| b1.setWidth 32 <<< 16 ||| b2.setWidth 32 <<< 8 ||| b3.setWidth 32

/-- The bits of `be32_to_u32`, read as `ap_int<32>`. -/
def be32ToS32 (b0 b1 b2 b3 : Byte) : BitVec 32 := be32ToU32 b0 b1 b2 b3

def be16ToS16 (b0 b1 : Byte) : BitVec 16 := b0.setWidth 16 <<< 8 ||| b1.setWidth 16

/-- `din.range((i + 1) * 8 - 1, i * 8)` -/
def byteLane (din : BitVec 128) (i : ℕ) : Byte := din.extractLsb' (i * 8) 8

structure MlpInput where
  ofiQ32 : BitVec 32
  imbQ115 : BitVec 16
  burstQ16 : BitVec 32
  volQ16 : BitVec 32
deriving DecidableEq

def mlpDecode (din : BitVec 128) : MlpInput :=
  let B := byteLane din
  { ofiQ32 := be32ToS32 (B 0) (B 1) (B 2) (B 3)
    imbQ115 := be16ToS16 (B 4) (B 5)
    burstQ16 := be32ToU32 (B 8) (B 9) (B 10) (B 11)
    volQ16 := be32ToU32 (B 12) (B 13) (B 14) (B 15) }

/-- The AXI DMA stores byte lane `i` at address `i`. -/
def dmaStore (word : BitVec 128) : List Byte := (List.range 16).map (byteLane word)

structure PlResult where
  ofi : ℤ
  imbQ115 : ℤ
  burst : ℤ
  vol : ℤ
deriving DecidableEq

def plDecode (outBuf : List Byte) : PlResult where
  ofi := fromBytesBigSigned (slice outBuf 0 4)
  imbQ115 := fromBytesBigSigned (slice outBuf 4 6)
  burst := fromBytesBig (slice outBuf 8 12)
  vol := fromBytesBig (slice outBuf 12 16)

theorem byteLane_eq (word : BitVec 128) (i : ℕ) :
    byteLane word i = BitVec.ofNat 8 (word.toNat / 256 ^ i) := by
  have base : (2 : ℕ) ^ (i * 8) = 256 ^ i := by rw [mul_comm, pow_mul]; norm_num
  apply BitVec.eq_of_toNat_eq
  rw [byteLane, BitVec.extractLsb'_toNat, Nat.shiftRight_eq_div_pow, BitVec.toNat_ofNat, base]

theorem dmaStore_eq_toLE (word : BitVec 128) : dmaStore word = toLE 16 word.toNat := by
  rw [dmaStore, toLE_eq_map, funext (byteLane_eq word)]

theorem dmaStore_packFeatures (f : Features) :
    dmaStore (packFeatures f) =
      toLE 4 f.ofiQ32.toNat ++ (toLE 2 f.tobImbQ115.toNat ++ (toLE 2 f.rsv0.toNat ++
        (toLE 4 f.burstQ1616.toNat ++ toLE 4 f.volQ1616.toNat))) := by
  have value : (packFeatures f).toNat = (((f.volQ1616.toNat * 256 ^ 4 + f.burstQ1616.toNat) *
      256 ^ 2 + f.rsv0.toNat) * 256 ^ 2 + f.tobImbQ115.toNat) * 256 ^ 4 + f.ofiQ32.toNat := by
    simp only [packFeatures, toNat_append]
    norm_num
  rw [dmaStore_eq_toLE, value, toLE_concat 4 12 f.ofiQ32.isLt, toLE_concat 2 10 f.tobImbQ115.isLt,
    toLE_concat 2 8 f.rsv0.isLt, toLE_concat 4 4 f.burstQ1616.isLt]

theorem be32ToU32_eq (b0 b1 b2 b3 : Byte) :
    be32ToU32 b0 b1 b2 b3 = BitVec.ofNat 32 (ofBE [b0, b1, b2, b3]) := by
  rw [be32ToU32, ← toNat_be32, BitVec.ofNat_toNat, BitVec.setWidth_eq]

theorem be16ToS16_eq (b0 b1 : Byte) : be16ToS16 b0 b1 = BitVec.ofNat 16 (ofBE [b0, b1]) := by
  rw [be16ToS16, ← toNat_be16, BitVec.ofNat_toNat, BitVec.setWidth_eq]

theorem mlpDecode_packFeatures (f : Features) :
    mlpDecode (packFeatures f) =
      { ofiQ32 := swapped32 f.ofiQ32
        imbQ115 := swapped16 f.tobImbQ115
        burstQ16 := swapped32 f.burstQ1616
        volQ16 := swapped32 f.volQ1616 } := by
  have lanes := dmaStore_packFeatures f
  simp only [dmaStore, List.range_succ, List.range_zero, List.nil_append, List.cons_append,
    List.map_cons, List.map_nil, toLE, List.cons.injEq] at lanes
  obtain ⟨l0, l1, l2, l3, l4, l5, -, -, l8, l9, l10, l11, l12, l13, l14, l15, -⟩ := lanes
  simp only [mlpDecode, be32ToS32, be32ToU32_eq, be16ToS16_eq, l0, l1, l2, l3, l4, l5, l8, l9, l10,
    l11, l12, l13, l14, l15]
  rfl

theorem fromBytesBigSigned_toLE {w n : ℕ} (x : BitVec w) (y : BitVec w) (hw : 2 ^ w = 256 ^ n)
    (hy : y.toNat = byteSwap n x.toNat) : fromBytesBigSigned (toLE n x.toNat) = y.toInt := by
  have swapped : toBE n y.toNat = toLE n x.toNat := by
    rw [hy, toBE, toLE_byteSwap, toBE, List.reverse_reverse]
  rw [← swapped, fromBytesBigSigned_toBE y hw]

theorem plDecode_packFeatures (f : Features) :
    plDecode (dmaStore (packFeatures f)) =
      { ofi := (swapped32 f.ofiQ32).toInt
        imbQ115 := (swapped16 f.tobImbQ115).toInt
        burst := (swapped32 f.burstQ1616).toNat
        vol := (swapped32 f.volQ1616).toNat } := by
  have ofi := fromBytesBigSigned_toLE f.ofiQ32 _ (by norm_num) (swapped32_toNat f.ofiQ32)
  have imb := fromBytesBigSigned_toLE f.tobImbQ115 _ (by norm_num) (swapped16_toNat f.tobImbQ115)
  rw [dmaStore_packFeatures, ← ofi, ← imb, swapped32_toNat, swapped32_toNat]
  rfl

/-- A feature beat is read back unchanged, by the MLP and through the DMA buffer
alike, exactly when each of its fields is a palindrome of bytes. -/
theorem feature_read_back_iff (f : Features) :
    (mlpDecode (packFeatures f) = ⟨f.ofiQ32, f.tobImbQ115, f.burstQ1616, f.volQ1616⟩ ∧
      plDecode (dmaStore (packFeatures f)) =
        ⟨f.ofiQ32.toInt, f.tobImbQ115.toInt, f.burstQ1616.toNat, f.volQ1616.toNat⟩) ↔
    ByteSymmetric 4 f.ofiQ32.toNat ∧ ByteSymmetric 2 f.tobImbQ115.toNat ∧
      ByteSymmetric 4 f.burstQ1616.toNat ∧ ByteSymmetric 4 f.volQ1616.toNat := by
  rw [mlpDecode_packFeatures, plDecode_packFeatures, MlpInput.mk.injEq, PlResult.mk.injEq,
    ← swapped32_eq_iff, ← swapped16_eq_iff, ← swapped32_eq_iff, ← swapped32_eq_iff]
  constructor
  · rintro ⟨fields, -⟩
    exact fields
  · rintro ⟨ofi, imb, burst, vol⟩
    exact ⟨⟨ofi, imb, burst, vol⟩, by rw [ofi], by rw [imb], by rw [burst], by rw [vol]⟩

/-- An order-flow imbalance of 1 is read as 16777216. -/
theorem feature_one_read_swapped :
    mlpDecode (packFeatures ⟨1, 0, 0, 0x10000, 0⟩) ≠ ⟨1, 0, 0x10000, 0⟩ ∧
      plDecode (dmaStore (packFeatures ⟨1, 0, 0, 0x10000, 0⟩)) ≠ ⟨1, 0, 0x10000, 0⟩ := by
  decide

end HftLatencyLab.FeatureBeat
