import HftLatencyLab.FeatureBeat
import HftLatencyLab.MlpLayers
import HftLatencyLab.Quantise
import HftLatencyLab.ReplayedFeatures
import HftLatencyLab.ScorePath

/-! The inference path of mlp_infer_stream, in whatever arithmetic `float` has, and the scores
of replayed market data: the exported weights listen to the volatility alone, and that is zero,
so every packet of every replay gets one and the same score. -/

namespace HftLatencyLab.MlpInfer
open AxiStream ByteOrder LobWire FeatureMath FeaturePipeline FeatureBeat WeightLoad MlpLayers
  Quantise ScorePath ReplayLoop ReplayedFeatures

/-- What the core does with numbers of type `float`. -/
structure Floats (F : Type) where
  ofInt : ℤ → F
  /-- A literal. -/
  lit : ℚ → F
  add : F → F → F
  mul : F → F → F
  div : F → F → F
  lt : F → F → Bool
  le : F → F → Bool
  /-- `(ap_int<32>) x` -/
  toI32 : F → BitVec 32

def exact : Floats ℚ where
  ofInt n := n
  lit q := q
  add := (· + ·)
  mul := (· * ·)
  div := (· / ·)
  lt x y := x < y
  le x y := x ≤ y
  toI32 := Quantise.toI32

structure Scales (F : Type) where
  inScale : F
  w0Scale : F
  act0Scale : F
  w1Scale : F

variable {F : Type} (O : Floats F)

namespace Floats

def inverse (scale : F) : F :=
  if O.lt (O.lit (1 / 10 ^ 12)) scale then O.div (O.lit 1) scale else O.lit 0

/-- `x + (x >= 0 ? 0.5f : -0.5f)`, of a sign that may be another's. -/
def awayFrom (sign x : F) : F :=
  O.add x (if O.le (O.lit 0) sign then O.lit (1 / 2) else O.lit (-1 / 2))

def inputs (m : MlpInput) : Vector F 4 :=
  #v[O.ofInt m.ofiQ32.toInt, O.div (O.ofInt m.imbQ115.toInt) (O.lit 32768),
    O.div (O.ofInt m.burstQ16.toNat) (O.lit 65536), O.div (O.ofInt m.volQ16.toNat) (O.lit 65536)]

def toI8 (invInScale x : F) : BitVec 8 :=
  clampToI8 (O.toI32 (O.awayFrom x (O.mul x invInScale)))

def hidden (s0 invAct0 : F) (acc : BitVec 32) : BitVec 8 :=
  let val := O.mul (O.ofInt acc.toInt) s0
  let val := if O.lt val (O.lit 0) then O.lit 0 else val
  let val := O.mul val invAct0
  clampToI8 (O.toI32 (O.add val (O.lit (1 / 2))))

def scoreQ16 (k : Scales F) (acc1 : BitVec 32) : BitVec 32 :=
  let logits := O.mul (O.ofInt acc1.toInt) (O.mul k.act0Scale k.w1Scale)
  let scaled := O.mul logits (O.lit 65536)
  let scaled := if O.lt (O.lit 2147483647) scaled then O.lit 2147483647 else scaled
  let scaled := if O.lt scaled (O.lit (-2147483648)) then O.lit (-2147483648) else scaled
  O.toI32 (O.awayFrom scaled scaled)

end Floats

/-- `for (..; n times) dbg_cycles++;` -/
def counted (n : ℕ) (dbgCycles : BitVec 32) : BitVec 32 :=
  (List.range n).foldl (fun c _ => c + 1) dbgCycles

structure Inferred where
  outw : Axis32
  donePulse : Bool
  mlpDbgIters : BitVec 32
deriving DecidableEq

def infer (k : Scales F) (delayCycles : BitVec 32) (c : WeightCache) (inw : Axis128) : Inferred :=
  let dbgCycles := counted delayCycles.toNat 0
  let x := O.inputs (mlpDecode inw.data)
  let xi := x.map (O.toI8 (O.inverse k.inScale))
  let s0 := O.mul k.inScale k.w0Scale
  let y0I8 := Vector.ofFn fun h => O.hidden s0 (O.inverse k.act0Scale) (layer0Acc c xi h)
  let dbgCycles := counted 32 dbgCycles
  let acc1 := layer1Acc c y0I8
  let dbgCycles := counted 32 dbgCycles
  { outw := { data := O.scoreQ16 k acc1, keep := 0xF, strb := 0xF, last := inw.last }
    donePulse := true
    mlpDbgIters := dbgCycles }

def scoreBeats (k : Scales F) (delayCycles : BitVec 32) (c : WeightCache)
    (feats : List FeatureBeat) : List Axis32 :=
  feats.map fun beat => (infer O k delayCycles c beat.axo).outw

theorem counted_eq (n : ℕ) (c : BitVec 32) : counted n c = c + BitVec.ofNat 32 n := by
  induction n with
  | zero => simp [counted]
  | succ n ih =>
    have more : counted (n + 1) c = counted n c + 1 := by
      simp [counted, List.range_succ]
    rw [more, ih, BitVec.ofNat_add, BitVec.add_assoc]
    rfl

theorem infer_dbgIters (k : Scales F) (delayCycles : BitVec 32) (c : WeightCache)
    (inw : Axis128) : (infer O k delayCycles c inw).mlpDbgIters = delayCycles + 64 := by
  change counted 32 (counted 32 (counted delayCycles.toNat 0)) = _
  have start : (0 : BitVec 32) + delayCycles = delayCycles := BitVec.zero_add _
  rw [counted_eq, counted_eq, counted_eq, BitVec.ofNat_toNat, BitVec.setWidth_eq, start,
    BitVec.add_assoc]
  rfl

theorem inverse_exact (scale : ℚ) : exact.inverse scale = Quantise.inverse scale := by
  unfold Floats.inverse Quantise.inverse exact
  simp only [decide_eq_true_eq]

theorem inputs_exact (m : MlpInput) (inScale : ℚ) :
    (exact.inputs m).map (exact.toI8 (exact.inverse inScale)) =
      quantiseInputs inScale (exact.inputs m) := by
  rw [inverse_exact, quantiseInputs]
  congr 1
  funext x
  simp only [Floats.toI8, Floats.awayFrom, exact, quantiseInput, decide_eq_true_eq]

theorem hidden_exact (s0 act0Scale : ℚ) (acc : BitVec 32) :
    exact.hidden s0 (exact.inverse act0Scale) acc = quantiseAct act0Scale (acc.toInt * s0) := by
  rw [inverse_exact]
  simp only [Floats.hidden, exact, quantiseAct, decide_eq_true_eq]

def VolOnly (ddr : Ddr) : Prop := ∀ (h : Fin 32) (d : Fin 4), d ≠ 3 → w0Row ddr h d = 0

theorem accumulate_last {x x' : Vector (BitVec 8) 4} {w : Vector Byte 4}
    (zero : ∀ d : Fin 4, d ≠ 3 → w.get d = 0) (same : x.get 3 = x'.get 3) (bias : BitVec 32) :
    accumulate x w bias = accumulate x' w bias := by
  have w0 := zero 0 (by decide)
  have w1 := zero 1 (by decide)
  have w2 := zero 2 (by decide)
  rw [accumulate_eq, accumulate_eq, Fin.sum_univ_four, Fin.sum_univ_four, w0, w1, w2, same]
  simp

theorem infer_vol {c : WeightCache} (zero : ∀ (h : Fin 32) (d : Fin 4), d ≠ 3 →
    (c.sW0.get h).get d = 0) (k : Scales F) (delayCycles delayCycles' : BitVec 32)
    (inw inw' : Axis128) (vol : (mlpDecode inw.data).volQ16 = (mlpDecode inw'.data).volQ16) :
    (infer O k delayCycles c inw).outw.data = (infer O k delayCycles' c inw').outw.data := by
  have neuron (h : Fin 32) :
      layer0Acc c ((O.inputs (mlpDecode inw.data)).map (O.toI8 (O.inverse k.inScale))) h =
        layer0Acc c ((O.inputs (mlpDecode inw'.data)).map (O.toI8 (O.inverse k.inScale))) h := by
    have lane (m : MlpInput) : ((O.inputs m).map (O.toI8 (O.inverse k.inScale))).get 3 =
        O.toI8 (O.inverse k.inScale) (O.div (O.ofInt m.volQ16.toNat) (O.lit 65536)) := by
      simp only [Floats.inputs, Vector.map_mk, List.map_toArray, List.map_cons, List.map_nil]
      rfl
    refine accumulate_last (zero h) ?_ _
    rw [lane, lane, vol]
  simp only [infer, neuron]

theorem mlpDecode_vol {word : BitVec 128} (zero : volField word = 0) :
    (mlpDecode word).volQ16 = 0 := by
  have value : word.toNat / 256 ^ 12 = 0 := by
    have field := congrArg BitVec.toNat zero
    have below := word.isLt
    rw [volField, BitVec.extractLsb'_toNat, Nat.shiftRight_eq_div_pow] at field
    change word.toNat / 2 ^ 96 % 2 ^ 32 = 0 at field
    omega
  have lane (i : ℕ) : byteLane word (12 + i) = 0 := by
    rw [byteLane_eq, pow_add, ← Nat.div_div_eq_div_mul, value, Nat.zero_div]
    rfl
  change be32ToU32 (byteLane word (12 + 0)) (byteLane word (12 + 1)) (byteLane word (12 + 2))
    (byteLane word (12 + 3)) = 0
  rw [lane, lane, lane, lane]
  rfl

/-- models/exports/bitstream/w0.mem, a row of W0 in every four bytes -/
def w0Mem : List Byte :=
  [0, 0, 0, 0x4A, 0, 0, 0, 0xC0, 0, 0, 0, 0xA2, 0, 0, 0, 0x92,
    0, 0, 0, 0x3C, 0, 0, 0, 0x95, 0, 0, 0, 0x7D, 0, 0, 0, 0xAF,
    0, 0, 0, 0xC4, 0, 0, 0, 0x71, 0, 0, 0, 0xC6, 0, 0, 0, 0x1E,
    0, 0, 0, 0x57, 0, 0, 0, 0x5F, 0, 0, 0, 0x60, 0, 0, 0, 0x81,
    0, 0, 0, 0xEC, 0, 0, 0, 0xCA, 0, 0, 0, 0x81, 0, 0, 0, 0xC5,
    0, 0, 0, 0x71, 0, 0, 0, 0x2D, 0, 0, 0, 0x6C, 0, 0, 0, 0xAA,
    0, 0, 0, 0x69, 0, 0, 0, 0xBE, 0, 0, 0, 0x34, 0, 0, 0, 0xB8,
    0, 0, 0, 0x77, 0, 0, 0, 0xA2, 0, 0, 0, 0x56, 0, 0, 0, 0xD5]

def exported : Ddr where
  w0 i := w0Mem.getD i 0
  b0 _ := 0
  w1 _ := 0
  b1 _ := 0

/-- With these weights in the cache every packet of every replay gets the same score. -/
theorem replayed_scores_constant (k : Scales F) (delayCycles : BitVec 32) {ddr : Ddr}
    (volOnly : VolOnly ddr) (before : WeightCache) :
    ∃ fuel words after, weightLoader fuel ddr fullSizes true = some words ∧
      reload fullSizes words before = .ok ([], after) ∧
      ∃ score, ∀ {ρ : Type} (cfg : Config ρ) (depth : Option ℕ) (file : List Byte) (clk : Clock)
        (r : Sender), 1 ≤ cfg.batch → cfg.batch ≤ 128 → (∀ n ∈ depth, cfg.batch ≤ n) →
        cfg.lobMode file clk = some r →
        scoreBeats O k delayCycles after (replayedBeats depth r) =
          List.replicate r.sent.length (scoreBeat score true) := by
  obtain ⟨words, sent, stored⟩ := reload_weightLoader ddr fullSizes before 33 (by decide)
    (by decide) (by decide) (by decide) (by decide)
  have loaded := copied_reloaded ddr fullSizes before (by decide) (by decide)
  have zero (h : Fin 32) (d : Fin 4) (other : d ≠ 3) :
      (((reloaded ddr fullSizes before).sW0.get h).get d) = 0 := by
    rw [loaded_row loaded]
    exact volOnly h d other
  refine ⟨33, words, _, sent, stored,
    (infer O k delayCycles (reloaded ddr fullSizes before) ⟨0, 0, 0, true⟩).outw.data,
    fun cfg depth file clk r pos limit room run => ?_⟩
  obtain ⟨count, noVol⟩ := replayed_vol_zero pos limit room run
  have last := replayed_last pos limit room run
  rw [replayedWords, List.length_map] at count
  rw [List.eq_replicate_iff, scoreBeats, List.length_map]
  refine ⟨count, fun out mem => ?_⟩
  obtain ⟨beat, fired, rfl⟩ := List.mem_map.mp mem
  have vol : (mlpDecode beat.axo.data).volQ16 = (mlpDecode 0).volQ16 :=
    (mlpDecode_vol (noVol _ (List.mem_map_of_mem fired))).trans (mlpDecode_vol rfl).symm
  have same := infer_vol O zero k delayCycles delayCycles beat.axo ⟨0, 0, 0, true⟩ vol
  rw [scoreBeat, ← same, ← last beat fired]
  rfl

theorem exported_scores_constant :
    ∃ fuel words after, weightLoader fuel exported fullSizes true = some words ∧
      reload fullSizes words .powerOn = .ok ([], after) ∧
      ∃ score r, sampleConfig.lobMode sampleFile [1000, 0, 10, 20, 21, 22, 30, 40] = some r ∧
        scoreBeats exact ⟨1, 1, 1, 1⟩ 0 after (replayedBeats (some 8) r) =
          List.replicate r.sent.length (scoreBeat score true) := by
  have volOnly : VolOnly exported := by
    unfold VolOnly w0Row exported
    decide +kernel
  obtain ⟨fuel, words, after, sent, stored, score, all⟩ :=
    replayed_scores_constant exact ⟨1, 1, 1, 1⟩ 0 volOnly .powerOn
  have ends : (sampleConfig.lobMode sampleFile [1000, 0, 10, 20, 21, 22, 30, 40]).isSome := by
    decide +kernel
  obtain ⟨r, run⟩ := Option.isSome_iff_exists.mp ends
  exact ⟨fuel, words, after, sent, stored, score, r, run,
    all sampleConfig (some 8) sampleFile _ r (by decide) (by decide) (by decide) run⟩

end HftLatencyLab.MlpInfer
