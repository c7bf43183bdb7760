import Mathlib.Init

/-! Beats of the AXI4-Streams between the cores. -/

namespace HftLatencyLab.AxiStream

structure Axis32 where
  data : BitVec 32
  keep : BitVec 4
  strb : BitVec 4
  last : Bool
deriving DecidableEq

structure Axis64 where
  data : BitVec 64
  keep : BitVec 8
  strb : BitVec 8
  last : Bool
deriving DecidableEq

structure Axis128 where
  data : BitVec 128
  keep : BitVec 16
  strb : BitVec 16
  last : Bool
deriving DecidableEq

end HftLatencyLab.AxiStream
