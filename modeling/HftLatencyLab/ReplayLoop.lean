import HftLatencyLab.FeaturesRef
import HftLatencyLab.PartialFold

/-! The lob mode of replay-udp. It gathers the deltas of the event file into DELTAS
packets, by count and by the clock, and flushes the last ones at end of file. Whatever
the clock shows, the packets carry the deltas of the accepted messages in file order. -/

namespace HftLatencyLab.ReplayLoop
open ByteOrder LobWire LobPacket FeaturesRef

variable {ρ : Type}

/-- The readings `now_ns_clockid` still has to return. -/
abbrev Clock := List (BitVec 64)

def nowNs : Clock → Option (BitVec 64 × Clock)
  | [] => none
  | now :: clk => some (now, clk)

/-- The arguments of a run, and what the program makes of doubles; `ρ` stands for them. -/
structure Config (ρ : Type) where
  batch : ℕ
  pps : BitVec 64
  /-- `speed > 0.0` -/
  paced : Bool
  /-- `speed <= 0.0`; a NaN is neither -/
  unpaced : Bool
  /-- `(uint64_t)interval_ns` -/
  intervalNs : BitVec 64
  /-- `-1.0` -/
  noTs : ρ
  /-- `first_ts < 0.0` -/
  negative : ρ → Bool
  /-- `(uint64_t)((t_s - first_ts) * (1e9 / speed))` -/
  offsetNs : ρ → ρ → BitVec 64
  conv : Conv ρ
  /-- `sscanf(line, "%lf,%d,%lld,%d,%lf,%d", ...)`, none unless it returns 6 -/
  scan : List Byte → Option (Row ρ)

structure Packet where
  fcnt : BitVec 16
  seq : BitVec 32
  tSend : BitVec 64
  deltas : List LobV1Delta

def Packet.bytes (p : Packet) : List Byte :=
  (replayHdr p.fcnt p.seq p.tSend).bytes ++ p.deltas.flatMap LobV1Delta.wire

/-- Record of `--dump-packets`: 4B seq (be), 2B count, then raw on-wire deltas. -/
def Packet.dumpRecord (p : Packet) : List Byte :=
  toLE 4 (htonl p.seq).toNat ++ toLE 2 (htons (BitVec.ofNat 16 p.deltas.length)).toNat ++
    p.deltas.flatMap LobV1Delta.wire

/-- The batch (`deltas[0..dn-1]`) and what has left the program. -/
structure Sender where
  deltas : List LobV1Delta
  seq : BitVec 64
  firstFeaturesBatch : Bool
  sent : List Packet
  dumpp : List Byte

namespace Sender

def start : Sender where
  deltas := []
  seq := 0
  firstFeaturesBatch := true
  sent := []
  dumpp := []

/-- High bit: reset, low 15: count. -/
def fcnt (s : Sender) : BitVec 16 :=
  let dn := BitVec.ofNat 16 s.deltas.length
  if s.firstFeaturesBatch then dn ||| 0x8000 else dn

def packet (s : Sender) (tSend : BitVec 64) : Packet where
  fcnt := s.fcnt
  seq := s.seq.setWidth 32
  tSend := tSend
  deltas := s.deltas

/-- `if (dn < batch) deltas[dn++] = d;` -/
def append (batch : ℕ) (s : Sender) (d : LobV1Delta) : Sender :=
  if s.deltas.length < batch then { s with deltas := s.deltas ++ [d] } else s

def send (s : Sender) (tSend : BitVec 64) : Sender where
  deltas := []
  seq := s.seq + 1
  firstFeaturesBatch := false
  sent := s.sent ++ [s.packet tSend]
  dumpp := s.dumpp ++ (s.packet tSend).dumpRecord

/-- After end of file; `--dump-packets` is not written here. -/
def flush (s : Sender) (tSend : BitVec 64) : Sender :=
  { s with
    seq := s.seq + 1
    firstFeaturesBatch := false
    sent := s.sent ++ [s.packet tSend] }

end Sender

structure Pacing (ρ : Type) where
  firstTs : ρ
  packetTargetNs : BitVec 64
  nextSend : BitVec 64

structure Loop (ρ : Type) where
  pacing : Pacing ρ
  sender : Sender
  clock : Clock

namespace Config

variable (cfg : Config ρ)

/-- Wait until scheduled time to send any accumulated batch. -/
def wait (dn : ℕ) (packetTargetNs : BitVec 64) : Clock → Option Clock
  | [] => none
  | noww :: clk =>
    if cfg.batch ≤ dn then some clk
    else if packetTargetNs ≤ noww then some clk
    else wait dn packetTargetNs clk

def firstTs (p : Pacing ρ) (tS : ρ) : Pacing ρ :=
  { p with firstTs := if cfg.negative p.firstTs then tS else p.firstTs }

def target (startWall : BitVec 64) (dn : ℕ) (p : Pacing ρ) (tS : ρ) : Pacing ρ :=
  let targetNs := startWall + cfg.offsetNs tS p.firstTs
  { p with packetTargetNs := if dn = 0 then targetNs else p.packetTargetNs }

/-- If batch full, or not using speed and it's time per pps, send. -/
def shouldSend (p : Pacing ρ) (dn : ℕ) (noww : BitVec 64) : Bool :=
  if cfg.unpaced then
    if cfg.pps = 0 ∨ p.nextSend ≤ noww then decide (0 < dn) else decide (cfg.batch ≤ dn)
  else
    if p.packetTargetNs ≤ noww ∧ 0 < dn then true else decide (cfg.batch ≤ dn)

def afterSend (p : Pacing ρ) : Pacing ρ :=
  { p with
    nextSend := if cfg.pps ≠ 0 ∧ cfg.unpaced then p.nextSend + cfg.intervalNs else p.nextSend
    packetTargetNs := 0 }

/-- Pacing in front of a delta: nothing to do unless `speed > 0.0`. -/
def pace (startWall : BitVec 64) (s : Loop ρ) (tS : ρ) : Option (Loop ρ) :=
  if cfg.paced then do
    let pacing := cfg.target startWall s.sender.deltas.length s.pacing tS
    let clock ← cfg.wait s.sender.deltas.length pacing.packetTargetNs s.clock
    return { s with pacing := pacing, clock := clock }
  else some s

/-- The send of a batch reads the clock for `t_send_ns`, and once more for the statistics. -/
def sendBatch (s : Loop ρ) : Option (Loop ρ) := do
  let (tSend, clock) ← nowNs s.clock
  let (_, clock) ← nowNs clock
  return { pacing := cfg.afterSend s.pacing, sender := s.sender.send tSend, clock := clock }

def iterate (startWall : BitVec 64) (s : Loop ρ) (line : List Byte) : Option (Loop ρ) :=
  match cfg.scan line with
  | none => some s
  | some row =>
    let s := { s with pacing := cfg.firstTs s.pacing row.tS }
    match replayDelta cfg.conv row with
    | none => some s
    | some d => do
      let s ← cfg.pace startWall s row.tS
      let s := { s with sender := s.sender.append cfg.batch d }
      let (noww, clock) ← nowNs s.clock
      let s := { s with clock := clock }
      if cfg.shouldSend s.pacing s.sender.deltas.length noww then cfg.sendBatch s else some s

end Config

/-- What `fgets(line, 512, f)` reads call by call: up to a newline, 511 bytes at most. -/
def fgetsFrom : List Byte → List Byte → List (List Byte)
  | line, [] => if line.isEmpty then [] else [line]
  | line, c :: file =>
    if c = 10 ∨ line.length = 510 then (line ++ [c]) :: fgetsFrom [] file
    else fgetsFrom (line ++ [c]) file

def fgetsLines (file : List Byte) : List (List Byte) := fgetsFrom [] file

theorem flatten_fgetsFrom (line file : List Byte) :
    (fgetsFrom line file).flatten = line ++ file := by
  induction file generalizing line with
  | nil => cases line <;> simp [fgetsFrom]
  | cons c file ih =>
    rw [fgetsFrom]
    split
    · rw [List.flatten_cons, ih, List.nil_append, List.append_assoc, List.singleton_append]
    · rw [ih, List.append_assoc, List.singleton_append]

theorem mem_fgetsFrom {line file l : List Byte} (short : line.length ≤ 510) (inside : 10 ∉ line)
    (mem : l ∈ fgetsFrom line file) : l ≠ [] ∧ l.length ≤ 511 ∧ 10 ∉ l.dropLast := by
  induction file generalizing line with
  | nil =>
    rw [fgetsFrom] at mem
    split at mem
    · cases mem
    · obtain rfl := List.mem_singleton.mp mem
      exact ⟨by simp_all, by omega, fun newline => inside (List.mem_of_mem_dropLast newline)⟩
  | cons c file ih =>
    rw [fgetsFrom] at mem
    split at mem
    · rcases List.mem_cons.mp mem with rfl | later
      · rw [List.dropLast_concat, List.length_append, List.length_singleton]
        exact ⟨by simp, by omega, inside⟩
      · exact ih (Nat.zero_le _) (by simp) later
    · rename_i goesOn
      refine ih ?_ ?_ mem
      · rw [List.length_append, List.length_singleton]
        omega
      · rw [List.mem_append, List.mem_singleton]
        rintro (newline | rfl)
        · exact inside newline
        · exact goesOn (Or.inl rfl)

theorem fgetsLines_pieces (file : List Byte) :
    (fgetsLines file).flatten = file ∧
      ∀ line ∈ fgetsLines file, line ≠ [] ∧ line.length ≤ 511 ∧ 10 ∉ line.dropLast :=
  ⟨flatten_fgetsFrom [] file, fun _ mem => mem_fgetsFrom (Nat.zero_le _) (by simp) mem⟩

namespace Config

variable (cfg : Config ρ)

def readLoop (file : List Byte) (clk : Clock) : Option (Loop ρ) := do
  let (nextSend, clk) ← nowNs clk
  let (startWall, clk) ← nowNs clk
  (fgetsLines file).foldlM (cfg.iterate startWall)
    { pacing := { firstTs := cfg.noTs, packetTargetNs := 0, nextSend := nextSend }
      sender := .start
      clock := clk }

def finish (s : Loop ρ) : Option Sender :=
  if 0 < s.sender.deltas.length then do
    let (tSend, _) ← nowNs s.clock
    return s.sender.flush tSend
  else some s.sender

/-- `--mode lob`; none if the readings end before the program does. -/
def lobMode (file : List Byte) (clk : Clock) : Option Sender :=
  (cfg.readLoop file clk).bind finish

/-- The delta of a line, none if the loop skips it. -/
def lineDelta (line : List Byte) : Option LobV1Delta :=
  (cfg.scan line).bind (replayDelta cfg.conv)

def encodings (lines : List (List Byte)) : List LobV1Delta := lines.filterMap cfg.lineDelta

theorem lineDelta_isSome_iff {line : List Byte} :
    (cfg.lineDelta line).isSome ↔
      ∃ row, cfg.scan line = some row ∧ 1 ≤ row.typ ∧ row.typ ≤ 5 := by
  have known (row : Row ρ) : (replayDelta cfg.conv row).isSome ↔ 1 ≤ row.typ ∧ row.typ ≤ 5 := by
    rw [replayDelta, Option.isSome_map]
    by_cases inside : 1 ≤ row.typ ∧ row.typ ≤ 5
    · have typ : row.typ = 1 ∨ row.typ = 2 ∨ row.typ = 3 ∨ row.typ = 4 ∨ row.typ = 5 := by omega
      rcases typ with typ | typ | typ | typ | typ <;> simp [replayAction, typ]
    · have skipped : replayAction row.typ row.size = none := by
        unfold replayAction
        split <;> first | omega | rfl
      simp [skipped, inside]
  rw [lineDelta]
  cases cfg.scan line with
  | none => simp
  | some row => simp [known]

theorem encodings_concat (lines : List (List Byte)) (line : List Byte) :
    cfg.encodings (lines ++ [line]) = cfg.encodings lines ++ (cfg.lineDelta line).toList := by
  simp only [encodings, List.filterMap_append, List.filterMap_cons, List.filterMap_nil]
  cases cfg.lineDelta line <;> rfl

end Config

theorem pace_sender {cfg : Config ρ} {startWall : BitVec 64} {s s' : Loop ρ} {tS : ρ}
    (paced : cfg.pace startWall s tS = some s') : s'.sender = s.sender := by
  unfold Config.pace at paced
  split at paced
  · obtain ⟨clock, -, done⟩ := Option.bind_eq_some_iff.mp paced
    cases done
    rfl
  · cases paced
    rfl

theorem sendBatch_sender {cfg : Config ρ} {s s' : Loop ρ} (sent : cfg.sendBatch s = some s') :
    ∃ tSend, s'.sender = s.sender.send tSend := by
  obtain ⟨⟨tSend, clock⟩, -, read⟩ := Option.bind_eq_some_iff.mp sent
  obtain ⟨_, -, done⟩ := Option.bind_eq_some_iff.mp read
  cases done
  exact ⟨tSend, rfl⟩

theorem iterate_cases {cfg : Config ρ} {startWall : BitVec 64} {s s' : Loop ρ} {line : List Byte}
    (pass : cfg.iterate startWall s line = some s') :
    cfg.lineDelta line = none ∧ s'.sender = s.sender ∨
      ∃ d pacing noww, cfg.lineDelta line = some d ∧
        let joined := s.sender.append cfg.batch d
        (cfg.shouldSend pacing joined.deltas.length noww = false ∧ s'.sender = joined ∨
          cfg.shouldSend pacing joined.deltas.length noww = true ∧
            ∃ tSend, s'.sender = joined.send tSend) := by
  unfold Config.iterate at pass
  unfold Config.lineDelta
  cases scanned : cfg.scan line with
  | none =>
    rw [scanned] at pass
    cases pass
    exact Or.inl ⟨rfl, rfl⟩
  | some row =>
    rw [scanned] at pass
    cases encoded : replayDelta cfg.conv row with
    | none =>
      simp only [encoded] at pass
      cases pass
      exact Or.inl ⟨encoded, rfl⟩
    | some d =>
      simp only [encoded] at pass
      obtain ⟨waited, paced, pass⟩ := Option.bind_eq_some_iff.mp pass
      obtain ⟨⟨noww, clock⟩, -, pass⟩ := Option.bind_eq_some_iff.mp pass
      have same := pace_sender paced
      refine Or.inr ⟨d, waited.pacing, noww, encoded, ?_⟩
      dsimp only at same pass ⊢
      rw [same] at pass
      split at pass
      · next send => exact Or.inr ⟨send, sendBatch_sender pass⟩
      · next hold =>
        cases pass
        exact Or.inl ⟨Bool.eq_false_iff.mpr hold, rfl⟩

theorem shouldSend_full {cfg : Config ρ} {p : Pacing ρ} {dn : ℕ} {noww : BitVec 64}
    (pos : 0 < dn) (full : cfg.batch ≤ dn) : cfg.shouldSend p dn noww = true := by
  unfold Config.shouldSend
  simp [pos, full]

/-- The packet number `i` of a run. -/
structure WellSent (batch i : ℕ) (p : Packet) : Prop where
  nonempty : 1 ≤ p.deltas.length
  atMost : p.deltas.length ≤ batch
  count : (p.fcnt &&& 0x7FFF).toNat = p.deltas.length
  reset : p.fcnt.toNat.testBit 15 = decide (i = 0)
  seq : p.seq.toNat = i % 2 ^ 32

/-- The packets so far and the batch hold the deltas `done`, the counters count, and the
dump has a record of every packet. -/
structure Batching (batch : ℕ) (done : List LobV1Delta) (s : Sender) : Prop where
  kept : s.sent.flatMap Packet.deltas ++ s.deltas = done
  seq : s.seq = BitVec.ofNat 64 s.sent.length
  first : s.firstFeaturesBatch = decide (s.sent.length = 0)
  packets : ∀ i (h : i < s.sent.length), WellSent batch i s.sent[i]
  dumped : s.dumpp = s.sent.flatMap Packet.dumpRecord

theorem start_batching (batch : ℕ) : Batching batch [] .start where
  kept := rfl
  seq := rfl
  first := rfl
  packets i h := absurd h (Nat.not_lt_zero i)
  dumped := rfl

theorem packet_datagram (s : Sender) (tSend : BitVec 64) (fits : s.deltas.length < 2 ^ 15) :
    ∃ m : Datagram, m.reset = s.firstFeaturesBatch ∧ m.seq = s.seq.setWidth 32 ∧
      m.deltas = s.deltas ∧ m.fcnt = s.fcnt ∧ m.bytes = (s.packet tSend).bytes :=
  ⟨⟨s.firstFeaturesBatch, s.seq.setWidth 32, tSend, s.deltas, fits⟩, rfl, rfl, rfl, rfl, rfl⟩

section Invariant

variable {batch : ℕ} {done : List LobV1Delta} {s : Sender}

theorem Batching.packet (inv : Batching batch done s) (limit : batch ≤ 32767)
    (pos : 0 < s.deltas.length) (room : s.deltas.length ≤ batch) (tSend : BitVec 64) :
    WellSent batch s.sent.length (s.packet tSend) := by
  obtain ⟨m, reset, -, deltas, fcnt, -⟩ := packet_datagram s tSend (by omega)
  have count := fcnt_count m
  have high := fcnt_reset m
  rw [fcnt, deltas] at count
  rw [fcnt, reset, inv.first] at high
  refine ⟨pos, room, count, high, ?_⟩
  change (s.seq.setWidth 32).toNat = _
  rw [inv.seq, BitVec.toNat_setWidth, BitVec.toNat_ofNat]
  omega

theorem Batching.sent (inv : Batching batch done s) (limit : batch ≤ 32767)
    (pos : 0 < s.deltas.length) (room : s.deltas.length ≤ batch) (tSend : BitVec 64) (i : ℕ)
    (h : i < (s.sent ++ [s.packet tSend]).length) :
    WellSent batch i (s.sent ++ [s.packet tSend])[i] := by
  by_cases old : i < s.sent.length
  · rw [List.getElem_append_left old]
    exact inv.packets i old
  · have new : i = s.sent.length := by
      rw [List.length_append, List.length_singleton] at h
      omega
    subst new
    rw [List.getElem_concat_length rfl]
    exact inv.packet limit pos room tSend

theorem Batching.append (inv : Batching batch done s) (room : s.deltas.length < batch)
    (d : LobV1Delta) : Batching batch (done ++ [d]) (s.append batch d) := by
  rw [Sender.append, if_pos room]
  refine ⟨?_, inv.seq, inv.first, inv.packets, inv.dumped⟩
  rw [← inv.kept, List.append_assoc]

theorem Batching.send (inv : Batching batch done s) (limit : batch ≤ 32767)
    (pos : 0 < s.deltas.length) (room : s.deltas.length ≤ batch) (tSend : BitVec 64) :
    Batching batch done (s.send tSend) where
  kept := by
    rw [← inv.kept]
    simp [Sender.send, Sender.packet]
  seq := by
    simp [Sender.send, inv.seq, BitVec.ofNat_add]
  first := by simp [Sender.send]
  packets := inv.sent limit pos room tSend
  dumped := by simp [Sender.send, inv.dumped]

theorem length_append (room : s.deltas.length < batch) (d : LobV1Delta) :
    (s.append batch d).deltas.length = s.deltas.length + 1 := by
  simp [Sender.append, room]

end Invariant

/-- Between two lines the batch is never full, and nothing of the lines read is lost. -/
def Config.Kept (cfg : Config ρ) (lines : List (List Byte)) (s : Loop ρ) : Prop :=
  s.sender.deltas.length < cfg.batch ∧ Batching cfg.batch (cfg.encodings lines) s.sender

theorem iterate_kept {cfg : Config ρ} (pos : 1 ≤ cfg.batch) (limit : cfg.batch ≤ 32767)
    {startWall : BitVec 64} {lines : List (List Byte)} {line : List Byte} {s s' : Loop ρ}
    (kept : cfg.Kept lines s) (pass : cfg.iterate startWall s line = some s') :
    cfg.Kept (lines ++ [line]) s' := by
  obtain ⟨room, inv⟩ := kept
  rw [Config.Kept, cfg.encodings_concat]
  rcases iterate_cases pass with ⟨skipped, same⟩ | ⟨d, pacing, noww, encoded, joins⟩
  · rw [skipped, same]
    simpa using ⟨room, inv⟩
  · rw [encoded]
    have long := length_append room d
    have joined := inv.append room d
    rcases joins with ⟨hold, now⟩ | ⟨-, tSend, now⟩
    · rw [now]
      refine ⟨?_, joined⟩
      by_contra full
      have due : cfg.shouldSend pacing (s.sender.append cfg.batch d).deltas.length noww = true :=
        shouldSend_full (by omega) (by omega)
      rw [hold] at due
      cases due
    · rw [now]
      exact ⟨pos, joined.send limit (by omega) (by omega) tSend⟩

theorem readLoop_kept {cfg : Config ρ} (pos : 1 ≤ cfg.batch) (limit : cfg.batch ≤ 32767)
    {file : List Byte} {clk : Clock} {s : Loop ρ} (run : cfg.readLoop file clk = some s) :
    cfg.Kept (fgetsLines file) s := by
  obtain ⟨⟨nextSend, clk⟩, -, run⟩ := Option.bind_eq_some_iff.mp run
  obtain ⟨⟨startWall, clk⟩, -, run⟩ := Option.bind_eq_some_iff.mp run
  have start : cfg.Kept [] ⟨⟨cfg.noTs, 0, nextSend⟩, .start, clk⟩ :=
    ⟨pos, start_batching cfg.batch⟩
  have kept := foldlM_invariant (fun _ _ _ _ => iterate_kept pos limit) start run
  rwa [List.nil_append] at kept

/-- `clk'` is what at most `n` readings leave of `clk`. -/
def Reads (n : ℕ) (clk clk' : Clock) : Prop := clk' <:+ clk ∧ clk.length ≤ clk'.length + n

theorem Reads.trans {n k : ℕ} {a b c : Clock} (first : Reads n a b) (later : Reads k b c) :
    Reads (n + k) a c := by
  obtain ⟨suffix, short⟩ := first
  obtain ⟨suffix', short'⟩ := later
  exact ⟨suffix'.trans suffix, by omega⟩

theorem nowNs_eq_some {clk rest : Clock} {now : BitVec 64} (read : nowNs clk = some (now, rest)) :
    clk = now :: rest := by
  cases clk with
  | nil => cases read
  | cons first later =>
    obtain ⟨rfl, rfl⟩ := Prod.mk.inj (Option.some.inj read)
    rfl

theorem nowNs_reads {clk : Clock} (enough : 1 ≤ clk.length) :
    ∃ now rest, nowNs clk = some (now, rest) ∧ Reads 1 clk rest := by
  cases clk with
  | nil => simp at enough
  | cons now rest => exact ⟨now, rest, rfl, List.suffix_cons now rest, le_rfl⟩

def Config.Prompt (cfg : Config ρ) (clk : Clock) : Prop :=
  cfg.paced = true → ∀ now ∈ clk, now = BitVec.allOnes 64

theorem Config.Prompt.suffix {cfg : Config ρ} {clk clk' : Clock} (prompt : cfg.Prompt clk)
    (later : clk' <:+ clk) : cfg.Prompt clk' :=
  fun paced now mem => prompt paced now (later.subset mem)

theorem pace_reads {cfg : Config ρ} {s : Loop ρ} (prompt : cfg.Prompt s.clock)
    (enough : 1 ≤ s.clock.length) (startWall : BitVec 64) (tS : ρ) :
    ∃ s', cfg.pace startWall s tS = some s' ∧ Reads 1 s.clock s'.clock := by
  unfold Config.pace
  cases paced : cfg.paced with
  | false => exact ⟨s, rfl, List.suffix_rfl, Nat.le_succ _⟩
  | true =>
    obtain ⟨now, rest, read, reads⟩ := nowNs_reads enough
    have clock := nowNs_eq_some read
    have late : ∀ target : BitVec 64, target ≤ now := by
      intro target
      have last := prompt paced now (by simp [clock])
      rw [last, BitVec.le_def, BitVec.toNat_allOnes]
      exact Nat.le_sub_one_of_lt target.isLt
    have waited (dn : ℕ) (target : BitVec 64) : cfg.wait dn target s.clock = some rest := by
      rw [clock, Config.wait, if_pos (late target), ite_self]
    simp only [waited]
    exact ⟨_, rfl, reads⟩

theorem sendBatch_reads (cfg : Config ρ) {s : Loop ρ} (enough : 2 ≤ s.clock.length) :
    ∃ s', cfg.sendBatch s = some s' ∧ Reads 2 s.clock s'.clock := by
  obtain ⟨tSend, mid, first, reads⟩ := nowNs_reads (by omega : 1 ≤ s.clock.length)
  obtain ⟨now2, rest, second, reads'⟩ := nowNs_reads (by have := reads.2; omega : 1 ≤ mid.length)
  unfold Config.sendBatch
  simp only [first, second, Option.bind_eq_bind, Option.bind_some]
  exact ⟨_, rfl, reads.trans reads'⟩

theorem iterate_reads {cfg : Config ρ} {s : Loop ρ} (prompt : cfg.Prompt s.clock)
    (enough : 4 ≤ s.clock.length) (startWall : BitVec 64) (line : List Byte) :
    ∃ s', cfg.iterate startWall s line = some s' ∧ Reads 4 s.clock s'.clock := by
  have idle : Reads 4 s.clock s.clock := ⟨List.suffix_rfl, by omega⟩
  unfold Config.iterate
  cases cfg.scan line with
  | none => exact ⟨s, rfl, idle⟩
  | some row =>
    dsimp only
    cases replayDelta cfg.conv row with
    | none => exact ⟨_, rfl, idle⟩
    | some d =>
      have ready : 1 ≤ s.clock.length := by omega
      obtain ⟨waited, paced, reads⟩ := pace_reads
        (s := { s with pacing := cfg.firstTs s.pacing row.tS }) prompt ready startWall row.tS
      have short := reads.2
      dsimp only at short
      obtain ⟨noww, clock, now, reads'⟩ := nowNs_reads (by omega : 1 ≤ waited.clock.length)
      have short' := reads'.2
      simp only [paced, now, Option.bind_eq_bind, Option.bind_some]
      have both := reads.trans reads'
      split
      · obtain ⟨s', sent, reads''⟩ := sendBatch_reads cfg
          (s := ⟨waited.pacing, waited.sender.append cfg.batch d, clock⟩)
          (show 2 ≤ clock.length by omega)
        exact ⟨s', sent, both.trans reads''⟩
      · exact ⟨_, rfl, both.1, both.2.trans (Nat.add_le_add_left (by decide) _)⟩

theorem lobMode_ends (cfg : Config ρ) (file : List Byte) {clk : Clock} (prompt : cfg.Prompt clk)
    (enough : 3 + 4 * (fgetsLines file).length ≤ clk.length) :
    ∃ r, cfg.lobMode file clk = some r := by
  obtain ⟨nextSend, mid, first, reads⟩ := nowNs_reads (by omega : 1 ≤ clk.length)
  obtain ⟨startWall, rest, second, reads'⟩ :=
    nowNs_reads (by have := reads.2; omega : 1 ≤ mid.length)
  have both := reads.trans reads'
  obtain ⟨s, loop, left⟩ := foldlM_progress
    (J := fun n (s : Loop ρ) => cfg.Prompt s.clock ∧ 4 * n + 1 ≤ s.clock.length + 4 * 0)
    (f := cfg.iterate startWall) (fun n s line ⟨prompt, enough⟩ => by
      obtain ⟨s', pass, reads⟩ := iterate_reads prompt (by omega) startWall line
      exact ⟨s', pass, prompt.suffix reads.1, by have := reads.2; omega⟩)
    (fgetsLines file) (n := 0) (s := ⟨⟨cfg.noTs, 0, nextSend⟩, .start, rest⟩)
    ⟨prompt.suffix both.1, by have := both.2; dsimp only; omega⟩
  have ends : cfg.readLoop file clk = some s := by
    rw [Config.readLoop, first]
    simpa [second] using loop
  obtain ⟨tSend, more, last, -⟩ := nowNs_reads (by omega : 1 ≤ s.clock.length)
  rw [Config.lobMode, ends, Option.bind_some, Config.finish]
  split
  · exact ⟨_, by rw [last]; rfl⟩
  · exact ⟨_, rfl⟩

theorem finish_cases {s : Loop ρ} {r : Sender} (done : Config.finish s = some r) :
    s.sender.deltas = [] ∧ r = s.sender ∨
      0 < s.sender.deltas.length ∧ ∃ tSend, r = s.sender.flush tSend := by
  unfold Config.finish at done
  split at done
  · next left =>
    obtain ⟨⟨tSend, clk⟩, -, flushed⟩ := Option.bind_eq_some_iff.mp done
    cases flushed
    exact Or.inr ⟨left, tSend, rfl⟩
  · next none =>
    cases done
    exact Or.inl ⟨List.eq_nil_of_length_eq_zero (by omega), rfl⟩

/-- Nothing lost, nothing twice, nothing out of order: the deltas of the packets are the
encodings of the accepted lines, and the packets are counted and numbered. -/
theorem replay_complete (cfg : Config ρ) (pos : 1 ≤ cfg.batch) (limit : cfg.batch ≤ 32767)
    (file : List Byte) (clk : Clock) {r : Sender} (run : cfg.lobMode file clk = some r) :
    r.sent.flatMap Packet.deltas = cfg.encodings (fgetsLines file) ∧
      ∀ i (h : i < r.sent.length), WellSent cfg.batch i r.sent[i] := by
  obtain ⟨s, loop, done⟩ := Option.bind_eq_some_iff.mp run
  obtain ⟨room, inv⟩ := readLoop_kept pos limit loop
  rcases finish_cases done with ⟨empty, rfl⟩ | ⟨left, tSend, rfl⟩
  · refine ⟨?_, inv.packets⟩
    rw [← inv.kept, empty, List.append_nil]
  · refine ⟨?_, inv.sent limit left (by omega) tSend⟩
    rw [← inv.kept]
    simp [Sender.flush, Sender.packet]

/-- The line "1,1,7,10,5853,1". -/
def buyLine : List Byte :=
  [0x31, 0x2C, 0x31, 0x2C, 0x37, 0x2C, 0x31, 0x30, 0x2C, 0x35, 0x38, 0x35, 0x33, 0x2C, 0x31, 0x0A]

/-- The line "2,1,8,30,5860,-1". -/
def sellLine : List Byte :=
  [0x32, 0x2C, 0x31, 0x2C, 0x38, 0x2C, 0x33, 0x30, 0x2C, 0x35, 0x38, 0x36, 0x30, 0x2C, 0x2D, 0x31,
    0x0A]

/-- `--batch 2 --pps 10000` on whole seconds and ticks, with what `sscanf` reads in two lines. -/
def sampleConfig : Config ℤ where
  batch := 2
  pps := 10000
  paced := false
  unpaced := true
  intervalNs := 100000
  noTs := -1
  negative t := t < 0
  offsetNs t first := BitVec.ofInt 64 ((t - first) * 1000000000)
  conv := wholeUnits
  scan line :=
    if line = buyLine then some ⟨1, 1, 10, 5853, 1⟩
    else if line = sellLine then some ⟨2, 1, 30, 5860, -1⟩ else none

def sampleFile : List Byte := [0x74, 0x0A] ++ buyLine ++ sellLine ++ [0x0A] ++ buyLine

/-- A full packet of two and a flushed one, the pps interval never over. -/
theorem replay_complete_sample :
    ∃ r, sampleConfig.lobMode sampleFile [1000, 0, 10, 20, 21, 22, 30, 40] = some r ∧
      r.sent.flatMap Packet.deltas = sampleConfig.encodings (fgetsLines sampleFile) ∧
      ∀ i (h : i < r.sent.length), WellSent 2 i r.sent[i] := by
  have ends : (sampleConfig.lobMode sampleFile [1000, 0, 10, 20, 21, 22, 30, 40]).isSome := by
    decide +kernel
  obtain ⟨r, run⟩ := Option.isSome_iff_exists.mp ends
  exact ⟨r, run, replay_complete sampleConfig (by decide) (by decide) sampleFile _ run⟩

end HftLatencyLab.ReplayLoop
