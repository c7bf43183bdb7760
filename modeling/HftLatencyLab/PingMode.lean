import HftLatencyLab.FeatureDump
import HftLatencyLab.LossyNet
import HftLatencyLab.ReflexLane

/-! Ping mode of host/udp/replay-udp.c and what may stand at its other end: fpga/pynq/echo.c,
fpga/pynq/udp_echo.py and the PING branch of the threaded server. The loop is taken apart into its
receives and its sends, in any order; nothing here depends on how they are paced. -/

namespace HftLatencyLab.PingMode
open ByteOrder LobWire ServerHeader FeatureReply FeatureDump ServerFallback ReflexLane LossyNet

/-- `memcpy(buf + i, bytes, sizeof(bytes))` -/
def overwrite (buf : List Byte) (i : ℕ) (bytes : List Byte) : List Byte :=
  buf.take i ++ bytes ++ buf.drop (i + bytes.length)

/-- `recvfrom` with a buffer of 2048 bytes -/
def recvfrom (data : List Byte) : List Byte := data.take 2048

/-- echo.c sends back whatever it gets. -/
def echoC (data : List Byte) (tIng : BitVec 64) : List Byte :=
  let buf := recvfrom data
  if lobV1HdrLen ≤ buf.length ∧ slice buf 0 4 = magicLOB1 then
    overwrite buf 22 (toLE 8 (htonllU64 tIng).toNat)
  else buf

def packFields (h : UnpackedHdr) : List Byte :=
  h.magic ++ toBE 1 h.ver ++ toBE 1 h.msgType ++ toBE 2 h.flagsBe ++ toBE 2 h.hdrLenBe ++
    toBE 4 h.seqBe ++ toBE 8 h.tSendBe ++ toBE 8 h.tIngBe ++ toBE 2 h.rsv2

/-- udp_echo.py -/
def udpEcho (data : List Byte) (tIng : BitVec 64) : Option (List Byte) :=
  let data := recvfrom data
  if data.length < lobV1HdrLen then none
  else
    let fields := unpackHdr (data.take lobV1HdrLen)
    if fields.magic ≠ magicLOB1 then none
    else some (packFields { fields with tIngBe := tIng.toNat } ++ data.drop lobV1HdrLen)

inductive Server
  | echo
  | udpEcho
  | featureEcho (enableTiming : Bool)

def Server.respond : Server → PsState → List Byte → Turn → PsState × Option (List Byte)
  | .echo, s, data, x => (s, some (echoC data x.now))
  | .udpEcho, s, data, x => (s, PingMode.udpEcho data x.now)
  | .featureEcho enableTiming, s, data, x => processorTurn enableTiming s data x

def pingHdr (seq : BitVec 32) (tSend : BitVec 64) : LobV1Hdr where
  magic := magicLOB1
  version := 1
  msgType := lobV1MsgPing
  flags := htons 0
  hdrLen := htons 32
  seq := htonl seq
  tSendNs := htonllU64 tSend
  tIngressNs := htonllU64 0
  rsv2 := htons 0

def ntohllU64 (x : BitVec 64) : BitVec 64 := htonllU64 x

/-- `ntohll_u64(h->t_send_ns)` -/
def echoedTSend (buf : List Byte) : BitVec 64 :=
  ntohllU64 (BitVec.ofNat 64 (ofLE (slice buf 14 22)))

structure Config where
  /-- 0 is no limit. -/
  count : ℕ
  dump : Bool

structure Pinger where
  sent : ℕ
  received : ℕ
  featuresRecv : ℕ
  /-- Samples since the last line of statistics. -/
  rttLen : ℕ
  dumpf : List Byte
  socket : List (List Byte)
  /-- The grace period is over. -/
  ended : Bool

def Pinger.start : Pinger := ⟨0, 0, 0, 0, [], [], false⟩

structure Sample where
  data : List Byte
  tRx : BitVec 64
  rtt : BitVec 64

inductive Event
  | recv (tRx : BitVec 64)
  | send (tSend : BitVec 64)
  | print
  /-- One turn of the grace period after the loop. -/
  | drain

/-- `vec_push` forgets what is beyond the capacity. -/
def sample (s : Pinger) (buf : List Byte) (tRx : BitVec 64) : Pinger × Option Sample :=
  let tSend := echoedTSend buf
  let rtt := if tRx.toNat ≥ tSend.toNat then tRx - tSend else 0
  if s.rttLen < 200000 then
    ({ s with rttLen := s.rttLen + 1, received := s.received + 1 }, some ⟨buf, tRx, rtt⟩)
  else ({ s with received := s.received + 1 }, none)

def received (cfg : Config) (s : Pinger) (buf : List Byte) (tRx : BitVec 64) :
    Pinger × Option Sample :=
  if lobV1HdrLen ≤ buf.length then
    if slice buf 5 6 = toBE 1 lobV1MsgFeatures.toNat then
      if buf.length < lobV1HdrLen + lobV1FeatLen then (s, none)
      else
        sample { s with
          featuresRecv := s.featuresRecv + 1
          dumpf := if cfg.dump then s.dumpf ++ dumpReceived buf else s.dumpf } buf tRx
    else sample s buf tRx
  else (s, none)

def act (cfg : Config) (s : Pinger) : Event → Pinger × Option (List Byte) × Option Sample
  | .recv tRx =>
    match s.socket with
    | [] => (s, none, none)
    | data :: rest =>
      let (s, pushed) := received cfg { s with socket := rest } (recvfrom data) tRx
      (s, none, pushed)
  | .send tSend =>
    if cfg.count = 0 ∨ s.sent < cfg.count then
      ({ s with sent := s.sent + 1 }, some (pingHdr (BitVec.ofNat 32 s.sent) tSend).bytes, none)
    else (s, none, none)
  | .print => ({ s with rttLen := 0 }, none, none)
  | .drain =>
    if s.ended then (s, none, none)
    else
      match s.socket with
      | [] => ({ s with ended := true }, none, none)
      | data :: rest =>
        -- `n <= 0` also for an empty datagram
        if data = [] then ({ s with ended := true, socket := rest }, none, none)
        else ({ s with received := s.received + 1, socket := rest }, none, none)

def pinging (cfg : Config) (server : Server) :
    Parties Pinger PsState Event Turn (List Byte) (List Byte) Sample where
  act := act cfg
  receive s data := { s with socket := s.socket ++ [data] }
  server := server.respond

theorem pingHdr_bytes (seq : BitVec 32) (tSend : BitVec 64) :
    (pingHdr seq tSend).bytes = packHdr lobV1MsgPing 0 seq tSend 0 := by
  simp only [LobV1Hdr.bytes, pingHdr, packHdr, toLE_htons, toLE_htonl, toLE_htonllU64,
    toLE_one_eq_toBE]
  rfl

theorem toBE_ofBE {bs : List Byte} {n : ℕ} (len : bs.length = n) : toBE n (ofBE bs) = bs := by
  have flipped := toLE_ofLE bs.reverse
  rw [List.length_reverse, len] at flipped
  rw [toBE, ofBE, flipped, List.reverse_reverse]

theorem length_slice {data : List Byte} {i j : ℕ} (h : j ≤ data.length) :
    (slice data i j).length = j - i := by
  rw [slice, List.length_take, List.length_drop]
  omega

theorem slice_append_slice (data : List Byte) {i j k : ℕ} (hij : i ≤ j) (hjk : j ≤ k) :
    slice data i j ++ slice data j k = slice data i k := by
  have rest : data.drop j = (data.drop i).drop (j - i) := by
    rw [List.drop_drop]
    congr 1
    omega
  have width : k - i = (j - i) + (k - j) := by omega
  rw [slice, slice, slice, rest, width, List.take_add]

theorem packFields_unpackHdr {data : List Byte} (long : lobV1HdrLen ≤ data.length)
    (tIng : BitVec 64) :
    packFields { unpackHdr (data.take lobV1HdrLen) with tIngBe := tIng.toNat } ++
      data.drop lobV1HdrLen = overwrite data 22 (toBE 8 tIng.toNat) := by
  rw [lobV1HdrLen] at long ⊢
  have within (i j : ℕ) (h : j ≤ 32) : slice (data.take 32) i j = slice data i j :=
    slice_slice data h
  have back (i j : ℕ) (h : j ≤ 32) (n : ℕ) (width : j - i = n) :
      toBE n (ofBE (slice data i j)) = slice data i j :=
    toBE_ofBE ((length_slice (h.trans long)).trans width)
  have tail : slice data 30 32 ++ data.drop 32 = data.drop 30 := by
    rw [slice, ← List.drop_drop (i := 2) (j := 30), List.take_append_drop]
  simp (disch := decide) only [packFields, unpackHdr, within, back]
  rw [overwrite, length_toBE, List.append_assoc _ _ (data.drop 32), tail]
  congr 2
  simp (disch := decide) only [slice_append_slice]
  rfl

theorem udpEcho_eq_echoC (data : List Byte) (tIng : BitVec 64) :
    udpEcho data tIng =
      if lobV1HdrLen ≤ (recvfrom data).length ∧ slice (recvfrom data) 0 4 = magicLOB1 then
        some (echoC data tIng)
      else none := by
  unfold udpEcho echoC
  generalize recvfrom data = buf
  dsimp only
  by_cases long : lobV1HdrLen ≤ buf.length
  · have magic : (unpackHdr (buf.take lobV1HdrLen)).magic = slice buf 0 4 :=
      slice_slice buf (by decide)
    rw [if_neg (not_lt.mpr long)]
    by_cases lob : slice buf 0 4 = magicLOB1
    · rw [if_neg (not_not.mpr (magic.trans lob)), if_pos ⟨long, lob⟩, if_pos ⟨long, lob⟩,
        toLE_htonllU64]
      exact congrArg some (packFields_unpackHdr long tIng)
    · rw [if_pos fun same => lob (magic.symm.trans same), if_neg fun both => lob both.2]
  · rw [if_pos (not_le.mp long), if_neg fun both => long both.1]

section Ping

variable (flags : BitVec 16) (seq : BitVec 32) (tSend tIng now : BitVec 64)

theorem recvfrom_packHdr (msgType : BitVec 8) :
    recvfrom (packHdr msgType flags seq tSend tIng) = packHdr msgType flags seq tSend tIng := by
  rw [recvfrom, List.take_of_length_le]
  rw [length_packHdr]
  norm_num

theorem echoC_ping : echoC (packHdr lobV1MsgPing flags seq tSend tIng) now =
    packHdr lobV1MsgPing flags seq tSend now := by
  have lob : slice (packHdr lobV1MsgPing flags seq tSend tIng) 0 4 = magicLOB1 := rfl
  rw [echoC, recvfrom_packHdr, length_packHdr, lob, toLE_htonllU64]
  simp [overwrite, packHdr, magicLOB1, lobV1HdrLen, List.take_append, List.drop_append,
    List.take_of_length_le, List.drop_of_length_le]

theorem respond_ping (server : Server) (s : PsState) (x : Turn) :
    server.respond s (packHdr lobV1MsgPing flags seq tSend tIng) x =
      (s, some (packHdr lobV1MsgPing flags seq tSend x.now)) := by
  cases server with
  | echo => rw [Server.respond, echoC_ping]
  | udpEcho =>
    have lob : lobV1HdrLen ≤ (recvfrom (packHdr lobV1MsgPing flags seq tSend tIng)).length ∧
        slice (recvfrom (packHdr lobV1MsgPing flags seq tSend tIng)) 0 4 = magicLOB1 := by
      rw [recvfrom_packHdr, length_packHdr]
      exact ⟨le_rfl, rfl⟩
    rw [Server.respond, udpEcho_eq_echoC, if_pos lob, echoC_ping]
  | featureEcho enableTiming =>
    have fields := unpackHdr_packed lobV1MsgPing flags seq tSend tIng []
    rw [List.append_nil] at fields
    have request : parseRequest (packHdr lobV1MsgPing flags seq tSend tIng) =
        .ping (unpackHdr (packHdr lobV1MsgPing flags seq tSend tIng)) := by
      have long : ¬(packHdr lobV1MsgPing flags seq tSend tIng).length < lobV1HdrLen := by
        rw [length_packHdr, lobV1HdrLen]
        decide
      rw [parseRequest, if_neg long, fields]
      rfl
    rw [Server.respond, processorTurn, request]
    dsimp only
    rw [fields, BitVec.ofNat_toNat, BitVec.ofNat_toNat, BitVec.ofNat_toNat, BitVec.setWidth_eq,
      BitVec.setWidth_eq, BitVec.setWidth_eq]

end Ping

def ping (seq : BitVec 32) (tSend tIng : BitVec 64) : List Byte :=
  packHdr lobV1MsgPing 0 seq tSend tIng

def IsPing (request : List Byte) : Prop := ∃ seq tSend, request = ping seq tSend 0

def Echoes (request reply : List Byte) : Prop :=
  ∀ seq tSend, request = ping seq tSend 0 → ∃ tIng, reply = ping seq tSend tIng

def Measures (reply : List Byte) (p : Sample) : Prop :=
  p.data = recvfrom reply ∧
    p.rtt = if p.tRx.toNat ≥ (echoedTSend p.data).toNat then p.tRx - echoedTSend p.data else 0

theorem sample_measures (s : Pinger) (data : List Byte) (tRx : BitVec 64) :
    (sample s (recvfrom data) tRx).1.socket = s.socket ∧
      ∀ p ∈ (sample s (recvfrom data) tRx).2, Measures data p := by
  unfold sample
  dsimp only
  split
  · refine ⟨rfl, fun p pushed => ?_⟩
    obtain rfl : _ = p := Option.some.inj pushed
    exact ⟨rfl, rfl⟩
  · exact ⟨rfl, by simp⟩

theorem received_measures (cfg : Config) (s : Pinger) (data : List Byte) (tRx : BitVec 64) :
    (received cfg s (recvfrom data) tRx).1.socket = s.socket ∧
      ∀ p ∈ (received cfg s (recvfrom data) tRx).2, Measures data p := by
  unfold received
  split
  · split
    · split
      · exact ⟨rfl, by simp⟩
      · exact sample_measures _ data tRx
    · exact sample_measures s data tRx
  · exact ⟨rfl, by simp⟩

theorem act_cases (cfg : Config) (s : Pinger) (e : Event) :
    ((act cfg s e).1.socket = s.socket ∧ (act cfg s e).2.2 = none ∧
        ∀ k ∈ (act cfg s e).2.1, IsPing k) ∨
      ∃ data rest, s.socket = data :: rest ∧ (act cfg s e).1.socket = rest ∧
        (act cfg s e).2.1 = none ∧ ∀ p ∈ (act cfg s e).2.2, Measures data p := by
  cases e with
  | recv tRx =>
    cases held : s.socket with
    | nil => exact Or.inl ⟨by simp [act, held], by simp [act, held], by simp [act, held]⟩
    | cons data rest =>
      have taken : act cfg s (.recv tRx) =
          ((received cfg { s with socket := rest } (recvfrom data) tRx).1, none,
            (received cfg { s with socket := rest } (recvfrom data) tRx).2) := by
        simp only [act, held]
      obtain ⟨left, measured⟩ := received_measures cfg { s with socket := rest } data tRx
      rw [taken]
      exact Or.inr ⟨data, rest, rfl, left, rfl, measured⟩
  | send tSend =>
    refine Or.inl ?_
    unfold act
    dsimp only
    split
    · refine ⟨rfl, rfl, fun k sent => ?_⟩
      obtain rfl : _ = k := Option.some.inj sent
      exact ⟨_, tSend, pingHdr_bytes _ tSend⟩
    · exact ⟨rfl, rfl, by simp⟩
  | print => exact Or.inl ⟨rfl, rfl, by simp [act]⟩
  | drain =>
    unfold act
    dsimp only
    split
    · exact Or.inl ⟨rfl, rfl, by simp⟩
    · split
      · exact Or.inl ⟨rfl, rfl, by simp⟩
      · next data rest held =>
        split
        · exact Or.inr ⟨data, rest, held, rfl, rfl, by simp⟩
        · exact Or.inr ⟨data, rest, held, rfl, rfl, by simp⟩

theorem respond_isPing {k : List Byte} (isPing : IsPing k) (server other : Server) (s : PsState)
    (x : Turn) : server.respond s k x = other.respond s k x := by
  obtain ⟨seq, tSend, rfl⟩ := isPing
  rw [ping, respond_ping, respond_ping]

theorem answering (cfg : Config) (server : Server) :
    Answering (pinging cfg server) Pinger.socket IsPing (fun k _ reply => Echoes k reply)
      (fun _ => True) (fun _ => Measures) where
  acts s e := by
    change (act cfg s e).1.socket ⊆ s.socket
    rcases act_cases cfg s e with ⟨same, -, -⟩ | ⟨data, rest, held, left, -, -⟩
    · rw [same]
      exact List.Subset.refl _
    · rw [held, left]
      exact List.subset_cons_self data rest
  sends s e := by
    change ∀ k ∈ (act cfg s e).2.1, IsPing k
    rcases act_cases cfg s e with ⟨-, -, sends⟩ | ⟨data, rest, held, -, silent, -⟩
    · exact sends
    · rw [silent]
      simp
  logs s e := by
    change ∀ p ∈ (act cfg s e).2.2, True → ∃ r ∈ s.socket, Measures r p
    rcases act_cases cfg s e with ⟨-, silent, -⟩ | ⟨data, rest, held, -, -, measured⟩
    · rw [silent]
      simp
    · rw [held]
      exact fun p pushed _ => ⟨data, List.mem_cons_self, measured p pushed⟩
  receives s r := List.Subset.refl _
  serves := by
    rintro s k x - reply sent seq tSend rfl
    change reply ∈ (server.respond s (ping seq tSend 0) x).2 at sent
    rw [ping, respond_ping] at sent
    exact ⟨x.now, (Option.some.inj sent).symm⟩

theorem promises (cfg : Config) (server : Server) :
    Promises (pinging cfg server) (fun _ => True) (fun _ => True) IsPing (fun _ => True)
      (fun _ => True) (fun _ => True) where
  acts s e _ := ⟨trivial, (answering cfg server).sends s e, fun _ _ => trivial⟩
  receives _ _ _ _ := trivial
  serves _ _ _ _ _ _ := ⟨trivial, fun _ _ => trivial⟩

theorem admits_all (moves : List (Move Event Turn)) : ∀ mv ∈ moves, mv.Admits fun _ => True := by
  intro mv _
  cases mv <;> trivial

/-- The replayer cannot tell its three servers apart: whatever the network does, it measures the
same round trips on the same datagrams. -/
theorem servers_alike (cfg : Config) (server other : Server) (moves : List (Move Event Turn)) :
    log (pinging cfg server) .start .start moves = log (pinging cfg other) .start .start moves :=
  (promises cfg server).log_congr (Q := pinging cfg other) rfl rfl
    (fun s _ x isPing => respond_isPing isPing server other s x) trivial trivial (admits_all moves)

theorem echoedTSend_ping (seq : BitVec 32) (tSend tIng : BitVec 64) :
    echoedTSend (ping seq tSend tIng) = tSend := by
  obtain ⟨-, -, -, -, -, -, sent, -⟩ := packHdr_fields lobV1MsgPing 0 seq tSend tIng []
  rw [List.append_nil] at sent
  have loaded : ofLE (toBE 8 tSend.toNat) = byteSwap 8 tSend.toNat := by
    rw [← toLE_byteSwap, ofLE_toLE, Nat.mod_eq_of_lt (byteSwap_lt 8 _)]
  have small : byteSwap 8 tSend.toNat < 2 ^ 64 := byteSwap_lt 8 _
  have bytes : toLE 8 (ntohllU64 (BitVec.ofNat 64 (byteSwap 8 tSend.toNat))).toNat =
      toLE 8 tSend.toNat := by
    rw [ntohllU64, toLE_htonllU64, BitVec.toNat_ofNat, Nat.mod_eq_of_lt small, toBE,
      toLE_byteSwap, toBE, List.reverse_reverse]
  have fits (x : BitVec 64) : x.toNat % 256 ^ 8 = x.toNat := Nat.mod_eq_of_lt x.isLt
  have value := congrArg ofLE bytes
  rw [ofLE_toLE, ofLE_toLE, fits, fits] at value
  rw [echoedTSend, ping, sent, loaded]
  exact BitVec.eq_of_toNat_eq value

/-- Every round trip is the time, or zero, from the reading a ping was sent with to the one its
reply was taken with, whichever reply came when. -/
theorem rtt_of_sent_ping (cfg : Config) (server : Server) (moves : List (Move Event Turn)) :
    ∀ p ∈ log (pinging cfg server) .start .start moves, ∃ seq tSend tIng,
      ping seq tSend 0 ∈ ((net (pinging cfg server)).final (.start .start .start) moves).requests ∧
        p.data = ping seq tSend tIng ∧ p.rtt.toNat = p.tRx.toNat - tSend.toNat := by
  intro p pushed
  obtain ⟨e, i, x, k, reply, -, -, found, ⟨seq, tSend, rfl⟩, echoes, same, measured⟩ :=
    (answering cfg server).log_traced (c := .start) (s := .start) rfl moves p pushed trivial
  have sent := List.mem_of_getElem? found
  obtain ⟨tIng, rfl⟩ := echoes seq tSend rfl
  have data : p.data = ping seq tSend tIng := same.trans (recvfrom_packHdr _ _ _ _ _)
  refine ⟨seq, tSend, tIng, sent, data, ?_⟩
  rw [measured, data, echoedTSend_ping]
  split
  · next later => exact BitVec.toNat_sub_of_le later
  · next earlier =>
    have zero : (0 : BitVec 64).toNat = 0 := rfl
    omega

def crossed : List (Move Event Turn) :=
  let x (now : BitVec 64) : Turn := ⟨now, ⟨0, 0, 0, 0, 0, 0⟩, .off⟩
  [.act (.send 100), .act (.send 110), .serve 1 (x 5), .serve 0 (x 6), .deliver 0, .deliver 0,
    .act (.recv 150), .act (.recv 155), .deliver 1, .act (.recv 160)]

theorem rtt_of_sent_ping_crossed :
    (log (pinging ⟨0, false⟩ .echo) .start .start crossed).map (fun p => p.rtt.toNat) =
        [40, 45, 60] ∧
      ∀ p ∈ log (pinging ⟨0, false⟩ .echo) .start .start crossed, ∃ seq tSend tIng,
        ping seq tSend 0 ∈
          ((net (pinging ⟨0, false⟩ .echo)).final (.start .start .start) crossed).requests ∧
        p.data = ping seq tSend tIng ∧ p.rtt.toNat = p.tRx.toNat - tSend.toNat :=
  ⟨by decide +kernel, rtt_of_sent_ping ⟨0, false⟩ .echo crossed⟩

end HftLatencyLab.PingMode
