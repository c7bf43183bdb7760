import HftLatencyLab.LossyNet
import HftLatencyLab.ReflexLane
import Mathlib.Data.Finmap

/-! test_lob_stream (host/udp/test_lob_stream.py) and the threaded server, over a network that may
lose, repeat and reorder. The program remembers when it sent each packet until the first reply with
its number; a row of its CSV is about one packet, but the server's part of the round trip in it
ends with the reflex. -/

namespace HftLatencyLab.LobStream
open ByteOrder LobWire ServerHeader FeatureReply ServerFallback TimingTrailer ReflexLane LossyNet

structure Config where
  /-- `--max-packets`; none and 0 are no limit. -/
  maxPackets : Option ℤ
  /-- `--log-csv` is given. -/
  logCsv : Bool

structure FeatureColumns where
  ofi : ℤ
  imb : ℤ
  burst : ℕ
  vol : ℕ

structure Row where
  seq : ℕ
  t1HostNs : ℕ
  t5HostNs : ℕ
  rttNs : ℤ
  timing : Option LobStreamTiming
  pynqTotalNs : Option ℤ
  dmaNs : Option ℤ
  netEstNs : Option ℤ
  features : Option FeatureColumns

/-- `a - b if (a and b) else None` -/
def difference (a b : ℕ) : Option ℤ := if a ≠ 0 ∧ b ≠ 0 then some ((a : ℤ) - b) else none

def features (data : List Byte) : Option FeatureColumns :=
  if data.length ≥ 48 then
    let featData := slice data 32 48
    some { ofi := fromBytesBigSigned (slice featData 0 4)
           imb := fromBytesBigSigned (slice featData 4 6)
           burst := ofBE (slice featData 8 12)
           vol := ofBE (slice featData 12 16) }
  else none

def rowOf (data : List Byte) (replySeq t1 t5 : ℕ) : Row :=
  let timing := lobStreamTiming data
  let rtt : ℤ := t5 - t1
  let pynqTotal := timing.bind fun t => difference t.t6 t.t2
  { seq := replySeq
    t1HostNs := t1
    t5HostNs := t5
    rttNs := rtt
    timing := timing
    pynqTotalNs := pynqTotal
    dmaNs := timing.bind fun t => difference t.t5Pynq t.t3
    netEstNs := pynqTotal.bind fun total => if total ≠ 0 then some (rtt - total) else none
    features := features data }

structure Streamer where
  sent : ℕ
  received : ℕ
  featCount : ℕ
  pendingSends : Finmap fun _ : ℕ => ℕ
  /-- Datagrams that have arrived and were not taken yet. -/
  socket : List (List Byte)

def Streamer.start : Streamer := ⟨0, 0, 0, ∅, []⟩

inductive Event
  | send (tSendNs : BitVec 64) (t1 : ℕ)
  /-- The receive that follows a send, and when it returns. -/
  | recv (t5 : ℕ)

inductive Entry
  | sent (seq t1 : ℕ)
  | row (r : Row)

def Entry.sent? : Entry → Option (ℕ × ℕ)
  | .sent seq t1 => some (seq, t1)
  | .row _ => none

def Entry.row? : Entry → Option Row
  | .sent _ _ => none
  | .row r => some r

def sends (log : List Entry) : List (ℕ × ℕ) := log.filterMap Entry.sent?

def rows (log : List Entry) : List Row := log.filterMap Entry.row?

def packet (seq : ℕ) (tSendNs : BitVec 64) : List Byte :=
  bidPacket (BitVec.ofNat 32 seq) tSendNs 100000 100

/-- `struct.unpack('>I', data[10:14])[0]` -/
def replySeq (data : List Byte) : ℕ := ofBE (slice data 10 14)

def isLob (data : List Byte) : Bool := data.length ≥ 32 ∧ slice data 0 4 = magicLOB1

def isFeatures (data : List Byte) : Bool :=
  ofBE (slice data 5 6) = 2 ∨ ofBE (slice data 5 6) = 4

def logged (cfg : Config) (s : Streamer) (data : List Byte) (t5 : ℕ) : Streamer × Option Entry :=
  if cfg.logCsv then
    match s.pendingSends.lookup (replySeq data) with
    | some t1 =>
      ({ s with pendingSends := s.pendingSends.erase (replySeq data) },
        some (.row (rowOf data (replySeq data) t1 t5)))
    | none => (s, none)
  else (s, none)

def received (cfg : Config) (s : Streamer) (data : List Byte) (t5 : ℕ) : Streamer × Option Entry :=
  if isLob data then
    let s := { s with received := s.received + 1 }
    if isFeatures data then logged cfg { s with featCount := s.featCount + 1 } data t5
    else (s, none)
  else (s, none)

/-- `struct.pack` raises at a sequence number of 2^32, and ends the program. -/
def act (cfg : Config) (s : Streamer) : Event → Streamer × Option (List Byte) × Option Entry
  | .send tSendNs t1 =>
    if (∀ limit ∈ cfg.maxPackets, limit = 0 ∨ (s.sent : ℤ) < limit) ∧ s.sent < 2 ^ 32 then
      ({ s with
          sent := s.sent + 1
          pendingSends :=
            if cfg.logCsv then s.pendingSends.insert s.sent t1 else s.pendingSends },
        some (packet s.sent tSendNs), some (.sent s.sent t1))
    else (s, none, none)
  | .recv t5 =>
    match s.socket with
    | [] => (s, none, none)
    | data :: rest =>
      let (s, entry) := received cfg { s with socket := rest } data t5
      (s, none, entry)

def streaming (cfg : Config) (enableTiming : Bool) :
    Parties Streamer PsState Event Turn (List Byte) (List Byte) Entry where
  act := act cfg
  receive s data := { s with socket := s.socket ++ [data] }
  server := processorTurn enableTiming

def logOf (cfg : Config) (enableTiming : Bool) (moves : List (Move Event Turn)) : List Entry :=
  log (streaming cfg enableTiming) .start .start moves

theorem received_cases (cfg : Config) (s : Streamer) (data : List Byte) (t5 : ℕ) :
    (∃ r f, received cfg s data t5 = ({ s with received := r, featCount := f }, none) ∧
        s.featCount ≤ f ∧ f + s.received ≤ r + s.featCount) ∨
      ∃ t1, s.pendingSends.lookup (replySeq data) = some t1 ∧
        received cfg s data t5 =
          ({ s with
              received := s.received + 1
              featCount := s.featCount + 1
              pendingSends := s.pendingSends.erase (replySeq data) },
            some (.row (rowOf data (replySeq data) t1 t5))) := by
  unfold received
  split
  · dsimp only
    split
    · unfold logged
      split
      · dsimp only
        split
        · next t1 found => exact Or.inr ⟨t1, found, rfl⟩
        · exact Or.inl ⟨s.received + 1, s.featCount + 1, rfl, by omega, by omega⟩
      · exact Or.inl ⟨s.received + 1, s.featCount + 1, rfl, by omega, by omega⟩
    · exact Or.inl ⟨s.received + 1, s.featCount, rfl, le_rfl, by omega⟩
  · exact Or.inl ⟨s.received, s.featCount, rfl, le_rfl, by omega⟩

structure Matched (s : Streamer) (log : List Entry) : Prop where
  sent : (sends log).map Prod.fst = List.range s.sent
  pending : ∀ seq t1, s.pendingSends.lookup seq = some t1 →
    (seq, t1) ∈ sends log ∧ seq ∉ (rows log).map Row.seq
  once : ((rows log).map Row.seq).Nodup
  own : ∀ r ∈ rows log, (r.seq, r.t1HostNs) ∈ sends log
  counted : (rows log).length ≤ s.featCount ∧ s.featCount ≤ s.received

theorem sends_append (log : List Entry) (e : Entry) :
    sends (log ++ [e]) = sends log ++ e.sent?.toList := by
  cases e <;> simp [sends, Entry.sent?]

theorem rows_append (log : List Entry) (e : Entry) :
    rows (log ++ [e]) = rows log ++ e.row?.toList := by
  cases e <;> simp [rows, Entry.row?]

theorem Matched.start : Matched .start [] where
  sent := rfl
  pending := by simp [Streamer.start]
  once := List.nodup_nil
  own := by simp [rows]
  counted := ⟨le_rfl, le_rfl⟩

theorem Matched.send {s : Streamer} {log : List Entry} (matched : Matched s log) (logCsv : Bool)
    (t1 : ℕ) :
    Matched { s with
      sent := s.sent + 1
      pendingSends := if logCsv then s.pendingSends.insert s.sent t1 else s.pendingSends }
      (log ++ [.sent s.sent t1]) := by
  obtain ⟨sent, pending, once, own, counted⟩ := matched
  have more : sends (log ++ [.sent s.sent t1]) = sends log ++ [(s.sent, t1)] := sends_append _ _
  have same : rows (log ++ [.sent s.sent t1]) = rows log := by
    rw [rows_append, Entry.row?, Option.toList_none, List.append_nil]
  have fresh : s.sent ∉ (rows log).map Row.seq := by
    intro mem
    obtain ⟨r, logged, seq⟩ := List.mem_map.mp mem
    have key := List.mem_map_of_mem (f := Prod.fst) (own r logged)
    rw [sent, List.mem_range] at key
    dsimp only at key
    omega
  have old (seq t : ℕ) (found : s.pendingSends.lookup seq = some t) :
      (seq, t) ∈ sends log ++ [(s.sent, t1)] ∧ seq ∉ (rows log).map Row.seq :=
    ⟨List.mem_append_left _ (pending seq t found).1, (pending seq t found).2⟩
  constructor
  · rw [more, List.map_append, sent]
    exact List.range_succ.symm
  · rw [more, same]
    cases logCsv with
    | false => exact old
    | true =>
      intro seq t found
      change (s.pendingSends.insert s.sent t1).lookup seq = some t at found
      by_cases here : seq = s.sent
      · subst here
        rw [Finmap.lookup_insert] at found
        obtain rfl : t1 = t := Option.some.inj found
        exact ⟨List.mem_append_right _ List.mem_cons_self, fresh⟩
      · rw [Finmap.lookup_insert_of_ne _ here] at found
        exact old seq t found
  · rw [same]
    exact once
  · rw [more, same]
    exact fun r logged => List.mem_append_left _ (own r logged)
  · rw [same]
    exact counted

theorem Matched.row {s : Streamer} {log : List Entry} (matched : Matched s log) {data : List Byte}
    {t1 : ℕ} (t5 : ℕ) (found : s.pendingSends.lookup (replySeq data) = some t1) :
    Matched { s with
      received := s.received + 1
      featCount := s.featCount + 1
      pendingSends := s.pendingSends.erase (replySeq data) }
      (log ++ [.row (rowOf data (replySeq data) t1 t5)]) := by
  obtain ⟨sent, pending, once, own, counted⟩ := matched
  obtain ⟨wasSent, unlogged⟩ := pending _ _ found
  have same : sends (log ++ [.row (rowOf data (replySeq data) t1 t5)]) = sends log := by
    rw [sends_append, Entry.sent?, Option.toList_none, List.append_nil]
  have more : rows (log ++ [.row (rowOf data (replySeq data) t1 t5)]) =
      rows log ++ [rowOf data (replySeq data) t1 t5] := rows_append _ _
  constructor
  · rw [same, sent]
  · rw [same, more]
    intro seq t still
    have other : seq ≠ replySeq data := by
      rintro rfl
      rw [Finmap.lookup_erase] at still
      cases still
    rw [Finmap.lookup_erase_ne other] at still
    obtain ⟨mem, free⟩ := pending seq t still
    refine ⟨mem, ?_⟩
    rw [List.map_append, List.mem_append]
    rintro (old | new)
    · exact free old
    · exact other (List.mem_singleton.mp new)
  · rw [more, List.map_append]
    refine List.nodup_append.mpr ⟨once, List.nodup_singleton _, ?_⟩
    rintro seq old _ new rfl
    obtain rfl : seq = replySeq data := List.mem_singleton.mp new
    exact unlogged old
  · rw [same, more]
    intro r logged
    rcases List.mem_append.mp logged with old | new
    · exact own r old
    · rw [List.mem_singleton.mp new]
      exact wasSent
  · rw [more, List.length_append, List.length_singleton]
    exact ⟨Nat.succ_le_succ counted.1, Nat.succ_le_succ counted.2⟩

theorem Matched.act {s : Streamer} {log : List Entry} (matched : Matched s log) (cfg : Config)
    (e : Event) :
    Matched (act cfg s e).1 (log ++ (LobStream.act cfg s e).2.2.toList) := by
  cases e with
  | send tSendNs t1 =>
    unfold LobStream.act
    dsimp only
    split
    · exact matched.send cfg.logCsv t1
    · rw [Option.toList_none, List.append_nil]
      exact matched
  | recv t5 =>
    unfold LobStream.act
    dsimp only
    split
    · rw [Option.toList_none, List.append_nil]
      exact matched
    · next data rest held =>
      have taken : Matched { s with socket := rest } log :=
        ⟨matched.sent, matched.pending, matched.once, matched.own, matched.counted⟩
      rcases received_cases cfg { s with socket := rest } data t5 with
        ⟨r, f, silent, features, slower⟩ | ⟨t1, found, rowed⟩
      · rw [silent, Option.toList_none, List.append_nil]
        refine ⟨matched.sent, matched.pending, matched.once, matched.own, ?_⟩
        obtain ⟨few, fewer⟩ := matched.counted
        dsimp only at features slower ⊢
        omega
      · rw [rowed]
        exact taken.row t5 found

theorem matched_log (cfg : Config) (enableTiming : Bool) (moves : List (Move Event Turn)) :
    Matched ((net (streaming cfg enableTiming)).final (.start .start .start) moves).client
      (logOf cfg enableTiming moves) :=
  client_log (I := Matched) (fun _ e _ matched => matched.act cfg e)
    (fun _ _ _ matched =>
      ⟨matched.sent, matched.pending, matched.once, matched.own, matched.counted⟩)
    .start moves

/-- Whatever is lost, repeated or reordered: a row is about one packet, with the time that packet
was sent at; no packet has two rows, and there are no more rows than features received. -/
theorem rows_once (cfg : Config) (enableTiming : Bool) (moves : List (Move Event Turn)) :
    let ws := logOf cfg enableTiming moves
    let s := ((net (streaming cfg enableTiming)).final (.start .start .start) moves).client
    ((rows ws).map Row.seq).Nodup ∧ (∀ r ∈ rows ws, (r.seq, r.t1HostNs) ∈ sends ws) ∧
      (sends ws).map Prod.fst = List.range s.sent ∧
      (rows ws).length ≤ s.featCount ∧ s.featCount ≤ s.received ∧
      (rows ws).length ≤ s.sent := by
  intro ws s
  obtain ⟨sent, -, once, own, few, fewer⟩ : Matched s ws := matched_log cfg enableTiming moves
  refine ⟨once, own, sent, few, fewer, ?_⟩
  have within : (rows ws).map Row.seq ⊆ List.range s.sent := by
    intro seq mem
    obtain ⟨r, logged, rfl⟩ := List.mem_map.mp mem
    rw [← sent]
    exact List.mem_map_of_mem (f := Prod.fst) (own r logged)
  have short := (List.subperm_of_subset once within).length_le
  rwa [List.length_map, List.length_range] at short

def Replies (enableTiming : Bool) (x : Turn) (seq : BitVec 32) (reply : List Byte) : Prop :=
  ∃ tSendNs feat reflex, reply =
    senderThread enableTiming (featReply enableTiming 0x8001 seq tSendNs x.now feat).bytes
      (if enableTiming then some (timingData x.reads reflex x.pl) else none)

theorem replies_of_turn {enableTiming : Bool} {s : PsState} {seq : BitVec 32}
    {tSendNs : BitVec 64} {price qty : BitVec 32} {x : Turn} {reply : List Byte}
    (sent : reply ∈ (processorTurn enableTiming s (bidPacket seq tSendNs price qty) x).2) :
    Replies enableTiming x seq reply := by
  have fields : unpackHdr (bidPacket seq tSendNs price qty) = _ :=
    unpackHdr_packHdr 0x8001 seq tSendNs 0 (packDelta ⟨price, qty, 0, 0, 1, 0⟩)
  unfold processorTurn at sent
  rw [parseRequest_bidPacket, fields] at sent
  dsimp only at sent
  obtain ⟨feat, -, same⟩ := Option.map_eq_some_iff.mp sent
  refine ⟨tSendNs, feat, reflexAct (psBook s ⟨⟨false, 384, byteSwap 8 tSendNs.toNat⟩,
    bidPacket seq tSendNs price qty⟩), same.symm.trans ?_⟩
  simp only [BitVec.ofNat_toNat, BitVec.setWidth_eq]

theorem replySeq_replies {enableTiming : Bool} {x : Turn} {seq : BitVec 32} {reply : List Byte}
    (replies : Replies enableTiming x seq reply) : replySeq reply = seq.toNat := by
  obtain ⟨tSendNs, feat, reflex, rfl⟩ := replies
  obtain ⟨more, trailed⟩ := senderThread_append enableTiming
    (featReply enableTiming 0x8001 seq tSendNs x.now feat).bytes
    (if enableTiming then some (timingData x.reads reflex x.pl) else none)
  obtain ⟨-, -, -, -, -, number, -⟩ := packHdr_fields
    (featReply enableTiming 0x8001 seq tSendNs x.now feat).msgType 0x8001 seq tSendNs x.now
    (feat.bytes ++ more)
  rw [trailed, FeatureReply.Reply.bytes, List.append_assoc, replySeq]
  exact (congrArg ofBE number).trans (ofBE_toBE seq.isLt)

theorem timing_replies {x : Turn} {seq : BitVec 32} {reply : List Byte}
    (replies : Replies true x seq reply) :
    ∃ t3 t4 t5, lobStreamTiming reply =
      some ⟨x.reads.t2.toNat, t3, t4, t5, x.reads.tReflex.toNat⟩ := by
  obtain ⟨tSendNs, feat, reflex, rfl⟩ := replies
  have read := lobStreamTiming_timed 0x8001 seq tSendNs x.now feat
    (timingData x.reads reflex x.pl)
  exact ⟨_, _, _, read⟩

structure Clocked (x : Turn) : Prop where
  received : 0 < x.reads.t2.toNat
  reflex : x.reads.t2.toNat < x.reads.tReflex.toNat

theorem act_cases (cfg : Config) (s : Streamer) (e : Event) :
    ((act cfg s e).1.socket = s.socket ∧ (∀ w ∈ (act cfg s e).2.2, w.row? = none) ∧
        ∀ k ∈ (act cfg s e).2.1, ∃ seq tSendNs, seq < 2 ^ 32 ∧ k = packet seq tSendNs) ∨
      ∃ data rest, s.socket = data :: rest ∧ (act cfg s e).1.socket = rest ∧
        (act cfg s e).2.1 = none ∧ ∀ w ∈ (act cfg s e).2.2,
          ∃ t1 t5, e = .recv t5 ∧ w = .row (rowOf data (replySeq data) t1 t5) := by
  cases e with
  | send tSendNs t1 =>
    refine Or.inl ?_
    unfold act
    dsimp only
    split
    · next due =>
      refine ⟨rfl, fun w seen => ?_, fun k sent => ?_⟩
      · obtain rfl : _ = w := Option.some.inj seen
        rfl
      · exact ⟨s.sent, tSendNs, due.2, (Option.some.inj sent).symm⟩
    · exact ⟨rfl, by simp, by simp⟩
  | recv t5 =>
    unfold act
    dsimp only
    split
    · next held => exact Or.inl ⟨rfl, by simp, by simp⟩
    · next data rest held =>
      refine Or.inr ⟨data, rest, held, ?_⟩
      rcases received_cases cfg { s with socket := rest } data t5 with
        ⟨r, f, silent, -, -⟩ | ⟨t1, -, rowed⟩
      · rw [silent]
        exact ⟨rfl, rfl, by simp⟩
      · rw [rowed]
        exact ⟨rfl, rfl, fun w seen => ⟨t1, t5, rfl, (Option.some.inj seen).symm⟩⟩

theorem answering (cfg : Config) :
    Answering (streaming cfg true) Streamer.socket
      (fun k => ∃ seq tSendNs, seq < 2 ^ 32 ∧ k = packet seq tSendNs)
      (fun k x reply => ∃ seq tSendNs, seq < 2 ^ 32 ∧ k = packet seq tSendNs ∧
        Replies true x (BitVec.ofNat 32 seq) reply)
      (fun w => w.row?.isSome)
      (fun e reply w => ∃ t1 t5, e = .recv t5 ∧
        w = .row (rowOf reply (replySeq reply) t1 t5)) where
  acts s e := by
    change (act cfg s e).1.socket ⊆ s.socket
    rcases act_cases cfg s e with ⟨same, -, -⟩ | ⟨data, rest, held, left, -, -⟩
    · rw [same]
      exact List.Subset.refl _
    · rw [held, left]
      exact List.subset_cons_self data rest
  sends s e := by
    change ∀ k ∈ (act cfg s e).2.1, ∃ seq tSendNs, seq < 2 ^ 32 ∧ k = packet seq tSendNs
    rcases act_cases cfg s e with ⟨-, -, sends⟩ | ⟨data, rest, -, -, silent, -⟩
    · exact sends
    · rw [silent]
      simp
  logs s e := by
    change ∀ w ∈ (act cfg s e).2.2, w.row?.isSome → ∃ reply ∈ s.socket, _
    rcases act_cases cfg s e with ⟨-, rowless, -⟩ | ⟨data, rest, held, -, -, rowed⟩
    · intro w seen isRow
      rw [rowless w seen] at isRow
      cases isRow
    · rw [held]
      exact fun w seen _ => ⟨data, List.mem_cons_self, rowed w seen⟩
  receives s r := List.Subset.refl _
  serves := by
    rintro s k x ⟨seq, tSendNs, small, rfl⟩ reply sent
    exact ⟨seq, tSendNs, small, rfl, replies_of_turn sent⟩

/-- A row is on a turn of the server for its own packet, and has the time from the sending of that
packet to a receive. -/
structure OnTurn (cfg : Config) (moves : List (Move Event Turn)) (r : Row) (x : Turn) : Prop where
  served : ∃ i tSendNs, Move.serve i x ∈ moves ∧
    ((net (streaming cfg true)).final (.start .start .start) moves).requests[i]? =
      some (packet r.seq tSendNs)
  sent : (r.seq, r.t1HostNs) ∈ sends (logOf cfg true moves)
  received : Move.act (.recv r.t5HostNs) ∈ moves
  rtt : r.rttNs = (r.t5HostNs : ℤ) - r.t1HostNs

theorem row_of_turn {cfg : Config} {moves : List (Move Event Turn)} {r : Row}
    (logged : r ∈ rows (logOf cfg true moves)) :
    ∃ x, OnTurn cfg moves r x ∧ ∃ reply t3 t4 t5', r = rowOf reply r.seq r.t1HostNs r.t5HostNs ∧
      lobStreamTiming reply = some ⟨x.reads.t2.toNat, t3, t4, t5', x.reads.tReflex.toNat⟩ := by
  have own := (matched_log cfg true moves).own r logged
  obtain ⟨w, seen, isRow⟩ := List.mem_filterMap.mp logged
  obtain ⟨e, i, x, k, reply, acted, served, found, -, ⟨seq, tSendNs, small, rfl, replies⟩, t1, t5,
      rfl, rfl⟩ :=
    (answering cfg).log_traced (c := .start) (s := .start) rfl moves w seen (by rw [isRow]; rfl)
  obtain rfl : rowOf reply (replySeq reply) t1 t5 = r := Option.some.inj isRow
  have number : replySeq reply = seq := by
    rw [replySeq_replies replies, BitVec.toNat_ofNat, Nat.mod_eq_of_lt small]
  obtain ⟨t3, t4, t5', timing⟩ := timing_replies replies
  refine ⟨x, ⟨⟨i, tSendNs, served, ?_⟩, own, acted, rfl⟩, reply, t3, t4, t5', rfl, timing⟩
  change _ = some (packet (replySeq reply) tSendNs)
  rw [number]
  exact found

theorem OnTurn.clocked {cfg : Config} {moves : List (Move Event Turn)} {r : Row} {x : Turn}
    (onTurn : OnTurn cfg moves r x) (clocked : ∀ i x, Move.serve i x ∈ moves → Clocked x) :
    Clocked x := by
  obtain ⟨i, tSendNs, served, -⟩ := onTurn.served
  exact clocked i x served

theorem rowOf_clocked {x : Turn} (clocked : Clocked x) {reply : List Byte} {t3 t4 t5' : ℕ}
    (timing : lobStreamTiming reply =
      some ⟨x.reads.t2.toNat, t3, t4, t5', x.reads.tReflex.toNat⟩) (seq t1 t5 : ℕ) :
    let r := rowOf reply seq t1 t5
    r.pynqTotalNs = some ((x.reads.tReflex.toNat : ℤ) - x.reads.t2.toNat) ∧
      r.netEstNs = some (r.rttNs - ((x.reads.tReflex.toNat : ℤ) - x.reads.t2.toNat)) := by
  obtain ⟨received, reflex⟩ := clocked
  have total : difference x.reads.tReflex.toNat x.reads.t2.toNat =
      some ((x.reads.tReflex.toNat : ℤ) - x.reads.t2.toNat) := if_pos ⟨by omega, by omega⟩
  have some' : (x.reads.tReflex.toNat : ℤ) - x.reads.t2.toNat ≠ 0 := by omega
  simp only [rowOf, timing, Option.bind_some, total, if_pos some', and_self]

/-- Every row of a run with timing is on a turn for its own packet, but it takes the reflex for the
end of that turn: what comes after, all of the DMA and the inference, goes to the network. -/
theorem net_est_late {cfg : Config} {moves : List (Move Event Turn)}
    (clocked : ∀ i x, Move.serve i x ∈ moves → Clocked x) :
    ∀ r ∈ rows (logOf cfg true moves), ∃ x, OnTurn cfg moves r x ∧
      r.pynqTotalNs = some ((x.reads.tReflex.toNat : ℤ) - x.reads.t2.toNat) ∧
      r.netEstNs = some (r.rttNs - ((x.reads.tReflex.toNat : ℤ) - x.reads.t2.toNat)) := by
  intro r logged
  obtain ⟨x, onTurn, reply, t3, t4, t5', own, timing⟩ := row_of_turn logged
  have read := rowOf_clocked (onTurn.clocked clocked) timing r.seq r.t1HostNs r.t5HostNs
  rw [← own] at read
  exact ⟨x, onTurn, read⟩

def answeredTwice : List (Move Event Turn) :=
  let x : Turn := ⟨0, ⟨10, 20, 30, 40, 50, 60⟩, .completed true (some (List.replicate 16 0, 7))⟩
  [.act (.send 1 100), .serve 0 x, .deliver 0, .deliver 0, .act (.recv 200), .act (.recv 210)]

theorem clocked_answeredTwice : ∀ i x, Move.serve i x ∈ answeredTwice → Clocked x := by
  intro i x served
  simp only [answeredTwice, List.mem_cons, reduceCtorEq, Move.serve.injEq, List.not_mem_nil,
    false_or, or_false] at served
  obtain ⟨-, rfl⟩ := served
  exact ⟨by decide, by decide⟩

theorem net_est_late_twice :
    (rows (logOf ⟨none, true⟩ true answeredTwice)).map (fun r => (r.seq, r.rttNs, r.netEstNs)) =
        [(0, 100, some 90)] ∧
      ∀ r ∈ rows (logOf ⟨none, true⟩ true answeredTwice),
        ∃ x, OnTurn ⟨none, true⟩ answeredTwice r x ∧
          r.pynqTotalNs = some ((x.reads.tReflex.toNat : ℤ) - x.reads.t2.toNat) ∧
          r.netEstNs = some (r.rttNs - ((x.reads.tReflex.toNat : ℤ) - x.reads.t2.toNat)) :=
  ⟨by decide +kernel, net_est_late clocked_answeredTwice⟩

end HftLatencyLab.LobStream
