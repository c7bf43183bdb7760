import HftLatencyLab.ReplayLoop
import HftLatencyLab.EntryDict
import HftLatencyLab.StreamPump

/-! The index tests/validate_features_off_packets.py builds of the file
`--dump-packets`. Every packet sent from the loop has a record in it; the packet
flushed after end of file has none. -/

namespace HftLatencyLab.PacketDump
open ByteOrder LobWire LobPacket ReplayLoop EntryDict

variable {ρ : Type}

def readRecord (tx : List Byte) : Except Unit (Unit × List Byte × ℕ × List Byte) :=
  if tx.length < 4 + 2 then .error ()
  else
    let seq := fromBytesBig (slice tx 0 4)
    let cnt := fromBytesBig (slice tx 4 6)
    let fin := 6 + cnt * 16
    if tx.length < fin then .error ()
    else .ok ((), tx.drop fin, seq, slice tx 6 fin)

theorem readRecord_shorter {tx rest : List Byte} {u : Unit} {entry : ℕ × List Byte}
    (fired : readRecord tx = .ok (u, rest, entry)) : rest.length < tx.length := by
  unfold readRecord at fired
  dsimp only at fired
  split_ifs at fired with short broken
  cases fired
  rw [List.length_drop]
  omega

def reader : StreamPump Unit Byte (ℕ × List Byte) Unit where
  fire _ tx := readRecord tx
  consumes _ _ _ _ _ fired := readRecord_shorter fired

theorem reader_fire (tx : List Byte) : reader.fire () tx = readRecord tx := rfl

def txIndex (tx : List Byte) : Finmap fun _ : ℕ => List Byte :=
  ofEntries ((reader.run () tx).fired.map Prod.snd)

def wires (p : Packet) : List Byte := p.deltas.flatMap LobV1Delta.wire

theorem length_wires (p : Packet) : (wires p).length = p.deltas.length * 16 := by
  rw [wires]
  induction p.deltas with
  | nil => rfl
  | cons d ds ih =>
    rw [List.flatMap_cons, List.length_append, length_wire, ih, List.length_cons]
    omega

theorem dumpRecord_eq (p : Packet) :
    p.dumpRecord = toBE 4 p.seq.toNat ++ (toBE 2 (BitVec.ofNat 16 p.deltas.length).toNat ++
      wires p) := by
  rw [Packet.dumpRecord, toLE_htonl, toLE_htons, List.append_assoc, wires]

theorem length_dumpRecord (p : Packet) : p.dumpRecord.length = 6 + p.deltas.length * 16 := by
  rw [dumpRecord_eq]
  simp only [List.length_append, length_toBE, length_wires]
  omega

def entry (p : Packet) : ℕ × List Byte := (p.seq.toNat, wires p)

theorem readRecord_dumpRecord (p : Packet) (rest : List Byte) (fits : p.deltas.length < 2 ^ 16) :
    readRecord (p.dumpRecord ++ rest) = .ok ((), rest, entry p) := by
  have long := length_wires p
  have count : (BitVec.ofNat 16 p.deltas.length).toNat = p.deltas.length := by
    rw [BitVec.toNat_ofNat, Nat.mod_eq_of_lt fits]
  have seqBytes : fromBytesBig (slice (p.dumpRecord ++ rest) 0 4) = p.seq.toNat := by
    rw [dumpRecord_eq, fromBytesBig, slice]
    simpa [List.take_append] using ofBE_toBE (n := 4) p.seq.isLt
  have cntBytes : fromBytesBig (slice (p.dumpRecord ++ rest) 4 6) = p.deltas.length := by
    rw [dumpRecord_eq, fromBytesBig, slice, count]
    simpa [List.take_append, List.drop_append] using ofBE_toBE (n := 2) (fits : _ < 256 ^ 2)
  have payload : slice (p.dumpRecord ++ rest) 6 (6 + p.deltas.length * 16) = wires p := by
    rw [dumpRecord_eq, slice, Nat.add_sub_cancel_left, ← long]
    simp [List.drop_append, List.drop_of_length_le]
  have after : (p.dumpRecord ++ rest).drop (6 + p.deltas.length * 16) = rest :=
    List.drop_left' (length_dumpRecord p)
  have enough : 6 + p.deltas.length * 16 ≤ (p.dumpRecord ++ rest).length := by
    rw [List.length_append, length_dumpRecord]
    omega
  rw [readRecord, if_neg (by omega)]
  dsimp only
  rw [cntBytes, if_neg (by omega), seqBytes, payload, after, entry]

theorem txIndex_records {ps : List Packet} (fits : ∀ p ∈ ps, p.deltas.length < 2 ^ 16) :
    txIndex (ps.flatMap Packet.dumpRecord) = ofEntries (ps.map entry) := by
  have fires (p : Packet) (rest : List Byte) (fits : p.deltas.length < 2 ^ 16) :
      reader.fire () (p.dumpRecord ++ rest) = .ok ((), rest, entry p) := by
    rw [reader_fire, readRecord_dumpRecord p rest fits]
  have stops : reader.fire () [] = .error () := rfl
  rw [txIndex, (reader.run_records fires stops fits).1]

def Complete (sent : List Packet) (index : Finmap fun _ : ℕ => List Byte) : Prop :=
  ∀ seq payload, index.lookup seq = some payload ↔
    ∃ p ∈ sent, p.seq.toNat = seq ∧ wires p = payload

theorem mem_entries {ps : List Packet} {seq : ℕ} {payload : List Byte} :
    (seq, payload) ∈ ps.map entry ↔ ∃ p ∈ ps, p.seq.toNat = seq ∧ wires p = payload := by
  simp only [List.mem_map, entry, Prod.mk.injEq]

theorem fits_of_sent {batch : ℕ} {ps : List Packet} (limit : batch ≤ 32767)
    (sent : ∀ i (h : i < ps.length), WellSent batch i ps[i]) (p : Packet) (mem : p ∈ ps) :
    p.deltas.length < 2 ^ 16 := by
  obtain ⟨i, h, rfl⟩ := List.getElem_of_mem mem
  have most := (sent i h).atMost
  omega

section Numbered

variable {batch : ℕ} {ps : List Packet} (sent : ∀ i (h : i < ps.length), WellSent batch i ps[i])
  (short : ps.length < 2 ^ 32)
include sent short

theorem seq_getElem (i : ℕ) (h : i < ps.length) : ps[i].seq.toNat = i := by
  rw [(sent i h).seq, Nat.mod_eq_of_lt (by omega)]

theorem keys_eq_range : (ps.map entry).map Prod.fst = List.range ps.length := by
  apply List.ext_getElem
  · simp
  · intro i h _
    have inside : i < ps.length := by simpa using h
    simpa [entry] using seq_getElem sent short i inside

theorem complete_records (limit : batch ≤ 32767) :
    Complete ps (txIndex (ps.flatMap Packet.dumpRecord)) := by
  have distinct : ((ps.map entry).map Prod.fst).Nodup := by
    rw [keys_eq_range sent short]
    exact List.nodup_range
  intro seq payload
  rw [txIndex_records (fits_of_sent limit sent), lookup_iff distinct, mem_entries]

end Numbered

/-- The dump of a run is complete iff the batch is empty at end of file, so that nothing
is left to flush. -/
theorem complete_iff (cfg : Config ρ) (pos : 1 ≤ cfg.batch) (limit : cfg.batch ≤ 32767)
    (file : List Byte) (clk : Clock) {s : Loop ρ} {r : Sender}
    (loop : cfg.readLoop file clk = some s) (run : cfg.lobMode file clk = some r)
    (short : r.sent.length < 2 ^ 32) :
    Complete r.sent (txIndex r.dumpp) ↔ s.sender.deltas = [] := by
  obtain ⟨room, inv⟩ := readLoop_kept pos limit loop
  rw [Config.lobMode, loop, Option.bind_some] at run
  rcases finish_cases run with ⟨empty, rfl⟩ | ⟨left, tSend, rfl⟩
  · rw [inv.dumped]
    exact iff_of_true (complete_records inv.packets short limit) empty
  · have rest : s.sender.deltas ≠ [] := List.ne_nil_of_length_pos left
    refine iff_of_false (fun complete => ?_) rest
    have numbered := inv.sent limit left room.le tSend
    have count : s.sender.sent.length < (s.sender.sent ++ [s.sender.packet tSend]).length := by
      simp
    -- The number of the flushed packet is the count of the packets before it.
    have last : (s.sender.packet tSend).seq.toNat = s.sender.sent.length := by
      have own := seq_getElem numbered short s.sender.sent.length count
      rwa [List.getElem_concat_length rfl] at own
    have shorter : s.sender.sent.length < 2 ^ 32 := count.trans short
    have found := (complete s.sender.sent.length (wires (s.sender.packet tSend))).mpr
      ⟨s.sender.packet tSend, by simp [Sender.flush], last, rfl⟩
    have dumped : (s.sender.flush tSend).dumpp = s.sender.sent.flatMap Packet.dumpRecord :=
      inv.dumped
    rw [dumped, txIndex_records (fits_of_sent limit inv.packets)] at found
    have key := List.mem_map_of_mem (f := Prod.fst) (mem_of_lookup found)
    rw [keys_eq_range inv.packets shorter] at key
    simp at key

/-- Two messages fill the batch, so both are in the dump. -/
theorem complete_iff_full_batch :
    ∃ r, sampleConfig.lobMode (buyLine ++ sellLine) [1000, 0, 10, 20, 21, 22] = some r ∧
      r.sent.length = 1 ∧ Complete r.sent (txIndex r.dumpp) := by
  have ends : (sampleConfig.readLoop (buyLine ++ sellLine) [1000, 0, 10, 20, 21, 22]).map
      (fun s => (s.sender.deltas, s.sender.sent.length)) = some ([], 1) := by
    decide +kernel
  obtain ⟨s, loop, last⟩ := Option.map_eq_some_iff.mp ends
  obtain ⟨empty, one⟩ := Prod.mk.inj last
  have run : sampleConfig.lobMode (buyLine ++ sellLine) [1000, 0, 10, 20, 21, 22] =
      some s.sender := by
    rw [Config.lobMode, loop, Option.bind_some, Config.finish, empty]
    rfl
  have short : s.sender.sent.length < 2 ^ 32 := by
    rw [one]
    norm_num
  exact ⟨s.sender, run, one,
    (complete_iff sampleConfig (by decide) (by decide) _ _ loop run short).mpr empty⟩

/-- Four messages as fast as the clock runs. The first is sent at once, the next two fill a batch,
and the fourth is sent by the flush: its packet 2 is not in the dump. -/
theorem flushed_not_dumped :
    ∃ r, sampleConfig.lobMode (buyLine ++ sellLine ++ buyLine ++ sellLine)
        [1000, 1000, 1000, 1001, 1002, 1003, 1004, 1005, 1006, 1007, 1008] = some r ∧
      r.sent.length = 3 ∧ ¬Complete r.sent (txIndex r.dumpp) := by
  have ends : (sampleConfig.lobMode (buyLine ++ sellLine ++ buyLine ++ sellLine)
      [1000, 1000, 1000, 1001, 1002, 1003, 1004, 1005, 1006, 1007, 1008]).map
      (fun r => (r.sent.map (fun p => p.seq.toNat), (txIndex r.dumpp).lookup 2)) =
      some ([0, 1, 2], none) := by
    decide +kernel
  obtain ⟨r, run, last⟩ := Option.map_eq_some_iff.mp ends
  obtain ⟨numbers, absent⟩ := Prod.mk.inj last
  have count : r.sent.length = 3 := by
    rw [← List.length_map (fun p : Packet => p.seq.toNat), numbers]
    rfl
  refine ⟨r, run, count, fun complete => ?_⟩
  have mem : 2 ∈ r.sent.map (fun p => p.seq.toNat) := by
    rw [numbers]
    decide
  obtain ⟨p, sent, number⟩ := List.mem_map.mp mem
  have found := (complete 2 (wires p)).mpr ⟨p, sent, number, rfl⟩
  rw [absent] at found
  cases found

end HftLatencyLab.PacketDump
