import OpenWal.Theory.Recovered

namespace OpenWal
open ByteSeq Posix CrashProg

theorem mem_numbered {e lsn : ℕ} {p : Bytes} {ps : List Bytes} (h : (lsn, p) ∈ numbered e ps) :
    ∃ qs rest, ps = qs ++ p :: rest ∧ lsn = e + qs.length := by
  induction ps generalizing e with
  | nil => simp at h
  | cons q ps ih =>
    rw [numbered_cons, List.mem_cons] at h
    rcases h with h | h
    · obtain ⟨rfl, rfl⟩ := Prod.mk.inj h
      exact ⟨[], ps, rfl, rfl⟩
    · obtain ⟨qs, rest, rfl, rfl⟩ := ih h
      exact ⟨q :: qs, rest, rfl, by rw [List.length_cons]; omega⟩

section

variable [Crc32c]

/-- In a segment of the directory, `p` is the payload of the record numbered `lsn` in
the dense run of valid records behind the header. -/
def AcceptedRecord (config : WalConfig) (d : Disk) (lsn : ℕ) (p : Bytes) : Prop :=
  ∃ base f qs, d.file (filenameFor base) = some f ∧ HeaderOk f.data base ∧
    Run config.segmentSize config.maxRecordSize f.data headerSize base (qs ++ [p]) ∧
    lsn = base + qs.length

variable {config : WalConfig} {d : Disk}

theorem acceptedRecord_of_segmentAt {base lsn : ℕ} {p : Bytes} {ps : List Bytes}
    (h : SegmentAt config.segmentSize config.maxRecordSize d base ps)
    (hm : (lsn, p) ∈ numbered base ps) : AcceptedRecord config d lsn p := by
  obtain ⟨f, hf, hs⟩ := h
  obtain ⟨qs, rest, rfl, rfl⟩ := mem_numbered hm
  refine ⟨base, f, qs, hf, hs.header, ?_, rfl⟩
  have hr := hs.run
  rw [List.append_cons] at hr
  exact (Run.append_iff.mp hr).1

theorem acceptedRecord_of_chain {oldest lsn : ℕ} {p : Bytes} {sealed : List (List Bytes)}
    {active : List Bytes} (h : SealedFrom config.segmentSize config.maxRecordSize d oldest sealed)
    (ha : SegmentAt config.segmentSize config.maxRecordSize d (activeBase oldest sealed) active)
    (hm : (lsn, p) ∈ numbered oldest (sealed.flatten ++ active)) : AcceptedRecord config d lsn p := by
  induction sealed generalizing oldest with
  | nil => exact acceptedRecord_of_segmentAt ha hm
  | cons ps rest ih =>
    rw [List.flatten_cons, List.append_assoc, numbered_append, List.mem_append] at hm
    rcases hm with hm | hm
    · obtain ⟨⟨-, f, hf, hs, -⟩, -⟩ := h
      exact acceptedRecord_of_segmentAt ⟨f, hf, hs⟩ hm
    · exact ih h.2 (by rwa [← activeBase_cons]) hm

/-- Where `open` succeeds on a directory, a replay from any place yields, once each and
in order, the numbers from there to the durable one, with the payloads recovery
accepted; below the oldest number it is refused. -/
theorem replay_agrees_with_recovery {seed : ℕ} {wal : Wal} {rep : RecoveryReport} {w : World}
    (hs : seed ≤ u64Max) (h : openSeeded config seed ⟨d, []⟩ = (.ret (wal, rep), w)) (start : ℕ) :
    rep.oldestLsn ≤ rep.durableLsn + 1 ∧
    (start = 0 ∨ rep.oldestLsn ≤ start → ∃ r rs, readerFrom wal w.disk start = .ok r ∧
      r.drain w.disk = (rs, none) ∧
      rs.map Prod.fst = List.range' (max rep.oldestLsn start)
        (rep.durableLsn + 1 - max rep.oldestLsn start) ∧
      ∀ lsn p, (lsn, p) ∈ rs → AcceptedRecord config d lsn p) ∧
    (0 < start → start < rep.oldestLsn →
      readerFrom wal w.disk start = .error .contiguityViolation) := by
  obtain ⟨hv, h1, d', rfl, hopens⟩ := openSeeded_opens hs h
  obtain ⟨oldest, sealed, active, ts, f', rfl, rfl, hlog, -, -, hfound⟩ := hopens.log hv h1 hs
  have hpos := hlog.activeBase_pos
  have hdurable : activeBase oldest sealed + active.length - 1 + 1 =
      oldest + (sealed.flatten ++ active).length := by
    rw [List.length_append]
    simp only [activeBase] at hpos ⊢
    omega
  simp only [reportOn, hdurable]
  refine ⟨Nat.le_add_right _ _, fun hstart => ?_, readerFrom_below⟩
  obtain ⟨r, hr, hdrain⟩ := drain_readerFrom [] [] hlog hstart
  refine ⟨r, _, hr, hdrain, ?_, fun lsn p hm => ?_⟩
  · rw [numbered_map_fst, List.length_drop]
    congr 1
    omega
  · rw [← numbered_filter] at hm
    have hm := (List.mem_filter.mp hm).1
    rcases hfound with ⟨rfl, rfl⟩ | ⟨hchain, hactive⟩
    · simp at hm
    · exact acceptedRecord_of_chain hchain hactive hm

end

def tornTail : Disk :=
  .holding [(filenameFor 3, encodeHeader 3 0 ++ encodeFrame 3 [7] ++ 1 :: zeros 40)]

theorem replay_agrees_with_recovery_tornTail : ∃ wal rep w,
    openSeeded tightConfig 1 ⟨tornTail, []⟩ = (.ret (wal, rep), w) ∧
    rep.oldestLsn = 3 ∧ rep.durableLsn = 3 ∧
    ∃ r rs, readerFrom wal w.disk 3 = .ok r ∧ r.drain w.disk = (rs, none) ∧
      rs.map Prod.fst = [3] ∧
      ∀ lsn p, (lsn, p) ∈ rs → AcceptedRecord tightConfig tornTail lsn p := by
  have hreport : (reportOf tightConfig 1 tornTail).map (fun rep => (rep.oldestLsn, rep.durableLsn)) =
      some (3, 3) := by decide +kernel
  obtain ⟨rep, hrep, hlsns⟩ := Option.map_eq_some_iff.mp hreport
  obtain ⟨ho, hd⟩ := Prod.mk.inj hlsns
  obtain ⟨wal, w, hopen⟩ := openSeeded_of_reportOf hrep
  obtain ⟨r, rs, hr, hdrain, hrs, hacc⟩ :=
    (replay_agrees_with_recovery (by decide) hopen 3).2.1 (Or.inr ho.le)
  rw [ho, hd] at hrs
  exact ⟨wal, rep, w, hopen, ho, hd, r, rs, hr, hdrain, hrs, hacc⟩

end OpenWal
