import OpenWal.Results.DamagedRecords

namespace OpenWal
open ByteSeq Posix CrashProg Simulation

section

variable [Crc32c]

def TruncatesTo (config : WalConfig) (d : Disk) (seed e : ℕ) (rs : List (ℕ × Bytes)) : Prop :=
  ∃ rep m, (Machine.onDisk d).runCalm config [.openLog seed, .replay 0] =
      some ([.ret (.opened rep), .ret (.records rs none)], m) ∧ rep.durableLsn + 1 = e

variable {config : WalConfig} {d : Disk} {oldest seed x e j : ℕ} {sealed : List (List Bytes)}
  {ps : List Bytes} {p : Bytes} {f g : File} {m : Machine}

structure TornRecord (config : WalConfig) (d : Disk) (oldest : ℕ) (sealed : List (List Bytes))
    (ps : List Bytes) (p : Bytes) (g : File) : Prop where
  chain : SealedFrom config.segmentSize config.maxRecordSize d oldest sealed
  bases : basesOf d = basesFrom oldest sealed
  file : d.file (filenameFor (activeBase oldest sealed)) = some g
  holds : SegmentHolds config.segmentSize config.maxRecordSize g.data (activeBase oldest sealed) ps
  lsn_le : activeBase oldest sealed + ps.length ≤ u64Max
  small : p.length ≤ config.maxRecordSize
  fits : headerSize + runSize ps + framedSize p.length ≤ config.segmentSize
  rest : ZeroOn g.data (headerSize + runSize ps + framedSize p.length) config.segmentSize

/-- A valid record numbered `e` or higher starts inside the torn record at `x`. -/
def HoldsFrame (config : WalConfig) (file : Bytes) (x size e : ℕ) : Prop :=
  ∃ k lsn q, 8 + 8 * k < size ∧ e ≤ lsn ∧
    FrameAt config.segmentSize config.maxRecordSize file (x + 8 + 8 * k) lsn q

/-- Behind the torn record there is nothing for the forward scan to find. -/
theorem TornRecord.continues_iff (h : TornRecord config d oldest sealed ps p g) (e : ℕ) :
    Continues config.segmentSize config.maxRecordSize g.data (headerSize + runSize ps) e ↔
      HoldsFrame config g.data (headerSize + runSize ps) (framedSize p.length) e := by
  have hsize := framedSize_le p.length
  have hsmall := h.small
  constructor
  · rintro ⟨k, lsn, q, hk, hle, hq⟩
    refine ⟨k, lsn, q, ?_, hle, hq⟩
    by_contra hge
    exact hq.not_cleanAt (cleanAt_of_zeroOn h.rest (by omega))
  · rintro ⟨k, lsn, q, hk, hle, hq⟩
    refine ⟨k, lsn, q, ?_, hle, hq⟩
    simp only [scanBound]
    omega

theorem TornRecord.cleanAt_iff (h : TornRecord config d oldest sealed ps p g) :
    CleanAt config.segmentSize g.data (headerSize + runSize ps) ↔
      ZeroOn g.data (headerSize + runSize ps) (headerSize + runSize ps + 20) := by
  have hfits := h.fits
  have hmin := le_framedSize p.length
  constructor
  · rintro (hlt | hz)
    · omega
    · exact hz
  · exact Or.inr

/-- Recovery truncates the torn record where its header is gone, or no record seems to
start inside it. -/
theorem TornRecord.truncated_iff (h : TornRecord config d oldest sealed ps p g)
    (hv : config.Valid) (hseed : (Op.openLog seed).Legal) (hl : d.locked = false) :
    TruncatesTo config d seed (activeBase oldest sealed + ps.length)
        (numbered oldest (sealed.flatten ++ ps)) ↔
      ZeroOn g.data (headerSize + runSize ps) (headerSize + runSize ps + 20) ∨
        ¬ HoldsFrame config g.data (headerSize + runSize ps) (framedSize p.length)
          (activeBase oldest sealed + ps.length) := by
  have hlog : LogOn config.segmentSize config.maxRecordSize d oldest sealed ps g :=
    ⟨h.bases, h.chain, h.file, h.holds⟩
  have hpos := hlog.activeBase_pos
  rw [← h.cleanAt_iff, ← h.continues_iff]
  constructor
  · rintro ⟨rep, m, hrun, -⟩
    by_contra hnot
    obtain ⟨hc, hcont⟩ := not_or.mp hnot
    have hcont := not_not.mp hcont
    -- the scan refuses the tail
    have hlog' := logOn_acquired.mpr hlog
    have hdis : Discards config (acquired d) (acquired d) :=
      .keep hlog'.getLast?_bases hlog'.file hlog.holds.header
    have hrec := recoverDirectory_of_discards hdis seed
    rw [recoverFound_of_fatal seed hlog' hc fun ht => ht.2.1 h.lsn_le hcont] at hrec
    have hopen := openSeeded_of_err hv hseed.1 hl hrec
    rw [Machine.runCalm_eq_some] at hrun
    cases hrun with
    | cons hstep _ =>
    obtain ⟨wal, w, ho, -⟩ := Machine.calmStep_open_eq_ret hstep
    have heq := hopen.symm.trans ho
    simp at heq
  · intro hor
    have htail : ∃ ts f', TailOk config.segmentSize config.maxRecordSize g (activeBase oldest sealed)
        (headerSize + runSize ps) (activeBase oldest sealed + ps.length) ts f' := by
      by_cases hc : CleanAt config.segmentSize g.data (headerSize + runSize ps)
      · exact ⟨_, _, .clean hc⟩
      · exact ⟨_, _, .torn ⟨hc, fun _ => hor.resolve_left hc,
          fun hlt => absurd h.lsn_le (Nat.not_le.mpr hlt)⟩⟩
    obtain ⟨ts, f', ht⟩ := htail
    obtain ⟨d', hopen, hset⟩ := openSeeded_of_logOn hv hseed.1 hl hlog ht
    have hlog' := (logOn_acquired.mpr hlog).setActive hset (ht.holds hlog.holds).1
    obtain ⟨r, hr, hdrain⟩ := drain_readerFrom [] [] hlog' (Or.inl rfl)
    set m₁ : Machine := ⟨d', some (handleOn config oldest sealed ps [] []),
      (Machine.onDisk d).reported ++ [(reportOn oldest sealed ps ts).durableLsn]⟩ with hm₁
    have hreplay : m₁.replayed (handleOn config oldest sealed ps [] []) 0 =
        .ret (.records (numbered oldest (sealed.flatten ++ ps)) none) := by
      rw [Machine.replayed, hm₁, hr]
      simp [hdrain]
    have hstep := Machine.calmStep_replay (m := m₁) config 0 rfl
    rw [hreplay] at hstep
    have hrun := Machine.runCalm_eq_some.mpr
      (.cons (Machine.calmStep_open (m := .onDisk d) hopen) (.cons hstep (.nil m₁)))
    refine ⟨reportOn oldest sealed ps ts, m₁, hrun, ?_⟩
    simp only [reportOn]
    omega

/-- A written log whose last record lost its end. -/
theorem StoredLog.tornRecord {safe : Prop}
    (h : StoredLog config safe d oldest sealed (ps ++ [p]) f) (hj : j ≤ framedSize p.length)
    (hg : g.data = overwrite f.data (headerSize + runSize ps + j) (zeros (framedSize p.length - j)))
    (hno : Stops config.segmentSize config.maxRecordSize g.data (headerSize + runSize ps)
      (activeBase oldest sealed + ps.length)) :
    TornRecord config (d.put (filenameFor (activeBase oldest sealed)) g) oldest sealed ps p g := by
  have hw := h.written
  have hu := hw.header.le_u64Max
  have hfits := hw.fits
  have hlast := hw.batch.last
  rw [runSize_append, runSize_cons, runSize_nil] at hfits
  rw [List.length_append, List.length_singleton] at hlast
  have hx : headerSize + runSize ps + j ≤ f.data.length := by
    rw [hw.length]
    omega
  have hbefore : AgreeOn f.data g.data 0 (headerSize + runSize ps) := by
    rw [hg]
    exact (overwrite_agreeOn_before _ hx 0).symm.mono le_rfl (by omega)
  have hholds := hw.holds config.maxRecordSize_lt
  refine ⟨(h.chain.sealedFrom config.maxRecordSize_lt).congr fun c hc hlt hcu =>
      Disk.put_file_ne _ _ (filenameFor_ne hcu hu hlt.ne), ?_, Disk.put_file_self _ _ _,
    ⟨hholds.header.congr (hbefore.mono le_rfl (Nat.le_add_right _ _)),
      (Run.append_iff.mp hholds.run).1.congr (hbefore.mono (Nat.zero_le _) le_rfl), hno⟩,
    by omega, hw.batch.small p (by simp), by omega, ?_⟩
  · rw [basesOf_put hu h.file, h.bases]
  · have hrest := hw.rest
    rw [runSize_append, runSize_cons, runSize_nil, Nat.add_zero, ← Nat.add_assoc] at hrest
    have hafter := overwrite_agreeOn_after (zeros (framedSize p.length - j)) hx config.segmentSize
    rw [zeros_length, Nat.add_assoc _ j, Nat.add_sub_cancel' hj, ← hg] at hafter
    exact hrest.congr hafter.symm

/-- In every log calm calls produce, the last record of the active segment losing its end is
truncated away exactly where its header is lost too or no valid record seems to start inside
what is left of it. -/
theorem truncatesTo_iff {fallocates : Bool} {clock : ℕ → ℕ} {ops : List Op}
    {os : List (Outcome WalError Reply)} {wal : Wal} {rs : List (ℕ × Bytes)} (hv : config.Valid)
    (hops : InTurn false ops)
    (hrun : (Machine.fresh fallocates clock).runCalm config ops = some (os, m))
    (hw : m.handle = some wal) (hf : m.disk.file wal.active = some f)
    (hrs : m.replayed wal 0 = .ret (.records (rs ++ [(e, p)]) none))
    (hx : wal.writeOffset = x + framedSize p.length) (hpos : headerSize ≤ x)
    (hj : j ≤ framedSize p.length)
    (hg : g.data = overwrite f.data (x + j) (zeros (framedSize p.length - j)))
    (hno : Stops config.segmentSize config.maxRecordSize g.data x e)
    (hseed : (Op.openLog seed).Legal) :
    TruncatesTo config (m.die.disk.put wal.active g) seed e rs ↔
      ZeroOn g.data x (x + 20) ∨ ¬ HoldsFrame config g.data x (framedSize p.length) e := by
  rcases storedLog_of_runCalm hv hops hrun with
    ⟨hnone, -⟩ | ⟨oldest, sealed, active, f₀, h, hwal⟩
  · simp [hnone] at hw
  obtain ⟨observed, staged, rfl⟩ := hwal wal hw
  obtain rfl := Option.some.inj (hf.symm.trans h.file)
  obtain ⟨r, hr, hdrain⟩ := drain_readerFrom observed staged h.logOn (Or.inl rfl)
  have hrecords : numbered oldest (sealed.flatten ++ active) = rs ++ [(e, p)] := by
    rw [Machine.replayed, hr] at hrs
    simpa [hdrain] using hrs
  have hoff : headerSize + runSize active = x + framedSize p.length := hx
  -- the record lost is the last one of the active segment
  obtain ⟨ps, p', rfl⟩ : ∃ ps p', active = ps ++ [p'] := by
    rcases List.eq_nil_or_concat active with hnil | ⟨ps, p', hcat⟩
    · have := framedSize_pos p.length
      rw [hnil, runSize_nil] at hoff
      omega
    · exact ⟨ps, p', by rw [hcat, List.concat_eq_append]⟩
  rw [← List.append_assoc, numbered_append] at hrecords
  obtain ⟨rfl, hlast⟩ := List.append_inj' hrecords rfl
  obtain ⟨rfl, rfl⟩ : oldest + (sealed.flatten ++ ps).length = e ∧ p' = p := by
    simpa [numbered] using hlast
  have he : oldest + (sealed.flatten ++ ps).length = activeBase oldest sealed + ps.length := by
    rw [List.length_append, activeBase, Nat.add_assoc]
  obtain rfl : headerSize + runSize ps = x := by
    rw [runSize_append, runSize_cons, runSize_nil] at hoff
    omega
  rw [he] at hno ⊢
  have hdie : StoredLog config False m.die.disk oldest sealed (ps ++ [p']) f :=
    ⟨h.bases, h.chain.congr fun _ _ _ _ => rfl, h.file, h.written⟩
  exact (hdie.tornRecord hj hg hno).truncated_iff hv hseed rfl

end

/-- The last byte of the payload keeps the record from being valid without it. -/
def framedPayload : Bytes := zeros 4 ++ encodeFrame 1 [] ++ [9]

def framedTorn : File :=
  ⟨encodeHeader 1 0 ++ ((encodeFrame 1 framedPayload).take 48 ++ zeros 24), fun _ => false⟩

theorem framedPayload_run : ∃ os m wal f, (Machine.fresh true fun _ => 0).runCalm tightConfig
      [.openLog 1, .append framedPayload, .commit] = some (os, m) ∧ m.handle = some wal ∧
    m.disk.file wal.active = some f ∧ wal.writeOffset = 120 ∧
    m.replayed wal 0 = .ret (.records [(1, framedPayload)] none) ∧
    framedTorn.data = overwrite f.data (64 + 48) (zeros 8) ∧ Stops 136 45 framedTorn.data 64 1 ∧
    durableAfterOpen tightConfig (m.die.disk.put wal.active framedTorn) = none := by
  obtain ⟨m, hrun⟩ := Machine.runCalm_of_fst tightConfig (Machine.fresh true fun _ => 0)
    [.openLog 1, .append framedPayload, .commit]
    [.ret (.opened ⟨1, 0, .clean, 1⟩), .ret (.appended 1), .ret (.committed 1)] (by decide +kernel)
  have hwal := Machine.eq_of_runCalm hrun
    (fun m => m.handle.map fun wal => (wal.active, wal.writeOffset, m.replayed wal 0))
    (b := some (filenameFor 1, 120, .ret (.records [(1, framedPayload)] none))) (by decide +kernel)
  have hfile := Machine.eq_of_runCalm hrun
    (fun m => (m.disk.file (filenameFor 1)).map fun f => overwrite f.data (64 + 48) (zeros 8))
    (b := some framedTorn.data) (by decide +kernel)
  obtain ⟨wal, hw, hshow⟩ := Option.map_eq_some_iff.mp hwal
  obtain ⟨hactive, hoff, hreplay⟩ : wal.active = filenameFor 1 ∧ wal.writeOffset = 120 ∧
      m.replayed wal 0 = .ret (.records [(1, framedPayload)] none) := by simpa using hshow
  obtain ⟨f, hf, hdata⟩ := Option.map_eq_some_iff.mp hfile
  have hbad : scanAt 136 45 framedTorn.data 64 = .invalid .badCrc := by decide +kernel
  have hopen := Machine.eq_of_runCalm hrun
    (fun m => durableAfterOpen tightConfig (m.die.disk.put (filenameFor 1) framedTorn)) (b := none)
    (by decide +kernel)
  refine ⟨_, m, wal, f, hrun, hw, hactive ▸ hf, hoff, hreplay, hdata.symm, ?_, hactive ▸ hopen⟩
  intro q hq
  have hq' : scanAt 136 45 framedTorn.data 64 = _ := hq
  rw [hbad] at hq'
  simp at hq'

/-- The frame in the payload makes `open` take the torn record for a damaged one. -/
theorem framedPayload_not_truncated : ∃ os m wal f, (Machine.fresh true fun _ => 0).runCalm tightConfig
      [.openLog 1, .append framedPayload, .commit] = some (os, m) ∧ m.handle = some wal ∧
    m.disk.file wal.active = some f ∧ wal.writeOffset = 64 + framedSize framedPayload.length ∧
    m.replayed wal 0 = .ret (.records [(1, framedPayload)] none) ∧
    framedTorn.data = overwrite f.data (64 + 48) (zeros 8) ∧ Stops 136 45 framedTorn.data 64 1 ∧
    ¬ TruncatesTo tightConfig (m.die.disk.put wal.active framedTorn) 1 1 [] := by
  obtain ⟨os, m, wal, f, hrun, hw, hf, hoff, hreplay, hdata, hno, hopen⟩ := framedPayload_run
  refine ⟨os, m, wal, f, hrun, hw, hf, hoff, hreplay, hdata, hno, ?_⟩
  rintro ⟨rep, m', hrun', -⟩
  rw [Machine.runCalm_eq_some] at hrun'
  cases hrun' with
  | cons hstep _ =>
  obtain ⟨wal', w, ho, -⟩ := Machine.calmStep_open_eq_ret hstep
  have ho' : openSeeded tightConfig 1 ⟨m.die.disk.put wal.active framedTorn, []⟩ = (.ret (wal', rep), w) :=
    ho
  rw [durableAfterOpen, ho'] at hopen
  simp at hopen

theorem truncatesTo_iff_framedPayload : ∃ os m wal, (Machine.fresh true fun _ => 0).runCalm tightConfig
      [.openLog 1, .append framedPayload, .commit] = some (os, m) ∧ m.handle = some wal ∧
    (TruncatesTo tightConfig (m.die.disk.put wal.active framedTorn) 1 1 [] ↔
      ZeroOn framedTorn.data 64 84 ∨ ¬ HoldsFrame tightConfig framedTorn.data 64 56 1) := by
  obtain ⟨os, m, wal, f, hrun, hw, hf, hoff, hreplay, hdata, hno, -⟩ := framedPayload_run
  have hops : InTurn false [.openLog 1, .append framedPayload, .commit] := by
    simp only [InTurn, Op.Legal]
    decide
  have hj : 48 ≤ framedSize framedPayload.length := by decide
  have hrs : m.replayed wal 0 = .ret (.records ([] ++ [(1, framedPayload)]) none) := hreplay
  exact ⟨os, m, wal, hrun, hw, truncatesTo_iff (by decide) hops hrun hw hf hrs hoff (by decide) hj
    hdata hno ⟨le_rfl, by decide⟩⟩

end OpenWal
