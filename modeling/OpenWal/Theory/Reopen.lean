import OpenWal.Theory.CalmRuns

namespace OpenWal
open ByteSeq Posix CrashProg

variable [Crc32c]

/-- What lies at `x`, where record `e` would come next, neither is a record nor keeps
recovery from accepting the segment. -/
def Inert (ss mx : ℕ) (file : Bytes) (x e : ℕ) : Prop :=
  CleanAt ss file x ∨ Stops ss mx file x e ∧ TornAt ss mx file x e

variable {ss mx x e : ℕ} {file file' : Bytes}

theorem Continues.congr (h : Continues ss mx file x e) (ha : ∀ y, AgreeOn file file' x y) :
    Continues ss mx file' x e := by
  obtain ⟨k, lsn, p, hk, hle, hf⟩ := h
  exact ⟨k, lsn, p, hk, hle, hf.congr ((ha _).mono (by omega) le_rfl)⟩

theorem TornAt.congr (h : TornAt ss mx file x e) (ha : ∀ y, AgreeOn file file' x y) :
    TornAt ss mx file' x e := by
  have ha' : ∀ y, AgreeOn file' file x y := fun y => (ha y).symm
  obtain ⟨hc, hle, hgt⟩ := h
  refine ⟨fun h => hc (h.congr (ha' _)), fun he h => hle he (h.congr ha'), fun he => ?_⟩
  obtain ⟨hlen, hz⟩ := hgt he
  have hlen' : file'.length < x + 20 := by
    by_contra hn
    have := ha (x + 20) (x + 19) (by omega) (by omega)
    rw [List.getElem?_eq_none (by omega), List.getElem?_eq_getElem (by omega)] at this
    simp at this
  refine ⟨hlen', fun i hi hi' => ?_⟩
  have := ha (i + 1) i hi (Nat.lt_succ_self i)
  rw [List.getElem?_eq_getElem hi'] at this
  have hin := (List.getElem?_eq_some_iff.mp this).1
  rw [← ha (i + 1) i hi (Nat.lt_succ_self i)]
  exact hz i hi hin

/-- Only the bytes from `x` on count. -/
theorem inert_congr (h : file.drop x = file'.drop x) :
    Inert ss mx file x e ↔ Inert ss mx file' x e := by
  have key : ∀ {g g' : Bytes}, g.drop x = g'.drop x → Inert ss mx g x e → Inert ss mx g' x e := by
    intro g g' h hi
    have ha : ∀ y, AgreeOn g g' x y := agreeOn_of_drop_eq h
    rcases hi with hc | ⟨hs, ht⟩
    · exact Or.inl (hc.congr (ha _))
    · exact Or.inr ⟨fun p hf => hs p (hf.congr (ha _).symm), ht.congr ha⟩
  exact ⟨key h, key h.symm⟩

variable {config : WalConfig} {d : Disk} {oldest seed : ℕ} {sealed : List (List Bytes)}
  {active : List Bytes} {f : File}

/-- The next `open` accepts a segment with an inert end, and the log it holds. -/
theorem openSeeded_of_inert (hv : config.Valid) (hseed : 1 ≤ seed) (hl : d.locked = false)
    (hbases : basesOf d = basesFrom oldest sealed)
    (hchain : SealedFrom config.segmentSize config.maxRecordSize d oldest sealed)
    (hf : d.file (filenameFor (activeBase oldest sealed)) = some f)
    (hh : HeaderOk f.data (activeBase oldest sealed))
    (hrun : Run config.segmentSize config.maxRecordSize f.data headerSize (activeBase oldest sealed) active)
    (hi : Inert config.segmentSize config.maxRecordSize f.data (headerSize + runSize active)
      (activeBase oldest sealed + active.length)) :
    ∃ ts f' d', openSeeded config seed ⟨d, []⟩ =
        (.ret (handleOn config oldest sealed active [] [], reportOn oldest sealed active ts),
          ⟨d', []⟩) ∧
      LogOn config.segmentSize config.maxRecordSize d' oldest sealed active f' := by
  have key : ∀ {ts f'}, SegmentHolds config.segmentSize config.maxRecordSize f.data
      (activeBase oldest sealed) active →
      TailOk config.segmentSize config.maxRecordSize f (activeBase oldest sealed)
        (headerSize + runSize active) (activeBase oldest sealed + active.length) ts f' →
      ∃ ts f' d', openSeeded config seed ⟨d, []⟩ =
          (.ret (handleOn config oldest sealed active [] [], reportOn oldest sealed active ts),
            ⟨d', []⟩) ∧
        LogOn config.segmentSize config.maxRecordSize d' oldest sealed active f' := by
    intro ts f' hs ht
    have hlog : LogOn config.segmentSize config.maxRecordSize d oldest sealed active f :=
      ⟨hbases, hchain, hf, hs⟩
    obtain ⟨d', hopen, hset⟩ := openSeeded_of_logOn hv hseed hl hlog ht
    exact ⟨ts, f', d', hopen, (logOn_acquired.mpr hlog).setActive hset (ht.holds hs).1⟩
  rcases hi with hc | ⟨hs, ht⟩
  · exact key ⟨hh, hrun, hc.stops⟩ (.clean hc)
  · exact key ⟨hh, hrun, hs⟩ (.torn ht)

/-- Where `open` succeeds on a directory whose active segment starts with the records
`active`, and reports the last of them as durable, that segment ends inertly there. -/
theorem inert_of_openSeeded {wal : Wal} {rep : RecoveryReport} {w : World} (hs : seed ≤ u64Max)
    (h : openSeeded config seed ⟨d, []⟩ = (.ret (wal, rep), w))
    (hbases : basesOf d = basesFrom oldest sealed)
    (hf : d.file (filenameFor (activeBase oldest sealed)) = some f)
    (hh : HeaderOk f.data (activeBase oldest sealed))
    (hrun : Run config.segmentSize config.maxRecordSize f.data headerSize (activeBase oldest sealed) active)
    (hd : rep.durableLsn = activeBase oldest sealed + active.length - 1) :
    Inert config.segmentSize config.maxRecordSize f.data (headerSize + runSize active)
      (activeBase oldest sealed + active.length) := by
  obtain ⟨hv, h1, d', rfl, hopens⟩ := openSeeded_opens hs h
  have hlast : (basesOf (acquired d)).getLast? = some (activeBase oldest sealed) := by
    rw [basesOf_acquired, hbases, basesFrom_getLast?]
  cases hopens with
  | created hdis hnone _ =>
    rw [hdis.eq_of_headerOk hlast hf hh, basesOf_acquired, hbases] at hnone
    obtain ⟨rest, hr⟩ := basesFrom_eq_cons oldest sealed
    simp [hr] at hnone
  | @recovered d₀ _ oldest' sealed' active' g g' ts hdis hlog ht _ =>
    obtain rfl := hdis.eq_of_headerOk hlast hf hh
    have hab : activeBase oldest' sealed' = activeBase oldest sealed := by
      have := hlog.getLast?_bases.symm.trans hlast
      simpa using this
    have hpos := hh.pos
    have hfile := hlog.file
    have hholds := hlog.holds
    rw [hab] at hfile hholds ht
    obtain rfl : g = f := Option.some.inj (hfile.symm.trans hf)
    have hlen : active'.length = active.length := by
      simp only [reportOn, hab] at hd
      omega
    -- of two runs from one place one is a first part of the other; these are as long
    have heq : active' = active := by
      rcases hholds.run.prefix_total hrun with hp | hp
      · exact hp.eq_of_length hlen
      · exact (hp.eq_of_length hlen.symm).symm
    subst heq
    cases ht with
    | clean hc => exact Or.inl hc
    | torn ht => exact Or.inr ⟨hholds.stops, ht⟩

end OpenWal
