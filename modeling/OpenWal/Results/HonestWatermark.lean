import OpenWal.Theory.Coverage

namespace OpenWal
open ByteSeq Posix CrashProg

section

variable [Crc32c]

/-- Every record numbered `w` or lower that a segment file holds is synced. -/
def HonestUpTo (config : WalConfig) (w : ℕ) (d : Disk) : Prop :=
  ∀ b f ps, b ≤ u64Max → d.file (filenameFor b) = some f →
    Run config.segmentSize config.maxRecordSize f.data headerSize b ps → b + ps.length ≤ w + 1 →
    f.SyncedOn headerSize (headerSize + runSize ps)

/-- The records an `open` takes over, up to a clean end, are synced. -/
def AdoptsSynced (config : WalConfig) (m : Machine) (op : Op) (_ : List Fate) : Prop :=
  ∀ seed, op = .openLog seed → m.disk.locked = false →
    ∀ b f ps, m.disk.file (filenameFor b) = some f → HeaderOk f.data b → ¬ Sealed b m.disk →
      Run config.segmentSize config.maxRecordSize f.data headerSize b ps →
      CleanAt config.segmentSize f.data (headerSize + runSize ps) →
      f.SyncedOn headerSize (headerSize + runSize ps)

variable {config : WalConfig} {oldest : ℕ} {sealed : List (List Bytes)} {active staged : List Bytes}
  {observed : List ℕ} {f : File} {d d' : Disk} {m m' : Machine} {op : Op} {fates : List Fate}
  {o : Outcome WalError Reply} {w : ℕ}

theorem HonestUpTo.of_subset (h : HonestUpTo config w d)
    (hd : ∀ n f, d'.file n = some f → d.file n = some f) : HonestUpTo config w d' :=
  fun b f ps hb hf hr hle => h b f ps hb (hd _ _ hf) hr hle

theorem HonestUpTo.removeAll (h : HonestUpTo config w d) (bases : List ℕ) :
    HonestUpTo config w (removeAll bases d) :=
  h.of_subset fun _ _ hf => removeAll_subset hf

theorem HonestUpTo.mono {w' : ℕ} (h : HonestUpTo config w d) (hw : w' ≤ w) : HonestUpTo config w' d :=
  fun b f ps hb hf hr hle => h b f ps hb hf hr (hle.trans (Nat.add_le_add_right hw 1))

structure AllSynced (config : WalConfig) (oldest : ℕ) (sealed : List (List Bytes)) (f : File)
    (d : Disk) : Prop where
  covered : Covered config d
  active : RecordsSynced config (activeBase oldest sealed) f

theorem AllSynced.of_base (h : AllSynced config oldest sealed f d)
    (hc : Carries config d oldest sealed active f) {b : ℕ} {g : File} (hb : b ≤ u64Max)
    (hg : d.file (filenameFor b) = some g) : RecordsSynced config b g := by
  have hmem := mem_basesOf.mpr ⟨hb, g, hg⟩
  rw [hc.bases] at hmem
  rcases (mem_basesFrom_le hmem).2.lt_or_eq with hlt | rfl
  · exact h.covered b g ⟨_, f, hlt, hc.file, hc.header⟩ hg
  · obtain rfl := Option.some.inj (hc.file.symm.trans hg)
    exact h.active

theorem AllSynced.honest (h : AllSynced config oldest sealed f d)
    (hc : Carries config d oldest sealed active f) (w : ℕ) : HonestUpTo config w d :=
  fun _ _ ps hb hg hr _ => h.of_base hc hb hg ps hr

/-- Behind the records of the active segment anything may be written. -/
theorem AllSynced.honest_put {f' : File} (h : AllSynced config oldest sealed f d)
    (hc : Carries config d oldest sealed active f)
    (hs : SameBefore (headerSize + runSize active) f f') :
    HonestUpTo config (activeBase oldest sealed + active.length - 1)
      (d.put (filenameFor (activeBase oldest sealed)) f') := by
  have hpos := hc.activeBase_pos
  intro b g ps hb hg hr hle
  by_cases hne : b = activeBase oldest sealed
  · subst hne
    rw [Disk.put_file_self] at hg
    obtain rfl := Option.some.inj hg
    have hactive := (hc.put hs).run
    have hprefix : ps <+: active := by
      rcases hr.prefix_total hactive with hp | hp
      · exact hp
      · rw [List.IsPrefix.eq_of_length_le hp (by omega)]
    obtain ⟨more, rfl⟩ := hprefix
    refine hs.syncedOn (h.active _ (Run.append_iff.mp hc.run).1) ?_
    rw [runSize_append]
    omega
  · rw [Disk.put_file_ne _ _ (filenameFor_ne hb hc.activeBase_le hne)] at hg
    exact h.of_base hc hb hg ps hr

/-- The next segment, as far as it has come, holds no record. -/
theorem AllSynced.honest_next (h : AllSynced config oldest sealed f d)
    (hc : Committing config d oldest sealed active f staged) (hs : staged ≠ [])
    (hd : DiffersAt (filenameFor (activeBase oldest sealed + active.length)) d d') :
    HonestUpTo config (activeBase oldest sealed + active.length - 1) d' := by
  have hpos := hc.activeBase_pos
  intro b g ps hb hg hr hle
  by_cases hne : b = activeBase oldest sealed + active.length
  · obtain rfl : ps = [] := List.length_eq_zero_iff.mp (by omega)
    intro i hi hi'
    rw [runSize_nil] at hi'
    omega
  · rw [hd.others _ (filenameFor_ne hb (hc.next_le_u64Max hs) hne)] at hg
    exact h.of_base hc.toCarries hb hg ps hr

theorem handleOn_active_inj {oldest' : ℕ} {sealed' : List (List Bytes)} {active' : List Bytes}
    (h : handleOn config oldest sealed active observed staged =
      handleOn config oldest' sealed' active' observed staged) :
    filenameFor (activeBase oldest sealed) = filenameFor (activeBase oldest' sealed') :=
  congrArg Wal.active h

/-- What `open` takes over is synced, or it syncs the file after it cut its end. -/
theorem AdoptsSynced.opened {seed : ℕ} {wal : Wal} {rep : RecoveryReport}
    (hok : AdoptsSynced config m (.openLog seed) fates) (hl : m.disk.locked = false)
    (hv : config.Valid) (h : Opens config m.disk seed wal rep d')
    (hw : wal = handleOn config oldest sealed active [] [])
    (hlog : LogOn config.segmentSize config.maxRecordSize d' oldest sealed active f) :
    RecordsSynced config (activeBase oldest sealed) f := by
  cases h with
  | created hd hnone hset =>
    have hname := handleOn_active_inj hw
    have hf := hset.self
    rw [activeBase_nil] at hname
    rw [hname, hlog.file] at hf
    rw [Option.some.inj hf]
    exact freshSegment_recordsSynced _ _ ((Nat.le_add_right _ _).trans hv.room)
  | @recovered d₀ _ oldest' sealed' active' f₀ f' ts hd hlog₀ ht hset =>
    have hname := handleOn_active_inj hw
    have hbase : activeBase oldest sealed = activeBase oldest' sealed' := by
      by_contra hne
      exact filenameFor_ne hlog.activeBase_le hlog₀.activeBase_le hne hname.symm
    have hf := hset.self
    rw [hname, hlog.file] at hf
    obtain rfl := Option.some.inj hf
    rw [hbase]
    cases ht with
    | clean hc =>
      have hunsealed : ¬ Sealed (activeBase oldest' sealed') m.disk :=
        fun hs => hlog₀.not_sealed (hs.discards hd)
      exact recordsSynced_of_cleanAt hlog₀.holds.run hc (hok seed rfl hl _ _ _ (hd.file hlog₀.file)
        hlog₀.holds.header hunsealed hlog₀.holds.run hc)
    | torn => exact sync_recordsSynced _

theorem upheld_adoptsSynced (config : WalConfig) : Upheld config (AdoptsSynced config) (Covered config)
    (fun n d => Covered config d ∧ HonestUpTo config n d)
    (fun oldest sealed _ => AllSynced config oldest sealed)
    (fun oldest sealed _ _ f d => config.Valid ∧ AllSynced config oldest sealed f d) where
  rest_of_stuck h := Covered.ofFiles _ _ ⟨fun _ => rfl, rfl⟩ h.1
  stuck_die h := ⟨Covered.ofFiles _ _ ⟨fun _ => rfl, rfl⟩ h.1, h.2.of_subset fun _ _ hf => hf⟩
  stuck_of_live hc h := ⟨h.covered, h.honest hc _⟩
  fails {m seed fates} _ hr _ _ := (openSeeded_covered hr seed ⟨m.disk, fates⟩ rfl).imp
    (fun _ _ _ => trivial) (fun _ _ h => h) fun _ h => Covered.ofFiles _ _ ⟨fun _ => rfl, rfl⟩ h
  opens {m seed fates wal rep w _ _ _ _} hseed hr hl hok hopen hopens hw hlog _ := by
    have hends := openSeeded_covered hr seed ⟨m.disk, fates⟩ rfl
    rw [hopen] at hends
    have hv := (openSeeded_opens hseed (openSeeded_steady seed _ _ _ hopen)).1
    exact ⟨hends, hok.opened hl hv hopens hw hlog⟩
  begins hv _ _ hlive _ _ := ⟨hv, hlive⟩
  commits oldest := {
    cut := fun k hc hj _ =>
      ⟨hj.2.covered.put_active hc.toCarries (.write _ hc.le_length le_rfl),
        hj.2.honest_put hc.toCarries (.write _ hc.le_length le_rfl)⟩
    store := fun {sealed active observed rest f d} hc hj _ => by
      -- the sync of the batch covers the records that were there before it too
      have hsame := SameBefore.write (encodeRun (activeBase oldest sealed + active.length)
        (fit (roomIn config active) rest)) hc.le_length le_rfl
      exact ⟨hj.1, hj.2.covered.put_active hc.toCarries (hsame.trans (.sync hsame.length)),
        sync_recordsSynced _⟩
    begun := fun hc hj hr ha _ hb =>
      ⟨hj.2.covered.next hc hr ha hj.2.active hb.1.toDiffersAt,
        hj.2.honest_next hc hr hb.1.toDiffersAt⟩
    rolled := fun {sealed active observed rest f d d' created} hc hj hr ha hfit honly _ => by
      have hcov := hj.2.covered.next hc hr ha hj.2.active honly.toDiffersAt
      have hss : headerSize ≤ config.segmentSize := (Nat.le_add_right _ _).trans hj.1.room
      exact ⟨hj.1, Covered.ofFiles _ _ (.syncDir d') hcov, freshSegment_recordsSynced _ created hss⟩ }
  ends _ h := h.2
  unlinks hc h := ⟨h.covered.removeAll _, (h.honest hc _).removeAll _⟩
  deletes {oldest xs ys active f d} hc h _ := by
    refine ⟨Covered.ofFiles _ _ (.syncDir _) (h.covered.removeAll _), ?_⟩
    rw [← activeBase_append]
    exact h.active

theorem HonestUpTo.survives (h : HonestUpTo config w d) {b : ℕ} {ps : List Bytes} (hb : b ≤ u64Max)
    (hf : d.file (filenameFor b) = some f)
    (hr : Run config.segmentSize config.maxRecordSize f.data headerSize b ps) (hle : b + ps.length ≤ w + 1)
    {g : Bytes} (hg : f.PowerLoss g) :
    Run config.segmentSize config.maxRecordSize g headerSize b ps :=
  hr.congr (hg.agreeOn (h b f ps hb hf hr hle)).symm

/-- In a run whose opens meet the condition, every watermark a call states is honest when
the call ends: the records up to it are synced, and a power loss leaves them. -/
theorem watermark_honest {fallocates : Bool} {clock : ℕ → ℕ}
    (hm : Machine.Reaches config (AdoptsSynced config) (Machine.fresh fallocates clock) m)
    (hlegal : op.Legal) (hok : AdoptsSynced config m op fates)
    (he : m.exec config op fates = some (o, m')) :
    ∃ ls, m'.reported = m.reported ++ ls ∧ ∀ w ∈ ls, HonestUpTo config w m'.disk ∧
      ∀ {b f ps g}, b ≤ u64Max → m'.disk.file (filenameFor b) = some f →
        Run config.segmentSize config.maxRecordSize f.data headerSize b ps → b + ps.length ≤ w + 1 →
        f.PowerLoss g → Run config.segmentSize config.maxRecordSize g headerSize b ps := by
  have hup := upheld_adoptsSynced config
  have hu := hup.run (.rest rfl (covered_fresh fallocates clock)) hm
  obtain ⟨-, ls, hreported, hls⟩ := hup.step hu hlegal hok he
  refine ⟨ls, hreported, fun w hw => ?_⟩
  obtain ⟨n, hle, -, hn⟩ := hls w hw
  have hw' := hn.mono hle
  exact ⟨hw', fun hb hf hr hle hg => hw'.survives hb hf hr hle hg⟩

end

/-- The process dies between the write of a record and its sync; the next `open` states
the number of that record. -/
theorem adopted_reported_unsynced : ∃ m m' report,
    Machine.Reaches tightConfig (fun _ _ _ => True) (Machine.fresh true fun _ => 0) m ∧
    m.exec tightConfig (.openLog 1) [] = some (.ret (.opened report), m') ∧ report.durableLsn = 1 ∧
    1 ∈ m'.reported ∧ ¬ HonestUpTo tightConfig 1 m'.disk := by
  have hrun : ((Machine.fresh true fun _ => 0).runFated tightConfig
      ([(.openLog 1, []), (.append (zeros 20), []), (.commit, [.ok, .crash 0])] ++
        [(.openLog 1, [])])).map
      (fun r => (r.1.getLast?, decide (1 ∈ r.2.reported), (r.2.disk.file (filenameFor 1)).map fun f =>
        (decide (slice f.data 64 104 = encodeRun 1 [zeros 20]), f.synced 64))) =
      some (some (.ret (.opened ⟨1, 1, .clean, 1⟩)), true, some (true, false)) := by decide +kernel
  obtain ⟨⟨os, m'⟩, hrun, hres⟩ := Option.map_eq_some_iff.mp hrun
  obtain ⟨o, os', m, rfl, hpre, hopen⟩ := Machine.runFated_concat hrun
  simp only [List.getLast?_concat, Prod.mk.injEq, Option.some.injEq, decide_eq_true_eq] at hres
  obtain ⟨rfl, hmem, hfile⟩ := hres
  obtain ⟨f, hf, hbytes⟩ := Option.map_eq_some_iff.mp hfile
  simp only [Prod.mk.injEq, decide_eq_true_eq] at hbytes
  refine ⟨m, m', _, Machine.Reaches.start.runFated (by simp [Op.Legal]; decide) hpre, hopen, rfl, hmem,
    fun hw => ?_⟩
  have hr : Run tightConfig.segmentSize tightConfig.maxRecordSize f.data headerSize 1 [zeros 20] :=
    run_of_slice_eq (by decide) (by decide) (by decide) (by decide) hbytes.1
  have := hw 1 f _ (by decide) hf hr le_rfl 64 le_rfl (by decide)
  simp [hbytes.2] at this

/-- A log with a record is closed and opened again. -/
theorem watermark_honest_reopened : ∃ m m',
    Machine.Reaches tightConfig (AdoptsSynced tightConfig) (Machine.fresh true fun _ => 0) m ∧
    m.exec tightConfig (.openLog 1) [] = some (.ret (.opened ⟨1, 1, .clean, 1⟩), m') ∧
    ∃ ls, m'.reported = m.reported ++ ls ∧ ∀ w ∈ ls, HonestUpTo tightConfig w m'.disk ∧
      ∀ {b f ps g}, b ≤ u64Max → m'.disk.file (filenameFor b) = some f →
        Run tightConfig.segmentSize tightConfig.maxRecordSize f.data headerSize b ps →
        b + ps.length ≤ w + 1 → f.PowerLoss g →
        Run tightConfig.segmentSize tightConfig.maxRecordSize g headerSize b ps := by
  have hrun : ((Machine.fresh true fun _ => 0).runFated tightConfig
      ([(.openLog 1, []), (.append (zeros 20), []), (.commit, []), (.close, [])] ++ [(.openLog 1, [])])).map
      (fun r => r.1.getLast?) = some (some (.ret (.opened ⟨1, 1, .clean, 1⟩))) := by decide +kernel
  have hfound : ((Machine.fresh true fun _ => 0).runFated tightConfig
      [(.openLog 1, []), (.append (zeros 20), []), (.commit, []), (.close, [])]).map
      (fun r => (basesOf r.2.disk, (r.2.disk.file (filenameFor 1)).map fun f =>
        (List.range f.data.length).all f.synced)) = some ([1], some true) := by decide +kernel
  obtain ⟨⟨os, m'⟩, hrun, hres⟩ := Option.map_eq_some_iff.mp hrun
  obtain ⟨o, os', m, rfl, hpre, hopen⟩ := Machine.runFated_concat hrun
  simp only [List.getLast?_concat, Option.some.injEq] at hres
  subst hres
  rw [hpre] at hfound
  obtain ⟨hbases, hfile⟩ := Prod.mk.inj (Option.some.inj hfound)
  obtain ⟨f₀, hf₀, hsynced⟩ := Option.map_eq_some_iff.mp hfile
  obtain ⟨o₁, os₁, m₁, -, hfirst, hrest⟩ := Machine.runFated_cons hpre
  have hlegal : (Op.openLog 1).Legal := ⟨le_rfl, by decide⟩
  have hm₁ : Machine.Reaches tightConfig (AdoptsSynced tightConfig) (Machine.fresh true fun _ => 0) m₁ := by
    refine .step .start hlegal (fun seed _ _ b f ps hf => ?_) hfirst
    have hnone : (Machine.fresh true fun _ => 0).disk.file (filenameFor b) = none := rfl
    simp [hnone] at hf
  have hm := hm₁.runFated (by simp [Op.Legal, AdoptsSynced]) hrest
  have hok : AdoptsSynced tightConfig m (.openLog 1) [] := by
    intro seed _ _ b f ps hf hheader _ hr _
    have hmem := mem_basesOf.mpr ⟨hheader.le_u64Max, f, hf⟩
    rw [hbases, List.mem_singleton] at hmem
    subst hmem
    obtain rfl := Option.some.inj (hf₀.symm.trans hf)
    exact recordsSynced_of_all (syncedOn_of_all hsynced) ps hr
  exact ⟨m, m', hm, hopen, watermark_honest hm hlegal hok hopen⟩

end OpenWal
