import OpenWal.Theory.Coverage

namespace OpenWal
open ByteSeq Posix CrashProg

section

variable [Crc32c]

/-- A commit whose first record does not fit in the active segment finds the records there
synced. -/
def SealsSynced (config : WalConfig) (m : Machine) (op : Op) (_ : List Fate) : Prop :=
  op = .commit → ∀ wal, m.handle = some wal → wal.poisoned = false → wal.staging ≠ [] →
    wal.segmentSize - wal.writeOffset < (peek wal.staging).2 →
    ∀ base f, wal.segments.getLast? = some base → m.disk.file wal.active = some f →
      RecordsSynced config base f

variable {config : WalConfig} {oldest : ℕ} {sealed : List (List Bytes)} {active staged : List Bytes}
  {observed : List ℕ} {f : File} {m : Machine} {fates : List Fate}

theorem fit_eq_nil_peek {d : Disk} (h : Committing config d oldest sealed active f staged) (hs : staged ≠ [])
    (hfit : fit (roomIn config active) staged = []) :
    roomIn config active <
      (peek (encodeRun (activeBase oldest sealed + active.length) staged)).2 := by
  have hle := h.next_le_u64Max hs
  obtain ⟨p, ps, rfl⟩ := List.exists_cons_of_ne_nil hs
  rw [encodeRun_cons, peek_encodeFrame _ hle (h.batch.head_le.trans_lt config.maxRecordSize_lt)]
  by_contra hroom
  rw [fit_cons_of_le (Nat.not_lt.mp hroom)] at hfit
  simp at hfit

theorem SealsSynced.of_active (hok : SealsSynced config m .commit fates)
    (hm : m.handle = some (handleOn config oldest sealed active observed staged))
    (hc : Committing config m.disk oldest sealed active f staged) (hs : staged ≠ []) :
    fit (roomIn config active) staged ≠ [] ∨ RecordsSynced config (activeBase oldest sealed) f := by
  by_cases hfit : fit (roomIn config active) staged = []
  · exact Or.inr (hok rfl _ hm rfl (encodeRun_eq_nil.not.mpr hs) (fit_eq_nil_peek hc hs hfit) _ f
      (basesFrom_getLast? _ _) hc.file)
  · exact Or.inl hfit

structure Sealable (config : WalConfig) (oldest : ℕ) (sealed : List (List Bytes)) (active : List Bytes)
    (rest : List Bytes) (f : File) (d : Disk) : Prop where
  valid : config.Valid
  covered : Covered config d
  active : fit (roomIn config active) rest ≠ [] ∨ RecordsSynced config (activeBase oldest sealed) f

theorem Sealable.next {d d' : Disk} (h : Sealable config oldest sealed active staged f d)
    (hc : Committing config d oldest sealed active f staged) (hs : staged ≠ []) (ha : active ≠ [])
    (hfit : fit (roomIn config active) staged = [])
    (hd : DiffersAt (filenameFor (activeBase oldest sealed + active.length)) d d') : Covered config d' :=
  h.covered.next hc hs ha (h.active.resolve_left (not_not.mpr hfit)) hd

theorem upheld_sealsSynced (config : WalConfig) : Upheld config (SealsSynced config) (Covered config)
    (fun _ => Covered config) (fun _ _ _ _ => Covered config) (Sealable config) where
  rest_of_stuck h := Covered.ofFiles _ _ ⟨fun _ => rfl, rfl⟩ h
  stuck_die h := Covered.ofFiles _ _ ⟨fun _ => rfl, rfl⟩ h
  stuck_of_live _ h := h
  fails {m seed fates} _ hr _ _ := (openSeeded_covered hr seed ⟨m.disk, fates⟩ rfl).imp
    (fun _ _ _ => trivial) (fun _ _ h => h) fun _ h => Covered.ofFiles _ _ ⟨fun _ => rfl, rfl⟩ h
  opens {m seed fates wal rep w _ _ _ _} _ hr _ _ hopen _ _ _ _ := by
    have hends := openSeeded_covered hr seed ⟨m.disk, fates⟩ rfl
    rw [hopen] at hends
    exact hends
  begins hv hm hc hlive hok hs := ⟨hv, hlive, hok.of_active hm hc hs⟩
  commits oldest := {
    cut := fun k hc hj _ => hj.covered.put_active hc.toCarries (.write _ hc.le_length le_rfl)
    store := fun {sealed active observed rest f d} hc hj _ => by
      have hsame := SameBefore.write (encodeRun (activeBase oldest sealed + active.length)
        (fit (roomIn config active) rest)) hc.le_length le_rfl
      exact ⟨hj.valid, hj.covered.put_active hc.toCarries (hsame.trans (.sync hsame.length)),
        Or.inr (sync_recordsSynced _)⟩
    begun := fun hc hj hr ha hfit hb => hj.next hc hr ha hfit hb.1.toDiffersAt
    rolled := fun {sealed active observed rest f d d' created} hc hj hr ha hfit honly _ => by
      have hcov := hj.next hc hr ha hfit honly.toDiffersAt
      have hss : headerSize ≤ config.segmentSize := (Nat.le_add_right _ _).trans hj.valid.room
      refine ⟨hj.valid, Covered.ofFiles _ _ (.syncDir d') hcov, Or.inr ?_⟩
      rw [Carries.activeBase_roll]
      exact freshSegment_recordsSynced _ created hss }
  ends _ h := h.covered
  unlinks _ h := h.removeAll _
  deletes _ h _ := Covered.ofFiles _ _ (.syncDir _) (h.removeAll _)

/-- In a run whose commits meet the condition, every record of a sealed segment is synced,
so that a power loss leaves it. -/
theorem sealed_segment_synced {fallocates : Bool} {clock : ℕ → ℕ}
    (hm : Machine.Reaches config (SealsSynced config) (Machine.fresh fallocates clock) m) {b : ℕ}
    (hs : Sealed b m.disk) (hf : m.disk.file (filenameFor b) = some f) {ps : List Bytes}
    (hr : Run config.segmentSize config.maxRecordSize f.data headerSize b ps) :
    f.SyncedOn headerSize (headerSize + runSize ps) ∧
      ∀ g, f.PowerLoss g → Run config.segmentSize config.maxRecordSize g headerSize b ps := by
  have hcov : Covered config m.disk := by
    have hu := (upheld_sealsSynced config).run (.rest rfl (covered_fresh fallocates clock)) hm
    rcases hh : m.handle with _ | wal
    · rw [hh] at hu
      cases hu with
      | rest _ h => exact h
    · rw [hh] at hu
      exact ((upheld_sealsSynced config).of_handle hu).2.2.choose_spec
  have hsync := hcov b f hs hf ps hr
  exact ⟨hsync, fun g hg => hr.congr (hg.agreeOn hsync).symm⟩

end

/-- The process dies between the write of a record and its sync; the next one adopts the
record and commits another, which does not fit behind it. -/
theorem adopted_sealed_unsynced : ∃ m f,
    Machine.Reaches tightConfig (fun _ _ _ => True) (Machine.fresh true fun _ => 0) m ∧
    Sealed 1 m.disk ∧ m.disk.file (filenameFor 1) = some f ∧
    Run tightConfig.segmentSize tightConfig.maxRecordSize f.data headerSize 1 [zeros 20] ∧
    ¬ f.SyncedOn headerSize (headerSize + runSize [zeros 20]) := by
  have hrun : ((Machine.fresh true fun _ => 0).runFated tightConfig
      [(.openLog 1, []), (.append (zeros 20), []), (.commit, [.ok, .crash 0]), (.openLog 1, []),
        (.append (zeros 20), []), (.commit, [])]).map
      (fun r => ((r.2.disk.file (filenameFor 1)).map fun f =>
        (decide (slice f.data 64 104 = encodeRun 1 [zeros 20]), f.synced 64),
        (r.2.disk.file (filenameFor 2)).map fun f =>
          (decide (headerSize ≤ f.data.length), (decodeHeader (f.data.take headerSize)).toOption))) =
      some (some (true, false), some (true, some 2)) := by decide +kernel
  obtain ⟨⟨os, m⟩, hrun, hres⟩ := Option.map_eq_some_iff.mp hrun
  obtain ⟨h₁, h₂⟩ := Prod.mk.inj hres
  obtain ⟨f, hf, hfile⟩ := Option.map_eq_some_iff.mp h₁
  obtain ⟨g, hg, hheader⟩ := Option.map_eq_some_iff.mp h₂
  simp only [Prod.mk.injEq, decide_eq_true_eq] at hfile hheader
  refine ⟨m, f, Machine.Reaches.start.runFated (by simp [Op.Legal]; decide) hrun,
    ⟨2, g, by decide, hg, headerOk_of_toOption hheader.1 hheader.2⟩, hf,
    run_of_slice_eq (by decide) (by decide) (by decide) (by decide) hfile.1, fun hs => ?_⟩
  have := hs 64 le_rfl (by decide)
  simp [hfile.2] at this

/-- Two records, each committed on its own: the second does not fit behind the first. -/
theorem sealed_segment_synced_rolling : ∃ m₀ wal m f,
    Machine.Reaches tightConfig (SealsSynced tightConfig) (Machine.fresh true fun _ => 0) m₀ ∧
    m₀.handle = some wal ∧ wal.segmentSize - wal.writeOffset < (peek wal.staging).2 ∧
    m₀.exec tightConfig .commit [] = some (.ret (.committed 2), m) ∧
    Machine.Reaches tightConfig (SealsSynced tightConfig) (Machine.fresh true fun _ => 0) m ∧
    Sealed 1 m.disk ∧ m.disk.file (filenameFor 1) = some f ∧
    Run tightConfig.segmentSize tightConfig.maxRecordSize f.data headerSize 1 [zeros 20] ∧
    f.SyncedOn headerSize (headerSize + runSize [zeros 20]) ∧
      ∀ g, f.PowerLoss g →
        Run tightConfig.segmentSize tightConfig.maxRecordSize g headerSize 1 [zeros 20] := by
  have hfirst : ((Machine.fresh true fun _ => 0).runFated tightConfig
      [(.openLog 1, []), (.append (zeros 20), [])]).map
      (fun r => r.2.handle.map fun wal =>
        decide (wal.segmentSize - wal.writeOffset < (peek wal.staging).2)) =
      some (some false) := by decide +kernel
  have hsecond : ((Machine.fresh true fun _ => 0).runFated tightConfig
      ([(.openLog 1, []), (.append (zeros 20), [])] ++ [(.commit, [])] ++ [(.append (zeros 20), [])])).map
      (fun r => (r.2.handle.map fun wal =>
        (decide (wal.segmentSize - wal.writeOffset < (peek wal.staging).2),
          decide (wal.active = filenameFor 1)),
        (r.2.disk.file (filenameFor 1)).map fun f => (List.range f.data.length).all f.synced)) =
      some (some (true, true), some true) := by decide +kernel
  have hrun : ((Machine.fresh true fun _ => 0).runFated tightConfig
      ([(.openLog 1, []), (.append (zeros 20), [])] ++ [(.commit, [])] ++ [(.append (zeros 20), [])] ++
        [(.commit, [])])).map
      (fun r => (r.1.getLast?, (r.2.disk.file (filenameFor 1)).map fun f =>
        decide (slice f.data 64 104 = encodeRun 1 [zeros 20]),
        (r.2.disk.file (filenameFor 2)).map fun f =>
          (decide (headerSize ≤ f.data.length), (decodeHeader (f.data.take headerSize)).toOption))) =
      some (some (.ret (.committed 2)), some true, some (true, some 2)) := by decide +kernel
  obtain ⟨⟨os, m⟩, hrun, hres⟩ := Option.map_eq_some_iff.mp hrun
  obtain ⟨o, os', m₀, rfl, hpre, hcommit⟩ := Machine.runFated_concat hrun
  simp only [List.getLast?_concat, Prod.mk.injEq, Option.some.injEq] at hres
  obtain ⟨rfl, h₁, h₂⟩ := hres
  obtain ⟨f, hf, hslice⟩ := Option.map_eq_some_iff.mp h₁
  obtain ⟨g, hg, hheader⟩ := Option.map_eq_some_iff.mp h₂
  simp only [Prod.mk.injEq, decide_eq_true_eq] at hslice hheader
  rw [hpre] at hsecond
  obtain ⟨hhandle, hfile⟩ := Prod.mk.inj (Option.some.inj hsecond)
  obtain ⟨wal, hwal, hroom⟩ := Option.map_eq_some_iff.mp hhandle
  obtain ⟨f₀, hf₀, hsynced⟩ := Option.map_eq_some_iff.mp hfile
  simp only [Prod.mk.injEq, decide_eq_true_eq] at hroom
  obtain ⟨_, _, m₂, _, hpre₂, happend⟩ := Machine.runFated_concat hpre
  obtain ⟨_, _, m₁, _, hpre₁, hcommit₁⟩ := Machine.runFated_concat hpre₂
  rw [hpre₁] at hfirst
  obtain ⟨wal₁, hwal₁, hfits⟩ := Option.map_eq_some_iff.mp (Option.some.inj hfirst)
  have hm₁ : Machine.Reaches tightConfig (SealsSynced tightConfig) (Machine.fresh true fun _ => 0) m₁ :=
    Machine.Reaches.start.runFated (by simp [Op.Legal, SealsSynced]; decide) hpre₁
  have hlegal : Op.commit.Legal := trivial
  -- the first record fits, so this is no commit that the condition speaks of
  have hok₁ : SealsSynced tightConfig m₁ .commit [] := fun _ wal' hwal' _ _ hlt => by
    obtain rfl := Option.some.inj (hwal₁.symm.trans hwal')
    exact absurd hlt (of_decide_eq_false hfits)
  have hm₀ := (hm₁.step hlegal hok₁ hcommit₁).step (show (Op.append (zeros 20)).Legal from trivial)
    (fun h => by simp at h) happend
  -- the second does not, and finds the first one synced
  have hok : SealsSynced tightConfig m₀ .commit [] := fun _ wal' hwal' _ _ _ base f' _ hf' => by
    obtain rfl := Option.some.inj (hwal.symm.trans hwal')
    rw [hroom.2] at hf'
    obtain rfl := Option.some.inj (hf₀.symm.trans hf')
    exact recordsSynced_of_all (syncedOn_of_all hsynced)
  have hm := hm₀.step hlegal hok hcommit
  have hs : Sealed 1 m.disk := ⟨2, g, by decide, hg, headerOk_of_toOption hheader.1 hheader.2⟩
  have hr : Run tightConfig.segmentSize tightConfig.maxRecordSize f.data headerSize 1 [zeros 20] :=
    run_of_slice_eq (by decide) (by decide) (by decide) (by decide) hslice
  exact ⟨m₀, wal, m, f, hm₀, hwal, hroom.1, hcommit, hm, hs, hf, hr, sealed_segment_synced hm hs hf hr⟩

end OpenWal
