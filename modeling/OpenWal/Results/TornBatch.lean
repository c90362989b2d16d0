import OpenWal.Theory.CutWrites
import OpenWal.Theory.FailingRuns

namespace OpenWal
open ByteSeq Posix CrashProg

def sectorSize : ℕ := 512

/-- In `d'` every sector of the file `n` is that of `after` or that of `before`. -/
structure SectorsLost (n : FileName) (before after d' : Disk) : Prop where
  others : ∀ m, m ≠ n → d'.file m = before.file m
  sectors : ∃ f f' g, before.file n = some f ∧ after.file n = some f' ∧ d'.file n = some g ∧
    ∀ s, AgreeOn f'.data g.data (sectorSize * s) (sectorSize * (s + 1)) ∨
      AgreeOn f.data g.data (sectorSize * s) (sectorSize * (s + 1))
  locked : d'.locked = false

section

variable [Crc32c]

variable {config : WalConfig} {d d' : Disk} {oldest ss mx x e i n : ℕ} {sealed : List (List Bytes)}
  {active new staged : List Bytes} {f f' g : File} {data : Bytes}

omit [Crc32c] in
/-- Sectors that are one of two, agree with both where these are the same. -/
theorem agreeOn_of_sectors (h : ∀ s, AgreeOn f'.data g.data (sectorSize * s) (sectorSize * (s + 1)) ∨
    AgreeOn f.data g.data (sectorSize * s) (sectorSize * (s + 1))) (hsame : AgreeOn f.data f'.data 0 x) :
    AgreeOn f.data g.data 0 x := by
  intro i h0 hi
  have hlo : sectorSize * (i / sectorSize) ≤ i := Nat.mul_div_le i sectorSize
  have hhi : i < sectorSize * (i / sectorSize + 1) := by
    rw [Nat.mul_add_one]
    exact Nat.lt_mul_div_succ i (by decide)
  rcases h (i / sectorSize) with hnew | hold
  · rw [hsame i h0 hi]
    exact hnew i hlo hhi
  · exact hold i hlo hhi

omit [Crc32c] in
/-- A write that succeeds, and a sync the power fails in. -/
theorem writePrefix_unsynced (wal : Wal) (h : d.file wal.active = some f) (pos scan last k : ℕ)
    (fates : List Fate) :
    writePrefix pos scan last ⟨wal, ⟨d, .ok :: .crash k :: fates⟩⟩ = (.crashed,
      ⟨wal, ⟨d.put wal.active (f.write wal.writeOffset (slice wal.staging pos scan)), fates⟩⟩) := by
  have hwrite : writeAllAt wal.active (slice wal.staging pos scan) wal.writeOffset
      ⟨d, .ok :: .crash k :: fates⟩ =
      (.ret (), ⟨d.put wal.active (f.write wal.writeOffset (slice wal.staging pos scan)),
        .crash k :: fates⟩) := by
    rw [writeAllAt, syscall, Disk.modify_of_file h]
  rw [writePrefix, Prog.bind_of_ret (Prog.state_run _),
    Prog.seq_of_ret (orPoison_of_ret (Prog.mapErr_of_ret hwrite))]
  rfl

/-- A batch that fits in the active segment is stored in one write. -/
theorem commit_unsynced (hc : Committing config d oldest sealed active f staged) (hs : staged ≠ [])
    (hfit : runSize staged ≤ roomIn config active) (observed : List ℕ) (k : ℕ) (fates : List Fate) :
    commit ⟨handleOn config oldest sealed active observed staged, ⟨d, .ok :: .crash k :: fates⟩⟩ =
      (.crashed, ⟨handleOn config oldest sealed active observed staged,
        ⟨d.put (filenameFor (activeBase oldest sealed)) (f.write (headerSize + runSize active)
          (encodeRun (activeBase oldest sealed + active.length) staged)), fates⟩⟩) := by
  set e := activeBase oldest sealed + active.length with he
  set b := encodeRun e staged with hb
  set wal := handleOn config oldest sealed active observed staged with hwal
  have hlen : b.length = runSize staged := encodeRun_length _ _
  have hpos : 0 < runSize staged := Nat.pos_of_ne_zero (runSize_eq_zero.not.mpr hs)
  have hstaging : wal.staging = b := rfl
  have hne : wal.staging ≠ [] := encodeRun_eq_nil.not.mpr hs
  have hscan := scanPrefix_encodeRun 0 (roomIn config active) lsnNone
    (show b = [] ++ encodeRun e staged from rfl) le_rfl (Nat.zero_le _)
    (fun p hp => (hc.batch.small p hp).trans_lt config.maxRecordSize_lt) hc.batch.last
  rw [List.length_nil, Nat.sub_zero, fit_eq_self hfit, Nat.zero_add] at hscan
  have hwrite := writePrefix_unsynced wal (f := f) hc.file 0 (runSize staged)
    (if staged = [] then lsnNone else e + staged.length - 1) k fates
  have hslice : slice wal.staging 0 (runSize staged) = b := by
    rw [hstaging, ← Nat.zero_add (runSize staged), slice_eq_take_drop, List.drop_zero,
      List.take_of_length_le hlen.le]
  rw [hslice] at hwrite
  have hstep : commitStep 0 ⟨wal, ⟨d, .ok :: .crash k :: fates⟩⟩ = (.crashed, ⟨wal,
      ⟨d.put wal.active (f.write wal.writeOffset b), fates⟩⟩) := by
    rw [commitStep_eq (s := ⟨wal, ⟨d, .ok :: .crash k :: fates⟩⟩) hscan, if_pos hpos, Prog.bind_run,
      Prog.andThen, hwrite]
  have hloop : commitLoop (2 * wal.staging.length + 2) 0 ⟨wal, ⟨d, .ok :: .crash k :: fates⟩⟩ =
      (.crashed, ⟨wal, ⟨d.put wal.active (f.write wal.writeOffset b), fates⟩⟩) := by
    rw [commitLoop, Prog.bind_of_ret (Prog.state_run _), if_pos (by rw [hstaging]; omega),
      Prog.bind_run, Prog.andThen, hstep]
  rw [commit, Prog.bind_of_ret (Prog.state_run _), if_neg (by simp [hwal, handleOn]), if_neg hne,
    Prog.bind_run, Prog.andThen, hloop]
  rfl

variable {ok : Machine → Op → List Fate → Prop} {m₀ m : Machine} {wal : Wal}

/-- Power may be lost between the write of a batch that fits in the active segment and its sync,
and any sectors of the write with it: the log is recovered with some first records of the batch
exactly where these are whole in the file, and nothing behind them seems to go on. -/
theorem tornBatch_recovers_iff (hh : m₀.handle = none) (hl : m₀.disk.locked = false)
    (hm : Machine.Reaches config ok m₀ m) (hw : m.handle = some wal) (hp : wal.poisoned = false) :
    ∃ oldest sealed active staged f, wal.segments = basesFrom oldest sealed ∧
      wal.durableLsn + 1 = activeBase oldest sealed + active.length ∧
      wal.staging = encodeRun (wal.durableLsn + 1) staged ∧
      Carries config m.disk oldest sealed active f ∧
      ∀ k fates s d', wal.writeOffset + wal.staging.length ≤ wal.segmentSize →
        commit ⟨wal, ⟨m.disk, .ok :: .crash k :: fates⟩⟩ = (.crashed, s) →
        SectorsLost wal.active m.disk s.world.disk d' →
          (RecoversPrefix config d' oldest (sealed.flatten ++ active) staged ↔
            CleanSealed config m.disk oldest sealed ∧ ∃ g, d'.file wal.active = some g ∧
              WholePrefix config.segmentSize config.maxRecordSize g.data wal.writeOffset
                (wal.durableLsn + 1) staged) := by
  have hu := (Upheld.trivially config ok).run (hh ▸ .rest hl trivial) hm
  rw [hw] at hu
  cases hu with
  | stuck _ _ hpois => simp [hp] at hpois
  | live hv hlock hdir hc hobs hlive =>
    rename_i oldest sealed active observed staged f
    have hpos := hc.activeBase_pos
    have hdurable : activeBase oldest sealed + active.length - 1 + 1 =
        activeBase oldest sealed + active.length := by omega
    refine ⟨oldest, sealed, active, staged, f, rfl, hdurable, ?_, hc.toCarries, ?_⟩
    · simp only [handleOn, hdurable]
    · intro k fates s d' hroom hrun hlost
      simp only [handleOn, hdurable] at hroom hlost ⊢
      -- an empty batch makes no call, so it cannot crash
      have hs : staged ≠ [] := by
        rintro rfl
        rw [commit] at hrun
        simp [handleOn, Prog.bind_run, Prog.andThen] at hrun
      have hfit : runSize staged ≤ roomIn config active := by
        rw [encodeRun_length] at hroom
        unfold roomIn
        omega
      rw [commit_unsynced hc hs hfit] at hrun
      obtain ⟨-, rfl⟩ := Prod.mk.inj hrun
      obtain ⟨hothers, ⟨f₀, f', g, hf₀, hf', hg, hsectors⟩, hlocked⟩ := hlost
      obtain rfl := Option.some.inj (hc.file.symm.trans hf₀)
      obtain rfl := Option.some.inj ((Disk.put_file_self _ _ _).symm.trans hf')
      -- no sector that holds an older record was written
      have hbefore : AgreeOn f.data g.data 0 (headerSize + runSize active) :=
        agreeOn_of_sectors hsectors (overwrite_agreeOn_before _ hc.le_length 0).symm
      rw [hc.toCarries.recoversPrefix_iff hothers hg hbefore hv hlocked]
      refine and_congr_right fun _ => ⟨fun h => ⟨g, hg, h⟩, ?_⟩
      rintro ⟨g', hg', h⟩
      obtain rfl := Option.some.inj (hg.symm.trans hg')
      exact h

end

def losingFirst (n : FileName) (before after : Disk) : Disk :=
  match before.file n, after.file n with
  | some f, some f' =>
    { before with locked := false }.put n
      { f' with data := f.data.take sectorSize ++ f'.data.drop sectorSize }
  | _, _ => before

theorem losingFirst_sectorsLost {n : FileName} {before after : Disk} {f f' : File}
    (hf : before.file n = some f) (hf' : after.file n = some f') (hlen : sectorSize ≤ f.data.length) :
    SectorsLost n before after (losingFirst n before after) := by
  have hl : (f.data.take sectorSize).length = sectorSize := List.length_take_of_le hlen
  simp only [losingFirst, hf, hf']
  refine ⟨fun m hm => Disk.put_file_ne _ _ hm, ⟨f, f', _, hf, hf', Disk.put_file_self _ _ _, ?_⟩, rfl⟩
  rintro (_ | s)
  · refine Or.inr fun i _ hi => ?_
    rw [List.getElem?_append_left (by omega), List.getElem?_take_of_lt (by omega)]
  · refine Or.inl fun i hi _ => ?_
    have hge : sectorSize ≤ i := (Nat.le_mul_of_pos_right _ s.succ_pos).trans hi
    rw [List.getElem?_append_right (by omega), List.getElem?_drop, hl, Nat.add_sub_cancel' hge]

def sectorConfig : WalConfig := { tightConfig with segmentSize := 552, segmentSize_lt := by decide }

def elevenAndTwo : List (Op × List Fate) :=
  (.openLog 1, []) :: List.replicate 11 (.append (zeros 20), []) ++
    [(.commit, []), (.append [], []), (.append [], [])]

/-- The first of the two empty records starts eight bytes before the end of the first sector. -/
theorem lostSector_run : ∃ m wal s f f', Machine.Reaches sectorConfig (fun _ _ _ => True)
      (Machine.fresh true fun _ => 0) m ∧ m.handle = some wal ∧ wal.poisoned = false ∧
    wal.staging = encodeRun 12 [[], []] ∧ wal.writeOffset = 504 ∧ wal.segmentSize = 552 ∧
    commit ⟨wal, ⟨m.disk, [.ok, .crash 0]⟩⟩ = (.crashed, s) ∧
    m.disk.file wal.active = some f ∧ s.world.disk.file wal.active = some f' ∧
    sectorSize ≤ f.data.length ∧
    reportOf sectorConfig 1 (losingFirst wal.active m.disk s.world.disk) = none := by
  have hrun : ((Machine.fresh true fun _ => 0).runFated sectorConfig elevenAndTwo).map
        (fun r => r.2.handle.map fun wal => (decide (wal.poisoned = false ∧
            wal.staging = encodeRun 12 [[], []] ∧ wal.writeOffset = 504 ∧ wal.segmentSize = 552),
          decide ((commit ⟨wal, ⟨r.2.disk, [.ok, .crash 0]⟩⟩).1 = .crashed),
          ((commit ⟨wal, ⟨r.2.disk, [.ok, .crash 0]⟩⟩).2.world.disk.file wal.active).isSome,
          (r.2.disk.file wal.active).map fun f => decide (sectorSize ≤ f.data.length),
          (reportOf sectorConfig 1 (losingFirst wal.active r.2.disk
            (commit ⟨wal, ⟨r.2.disk, [.ok, .crash 0]⟩⟩).2.world.disk)).isNone)) =
      some (some (true, true, true, some true, true)) := by decide +kernel
  obtain ⟨⟨os, m⟩, hrun, hres⟩ := Option.map_eq_some_iff.mp hrun
  obtain ⟨wal, hh, hwal⟩ := Option.map_eq_some_iff.mp hres
  simp only [Prod.mk.injEq, decide_eq_true_eq, Option.isNone_iff_eq_none] at hwal
  obtain ⟨⟨hp, hstaging, hoffset, hsize⟩, hcrash, hafter, hbefore, hreport⟩ := hwal
  obtain ⟨f', hf'⟩ := Option.isSome_iff_exists.mp hafter
  obtain ⟨f, hf, hlen⟩ := Option.map_eq_some_iff.mp hbefore
  have hm : Machine.Reaches sectorConfig (fun _ _ _ => True) (Machine.fresh true fun _ => 0) m :=
    Machine.Reaches.start.runFated (by simp [elevenAndTwo, Op.Legal]; decide) hrun
  exact ⟨m, wal, _, f, f', hm, hh, hp, hstaging, hoffset, hsize, Prod.ext hcrash rfl, hf, hf',
    of_decide_eq_true hlen, hreport⟩

/-- The first sector keeps its old bytes, and the second one has the second record whole. -/
theorem lostSector_refused : ∃ m wal s d', Machine.Reaches sectorConfig (fun _ _ _ => True)
      (Machine.fresh true fun _ => 0) m ∧ m.handle = some wal ∧ wal.poisoned = false ∧
    wal.staging = encodeRun 12 [[], []] ∧ wal.writeOffset + wal.staging.length ≤ wal.segmentSize ∧
    commit ⟨wal, ⟨m.disk, [.ok, .crash 0]⟩⟩ = (.crashed, s) ∧
    SectorsLost wal.active m.disk s.world.disk d' ∧
    ∀ oldest old, ¬ RecoversPrefix sectorConfig d' oldest old [[], []] := by
  obtain ⟨m, wal, s, f, f', hm, hh, hp, hstaging, hoffset, hsize, hcrash, hf, hf', hlen, hreport⟩ :=
    lostSector_run
  refine ⟨m, wal, s, _, hm, hh, hp, hstaging, ?_, hcrash, losingFirst_sectorsLost hf hf' hlen, ?_⟩
  · rw [hoffset, hsize, hstaging, encodeRun_length]
    decide
  · intro oldest old h
    obtain ⟨wal', rep, i, -, ⟨w, -, hopen, -⟩, -⟩ := h 1 ⟨le_rfl, by decide⟩
    rw [reportOf, hopen] at hreport
    simp at hreport

/-- The same batch, whichever sectors survive. -/
theorem tornBatch_recovers_iff_twoEmpty : ∃ (m : Machine) (wal : Wal) (s : Sys), m.handle = some wal ∧
    commit ⟨wal, ⟨m.disk, [.ok, .crash 0]⟩⟩ = (.crashed, s) ∧
    ∃ oldest sealed active staged, wal.staging = encodeRun (wal.durableLsn + 1) staged ∧
      ∀ d', SectorsLost wal.active m.disk s.world.disk d' →
        (RecoversPrefix sectorConfig d' oldest (sealed.flatten ++ active) staged ↔
          CleanSealed sectorConfig m.disk oldest sealed ∧ ∃ g, d'.file wal.active = some g ∧
            WholePrefix 552 45 g.data wal.writeOffset (wal.durableLsn + 1) staged) := by
  obtain ⟨m, wal, s, f, f', hm, hh, hp, hstaging, hoffset, hsize, hcrash, -⟩ := lostSector_run
  obtain ⟨oldest, sealed, active, staged, -, -, -, hst, -, hall⟩ :=
    tornBatch_recovers_iff rfl rfl hm hh hp
  have hroom : wal.writeOffset + wal.staging.length ≤ wal.segmentSize := by
    rw [hoffset, hsize, hstaging, encodeRun_length]
    decide
  exact ⟨m, wal, s, hh, hcrash, oldest, sealed, active, staged, hst,
    fun d' hlost => hall 0 [] s d' hroom hcrash hlost⟩

end OpenWal
