import OpenWal.Library.FailingCalls
import OpenWal.Results.Refinement
import OpenWal.Theory.Damage

namespace OpenWal
open ByteSeq Posix CrashProg Simulation

section

variable [Crc32c]

variable {config : WalConfig} {d : Disk} {oldest b seed x e : ℕ} {sealed : List (List Bytes)}
  {active ps qs rs : List Bytes} {p q : Bytes} {f f₀ g : File} {m m₀ : Machine}

/-- A calm run ends in a state of the model. -/
theorem represents_of_runCalm (hv : config.Valid) {s : LogModel} {ops : List Op}
    {os : List (Outcome WalError Reply)} (h : Represents config m₀ s) (hops : InTurn s.isOpen ops)
    (hrun : m₀.runCalm config ops = some (os, m)) : ∃ s', Represents config m s' := by
  rw [Machine.runCalm_eq_some] at hrun
  induction hrun generalizing s with
  | nil => exact ⟨s, h⟩
  | cons hstep hrest ih =>
    obtain ⟨_, ⟨o, m', s', hstep', -, h', rfl⟩, hops'⟩ := answered_of_inTurn hv h hops
    have heq := Option.some.inj (hstep.symm.trans hstep')
    obtain ⟨-, rfl⟩ := Prod.mk.inj heq
    exact ih h' hops'

/-- What is on the disk once the handle is gone. -/
theorem storedLog_of_runCalm (hv : config.Valid) {fallocates : Bool} {clock : ℕ → ℕ} {ops : List Op}
    {os : List (Outcome WalError Reply)} (hops : InTurn false ops)
    (hrun : (Machine.fresh fallocates clock).runCalm config ops = some (os, m)) :
    (m.handle = none ∧ basesOf m.disk = []) ∨ ∃ oldest sealed active f,
      StoredLog config False m.disk oldest sealed active f ∧
      ∀ wal, m.handle = some wal → ∃ observed staged,
        wal = handleOn config oldest sealed active observed staged := by
  have hfresh : Represents config (Machine.fresh fallocates clock) .absent := .absent rfl rfl rfl
  obtain ⟨s, hs⟩ := represents_of_runCalm hv hfresh hops hrun
  cases hs with
  | absent hh hl hb => exact Or.inl ⟨hh, hb⟩
  | closed hh hl h => exact Or.inr ⟨_, _, _, _, h, fun wal hw => by simp [hh] at hw⟩
  | opened hh hl h hb =>
    exact Or.inr ⟨_, _, _, _, h, fun wal hw => ⟨_, _, Option.some.inj (hw.symm.trans hh)⟩⟩

/-- The segments of a stored log: the active one, and the sealed ones with another one
behind them. -/
theorem StoredLog.segment_cases {safe : Prop} (h : StoredLog config safe d oldest sealed active f₀)
    (hf : d.file (filenameFor b) = some f) (hb : b ∈ basesOf d) :
    (b = activeBase oldest sealed ∧ f = f₀ ∧ (basesOf d).getLast? = some b) ∨
      ∃ pre next post ps, basesOf d = pre ++ b :: next :: post ∧
        Written config.segmentSize config.maxRecordSize f.data b ps ∧ next = b + ps.length := by
  obtain ⟨pre, post, hsplit⟩ := List.append_of_mem (h.bases ▸ hb)
  cases post with
  | nil =>
    have hlast := basesFrom_getLast? oldest sealed
    rw [hsplit, List.getLast?_concat] at hlast
    obtain rfl := Option.some.inj hlast
    exact Or.inl ⟨rfl, Option.some.inj (hf.symm.trans h.file), by rw [h.bases, hsplit]; simp⟩
  | cons next post =>
    obtain ⟨xs, ps, ys, rfl, -, rfl, rfl⟩ := basesFrom_eq_append hsplit
    obtain ⟨⟨-, g, hg, hw, -⟩, -⟩ := (ChainFrom.append_iff.mp h.chain).2
    obtain rfl := Option.some.inj (hg.symm.trans hf)
    exact Or.inr ⟨pre, _, post, ps, h.bases.trans hsplit, hw, rfl⟩

/-- Changing a segment's file, but not its header, keeps the highest segment's header. -/
theorem StoredLog.discards_put {safe : Prop} (h : StoredLog config safe d oldest sealed active f₀)
    (hb : b ∈ basesOf d) (hf : d.file (filenameFor b) = some f) (hh : HeaderOk g.data b) :
    Discards config (d.put (filenameFor b) g) (d.put (filenameFor b) g) := by
  have hbu := (mem_basesOf.mp hb).1
  have htop : (basesOf (d.put (filenameFor b) g)).getLast? = some (activeBase oldest sealed) := by
    rw [basesOf_put hbu hf, h.bases, basesFrom_getLast?]
  by_cases hba : b = activeBase oldest sealed
  · subst hba
    exact .keep htop (Disk.put_file_self _ _ _) hh
  · have hne := filenameFor_ne h.written.header.le_u64Max hbu (Ne.symm hba)
    exact .keep htop ((Disk.put_file_ne _ _ hne).trans h.file) h.written.header

/-- An `open` of a directory in which a record other than a segment's last one is damaged
fails and writes nothing, unless it reads as the end of the active segment's records. -/
theorem openSeeded_of_damaged {safe : Prop} (hv : config.Valid) (hseed : (Op.openLog seed).Legal)
    (h : StoredLog config safe d oldest sealed active f₀) (hl : d.locked = false)
    (hb : b ∈ basesOf d) (hf : d.file (filenameFor b) = some f)
    (hs : SegmentHolds config.segmentSize config.maxRecordSize f.data b (qs ++ p :: q :: rs))
    (hd : DiffersIn f.data g.data (headerSize + runSize qs)
      (headerSize + runSize qs + framedSize p.length))
    (hno : Stops config.segmentSize config.maxRecordSize g.data (headerSize + runSize qs)
      (b + qs.length))
    (hz : (basesOf d).getLast? = some b →
      ¬ ZeroOn g.data (headerSize + runSize qs) (headerSize + runSize qs + 20)) :
    ∃ e w, openSeeded config seed ⟨d.put (filenameFor b) g, []⟩ = (.err e, w) ∧
      SameFiles (d.put (filenameFor b) g) w.disk ∧
      ((basesOf d).getLast? = some b → e = .tornMidLog b (headerSize + runSize qs)) := by
  have hbu := (mem_basesOf.mp hb).1
  have hg := hd.holds hs hno
  have hbases : basesOf (acquired (d.put (filenameFor b) g)) = basesOf d := basesOf_put hbu hf g
  have hself : (acquired (d.put (filenameFor b) g)).file (filenameFor b) = some g :=
    Disk.put_file_self _ _ _
  have hdis : Discards config (acquired (d.put (filenameFor b) g))
      (acquired (d.put (filenameFor b) g)) :=
    StoredLog.discards_put h.acquired hb hf hg.header
  -- it is enough that recovering the segments fails
  have hopen : ∀ e, recoverFound config seed (basesOf d) ⟨acquired (d.put (filenameFor b) g), []⟩ =
      (.err e, ⟨acquired (d.put (filenameFor b) g), []⟩) →
      ∃ w, openSeeded config seed ⟨d.put (filenameFor b) g, []⟩ = (.err e, w) ∧
        SameFiles (d.put (filenameFor b) g) w.disk := by
    intro e he
    have hrec := recoverDirectory_of_discards hdis seed
    rw [hbases, he] at hrec
    exact ⟨_, openSeeded_of_err hv hseed.1 hl hrec, fun _ => rfl, rfl⟩
  rcases h.segment_cases hf hb with ⟨hba, rfl, hlast⟩ | ⟨pre, next, post, ps, hsplit, hw, hnext⟩
  · have hrun := (Run.append_iff.mp hs.run).2
    have hframe := hrun.1.le_segment
    have hmin := le_framedSize p.length
    have hlsn : b + qs.length ≤ u64Max := hrun.1.lsn_le
    have hclean : ¬ CleanAt config.segmentSize g.data (headerSize + runSize qs) := by
      rintro (hlt | hzero)
      · omega
      · exact hz hlast hzero
    have htorn : ¬ TornAt config.segmentSize config.maxRecordSize g.data (headerSize + runSize qs)
        (b + qs.length) := fun ht => ht.2.1 hlsn (hd.continues hrun)
    have herr : recoverFound config seed (basesOf d) ⟨acquired (d.put (filenameFor b) g), []⟩ =
        (.err (.tornMidLog b (headerSize + runSize qs)), ⟨acquired (d.put (filenameFor b) g), []⟩) := by
      subst hba
      have hchain : SealedFrom config.segmentSize config.maxRecordSize
          (acquired (d.put (filenameFor (activeBase oldest sealed)) g)) oldest sealed :=
        (h.chain.sealedFrom config.maxRecordSize_lt).congr fun c hc hlt hcu =>
          Disk.put_file_ne _ _ (filenameFor_ne hcu hbu hlt.ne)
      have hfatal := recoverFound_of_fatal seed ⟨hbases.trans h.bases, hchain, hself, hg⟩ hclean htorn
      rwa [hbases, fatalError, if_pos hlsn, if_pos rfl] at hfatal
    obtain ⟨w, hw, hsame⟩ := hopen _ herr
    exact ⟨_, w, hw, hsame, fun _ => rfl⟩
  · -- the records of a sealed segment no longer reach the next one
    have hps := (hw.holds config.maxRecordSize_lt).run.eq_of_stops
      (hw.holds config.maxRecordSize_lt).stops hs.run hs.stops
    have hne : b + qs.length ≠ next := by
      rw [hnext, hps, List.length_append]
      simp
    obtain ⟨e, he⟩ := recoverFound_of_mismatch seed (hbases.trans hsplit) hself hg hne
    rw [hbases] at he
    obtain ⟨w, hw', hsame⟩ := hopen e he
    refine ⟨e, w, hw', hsame, fun hlast => ?_⟩
    have hmem : next ∈ basesOf d := by rw [hsplit]; simp
    have hsort := (List.pairwise_append.mp (hsplit ▸ basesOf_sorted d)).2.1
    have hlt := (List.pairwise_cons.mp hsort).1 next List.mem_cons_self
    exact absurd hlt (Nat.not_lt.mpr (le_highest_basesOf hmem hlast))

/-- In every log calm calls produce, a record other than the last one of its segment that
is damaged makes the next `open` fail and write nothing, except where the active segment's
records end in 20 zero bytes in its place. -/
theorem damaged_refused {fallocates : Bool} {clock : ℕ → ℕ} {ops : List Op}
    {os : List (Outcome WalError Reply)} (hv : config.Valid) (hops : InTurn false ops)
    (hrun : (Machine.fresh fallocates clock).runCalm config ops = some (os, m))
    (hseed : (Op.openLog seed).Legal) (hb : b ∈ basesOf m.disk)
    (hf : m.disk.file (filenameFor b) = some f)
    (hs : SegmentHolds config.segmentSize config.maxRecordSize f.data b (qs ++ p :: q :: rs))
    (hd : DiffersIn f.data g.data (headerSize + runSize qs)
      (headerSize + runSize qs + framedSize p.length))
    (hno : Stops config.segmentSize config.maxRecordSize g.data (headerSize + runSize qs)
      (b + qs.length))
    (hz : (basesOf m.disk).getLast? = some b →
      ¬ ZeroOn g.data (headerSize + runSize qs) (headerSize + runSize qs + 20)) :
    ∃ e w, openSeeded config seed ⟨m.die.disk.put (filenameFor b) g, []⟩ = (.err e, w) ∧
      SameFiles (m.die.disk.put (filenameFor b) g) w.disk ∧
      ((basesOf m.disk).getLast? = some b → e = .tornMidLog b (headerSize + runSize qs)) := by
  rcases storedLog_of_runCalm hv hops hrun with
    ⟨-, hnone⟩ | ⟨oldest, sealed, active, f₀, h, -⟩
  · simp [hnone] at hb
  · have hdie : StoredLog config False m.die.disk oldest sealed active f₀ :=
      ⟨h.bases, h.chain.congr fun _ _ _ _ => rfl, h.file, h.written⟩
    exact openSeeded_of_damaged hv hseed hdie rfl hb hf hs hd hno hz

end

def twoRecords : Bytes := encodeHeader 1 0 ++ (encodeFrame 1 [7] ++ (encodeFrame 2 [8] ++ zeros 24))

def firstZeroed : File := ⟨overwrite twoRecords 64 (zeros 20), fun _ => false⟩

def durableAfterOpen [Crc32c] (config : WalConfig) (d : Disk) : Option ℕ :=
  match (openSeeded config 1 ⟨d, []⟩).1 with
  | .ret (_, report) => some report.durableLsn
  | _ => none

theorem twoRecords_run : ∃ os m f, (Machine.fresh true fun _ => 0).runCalm tightConfig
      [.openLog 1, .append [7], .append [8], .commit] = some (os, m) ∧
    m.disk.file (filenameFor 1) = some f ∧ f.data = twoRecords ∧ 1 ∈ basesOf m.disk ∧
    (basesOf m.disk).getLast? = some 1 ∧ SegmentHolds 136 45 f.data 1 ([] ++ [7] :: [8] :: []) ∧
    durableAfterOpen tightConfig (m.die.disk.put (filenameFor 1) firstZeroed) = some 0 := by
  obtain ⟨m, hrun⟩ := Machine.runCalm_of_fst tightConfig (Machine.fresh true fun _ => 0)
    [.openLog 1, .append [7], .append [8], .commit]
    [.ret (.opened ⟨1, 0, .clean, 1⟩), .ret (.appended 1), .ret (.appended 2), .ret (.committed 2)]
    (by decide +kernel)
  have hdata := Machine.eq_of_runCalm hrun
    (fun m => (m.disk.file (filenameFor 1)).map fun f => f.data) (b := some twoRecords)
    (by decide +kernel)
  obtain ⟨f, hf, hfd⟩ := Option.map_eq_some_iff.mp hdata
  have hbases := Machine.eq_of_runCalm hrun (fun m => basesOf m.disk) (b := [1]) (by decide +kernel)
  have hopen := Machine.eq_of_runCalm hrun
    (fun m => durableAfterOpen tightConfig (m.die.disk.put (filenameFor 1) firstZeroed)) (b := some 0)
    (by decide +kernel)
  refine ⟨_, m, f, hrun, hf, hfd, by rw [hbases]; decide, by rw [hbases]; rfl, ⟨?_, ?_, ?_⟩, hopen⟩
  · rw [hfd]
    exact headerOk_encodeHeader _ le_rfl (by decide)
  · rw [hfd]
    exact ⟨(scanAt_eq_record (n := 24) (by decide +kernel)).2,
      (scanAt_eq_record (n := 24) (by decide +kernel)).2, trivial⟩
  · rw [hfd]
    exact (scanAt_eq_sentinel_iff.mp (by decide +kernel : scanAt 136 45 twoRecords 112 = .sentinel)).stops

theorem overwrite_differsIn {file : Bytes} (bytes : Bytes) {x y : ℕ} (hx : x + bytes.length ≤ y)
    (hy : y ≤ file.length) : DiffersIn file (overwrite file x bytes) x y where
  length := by
    rw [overwrite_length _ (by omega)]
    omega
  before := (overwrite_agreeOn_before _ (by omega) 0).symm
  behind z := ((overwrite_agreeOn_after _ (by omega) z).mono hx le_rfl).symm

/-- The header of the first of two records zeroed: neither is there any more, and `open`
succeeds. -/
theorem twoRecords_zeroed : ∃ os m f g, (Machine.fresh true fun _ => 0).runCalm tightConfig
      [.openLog 1, .append [7], .append [8], .commit] = some (os, m) ∧
    m.disk.file (filenameFor 1) = some f ∧ (basesOf m.disk).getLast? = some 1 ∧
    SegmentHolds 136 45 f.data 1 ([] ++ [7] :: [8] :: []) ∧
    DiffersIn f.data g.data (headerSize + runSize [])
      (headerSize + runSize [] + framedSize ([7] : Bytes).length) ∧
    Stops 136 45 g.data (headerSize + runSize []) 1 ∧
    ∀ e w, openSeeded tightConfig 1 ⟨m.die.disk.put (filenameFor 1) g, []⟩ ≠ (.err e, w) := by
  obtain ⟨os, m, f, hrun, hf, hfd, -, hlast, hs, hopen⟩ := twoRecords_run
  refine ⟨os, m, f, firstZeroed, hrun, hf, hlast, hs, ?_, ?_, ?_⟩
  · have hin : DiffersIn twoRecords (overwrite twoRecords 64 (zeros 20)) 64 88 :=
      overwrite_differsIn _ (by decide) (by decide +kernel)
    rw [hfd]
    exact hin
  · have hc : scanAt 136 45 firstZeroed.data 64 = .sentinel := by decide +kernel
    exact (scanAt_eq_sentinel_iff.mp hc).stops
  · intro e w h
    rw [durableAfterOpen, h] at hopen
    simp at hopen

/-- One byte of the first record's payload changed. -/
theorem damaged_refused_twoRecords : ∃ os m g e w,
    (Machine.fresh true fun _ => 0).runCalm tightConfig
      [.openLog 1, .append [7], .append [8], .commit] = some (os, m) ∧
    g.data = overwrite twoRecords 84 [9] ∧
    openSeeded tightConfig 1 ⟨m.die.disk.put (filenameFor 1) g, []⟩ = (.err e, w) ∧
    e = .tornMidLog 1 64 := by
  obtain ⟨os, m, f, hrun, hf, hfd, hmem, hlast, hs, -⟩ := twoRecords_run
  set g : File := ⟨overwrite twoRecords 84 [9], fun _ => false⟩ with hg
  have hd : DiffersIn f.data g.data (headerSize + runSize [])
      (headerSize + runSize [] + framedSize ([7] : Bytes).length) := by
    have hin : DiffersIn twoRecords (overwrite twoRecords 84 [9]) 84 88 :=
      overwrite_differsIn [9] (by decide) (by decide +kernel)
    rw [hfd]
    exact ⟨hin.length, hin.before.mono le_rfl (by decide), hin.behind⟩
  have hinvalid : scanAt 136 45 g.data 64 = .invalid .badCrc := by decide +kernel
  have hno : Stops 136 45 g.data (headerSize + runSize []) (1 + ([] : List Bytes).length) := by
    intro q hq
    have hq' : scanAt 136 45 g.data 64 = _ := hq
    rw [hinvalid] at hq'
    simp at hq'
  have hz : ¬ ZeroOn g.data (headerSize + runSize []) (headerSize + runSize [] + 20) := by
    intro hz
    have hc : scanAt 136 45 g.data 64 = .sentinel := scanAt_eq_sentinel_iff.mpr (Or.inr hz)
    rw [hinvalid] at hc
    simp at hc
  obtain ⟨e, w, hopen, -, he⟩ := damaged_refused (by decide) (by
    simp only [InTurn, Op.Legal]
    decide) hrun (⟨le_rfl, by decide⟩ : (Op.openLog 1).Legal) hmem hf hs hd hno fun _ => hz
  exact ⟨os, m, g, e, w, hrun, rfl, hopen, he hlast⟩

end OpenWal
