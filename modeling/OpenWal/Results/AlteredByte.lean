import OpenWal.Model.System
import OpenWal.Theory.Damage
import OpenWal.Theory.Recovered

namespace OpenWal
open ByteSeq Posix CrashProg

section

variable [Crc32c]

/-- The second recovery begins where the first does, and lacks at most the last record of
the segment based at `b`, when that one is active. -/
structure Preserved (b : ℕ) (wal : Wal) (rep rep' : RecoveryReport) (rs rs' : List (ℕ × Bytes)) :
    Prop where
  oldest : rep'.oldestLsn = rep.oldestLsn
  durable : rep.durableLsn ≤ rep'.durableLsn + 1
  records : rs' = rs ∨ wal.active = filenameFor b ∧ b ≤ rep.durableLsn ∧
    ∃ p, rs = rs' ++ [(rep.durableLsn, p)]

variable {config : WalConfig} {d d₀ d₁ : Disk} {oldest oldest' b c pos seed : ℕ}
  {sealed sealed' : List (List Bytes)} {active active' ps qs : List Bytes} {f f₀ f₁ g g' : File}
  {ts ts' : TailState}

/-- A segment with a valid header, and no record where its first one would be. -/
def Vacant (config : WalConfig) (file : Bytes) (b : ℕ) : Prop :=
  HeaderOk file b ∧
    ∀ lsn p, ¬ FrameAt config.segmentSize config.maxRecordSize file headerSize lsn p

/-- A vacant segment was the only one, its header was hit, and `open` is given another seed
than its base. -/
def Restarts (config : WalConfig) (d : Disk) (b : ℕ) (f : File) (pos seed : ℕ) : Prop :=
  pos < headerSize ∧ basesOf d = [b] ∧ Vacant config f.data b ∧ seed ≠ b

def AlteredFile (b : ℕ) (f g : File) (d₀ d₁ : Disk) : Prop :=
  basesOf d₁ = basesOf d₀ ∧ ∀ c ∈ basesOf d₀, d₁.file (filenameFor c) = d₀.file (filenameFor c) ∨
    c = b ∧ d₀.file (filenameFor c) = some f ∧ d₁.file (filenameFor c) = some g

variable (ha : AlteredAt f.data g.data pos) (hd : Detected config g.data b pos)

include ha hd

theorem AlteredFile.segmentAt (h : AlteredFile b f g d₀ d₁) (hc : c ∈ basesOf d₀)
    (h₀ : SegmentAt config.segmentSize config.maxRecordSize d₀ c ps)
    (h₁ : SegmentAt config.segmentSize config.maxRecordSize d₁ c qs) : qs <+: ps := by
  obtain ⟨f₀, hf₀, hs₀⟩ := h₀
  obtain ⟨f₁, hf₁, hs₁⟩ := h₁
  rcases h.2 c hc with heq | ⟨rfl, hf, hg⟩
  · obtain rfl := Option.some.inj (hf₁.symm.trans (heq.trans hf₀))
    exact hs₀.run.prefix_of_stops hs₀.stops hs₁.run
  · obtain rfl := Option.some.inj (hf₀.symm.trans hf)
    obtain rfl := Option.some.inj (hf₁.symm.trans hg)
    exact hd.isPrefix ha hs₀ hs₁

/-- Where both are accepted, the logs agree but for, at most, the last record. -/
theorem AlteredFile.logOn (h : AlteredFile b f g d₀ d₁)
    (h₀ : LogOn config.segmentSize config.maxRecordSize d₀ oldest sealed active f₀)
    (h₁ : LogOn config.segmentSize config.maxRecordSize d₁ oldest' sealed' active' f₁)
    (ht : TailOk config.segmentSize config.maxRecordSize f₁ (activeBase oldest' sealed')
      (headerSize + runSize active') (activeBase oldest' sealed' + active'.length) ts g') :
    oldest' = oldest ∧ sealed' = sealed ∧
      (active' = active ∨ b = activeBase oldest sealed ∧ ∃ p, active = active' ++ [p]) := by
  have hbases : basesFrom oldest' sealed' = basesFrom oldest sealed :=
    h₁.bases.symm.trans (h.1.trans h₀.bases)
  have hold : oldest' = oldest := by
    obtain ⟨l, hl⟩ := basesFrom_eq_cons oldest sealed
    obtain ⟨l', hl'⟩ := basesFrom_eq_cons oldest' sealed'
    rw [hl, hl'] at hbases
    exact (List.cons.inj hbases).1
  subst hold
  -- a sealed segment that lost its last record would end before the next one starts
  have hsealed : sealed' = sealed := by
    symm
    refine ChainFrom.eq_of_basesFrom
      (P := fun c ps => c ∈ basesOf d₀ ∧ SegmentAt config.segmentSize config.maxRecordSize d₀ c ps)
      (Q := SegmentAt config.segmentSize config.maxRecordSize d₁) ?_ ?_ hbases.symm ?_
    · refine h₀.chain.imp fun c ps hc hlt ⟨hne, f', hf', hs, _⟩ => ⟨?_, f', hf', hs⟩
      exact mem_basesOf.mpr ⟨hs.header.le_u64Max, f', hf'⟩
    · exact h₁.chain.imp fun c ps _ _ ⟨_, f', hf', hs, _⟩ => ⟨f', hf', hs⟩
    · intro c ps qs hp hq hlen
      exact (List.IsPrefix.eq_of_length (h.segmentAt ha hd hp.1 hp.2 hq) hlen.symm).symm
  subst hsealed
  have hmem : activeBase oldest' sealed' ∈ basesOf d₀ := by
    rw [h₀.bases]
    exact activeBase_mem_basesFrom _ _
  refine ⟨rfl, rfl, ?_⟩
  rcases h.2 _ hmem with heq | ⟨hb, hf, hg⟩
  · obtain rfl := Option.some.inj (h₁.file.symm.trans (heq.trans h₀.file))
    exact Or.inl (h₁.holds.run.eq_of_stops h₁.holds.stops h₀.holds.run h₀.holds.stops)
  · obtain rfl := Option.some.inj (h₀.file.symm.trans hf)
    obtain rfl := Option.some.inj (h₁.file.symm.trans hg)
    -- with two records lost the first of them would be found again by the forward scan
    obtain ⟨rest, rfl⟩ := h.segmentAt ha hd hmem ⟨_, h₀.file, h₀.holds⟩ ⟨_, h₁.file, h₁.holds⟩
    match rest with
    | [] => exact Or.inl (List.append_nil _).symm
    | [p] => exact Or.inr ⟨hb.symm, p, rfl⟩
    | p :: q :: rs => exact absurd ht (ha.not_accepted h₀.holds h₁.holds)

omit ha hd [Crc32c] in
theorem remove_highest_file {base : ℕ} (hb : (basesOf d).getLast? = some base)
    (hc : c ∈ basesOf (d.remove (filenameFor base)).syncDir) :
    (d.remove (filenameFor base)).syncDir.file (filenameFor c) = d.file (filenameFor c) := by
  rw [basesOf_remove_highest hb, mem_dropLast_basesOf hb] at hc
  have hbu := (mem_basesOf.mp (List.mem_of_getLast? hb)).1
  exact Disk.remove_file_ne d (filenameFor_ne (mem_basesOf.mp hc.1).1 hbu hc.2)

/-- Both recoveries discard the same, or the second one alone discards an empty segment
whose header was hit. -/
theorem discards_altered (hb : b ∈ basesOf d) (hf : d.file (filenameFor b) = some f)
    (h₀ : Discards config d d₀) (h₁ : Discards config (d.put (filenameFor b) g) d₁) :
    AlteredFile b f g d₀ d₁ ∨ pos < headerSize ∧ (basesOf d).getLast? = some b ∧ Vacant config f.data b ∧
      d₀ = d ∧ d₁ = ((d.put (filenameFor b) g).remove (filenameFor b)).syncDir := by
  have hbu := (mem_basesOf.mp hb).1
  have hbases := basesOf_put hbu hf g
  have hfile : ∀ c ∈ basesOf d, c = b ∧ (d.put (filenameFor b) g).file (filenameFor c) = some g ∨
      c ≠ b ∧ (d.put (filenameFor b) g).file (filenameFor c) = d.file (filenameFor c) := by
    intro c hc
    by_cases hcb : c = b
    · exact Or.inl ⟨hcb, hcb ▸ Disk.put_file_self _ _ _⟩
    · exact Or.inr ⟨hcb, Disk.put_file_ne _ _ (filenameFor_ne (mem_basesOf.mp hc).1 hbu hcb)⟩
  have hput : ∀ c ∈ basesOf d, (d.put (filenameFor b) g).file (filenameFor c) = d.file (filenameFor c) ∨
      c = b ∧ d.file (filenameFor c) = some f ∧ (d.put (filenameFor b) g).file (filenameFor c) = some g :=
    by
    intro c hc
    rcases hfile c hc with ⟨rfl, hg⟩ | ⟨-, hsame⟩
    · exact Or.inr ⟨rfl, hf, hg⟩
    · exact Or.inl hsame
  have hheader : headerSize ≤ pos → (HeaderOk f.data b ↔ HeaderOk g.data b) := fun hpos =>
    ⟨fun h => h.congr (ha.before 0 hpos), fun h => h.congr (ha.before 0 hpos).symm⟩
  cases h₀ with
  | nothing hnil => simp [hnil] at hb
  | @keep base f₀ hlast hf₀ hh =>
    cases h₁ with
    | nothing hnil => simp [← hbases, hnil] at hb
    | keep => exact Or.inl ⟨hbases, hput⟩
    | @drop base' f₁ hlast' hf₁ hi =>
      obtain rfl : base = base' := Option.some.inj (hlast.symm.trans (hbases ▸ hlast'))
      rcases hfile base (List.mem_of_getLast? hlast) with ⟨rfl, hg⟩ | ⟨-, hsame⟩
      -- only the byte makes the second one an incomplete creation, so it hit the header
      · obtain rfl := Option.some.inj (hf₁.symm.trans hg)
        obtain rfl := Option.some.inj (hf₀.symm.trans hf)
        have hpos : pos < headerSize := by
          by_contra hge
          exact hi.not_headerOk ((hheader (Nat.le_of_not_lt hge)).mp hh)
        refine Or.inr ⟨hpos, hlast, ⟨hh, fun lsn p hp => ?_⟩, rfl, rfl⟩
        rcases hi with hnil | ⟨-, -, hno⟩
        · have hlen := hh.le_length
          rw [← ha.length, hnil] at hlen
          simp [headerSize] at hlen
        · exact hno lsn p (hp.congr (ha.behind hpos _))
      · obtain rfl := Option.some.inj (hf₁.symm.trans (hsame.trans hf₀))
        exact absurd hh hi.not_headerOk
  | @drop base f₀ hlast hf₀ hi =>
    cases h₁ with
    | nothing hnil => simp [← hbases, hnil] at hb
    | @keep base' f₁ hlast' hf₁ hh =>
      obtain rfl : base = base' := Option.some.inj (hlast.symm.trans (hbases ▸ hlast'))
      rcases hfile base (List.mem_of_getLast? hlast) with ⟨rfl, hg⟩ | ⟨-, hsame⟩
      · obtain rfl := Option.some.inj (hf₁.symm.trans hg)
        obtain rfl := Option.some.inj (hf₀.symm.trans hf)
        -- one byte does not repair a header
        rcases Nat.lt_or_ge pos headerSize with hpos | hpos
        · exact absurd hh (hd.header hpos)
        · exact absurd ((hheader hpos).mpr hh) hi.not_headerOk
      · obtain rfl := Option.some.inj (hf₁.symm.trans (hsame.trans hf₀))
        exact absurd hh hi.not_headerOk
    | @drop base' f₁ hlast' hf₁ hi' =>
      obtain rfl : base = base' := Option.some.inj (hlast.symm.trans (hbases ▸ hlast'))
      have hrest : basesOf ((d.put (filenameFor b) g).remove (filenameFor base)).syncDir =
          basesOf (d.remove (filenameFor base)).syncDir := by
        rw [basesOf_remove_highest hlast', basesOf_remove_highest hlast, hbases]
      refine Or.inl ⟨hrest, fun c hc => ?_⟩
      rw [remove_highest_file hlast hc, remove_highest_file hlast' (hrest ▸ hc)]
      rw [basesOf_remove_highest hlast] at hc
      exact hput c (List.mem_of_mem_dropLast hc)

omit ha hd in
theorem preserved_but_last {p : Bytes} : Preserved (activeBase oldest sealed)
    (handleOn config oldest sealed (active ++ [p]) [] [])
    (reportOn oldest sealed (active ++ [p]) ts) (reportOn oldest sealed active ts')
    (numbered oldest (sealed.flatten ++ (active ++ [p]))) (numbered oldest (sealed.flatten ++ active)) := by
  have hdurable : (reportOn oldest sealed (active ++ [p]) ts).durableLsn =
      activeBase oldest sealed + active.length := by
    simp only [reportOn, List.length_append, List.length_singleton]
    omega
  refine ⟨rfl, ?_, Or.inr ⟨rfl, ?_, p, ?_⟩⟩
  · rw [hdurable]
    simp only [reportOn]
    omega
  · rw [hdurable]
    exact Nat.le_add_right _ _
  · rw [← List.append_assoc, numbered_append, hdurable, List.length_append, activeBase, Nat.add_assoc]
    rfl

/-- What the two recoveries have to do with each other. -/
theorem recovers_altered {wal wal' : Wal} {rep rep' : RecoveryReport} {rs rs' : List (ℕ × Bytes)}
    (hs : seed ≤ u64Max) (hb : b ∈ basesOf d) (hf : d.file (filenameFor b) = some f)
    (h : Recovers config d seed wal rep rs)
    (h' : Recovers config (d.put (filenameFor b) g) seed wal' rep' rs') :
    Preserved b wal rep rep' rs rs' ∨ Restarts config d b f pos seed := by
  obtain ⟨-, -, -, d₀, hdis, oldest, sealed, active, ts, rfl, rfl, rfl, hlog⟩ := h.cases hs
  obtain ⟨-, -, -, d₁, hdis', oldest', sealed', active', ts', rfl, rfl, rfl, hlog'⟩ := h'.cases hs
  have hbu := (mem_basesOf.mp hb).1
  rcases discards_altered ha hd (d := acquired d) hb hf hdis hdis' with
    hsame | ⟨hpos, hlast, hvacant, rfl, rfl⟩
  · left
    rcases hlog with ⟨hnil, rfl, rfl, rfl⟩ | ⟨f₀, f₀', hlog, -⟩
    · rcases hlog' with ⟨-, rfl, rfl, rfl⟩ | ⟨f₁, f₁', hlog', -⟩
      · exact ⟨rfl, Nat.le_succ _, Or.inl rfl⟩
      · exact absurd (hsame.1.trans hnil) hlog'.bases_ne_nil
    · rcases hlog' with ⟨hnil, -⟩ | ⟨f₁, f₁', hlog', ht'⟩
      · exact absurd (hsame.1.symm.trans hnil) hlog.bases_ne_nil
      · obtain ⟨rfl, rfl, rfl | ⟨rfl, p, rfl⟩⟩ := hsame.logOn ha hd hlog hlog' ht'
        · exact ⟨rfl, Nat.le_succ _, Or.inl rfl⟩
        · exact preserved_but_last
  · rcases hlog with ⟨hnil, -⟩ | ⟨f₀, f₀', hlog, -⟩
    · simp [hnil] at hlast
    -- the second recovery discards the active segment, which holds no record: the one below is
    -- active again, and without one the log starts over
    obtain rfl := Option.some.inj (hlog.getLast?_bases.symm.trans hlast)
    obtain rfl := Option.some.inj (hlog.file.symm.trans hf)
    obtain rfl : active = [] := hlog.holds.run.eq_of_stops hlog.holds.stops trivial (hvacant.2 _)
    have hput := basesOf_put (d := acquired d) hbu hf g
    have hrest := (basesOf_remove_highest ((congrArg List.getLast? hput).trans hlast)).trans
      (congrArg List.dropLast hput)
    rcases List.eq_nil_or_concat sealed with rfl | ⟨init, last, rfl⟩
    · have hnone := hrest.trans (congrArg List.dropLast hlog.bases)
      rcases hlog' with ⟨-, rfl, rfl, rfl⟩ | ⟨f₁, f₁', hlog', -⟩
      · by_cases hseed : oldest' = oldest
        · subst hseed
          exact Or.inl ⟨rfl, Nat.le_succ _, Or.inl rfl⟩
        · exact Or.inr ⟨hpos, hlog.bases, hvacant, hseed⟩
      · exact absurd hnone hlog'.bases_ne_nil
    · left
      rw [List.concat_eq_append] at *
      obtain ⟨f₂, hlog₂, -⟩ := hlog.dropLast hrest fun c hcu hlt => by
        have hne := filenameFor_ne hcu hbu hlt.ne
        exact (Disk.remove_file_ne _ hne).trans (Disk.put_file_ne _ _ hne)
      rcases hlog' with ⟨hnil, -⟩ | ⟨f₁, f₁', hlog', ht'⟩
      · exact absurd hnil hlog₂.bases_ne_nil
      · obtain ⟨rfl, rfl, rfl⟩ := hlog₂.unique hlog'
        refine ⟨rfl, ?_, Or.inl (by simp)⟩
        simp only [reportOn, activeBase_append, activeBase_cons, activeBase_nil, List.length_nil]
        omega

/-- `open` then starts a log at its seed. -/
theorem restarts (hs : seed ≤ u64Max) (hseed : 1 ≤ seed) (hv : config.Valid) (hl : d.locked = false)
    (hf : d.file (filenameFor b) = some f) (h : Restarts config d b f pos seed) :
    Recovers config (d.put (filenameFor b) g) seed (handleOn config seed [] [] [] [])
      (reportOn seed [] [] .clean) [] := by
  obtain ⟨hpos, hbases, ⟨hh, hno⟩, -⟩ := h
  have hput := (basesOf_put (d := acquired d) hh.le_u64Max hf g).trans hbases
  have hlast := congrArg List.getLast? hput
  have hincomplete : Incomplete config.segmentSize config.maxRecordSize g.data b :=
    Or.inr ⟨ha.length.symm ▸ hh.le_length, hd.header hpos, fun lsn p hp => hno lsn p (hd.frameAt ha hp)⟩
  exact recovers_of_none hv hseed hs hl
    (.drop hlast (Disk.put_file_self (filenameFor b) g (acquired d)) hincomplete)
    ((basesOf_remove_highest hlast).trans (congrArg List.dropLast hput))

omit ha hd in
/-- A log whose one segment is vacant begins at its base. -/
theorem oldest_of_restarts {wal : Wal} {rep : RecoveryReport} {rs : List (ℕ × Bytes)}
    (hs : seed ≤ u64Max) (hf : d.file (filenameFor b) = some f) (hr : Restarts config d b f pos seed)
    (h : Recovers config d seed wal rep rs) : rep.oldestLsn = b := by
  obtain ⟨-, hbases, ⟨hh, -⟩, -⟩ := hr
  obtain ⟨-, -, -, d₀, hdis, oldest, sealed, active, ts, -, rfl, -, hlog⟩ := h.cases hs
  obtain rfl : d₀ = acquired d := hdis.eq_of_headerOk (congrArg List.getLast? hbases) hf hh
  rcases hlog with ⟨hnil, -⟩ | ⟨f₀, f₀', hlog, -⟩
  · exact absurd (hbases.symm.trans hnil) (List.cons_ne_nil _ _)
  · obtain ⟨l, hl⟩ := basesFrom_eq_cons oldest sealed
    have heq := hlog.bases.symm.trans hbases
    rw [hl] at heq
    exact (List.cons.inj heq).1

/-- One byte of a directory changes, and no header or frame it is part of passes its check.
Unless the log restarts, `open` fails or recovers what was there before, but for at most the
last record of the active segment. -/
theorem altered_byte_preserved {wal : Wal} {rep : RecoveryReport} {rs : List (ℕ × Bytes)}
    (hseed : (Op.openLog seed).Legal) (h : Recovers config d seed wal rep rs) (hb : b ∈ basesOf d)
    (hf : d.file (filenameFor b) = some f) :
    ((∃ e w, openSeeded config seed ⟨d.put (filenameFor b) g, []⟩ = (.err e, w)) ∨
      ∃ wal' rep' rs', Recovers config (d.put (filenameFor b) g) seed wal' rep' rs' ∧
        Preserved b wal rep rep' rs rs') ↔
    ¬ Restarts config d b f pos seed := by
  obtain ⟨hv, -, hl, -⟩ := h.cases hseed.2
  constructor
  · intro hor hr
    obtain ⟨w, r, hopen, -⟩ := restarts ha hd hseed.2 hseed.1 hv hl hf hr
    rcases hor with ⟨e, w', herr⟩ | ⟨wal', rep', rs', ⟨w', r', hopen', -⟩, hp⟩
    · rw [hopen] at herr
      simp at herr
    · rw [hopen, Prod.mk.injEq, Outcome.ret.injEq, Prod.mk.injEq] at hopen'
      obtain ⟨⟨-, rfl⟩, -⟩ := hopen'
      exact hr.2.2.2 (hp.oldest.trans (oldest_of_restarts hseed.2 hf hr h))
  · intro hr
    rcases openSeeded_total config (d.put (filenameFor b) g) hseed.2 with
      ⟨⟨wal', rep'⟩, w, hopen⟩ | herr
    · right
      obtain ⟨rs', h'⟩ := recovers_of_openSeeded hseed.2 hopen
      exact ⟨wal', rep', rs', h', (recovers_altered ha hd hseed.2 hb hf h h').resolve_right hr⟩
    · exact Or.inl herr

end

/-- The process dies right after a roll; the next one deletes what was sealed, and the
first byte of the one segment left changes. -/
theorem vacantLog_restarts : ∃ os m f g wal rep rs,
    (Machine.fresh true fun _ => 0).runFated tightConfig
      [(.openLog 1, []), (.append [7], []), (.append [8], []), (.append [9], []), (.append [10], []),
        (.commit, List.replicate 7 .ok ++ [.crash 0]), (.openLog 1, []), (.checkpoint 3, []),
        (.close, [])] = some (os, m) ∧
    4 ∈ basesOf m.disk ∧ m.disk.file (filenameFor 4) = some f ∧
    Recovers tightConfig m.disk 1 wal rep rs ∧
    AlteredAt f.data g.data 0 ∧ Detected tightConfig g.data 4 0 ∧
    ¬ ((∃ e w, openSeeded tightConfig 1 ⟨m.disk.put (filenameFor 4) g, []⟩ = (.err e, w)) ∨
      ∃ wal' rep' rs', Recovers tightConfig (m.disk.put (filenameFor 4) g) 1 wal' rep' rs' ∧
        Preserved 4 wal rep rep' rs rs') := by
  set data := encodeHeader 4 0 ++ zeros 72 with hdata
  set g : File := ⟨overwrite data 0 [0], fun _ => false⟩ with hg
  have hrun : ((Machine.fresh true fun _ => 0).runFated tightConfig
      [(.openLog 1, []), (.append [7], []), (.append [8], []), (.append [9], []), (.append [10], []),
        (.commit, List.replicate 7 .ok ++ [.crash 0]), (.openLog 1, []), (.checkpoint 3, []),
        (.close, [])]).map (fun r => ((r.2.disk.file (filenameFor 4)).map File.data,
          decide (4 ∈ basesOf r.2.disk), reportOf tightConfig 1 r.2.disk,
          reportOf tightConfig 1 (r.2.disk.put (filenameFor 4) g))) =
      some (some data, true, some ⟨4, 3, .clean, 1⟩, some ⟨1, 0, .clean, 1⟩) := by decide +kernel
  obtain ⟨⟨os, m⟩, hrun, hres⟩ := Option.map_eq_some_iff.mp hrun
  simp only [Prod.mk.injEq, decide_eq_true_eq, Option.map_eq_some_iff] at hres
  obtain ⟨⟨f, hf, hfd⟩, hmem, hreport, hreport'⟩ := hres
  obtain ⟨wal, w, hopen⟩ := openSeeded_of_reportOf hreport
  obtain ⟨wal', w', hopen'⟩ := openSeeded_of_reportOf hreport'
  obtain ⟨rs, hrec⟩ := recovers_of_openSeeded (by decide) hopen
  have hdetected : Detected tightConfig g.data 4 0 :=
    detected_first (by decide +kernel) (by decide +kernel : scanAt 136 45 g.data 0 = .invalid .lengthTooLarge)
  refine ⟨os, m, f, g, wal, _, rs, hrun, hmem, hf, hrec, ?_, hdetected, ?_⟩
  · rw [hfd]
    exact .of_overwrite 0 (by decide +kernel)
  · rintro (⟨e, w₁, herr⟩ | ⟨wal₁, rep₁, rs₁, ⟨w₁, r₁, hopen₁, -⟩, hp⟩)
    · rw [hopen'] at herr
      simp at herr
    · rw [hopen', Prod.mk.injEq, Outcome.ret.injEq, Prod.mk.injEq] at hopen₁
      obtain ⟨⟨-, rfl⟩, -⟩ := hopen₁
      exact absurd hp.oldest (by decide)

/-- A byte of the first payload of a log with one record. -/
theorem altered_byte_preserved_oneRecord : ∃ (d : Disk) (g : File), d.file (filenameFor 1) =
      some ⟨encodeHeader 1 0 ++ (encodeFrame 1 [7] ++ zeros 48), fun _ => false⟩ ∧
    g.data = overwrite (encodeHeader 1 0 ++ (encodeFrame 1 [7] ++ zeros 48)) 0 [0] ∧
    ((∃ e w, openSeeded tightConfig 1 ⟨d.put (filenameFor 1) g, []⟩ = (.err e, w)) ∨
      ∃ wal rep wal' rep' rs rs', Recovers tightConfig d 1 wal rep rs ∧
        Recovers tightConfig (d.put (filenameFor 1) g) 1 wal' rep' rs' ∧
        Preserved 1 wal rep rep' rs rs') := by
  set data := encodeHeader 1 0 ++ (encodeFrame 1 [7] ++ zeros 48) with hdata
  set f : File := ⟨data, fun _ => false⟩ with hf
  set g : File := ⟨overwrite data 0 [0], fun _ => false⟩ with hg
  set d : Disk := .holding [(filenameFor 1, data)] with hd
  have hfile : d.file (filenameFor 1) = some f := AList.lookup_insert _
  have hbases : basesOf d = [1] := by decide +kernel
  have hreport : reportOf tightConfig 1 d = some ⟨1, 1, .clean, 1⟩ := by decide +kernel
  obtain ⟨wal, w, hopen⟩ := openSeeded_of_reportOf hreport
  obtain ⟨rs, hrec⟩ := recovers_of_openSeeded (by decide) hopen
  have hdetected : Detected tightConfig g.data 1 0 :=
    detected_first (by decide +kernel) (by decide +kernel : scanAt 136 45 g.data 0 = .invalid .lengthTooLarge)
  have hlegal : (Op.openLog 1).Legal := ⟨le_rfl, by decide⟩
  refine ⟨d, g, hfile, rfl, ?_⟩
  rcases (altered_byte_preserved (.of_overwrite 0 (by decide +kernel)) hdetected hlegal hrec
    (by rw [hbases]; decide) hfile).mpr fun hr => hr.2.2.2 rfl with herr | ⟨wal', rep', rs', h', hp⟩
  · exact Or.inl herr
  · exact Or.inr ⟨wal, _, wal', rep', rs, rs', hrec, h', hp⟩

end OpenWal
