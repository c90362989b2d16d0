import OpenWal.Theory.CrashPoints
import OpenWal.Theory.CutBatches
import OpenWal.Results.HandleInvariant

namespace OpenWal
open ByteSeq Posix CrashProg

section

variable [Crc32c]

variable {config : WalConfig} {d d' : Disk} {oldest : ℕ} {sealed : List (List Bytes)}
  {active old staged rest ps : List Bytes} {f : File}

abbrev released (d : Disk) : Disk := { d with locked := false }

/-- An empty batch makes no call. -/
theorem commit_nothing_ne_crashed {observed : List ℕ} {fates : List Fate} {s : Sys} :
    commit ⟨handleOn config oldest sealed active observed [], ⟨d, fates⟩⟩ ≠ (.crashed, s) := by
  rw [commit]
  simp [handleOn, Prog.bind_run, Prog.andThen]

/-- What the turns of a commit keep: the process may die in the writes that are left. -/
structure Survivable (config : WalConfig) (oldest : ℕ) (old staged : List Bytes)
    (sealed : List (List Bytes)) (active rest : List Bytes) (f : File) (d : Disk) : Prop where
  clean : CleanSealed config d oldest sealed
  cuts : CutsRecover config.segmentSize config.maxRecordSize f.data (headerSize + runSize active)
    (activeBase oldest sealed + active.length) rest
  split : ∃ ps, sealed.flatten ++ active = old ++ ps ∧ staged = ps ++ rest

theorem Committing.fit_le (hc : Committing config d oldest sealed active f rest) (hv : config.Valid) :
    headerSize + runSize active + runSize (fit (roomIn config active) rest) ≤ config.segmentSize := by
  have hle := runSize_fit_le (roomIn config active) rest
  have hactive := hc.run.le_segment ((Nat.le_add_right _ _).trans hv.room)
  unfold roomIn at hle ⊢
  omega

omit [Crc32c] in
/-- The first record left over goes to a segment of its own. -/
theorem lt_of_overflow_cons {p : Bytes} {ps : List Bytes}
    (h : fit (roomIn config active) (p :: ps) = []) :
    config.segmentSize < headerSize + runSize active + framedSize p.length := by
  by_contra hge
  refine fit_ne_nil ps ?_ h
  simp only [roomIn]
  omega

/-- Where a record does not fit, the segment it does not fit in has to end clean. -/
theorem Committing.cutsRecover_roll (hc : Committing config d oldest sealed active f rest)
    (hv : config.Valid) (hr : rest ≠ []) (hq : fit (roomIn config active) rest = []) (e created : ℕ) :
    CutsRecover config.segmentSize config.maxRecordSize f.data (headerSize + runSize active) e rest ↔
      CleanAt config.segmentSize f.data (headerSize + runSize active) ∧
        CutsRecover config.segmentSize config.maxRecordSize
          (freshSegment e config.segmentSize created).data headerSize e rest := by
  obtain ⟨p, ps, rfl⟩ := List.exists_cons_of_ne_nil hr
  have hss : headerSize ≤ config.segmentSize := (Nat.le_add_right _ _).trans hv.room
  rw [OpenWal.cutsRecover_roll (lt_of_overflow_cons hq) (hv.fits hc.batch.head_le),
    cutsRecover_congr (by rw [zeros_length]; exact hss) ?_
      (freshSegment_drop e config.segmentSize created).symm]
  simp only [freshSegment, List.length_append, encodeHeader_length]
  exact Nat.le_add_right _ _

theorem Carries.released (h : Carries config d oldest sealed active f) :
    Carries config (OpenWal.released d) oldest sealed active f := h.of_file fun _ => rfl

/-- The records are recovered, with first ones of those that were to be stored, from a cut write. -/
theorem Committing.recoversPrefix_cut (hc : Committing config d oldest sealed active f rest)
    (hv : config.Valid) (b : Bytes) :
    RecoversPrefix config (released (d.put (filenameFor (activeBase oldest sealed))
        (f.write (headerSize + runSize active) b))) oldest (sealed.flatten ++ active) rest ↔
      CleanSealed config d oldest sealed ∧ WholePrefix config.segmentSize config.maxRecordSize
        (overwrite f.data (headerSize + runSize active) b) (headerSize + runSize active)
        (activeBase oldest sealed + active.length) rest := by
  set g := f.write (headerSize + runSize active) b
  set d' := released (d.put (filenameFor (activeBase oldest sealed)) g)
  have hothers : ∀ m, m ≠ filenameFor (activeBase oldest sealed) → d'.file m = d.file m :=
    fun m hm => Disk.put_file_ne _ _ hm
  have hg : d'.file (filenameFor (activeBase oldest sealed)) = some g := Disk.put_file_self _ _ _
  have hbefore : AgreeOn f.data g.data 0 (headerSize + runSize active) :=
    (overwrite_agreeOn_before _ hc.le_length 0).symm
  exact hc.toCarries.recoversPrefix_iff hothers hg hbefore hv rfl

namespace Survivable

theorem recoversPrefix (h : Survivable config oldest old staged sealed active rest f d)
    (hr : RecoversPrefix config d' oldest (sealed.flatten ++ active) rest) :
    RecoversPrefix config d' oldest old staged := by
  obtain ⟨ps, hold, rfl⟩ := h.split
  rw [hold] at hr
  exact hr.of_append

variable (h : Survivable config oldest old staged sealed active rest f d)
  (hc : Committing config d oldest sealed active f rest)

include h hc

/-- The process dies in the write of the records that fit. -/
theorem cut (hv : config.Valid) (k : ℕ) :
    RecoversPrefix config (released (d.put (filenameFor (activeBase oldest sealed))
      (f.write (headerSize + runSize active) ((encodeRun (activeBase oldest sealed + active.length)
        (fit (roomIn config active) rest)).take k)))) oldest old staged := by
  have hx := hc.le_length
  have hfit := hc.fit_le hv
  have hsplit := fit_append_overflow (roomIn config active) rest
  obtain ⟨hcuts, hbehind⟩ := (cutsRecover_append (hsplit.symm ▸ hc.batch) config.maxRecordSize_lt hx hfit).mp
    (hsplit.symm ▸ h.cuts)
  set qs := fit (roomIn config active) rest
  set e := activeBase oldest sealed + active.length
  have hwhole : WholePrefix config.segmentSize config.maxRecordSize
      (overwrite f.data (headerSize + runSize active) ((encodeRun e qs).take k))
      (headerSize + runSize active) e rest := by
    rw [← hsplit]
    by_cases hk : k < runSize qs
    · exact hcuts k hk
    · rw [List.take_of_length_le (by rw [encodeRun_length]; omega)]
      have hrun := run_overwrite (hsplit.symm ▸ hc.batch) config.maxRecordSize_lt hx hfit
      exact (wholePrefix_append hrun).mpr hbehind.wholePrefix
  apply h.recoversPrefix
  exact (hc.recoversPrefix_cut hv _).mpr ⟨h.clean, hwhole⟩

theorem store (hv : config.Valid) :
    Survivable config oldest old staged sealed (active ++ fit (roomIn config active) rest)
      (overflow (roomIn config active) rest)
      (f.write (headerSize + runSize active) (encodeRun (activeBase oldest sealed + active.length)
        (fit (roomIn config active) rest))).sync
      (d.put (filenameFor (activeBase oldest sealed)) (f.write (headerSize + runSize active)
        (encodeRun (activeBase oldest sealed + active.length)
          (fit (roomIn config active) rest))).sync) := by
  have hsplit := fit_append_overflow (roomIn config active) rest
  obtain ⟨-, hbehind⟩ := (cutsRecover_append (hsplit.symm ▸ hc.batch) config.maxRecordSize_lt hc.le_length
    (hc.fit_le hv)).mp (hsplit.symm ▸ h.cuts)
  obtain ⟨ps, hold, hrest⟩ := h.split
  refine ⟨?_, ?_, ps ++ fit (roomIn config active) rest, ?_, ?_⟩
  · exact (hc.toCarries.cleanSealed_rewritten fun m hm => Disk.put_file_ne _ _ hm).mpr h.clean
  · rwa [runSize_append, List.length_append, ← Nat.add_assoc, ← Nat.add_assoc]
  · rw [← List.append_assoc, hold, List.append_assoc]
  · rw [List.append_assoc, hsplit, hrest]

/-- The process dies in the creation of the next segment, or before its name is synced. -/
theorem begun (hv : config.Valid) (hr : rest ≠ []) (ha : active ≠ [])
    (hq : fit (roomIn config active) rest = [])
    (hb : Begun (activeBase oldest sealed + active.length) config.segmentSize d d')
    (hcut : ∀ b ∈ basesOf d', NotCut b d') : RecoversPrefix config (released d') oldest old staged := by
  have hle := hc.next_le_u64Max hr
  have hpos := hc.activeBase_pos
  have hclean := ((hc.cutsRecover_roll hv hr hq _ 0).mp h.cuts).1
  have htails : TailsAllow config d oldest sealed active f
      (activeBase oldest sealed + active.length) (released d') :=
    ⟨h.clean, fun _ _ _ => hclean, fun _ => Or.inl hclean⟩
  have hothers : ∀ m, m ≠ filenameFor (activeBase oldest sealed + active.length) →
      (released d').file m = d.file m := hb.1.others
  have hnext : NotCut (activeBase oldest sealed + active.length) (released d') := fun g hg =>
    hcut _ (mem_basesOf.mpr ⟨hle, g, hg⟩) g hg
  apply h.recoversPrefix
  intro seed hseed
  obtain ⟨ts, hrec | hrec⟩ := htails.recovers hc.toCarries ha rfl hle hothers hb.2 hnext hv hseed.1 rfl
  · refine ⟨_, _, 0, Nat.zero_le _, by simpa using hrec, ?_⟩
    rw [reportOn_durable hpos, List.take_zero, List.append_nil]
  · have hroll : 1 ≤ activeBase oldest (sealed ++ [active]) := by
      rw [Carries.activeBase_roll]
      omega
    refine ⟨_, _, 0, Nat.zero_le _, by simpa using hrec, ?_⟩
    rw [reportOn_durable hroll]
    simp

theorem rolled (hv : config.Valid) {created : ℕ} (hr : rest ≠ []) (ha : active ≠ [])
    (hq : fit (roomIn config active) rest = [])
    (honly : OnlyAt (filenameFor (activeBase oldest sealed + active.length)) d d')
    (hf : d'.file (filenameFor (activeBase oldest sealed + active.length)) =
      some (freshSegment (activeBase oldest sealed + active.length) config.segmentSize created)) :
    Survivable config oldest old staged (sealed ++ [active]) [] rest
      (freshSegment (activeBase oldest sealed + active.length) config.segmentSize created)
      d'.syncDir := by
  have hle := hc.next_le_u64Max hr
  have hpos := hc.activeBase_pos
  have hss : headerSize ≤ config.segmentSize := (Nat.le_add_right _ _).trans hv.room
  have hfresh : Written config.segmentSize config.maxRecordSize
      (freshSegment (activeBase oldest sealed + active.length) config.segmentSize created).data
      (activeBase oldest sealed + active.length) [] := freshSegment_written (by omega) hle hss
  have hbegun := (show Created _ _ d d' from ⟨honly, created, hf⟩).begun
  obtain ⟨-, -, hclean⟩ :=
    hc.toCarries.adopts_next ha rfl hle honly.others hbegun.2 hv.room hf hfresh.header
  obtain ⟨hend, hcuts⟩ := (hc.cutsRecover_roll hv hr hq _ created).mp h.cuts
  refine ⟨hclean.mpr ⟨h.clean, hend⟩, ?_, ?_⟩
  · rwa [Carries.activeBase_roll, List.length_nil, Nat.add_zero, runSize_nil, Nat.add_zero]
  · obtain ⟨ps, hold, hrest⟩ := h.split
    exact ⟨ps, by simpa using hold, hrest⟩

end Survivable

/-- The rule of a commit whose directories are all recovered. -/
theorem survivable_commitRule (hv : config.Valid) (oldest : ℕ) (old staged : List Bytes) :
    CommitRule config oldest
      (fun sealed active _ rest f d => Survivable config oldest old staged sealed active rest f d)
      fun _ _ _ d =>
        (∀ b ∈ basesOf d, NotCut b d) → RecoversPrefix config (released d) oldest old staged where
  cut k hc hj _ _ := hj.cut hc hv k
  store hc hj _ := hj.store hc hv
  begun hc hj hr ha hq hb hcut := hj.begun hc hv hr ha hq hb hcut
  rolled hc hj hr ha hq honly hf := hj.rolled hc hv hr ha hq honly hf

/-- Behind records with nothing but zeros after them, the batch alone decides. -/
theorem Committing.cutsRecover (hc : Committing config d oldest sealed active f rest) (hv : config.Valid)
    (hzero : ZeroOn f.data (headerSize + runSize active) config.segmentSize)
    (hharmless : CutsHarmless config.segmentSize config.maxRecordSize (headerSize + runSize active)
      (activeBase oldest sealed + active.length) rest) :
    CutsRecover config.segmentSize config.maxRecordSize f.data (headerSize + runSize active)
      (activeBase oldest sealed + active.length) rest :=
  cutsRecover_of_zeroOn hc.batch config.maxRecordSize_lt hc.le_length
    (fun p hp => hv.fits (hc.batch.small p hp)) hzero hharmless

/-- What the death of the process in a commit leaves behind. -/
theorem commit_recoversPrefix (hv : config.Valid) (hc : Committing config d oldest sealed active f staged)
    (hclean : CleanSealed config d oldest sealed)
    (hcuts : CutsRecover config.segmentSize config.maxRecordSize f.data (headerSize + runSize active)
      (activeBase oldest sealed + active.length) staged)
    (observed : List ℕ) (fates : List Fate) {s : Sys}
    (hcut : ∀ b ∈ basesOf s.world.disk, NotCut b s.world.disk)
    (hrun : commit ⟨handleOn config oldest sealed active observed staged, ⟨d, fates⟩⟩ = (.crashed, s)) :
    RecoversPrefix config (released s.world.disk) oldest (sealed.flatten ++ active) staged := by
  have hs : staged ≠ [] := by
    rintro rfl
    exact commit_nothing_ne_crashed hrun
  have hstart : Survivable config oldest (sealed.flatten ++ active) staged sealed active staged f d :=
    ⟨hclean, hcuts, [], by simp, by simp⟩
  have hrule := survivable_commitRule hv oldest (sealed.flatten ++ active) staged
  have hends : Ends _ _ _ (commit ⟨handleOn config oldest sealed active observed staged, ⟨d, fates⟩⟩) :=
    commit_triple hrule hv hs fates hc hstart
  rw [hrun] at hends
  obtain ⟨sealed', active', observed', -, hx⟩ := hends
  exact hx hcut

/-- Where the process dies in `m`, the log is recovered. -/
def DeathsRecover (config : WalConfig) (oldest : ℕ) (old staged : List Bytes) {α : Type}
    (m : Prog Sys WalError α) (s : Sys) : Prop :=
  ∀ t, Dies Sys.withFates m s t → (∀ b ∈ basesOf t.world.disk, NotCut b t.world.disk) →
    RecoversPrefix config (released t.world.disk) oldest old staged

section Turn

variable {observed : List ℕ} {staging done : Bytes} {last : ℕ}
  (hc : Committing config d oldest sealed active f rest) (hv : config.Valid)
  (hst : staging = done ++ encodeRun (activeBase oldest sealed + active.length) rest)
  (h : DeathsRecover config oldest old (ps ++ rest) (commitStep done.length)
    ⟨batchOn config oldest sealed active observed staging last, ⟨d, []⟩⟩)

include hc hv hst h

/-- No cut of what a turn writes does harm, where no death in it does. -/
theorem DeathsRecover.cut (hold : sealed.flatten ++ active = old ++ ps)
    (hq : fit (roomIn config active) rest ≠ []) (k : ℕ) :
    CleanSealed config d oldest sealed ∧ WholePrefix config.segmentSize config.maxRecordSize
      (overwrite f.data (headerSize + runSize active)
        ((encodeRun (activeBase oldest sealed + active.length) (fit (roomIn config active) rest)).take k))
      (headerSize + runSize active) (activeBase oldest sealed + active.length) rest := by
  have hdies : Dies Sys.withFates (commitStep done.length)
      ⟨batchOn config oldest sealed active observed staging last, ⟨d, []⟩⟩ _ :=
    commitStep_dies_cut hc hst hq k
  set b := (encodeRun (activeBase oldest sealed + active.length) (fit (roomIn config active) rest)).take k
  have hcarries : Carries config (d.put (filenameFor (activeBase oldest sealed))
      (f.write (headerSize + runSize active) b)) oldest sealed active _ :=
    hc.toCarries.put (SameBefore.write b hc.le_length le_rfl)
  have hrec := h _ hdies hcarries.notCut
  exact (hc.recoversPrefix_cut hv b).mp (hcarries.released.recoversPrefix_rest hold hrec)

/-- Where a turn rolls, the segment it leaves ends clean. -/
theorem DeathsRecover.rolled (hmore : overflow (roomIn config active) rest ≠ []) :
    CleanSealed config d oldest sealed ∧ CleanAt config.segmentSize
      (overwrite f.data (headerSize + runSize active)
        (encodeRun (activeBase oldest sealed + active.length) (fit (roomIn config active) rest)))
      (headerSize + runSize (active ++ fit (roomIn config active) rest)) := by
  have hsplit := fit_append_overflow (roomIn config active) rest
  have hss : headerSize ≤ config.segmentSize := (Nat.le_add_right _ _).trans hv.room
  obtain ⟨d₁, created, d', hset, hset', wal, hdies⟩ :
      ∃ d₁ created d', _ ∧ _ ∧ ∃ wal, Dies Sys.withFates (commitStep done.length)
        ⟨batchOn config oldest sealed active observed staging last, ⟨d, []⟩⟩ ⟨wal, ⟨d', []⟩⟩ :=
    commitStep_dies_created hc hst hv hmore
  have hr : rest ≠ [] := by
    rintro rfl
    exact hmore (List.append_eq_nil_iff.mp hsplit).2
  have hne : active ++ fit (roomIn config active) rest ≠ [] :=
    (overflow_starts_segment hv hr hc.batch hmore).2
  have hfit := hc.fit_le hv
  set qs := fit (roomIn config active) rest
  set more := overflow (roomIn config active) rest
  have hc₁ := (hsplit.symm ▸ hc : Committing config d oldest sealed active f (qs ++ more)).stored hfit hset
  rw [Nat.add_assoc, ← List.length_append] at hset'
  have hcarries := (hc₁.rolled hmore hne hss hset').toCarries
  have hrec := h _ hdies hcarries.notCut
  have hheader := hcarries.header
  rw [Carries.activeBase_roll] at hheader
  have hbegun : BegunFile (activeBase oldest sealed + (active ++ qs).length) config.segmentSize
      (released d') := begunFile_of_file hset'.self (freshSegment_begunData _ created)
  obtain ⟨-, -, hends⟩ := hc₁.toCarries.adopts_next hne rfl (hc₁.next_le_u64Max hmore) hset'.others hbegun
    hv.room hset'.self hheader
  obtain ⟨wal', rep, i, -, hr', -⟩ := hrec 1 ⟨le_rfl, by decide⟩
  have hacq : Carries config (acquired (released d')) oldest (sealed ++ [active ++ qs]) [] _ :=
    hcarries.of_file fun _ => rfl
  obtain ⟨-, -, -, hcleans, -⟩ :=
    hacq.of_recovers (by decide) (.keep hacq.getLast?_bases hacq.file hacq.header) hr'
  obtain ⟨hsealed, hend⟩ := hends.mp hcleans
  rw [stored_data] at hend
  exact ⟨(hc.toCarries.cleanSealed_rewritten hset.others).mp hsealed, hend⟩

/-- The cuts of what a turn writes, in front of those of the turns that follow. -/
theorem DeathsRecover.cuts (hold : sealed.flatten ++ active = old ++ ps)
    (hbehind : CutsRecover config.segmentSize config.maxRecordSize
      (overwrite f.data (headerSize + runSize active)
        (encodeRun (activeBase oldest sealed + active.length) (fit (roomIn config active) rest)))
      (headerSize + runSize active + runSize (fit (roomIn config active) rest))
      (activeBase oldest sealed + active.length + (fit (roomIn config active) rest).length)
      (overflow (roomIn config active) rest)) :
    CutsRecover config.segmentSize config.maxRecordSize f.data (headerSize + runSize active)
      (activeBase oldest sealed + active.length) rest := by
  have hcut := h.cut hc hv hst hold
  have hfit := hc.fit_le hv
  have hsplit := fit_append_overflow (roomIn config active) rest
  set qs := fit (roomIn config active) rest
  set more := overflow (roomIn config active) rest
  have hb : Batch config.maxRecordSize (activeBase oldest sealed + active.length) (qs ++ more) :=
    hsplit.symm ▸ hc.batch
  rw [← hsplit, cutsRecover_append hb config.maxRecordSize_lt hc.le_length hfit, hsplit]
  refine ⟨fun k hk => (hcut ?_ k).2, hbehind⟩
  rintro hnil
  rw [hnil, runSize_nil] at hk
  exact absurd hk (Nat.not_lt_zero k)

/-- What lies behind the last records is inert: the process may die with all of them stored. -/
theorem DeathsRecover.inert (hold : sealed.flatten ++ active = old ++ ps) (hr : rest ≠ [])
    (hlast : overflow (roomIn config active) rest = []) :
    CleanSealed config d oldest sealed ∧ Inert config.segmentSize config.maxRecordSize
      (overwrite f.data (headerSize + runSize active)
        (encodeRun (activeBase oldest sealed + active.length) (fit (roomIn config active) rest)))
      (headerSize + runSize active + runSize (fit (roomIn config active) rest))
      (activeBase oldest sealed + active.length + (fit (roomIn config active) rest).length) := by
  have hcut := h.cut hc hv hst hold
  have hfit := hc.fit_le hv
  have hsplit := fit_append_overflow (roomIn config active) rest
  rw [hlast, List.append_nil] at hsplit
  rw [hsplit] at hcut hfit ⊢
  obtain ⟨hclean, hwhole⟩ := hcut hr (runSize rest)
  rw [List.take_of_length_le (by rw [encodeRun_length])] at hwhole
  have hb : Batch config.maxRecordSize (activeBase oldest sealed + active.length) (rest ++ []) := by
    rw [List.append_nil]
    exact hc.batch
  exact ⟨hclean, hwhole.inert (run_overwrite hb config.maxRecordSize_lt hc.le_length hfit)⟩

end Turn

/-- No cut in a batch does harm, where no death in the turns of its commit does: by induction on
the turns that are left. -/
theorem DeathsRecover.cutsRecover {observed : List ℕ} {staging done : Bytes} {last fuel : ℕ}
    (hc : Committing config d oldest sealed active f rest) (hv : config.Valid)
    (hold : sealed.flatten ++ active = old ++ ps)
    (hst : staging = done ++ encodeRun (activeBase oldest sealed + active.length) rest) (hr : rest ≠ [])
    (hfuel : turnsLeft active rest ≤ fuel)
    (h : DeathsRecover config oldest old (ps ++ rest) (commitLoop fuel done.length)
      ⟨batchOn config oldest sealed active observed staging last, ⟨d, []⟩⟩) :
    CleanSealed config d oldest sealed ∧
      CutsRecover config.segmentSize config.maxRecordSize f.data (headerSize + runSize active)
        (activeBase oldest sealed + active.length) rest := by
  induction fuel generalizing d sealed active f rest observed done ps with
  | zero =>
    unfold turnsLeft at hfuel
    split_ifs at hfuel <;> omega
  | succ fuel ih =>
    have hlt := lt_staging_length hr hst
    have hstep : DeathsRecover config oldest old (ps ++ rest) (commitStep done.length)
        ⟨batchOn config oldest sealed active observed staging last, ⟨d, []⟩⟩ :=
      fun t ht => h t (commitLoop_dies hlt (ht.left _))
    have hss : headerSize ≤ config.segmentSize := (Nat.le_add_right _ _).trans hv.room
    have hcuts := hstep.cuts hc hv hst hold
    have hinert := hstep.inert hc hv hst hold hr
    have hroll := hstep.rolled hc hv hst
    have hfit := hc.fit_le hv
    have hsplit := fit_append_overflow (roomIn config active) rest
    have hbehind := fit_overflow (roomIn config active) rest
    set qs := fit (roomIn config active) rest with hqs
    set more := overflow (roomIn config active) rest with hm
    set e := activeBase oldest sealed + active.length with he
    by_cases hmore : more = []
    · obtain ⟨hclean, hend⟩ := hinert hmore
      exact ⟨hclean, hcuts (hmore ▸ hend)⟩
    · obtain ⟨hclean, hend⟩ := hroll hmore
      obtain ⟨d₁, hset₁, ⟨hnil, -⟩ | ⟨-, hne, created, d₂, hrolled, hturn⟩⟩ :=
        turn_calm observed last hr hc.file hc.activeBase_pos hst hc.batch hv (fun b hb => hc.free hb)
          hqs.symm hm.symm
      · exact absurd hnil hmore
      have hc₁ := (hsplit.symm ▸ hc : Committing config d oldest sealed active f (qs ++ more)).stored
        hfit hset₁
      have hset₂ := hrolled.set
      have hbase : activeBase oldest (sealed ++ [active ++ qs]) = e + qs.length := by
        rw [Carries.activeBase_roll, List.length_append, he, Nat.add_assoc]
      rw [Carries.activeBase_roll] at hset₂
      have hc₂ := hc₁.rolled hmore hne hss hset₂
      have hfuel' := turnsLeft_rolled hsplit hr hmore hne hfuel
      have hold' : (sealed ++ [active ++ qs]).flatten ++ [] = old ++ (ps ++ qs) := by
        rw [List.flatten_concat, List.append_nil, ← List.append_assoc, hold, List.append_assoc]
      have hst' : staging = (done ++ encodeRun e qs) ++
          encodeRun (activeBase oldest (sealed ++ [active ++ qs]) + ([] : List Bytes).length) more := by
        rw [hbase, List.length_nil, Nat.add_zero, List.append_assoc, ← encodeRun_append, hsplit]
        exact hst
      obtain ⟨-, hlater⟩ := ih hc₂ hold' hst' hmore hfuel' fun t ht hcut => by
        rw [List.append_assoc, hsplit]
        exact h t (commitLoop_dies hlt (Dies.right (commitStep_paced _) hturn ht)) hcut
      have hover : fit (roomIn config (active ++ qs)) more = [] := by
        rwa [roomIn, runSize_append, ← Nat.add_assoc, ← Nat.sub_sub]
      have hiff := hc₁.cutsRecover_roll hv hmore hover (e + qs.length) created
      rw [stored_data, runSize_append, ← Nat.add_assoc] at hiff
      rw [runSize_append, ← Nat.add_assoc] at hend
      refine ⟨hclean, hcuts (hiff.mpr ⟨hend, ?_⟩)⟩
      simpa [hbase, he, Nat.add_assoc] using hlater

/-- Every `open` recovers the log without segments that hold no record above `upTo`. -/
def RecoversDeleted (config : WalConfig) (d : Disk) (upTo oldest : ℕ) (sealed : List (List Bytes))
    (active : List Bytes) : Prop :=
  ∀ seed, (Op.openLog seed).Legal → ∃ us vs wal rep, sealed = us ++ vs ∧
    (us = [] ∨ activeBase oldest us - 1 ≤ upTo) ∧
    Recovers config d seed wal rep (numbered (activeBase oldest us) (vs.flatten ++ active)) ∧
    rep.durableLsn + 1 = activeBase oldest sealed + active.length

theorem Carries.cleanSealed_removeAll {xs ys : List (List Bytes)}
    (h : Carries config d oldest (xs ++ ys) active f) :
    CleanSealed config (OpenWal.removeAll ((basesFrom oldest (xs ++ ys)).take xs.length) d)
      (activeBase oldest xs) ys ↔ CleanSealed config d (activeBase oldest xs) ys := by
  have hle := h.activeBase_le
  rw [activeBase_append] at hle
  obtain ⟨-, hkeep⟩ := basesOf_drop h.ne_nil h.bases (fun _ hb => removeAll_file_mem hb)
    fun _ hn => removeAll_file hn
  exact ⟨fun hc => hc.congr fun b hb hlt => (hkeep b (hlt.trans hle) hb).symm,
    fun hc => hc.congr fun b hb hlt => hkeep b (hlt.trans hle) hb⟩

/-- Without its first segments, a log is recovered exactly where those that are left end well. -/
theorem Carries.recoversDeleted_iff {xs ys : List (List Bytes)} {upTo : ℕ} (hv : config.Valid)
    (h : Carries config d oldest (xs ++ ys) active f) (hx : xs = [] ∨ activeBase oldest xs - 1 ≤ upTo) :
    RecoversDeleted config (OpenWal.released (OpenWal.removeAll
        ((basesFrom oldest (xs ++ ys)).take xs.length) d)) upTo oldest (xs ++ ys) active ↔
      CleanSealed config d (activeBase oldest xs) ys ∧ InertActive config oldest (xs ++ ys) active f := by
  have hpos := h.activeBase_pos
  have hacq : Carries config (acquired (OpenWal.released (OpenWal.removeAll
      ((basesFrom oldest (xs ++ ys)).take xs.length) d))) (activeBase oldest xs) ys active f :=
    h.removeAll.of_file fun _ => rfl
  have hkeep : Discards config _ _ := .keep hacq.getLast?_bases hacq.file hacq.header
  have hi : InertActive config (activeBase oldest xs) ys active f ↔
      InertActive config oldest (xs ++ ys) active f := by
    rw [InertActive, InertActive, activeBase_append]
  rw [← h.cleanSealed_removeAll, ← hi]
  constructor
  · intro hrec
    obtain ⟨us, vs, wal, rep, -, -, hr, hd⟩ := hrec 1 ⟨le_rfl, by decide⟩
    rw [activeBase_append] at hd
    exact hacq.endsWell_of_recovers (by decide) hkeep hr hd
  · rintro ⟨hclean, hinert⟩ seed hseed
    obtain ⟨ts, hr⟩ := hacq.recovers hv hseed.1 rfl hkeep hclean hinert
    refine ⟨xs, ys, _, _, rfl, hx, hr, ?_⟩
    rw [activeBase_append] at hpos ⊢
    simp only [reportOn]
    omega

/-- Where a checkpoint dies, some of the segments it deletes are gone. -/
theorem checkpoint_recoversDeleted_iff (hv : config.Valid) (h : Carries config d oldest sealed active f)
    (observed : List ℕ) (staged : List Bytes) (upTo : ℕ) (fates : List Fate) {s : Sys}
    (hrun : checkpoint upTo ⟨handleOn config oldest sealed active observed staged, ⟨d, fates⟩⟩ =
      (.crashed, s)) :
    ∃ k ≤ deletablePrefixLen (basesFrom oldest sealed) upTo,
      s.world.disk = removeAll ((basesFrom oldest sealed).take k) d ∧
      (RecoversDeleted config (released s.world.disk) upTo oldest sealed active ↔
        CleanSealed config d (activeBase oldest (sealed.take k)) (sealed.drop k) ∧
          InertActive config oldest sealed active f) := by
  obtain ⟨xs, ys, rfl, hx, hn, hends⟩ := checkpoint_triple h observed staged upTo fates
  rw [hrun] at hends
  obtain ⟨-, k, hk, hdisk⟩ := hends
  refine ⟨k, hn ▸ hk, hdisk, ?_⟩
  have hlen : ((xs ++ ys).take k).length = k :=
    List.length_take_of_le (hk.trans (by rw [List.length_append]; omega))
  have hbelow : (xs ++ ys).take k = [] ∨ activeBase oldest ((xs ++ ys).take k) - 1 ≤ upTo := by
    rw [List.take_append_of_le_length hk]
    refine hx.imp (fun hnil => by rw [hnil, List.take_nil]) fun hle => ?_
    have hall : activeBase oldest xs = activeBase (activeBase oldest (xs.take k)) (xs.drop k) := by
      rw [← activeBase_append, List.take_append_drop]
    have := le_activeBase (activeBase oldest (xs.take k)) (xs.drop k)
    omega
  rw [← List.take_append_drop k (xs ++ ys)] at h
  have hiff := h.recoversDeleted_iff hv hbelow
  rw [List.take_append_drop, hlen, ← hdisk] at hiff
  exact hiff

theorem checkpoint_recoversDeleted (hv : config.Valid) (h : Carries config d oldest sealed active f)
    (hclean : CleanSealed config d oldest sealed) (hi : InertActive config oldest sealed active f)
    (observed : List ℕ) (staged : List Bytes) (upTo : ℕ) (fates : List Fate) {s : Sys}
    (hrun : checkpoint upTo ⟨handleOn config oldest sealed active observed staged, ⟨d, fates⟩⟩ =
      (.crashed, s)) : RecoversDeleted config (released s.world.disk) upTo oldest sealed active := by
  obtain ⟨k, -, -, hiff⟩ := checkpoint_recoversDeleted_iff hv h observed staged upTo fates hrun
  rw [← List.take_append_drop k sealed] at hclean
  exact hiff.mpr ⟨(ChainFrom.append_iff.mp hclean).2, hi⟩

/-- The process may die in any call of a commit, exactly where no cut of a record of the batch
does harm and the segments it leaves end clean. -/
theorem commit_recoversPrefix_iff (hv : config.Valid)
    (hc : Committing config d oldest sealed active f staged) (observed : List ℕ) :
    (∀ fates s, commit ⟨handleOn config oldest sealed active observed staged, ⟨d, fates⟩⟩ = (.crashed, s) →
      (∀ b ∈ basesOf s.world.disk, NotCut b s.world.disk) →
        RecoversPrefix config (released s.world.disk) oldest (sealed.flatten ++ active) staged) ↔
      staged = [] ∨ CleanSealed config d oldest sealed ∧
        CutsRecover config.segmentSize config.maxRecordSize f.data (headerSize + runSize active)
          (activeBase oldest sealed + active.length) staged := by
  constructor
  · intro h
    by_cases hs : staged = []
    · exact Or.inl hs
    right
    have hne : (handleOn config oldest sealed active observed staged).staging ≠ [] :=
      encodeRun_eq_nil.not.mpr hs
    have hfuel : turnsLeft active staged ≤
        2 * (encodeRun (activeBase oldest sealed + active.length) staged).length + 2 := by
      have := le_runSize staged
      rw [turnsLeft, if_neg hs, encodeRun_length]
      split_ifs <;> omega
    have hdeaths : DeathsRecover config oldest (sealed.flatten ++ active) ([] ++ staged)
        (commitLoop (2 * (encodeRun (activeBase oldest sealed + active.length) staged).length + 2)
          ([] : Bytes).length)
        ⟨batchOn config oldest sealed active observed
          (encodeRun (activeBase oldest sealed + active.length) staged)
          (activeBase oldest sealed + active.length - 1 + staged.length), ⟨d, []⟩⟩ := by
      intro t ht hcut
      have hdies : Dies Sys.withFates commit
          ⟨handleOn config oldest sealed active observed staged, ⟨d, []⟩⟩ t := by
        refine Dies.state_bind (fun _ _ => rfl) ?_
        rw [if_neg (by simp [handleOn]), if_neg hne]
        exact ht.left _
      obtain ⟨fates, hrun⟩ := hdies
      exact h fates t hrun hcut
    exact hdeaths.cutsRecover hc hv (List.append_nil _).symm (List.nil_append _).symm hs hfuel
  · rintro (rfl | ⟨hclean, hcuts⟩) fates s hrun hcut
    · exact absurd hrun commit_nothing_ne_crashed
    · exact commit_recoversPrefix hv hc hclean hcuts observed fates hcut hrun

variable {ok : Machine → Op → List Fate → Prop} {m₀ m : Machine} {wal : Wal}

/-- The process may die in any call of a commit exactly where, the batch being empty apart, the
sealed segments end clean and no cut of a record of the batch does harm. Of a checkpoint that
dies, the log is recovered exactly where the segments it had not yet unlinked end well. -/
theorem processDeath_recovers_iff (hh : m₀.handle = none) (hl : m₀.disk.locked = false)
    (hm : Machine.Reaches config ok m₀ m) (hw : m.handle = some wal) (hp : wal.poisoned = false) :
    ∃ oldest sealed active staged f, wal.segments = basesFrom oldest sealed ∧
      wal.durableLsn + 1 = activeBase oldest sealed + active.length ∧
      wal.staging = encodeRun (wal.durableLsn + 1) staged ∧
      Committing config m.disk oldest sealed active f staged ∧
      ((∀ fates s, commit ⟨wal, ⟨m.disk, fates⟩⟩ = (.crashed, s) →
          (∀ b ∈ basesOf s.world.disk, NotCut b s.world.disk) →
            RecoversPrefix config (released s.world.disk) oldest (sealed.flatten ++ active) staged) ↔
        staged = [] ∨ CleanSealed config m.disk oldest sealed ∧
          CutsRecover config.segmentSize config.maxRecordSize f.data wal.writeOffset (wal.durableLsn + 1)
            staged) ∧
      ∀ upTo fates s, checkpoint upTo ⟨wal, ⟨m.disk, fates⟩⟩ = (.crashed, s) →
        ∃ k ≤ deletablePrefixLen wal.segments upTo,
          s.world.disk = removeAll (wal.segments.take k) m.disk ∧
          (RecoversDeleted config (released s.world.disk) upTo oldest sealed active ↔
            CleanSealed config m.disk (activeBase oldest (sealed.take k)) (sealed.drop k) ∧
              InertActive config oldest sealed active f) := by
  have hu := (Upheld.trivially config ok).run (hh ▸ .rest hl trivial) hm
  rw [hw] at hu
  cases hu with
  | stuck _ _ hpois => simp [hp] at hpois
  | live hv hlock hdir hc hobs hlive =>
    rename_i oldest sealed active observed staged f
    have hpos := hc.activeBase_pos
    have hdurable : activeBase oldest sealed + active.length - 1 + 1 =
        activeBase oldest sealed + active.length := by omega
    refine ⟨oldest, sealed, active, staged, f, rfl, hdurable, ?_, hc, ?_, ?_⟩
    · simp only [handleOn, hdurable]
    · have hiff := commit_recoversPrefix_iff hv hc observed
      simpa only [handleOn, hdurable] using hiff
    · intro upTo fates s hrun
      exact checkpoint_recoversDeleted_iff hv hc.toCarries observed staged upTo fates hrun

theorem StoredLog.cleanSealed {safe : Prop} (h : StoredLog config safe d oldest sealed active f) :
    CleanSealed config d oldest sealed := by
  apply h.chain.imp
  rintro b ps - - ⟨-, g, hg, hw, -⟩ g' hg'
  obtain rfl := Option.some.inj (hg.symm.trans hg')
  exact hw.cleanAt

/-- Where no call failed before, and the directory had no segments at first, the records of the
batch alone decide whether the process may die in its commit. -/
theorem processDeath_recovers_calm (hh : m₀.handle = none) (hl : m₀.disk.locked = false)
    (hb : basesOf m₀.disk = []) (hm : Machine.Reaches config NoFailure m₀ m)
    (hw : m.handle = some wal) : ∃ oldest sealed active staged, wal.segments = basesFrom oldest sealed ∧
      wal.durableLsn + 1 = activeBase oldest sealed + active.length ∧
      wal.staging = encodeRun (wal.durableLsn + 1) staged ∧
      (∀ fates s, commit ⟨wal, ⟨m.disk, fates⟩⟩ = (.crashed, s) →
        (∀ b ∈ basesOf s.world.disk, NotCut b s.world.disk) →
        CutsHarmless config.segmentSize config.maxRecordSize wal.writeOffset (wal.durableLsn + 1) staged →
          RecoversPrefix config (released s.world.disk) oldest (sealed.flatten ++ active) staged) ∧
      ∀ upTo fates s, checkpoint upTo ⟨wal, ⟨m.disk, fates⟩⟩ = (.crashed, s) →
        RecoversDeleted config (released s.world.disk) upTo oldest sealed active := by
  have hu := (Upheld.trivially config NoFailure).run (hh ▸ .rest hl trivial) hm
  obtain ⟨s, hs⟩ := represents_of_reaches hh hl hb hm
  cases hs with
  | absent hnone => simp [hw] at hnone
  | closed hnone => simp [hw] at hnone
  | @opened oldest sealed active staged observed f hsome _ h hbatch =>
    obtain rfl := Option.some.inj (hw.symm.trans hsome)
    obtain ⟨hv, -⟩ := UpheldBy.of_handle hu hw rfl
    have hpos := h.activeBase_pos
    have hdurable : activeBase oldest sealed + active.length - 1 + 1 =
        activeBase oldest sealed + active.length := by omega
    refine ⟨oldest, sealed, active, staged, rfl, hdurable, ?_, ?_, ?_⟩
    · simp only [handleOn, hdurable]
    · intro fates s hrun hcut hharmless
      simp only [handleOn, hdurable] at hharmless
      have hc : Committing config _ oldest sealed active f staged := ⟨h.carries, hbatch⟩
      exact commit_recoversPrefix hv hc h.cleanSealed (hc.cutsRecover hv h.written.rest hharmless)
        observed fates hcut hrun
    · intro upTo fates s hrun
      exact checkpoint_recoversDeleted hv h.carries h.cleanSealed (Or.inl h.written.cleanAt) observed
        staged upTo fates hrun

end

/-- Four zero bytes, the header of a frame numbered 1 that ends in zeros, and a seven. -/
def headerPayload : Bytes := zeros 4 ++ (encodeFrame 1 [0]).take recordHeaderSize ++ [7]

/-- None of the bytes of the record parse as a frame, until the seven is missing. -/
theorem cutFrame_run : ∃ m wal s, Machine.Reaches tightConfig (fun _ _ _ => True)
      (Machine.fresh true fun _ => 0) m ∧ m.handle = some wal ∧ wal.poisoned = false ∧
    wal.staging = encodeFrame 1 headerPayload ∧ wal.writeOffset = headerSize ∧
    commit ⟨wal, ⟨m.disk, [.crash 44]⟩⟩ = (.crashed, s) ∧
    reportOf tightConfig 1 (released s.world.disk) = none := by
  have hrun : ((Machine.fresh true fun _ => 0).runFated tightConfig
      [(.openLog 1, []), (.append headerPayload, [])]).map
        (fun r => r.2.handle.map fun wal => (wal.poisoned, wal.staging, wal.writeOffset,
          decide ((commit ⟨wal, ⟨r.2.disk, [.crash 44]⟩⟩).1 = .crashed),
          (reportOf tightConfig 1 (released
            (commit ⟨wal, ⟨r.2.disk, [.crash 44]⟩⟩).2.world.disk)).isNone)) =
      some (some (false, encodeFrame 1 headerPayload, headerSize, true, true)) := by decide +kernel
  obtain ⟨⟨os, m⟩, hrun, hres⟩ := Option.map_eq_some_iff.mp hrun
  obtain ⟨wal, hh, hwal⟩ := Option.map_eq_some_iff.mp hres
  simp only [Prod.mk.injEq, decide_eq_true_eq, Option.isNone_iff_eq_none] at hwal
  obtain ⟨hp, hstaging, hoffset, hcrash, hreport⟩ := hwal
  have hm : Machine.Reaches tightConfig (fun _ _ _ => True) (Machine.fresh true fun _ => 0) m :=
    Machine.Reaches.start.runFated (by simp [Op.Legal]; decide) hrun
  exact ⟨m, wal, _, hm, hh, hp, hstaging, hoffset, Prod.ext hcrash rfl, hreport⟩

/-- The zeros behind the cut complete the frame that the payload began: `open` refuses it. -/
theorem cutFrame_refused : ∃ m wal s, Machine.Reaches tightConfig (fun _ _ _ => True)
      (Machine.fresh true fun _ => 0) m ∧ m.handle = some wal ∧ wal.poisoned = false ∧
    wal.staging = encodeFrame 1 headerPayload ∧
    (∀ j < 6, 0 < j → ∀ lsn q n,
      decode ((encodeFrame 1 headerPayload).drop (8 * j)) tightConfig.maxRecordSize ≠ .record lsn q n) ∧
    commit ⟨wal, ⟨m.disk, [.crash 44]⟩⟩ = (.crashed, s) ∧
    ∀ oldest old, ¬ RecoversPrefix tightConfig (released s.world.disk) oldest old [headerPayload] := by
  obtain ⟨m, wal, s, hm, hh, hp, hstaging, -, hcrash, hreport⟩ := cutFrame_run
  refine ⟨m, wal, s, hm, hh, hp, hstaging, ?_, hcrash, fun oldest old h => ?_⟩
  · have hnone : ∀ j < 6, 0 < j → (decode ((encodeFrame 1 headerPayload).drop (8 * j))
        tightConfig.maxRecordSize).continues 0 = false := by decide +kernel
    intro j hj hpos lsn q n hrec
    have := hnone j hj hpos
    simp [hrec, Decoded.continues] at this
  · obtain ⟨wal', rep, i, -, ⟨w, -, hopen, -⟩, -⟩ := h 1 ⟨le_rfl, by decide⟩
    rw [reportOf, hopen] at hreport
    simp at hreport

/-- Four records over two segments, and three staged ones, the last of which has to go to a third
segment. -/
def rollingOps : List (Op × List Fate) :=
  (.openLog 1, []) :: ([[1], [2], [3], [4]].map fun p => (.append p, [])) ++
    (.commit, []) :: [[5], [6], [7]].map fun p => (.append p, [])

theorem rollingOps_run : ∃ m wal, Machine.Reaches tightConfig NoFailure
      (Machine.fresh true fun _ => 0) m ∧ m.handle = some wal ∧ wal.poisoned = false ∧
    wal.segments = [1, 4] ∧ wal.durableLsn = 4 ∧ wal.writeOffset = 88 ∧
    wal.staging = encodeRun 5 [[5], [6], [7]] ∧
    (commit ⟨wal, ⟨m.disk, List.replicate 7 .ok ++ [.crash 11]⟩⟩).1 = .crashed ∧
    (checkpoint 3 ⟨wal, ⟨m.disk, [.ok, .crash 0]⟩⟩).1 = .crashed := by
  have hrun : ((Machine.fresh true fun _ => 0).runFated tightConfig rollingOps).map
        (fun r => r.2.handle.map fun wal => (decide (wal.poisoned = false ∧ wal.segments = [1, 4] ∧
          wal.durableLsn = 4 ∧ wal.writeOffset = 88 ∧ wal.staging = encodeRun 5 [[5], [6], [7]] ∧
          (commit ⟨wal, ⟨r.2.disk, List.replicate 7 .ok ++ [.crash 11]⟩⟩).1 = .crashed ∧
          (checkpoint 3 ⟨wal, ⟨r.2.disk, [.ok, .crash 0]⟩⟩).1 = .crashed))) =
      some (some true) := by decide +kernel
  obtain ⟨⟨os, m⟩, hrun, hres⟩ := Option.map_eq_some_iff.mp hrun
  obtain ⟨wal, hh, hwal⟩ := Option.map_eq_some_iff.mp hres
  have hm : Machine.Reaches tightConfig NoFailure (Machine.fresh true fun _ => 0) m :=
    Machine.Reaches.start.runFated (by simp [rollingOps, Op.Legal, NoFailure]; decide) hrun
  exact ⟨m, wal, hm, hh, of_decide_eq_true hwal⟩

/-- The process may die anywhere in a commit that rolls, and in a checkpoint of its log. -/
theorem processDeath_recovers_iff_rolling : ∃ (m : Machine) (wal : Wal) (oldest : ℕ)
      (sealed : List (List Bytes)) (active : List Bytes), m.handle = some wal ∧
    wal.segments = [1, 4] ∧ wal.segments = basesFrom oldest sealed ∧
    wal.staging = encodeRun 5 [[5], [6], [7]] ∧
    (commit ⟨wal, ⟨m.disk, List.replicate 7 .ok ++ [.crash 11]⟩⟩).1 = .crashed ∧
    (checkpoint 3 ⟨wal, ⟨m.disk, [.ok, .crash 0]⟩⟩).1 = .crashed ∧
    (∀ fates s, commit ⟨wal, ⟨m.disk, fates⟩⟩ = (.crashed, s) →
      (∀ b ∈ basesOf s.world.disk, NotCut b s.world.disk) →
        RecoversPrefix tightConfig (released s.world.disk) oldest (sealed.flatten ++ active)
          [[5], [6], [7]]) ∧
    ∀ upTo fates s, checkpoint upTo ⟨wal, ⟨m.disk, fates⟩⟩ = (.crashed, s) →
      RecoversDeleted tightConfig (released s.world.disk) upTo oldest sealed active := by
  obtain ⟨m, wal, hm, hh, hp, hsegs, hdurable, hoffset, hstaging, hcommit, hcheck⟩ := rollingOps_run
  obtain ⟨oldest, sealed, active, staged, f, hbases, hnext, hst, hc, hcommits, hchecks⟩ :=
    processDeath_recovers_iff rfl rfl hm hh hp
  -- no call failed, so nothing but zeros lies behind the records of any segment
  obtain ⟨s, hs⟩ := represents_of_reaches rfl rfl rfl hm
  cases hs with
  | absent hnone => simp [hh] at hnone
  | closed hnone => simp [hh] at hnone
  | @opened oldest' sealed' active' staged' observed' f' hsome _ hlog _ =>
    obtain rfl := Option.some.inj (hh.symm.trans hsome)
    have hpos := hlog.carries.activeBase_pos
    simp only [handleOn] at hnext
    obtain ⟨rfl, rfl, rfl, rfl⟩ := hc.toCarries.unique hlog.carries (by omega)
    have hlast : activeBase oldest sealed + active.length - 1 = 4 := hdurable
    have hfive : activeBase oldest sealed + active.length = 5 := by omega
    have hstaged : staged = [[5], [6], [7]] := by
      have hb := hc.batch
      rw [hfive] at hb
      rw [hdurable] at hst
      exact hb.eq_of_encodeRun ⟨by decide, by decide⟩ (by decide) (hst.symm.trans hstaging)
    subst hstaged
    have hcuts := cutsRecover_of_zeroOn hc.batch (by decide) hc.le_length (by decide) hlog.written.rest
      (by
        have hx : headerSize + runSize active = 88 := hoffset
        rw [hx, hfive]
        exact ⟨by decide +kernel, by decide +kernel, by decide +kernel, trivial⟩)
    refine ⟨m, _, oldest, sealed, active, hh, hsegs, rfl, hstaging, hcommit, hcheck, ?_, ?_⟩
    · refine hcommits.mpr (Or.inr ⟨hlog.cleanSealed, ?_⟩)
      rw [← hnext] at hcuts
      exact hcuts
    · intro upTo fates s hrun
      obtain ⟨k, -, -, hiff⟩ := hchecks upTo fates s hrun
      have hclean := hlog.cleanSealed
      rw [← List.take_append_drop k sealed] at hclean
      exact hiff.mpr ⟨(ChainFrom.append_iff.mp hclean).2, Or.inl hlog.written.cleanAt⟩

end OpenWal
