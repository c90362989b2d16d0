import OpenWal.Library.PowerCut
import OpenWal.Theory.Resting

namespace OpenWal
open ByteSeq Posix CrashProg

variable {d d' d₀ : Disk} {n : FileName} {f : File}

structure Entered (n : FileName) (d : Disk) : Prop where
  dirExists : d.dirExists = true
  dirDurable : d.dirDurable = true
  name : d.file n = none ∨ d.nameDurable n = true

namespace Entered

theorem modify (h : Entered n d) (m : FileName) (g : File → File) : Entered n (d.modify m g) := by
  have honly := OnlyAt.modify m g d
  refine ⟨honly.dirExists.trans h.dirExists, honly.dirDurable.trans h.dirDurable, ?_⟩
  have hname : (d.modify m g).nameDurable = d.nameDurable := by
    unfold Disk.modify
    split <;> rfl
  rw [hname]
  refine h.name.imp_left fun hnone => ?_
  by_cases hn : n = m
  · subst hn
    rw [Disk.modify_file_self, hnone, Option.map_none]
  · rw [Disk.modify_file_ne g d hn, hnone]

theorem remove (h : Entered n d) (m : FileName) : Entered n (d.remove m) := by
  obtain ⟨hexists, hdurable, hname⟩ := remove_flags m d
  refine ⟨hexists.trans h.dirExists, hdurable.trans h.dirDurable, ?_⟩
  rw [hname]
  refine h.name.imp_left fun hnone => ?_
  by_cases hn : n = m
  · rw [hn, Disk.remove_file_self]
  · rw [Disk.remove_file_ne d hn, hnone]

theorem syncDir (h : Entered n d) : Entered n d.syncDir := by
  refine ⟨h.dirExists, h.dirDurable, ?_⟩
  cases hf : d.file n with
  | none => exact Or.inl hf
  | some f => exact Or.inr (Option.isSome_of_eq_some hf)

theorem onlyAt {m : FileName} (h : Entered n d) (honly : OnlyAt m d d') (hn : n ≠ m) :
    Entered n d' := by
  refine ⟨honly.dirExists.trans h.dirExists, honly.dirDurable.trans h.dirDurable, ?_⟩
  rw [honly.others n hn, honly.nameDurable n hn]
  exact h.name

theorem put (h : Entered n d) {m : FileName} (hf : d.file m = some f) (g : File) :
    Entered n (d.put m g) := by
  rw [← Disk.modify_of_file hf fun _ => g]
  exact h.modify m _

theorem removeAll (h : Entered n d) (bases : List ℕ) : Entered n (removeAll bases d) := by
  induction bases generalizing d with
  | nil => exact h
  | cons b bases ih => exact ih (h.remove _)

theorem lockDirectory : Keeps (OnDisk (Entered n)) lockDirectory := by
  have hflock : Keeps (OnDisk (Entered n)) flock := by
    refine Triple.bind Keeps.state fun w => Triple.cond (fun _ => Keeps.raise _) fun _ => ?_
    exact Keeps.syscall (I := Entered n) (fun _ h => ⟨h.1, h.2, h.3⟩) fun _ _ h => h
  apply Triple.seq (Keeps.mapErr (Keeps.syscall (I := Entered n) (fun e h => ?_) fun _ _ h => h))
  · exact Triple.seq (Keeps.syscall (I := Entered n) (fun _ h => h) fun _ _ h => h) hflock
  · exact ⟨rfl, by simp [h.dirExists, h.dirDurable], h.name⟩

end Entered

section

variable [Crc32c] {config : WalConfig} {b : ℕ} {ps : List Bytes}

def HeldFirm (config : WalConfig) (b : ℕ) (ps : List Bytes) (d : Disk) : Prop :=
  ∃ f, d.file (filenameFor b) = some f ∧ HeaderOk f.data b ∧
    Run config.segmentSize config.maxRecordSize f.data headerSize b ps ∧
    f.SyncedOn 0 (headerSize + runSize ps)

namespace HeldFirm

theorem mem_basesOf (h : HeldFirm config b ps d) : b ∈ basesOf d := by
  obtain ⟨f, hf, hh, -⟩ := h
  exact OpenWal.mem_basesOf.mpr ⟨hh.le_u64Max, f, hf⟩

theorem le_u64Max (h : HeldFirm config b ps d) : b ≤ u64Max := by
  obtain ⟨f, -, hh, -⟩ := h
  exact hh.le_u64Max

theorem of_file (h : HeldFirm config b ps d)
    (hf : d'.file (filenameFor b) = d.file (filenameFor b)) : HeldFirm config b ps d' := by
  obtain ⟨f, hfile, h⟩ := h
  exact ⟨f, hf.trans hfile, h⟩

theorem ofFiles : OfFiles (HeldFirm config b ps) := fun _ _ hs h => h.of_file (hs.file _)

theorem discards (h : HeldFirm config b ps d) (hd : Discards config d d₀) :
    HeldFirm config b ps d₀ := by
  obtain ⟨f, hf, hh, h⟩ := h
  exact ⟨f, hd.file_of_headerOk hf hh, hh, h⟩

theorem dropped (h : HeldFirm config b ps d) (hd : Dropped config d d') : HeldFirm config b ps d' := by
  obtain ⟨base, g, hlast, hg, hi, hs⟩ := hd
  exact ofFiles _ _ ((SameFiles.syncDir _).symm.trans hs) (h.discards (.drop hlast hg hi))

/-- A file is rewritten, this one behind its records at most. -/
theorem rewritten {x : ℕ} (h : HeldFirm config b ps d) (hf : d.file n = some f)
    (hx : n = filenameFor b → headerSize + runSize ps ≤ x) (hr : RewrittenFrom n x f d d') :
    HeldFirm config b ps d' := by
  obtain ⟨hd, f', hf', hs⟩ := hr
  by_cases hn : filenameFor b = n
  · subst hn
    obtain ⟨g, hg, hh, hrun, hsync⟩ := h
    obtain rfl := Option.some.inj (hf.symm.trans hg)
    have hx := hx rfl
    exact ⟨f', hf', hh.congr (hs.data.mono le_rfl ((Nat.le_add_right _ _).trans hx)),
      hrun.congr (hs.data.mono (Nat.zero_le _) hx), hs.syncedOn hsync hx⟩
  · exact h.of_file (hd.others _ hn)

/-- A file is added. -/
theorem added (h : HeldFirm config b ps d) (hn : d.file n = none) (hd : DiffersAt n d d') :
    HeldFirm config b ps d' := by
  refine h.of_file (hd.others _ ?_)
  rintro rfl
  obtain ⟨f, hf, -⟩ := h
  simp [hn] at hf

/-- Its records are among those of the file. -/
theorem prefix_of_stops {qs : List Bytes} (h : HeldFirm config b ps d)
    (hf : d.file (filenameFor b) = some f)
    (hs : SegmentHolds config.segmentSize config.maxRecordSize f.data b qs) : ps <+: qs := by
  obtain ⟨g, hg, -, hrun, -⟩ := h
  obtain rfl := Option.some.inj (hf.symm.trans hg)
  exact hs.run.prefix_of_stops hs.stops hrun

end HeldFirm

omit [Crc32c] in
theorem runSize_mono {qs : List Bytes} (h : ps <+: qs) : runSize ps ≤ runSize qs := by
  obtain ⟨r, rfl⟩ := h
  rw [runSize_append]
  exact Nat.le_add_right _ _

theorem openSeeded_heldFirm (h : HeldFirm config b ps d) (seed : ℕ) :
    Triple (OnDisk (· = d)) (openSeeded config seed) (fun _ => OnDisk (HeldFirm config b ps))
      (fun _ => OnDisk (HeldFirm config b ps)) (OnDisk (HeldFirm config b ps)) := by
  have hacq : HeldFirm config b ps (acquired d) := HeldFirm.ofFiles _ _ ⟨fun _ => rfl, rfl⟩ h
  refine (openSeeded_triple seed HeldFirm.ofFiles h (fun _ _ _ hd => h.dropped hd) ?_ ?_).conseq
    (fun _ hw => hw) (fun _ _ hw => hw) (fun _ _ hw => hw.1) fun _ hw => hw
  · rintro - - d₀ d' hd hnil - -
    simpa [hnil] using (hacq.discards hd).mem_basesOf
  · rintro - - d₀ base f qs d' hd - hf hs hz
    have hheld := hacq.discards hd
    refine hheld.rewritten hf (fun hn => ?_) hz.1
    obtain rfl := filenameFor_injective hs.header.le_u64Max h.le_u64Max hn
    exact Nat.add_le_add_left (runSize_mono (hheld.prefix_of_stops hf hs)) _

/-- An `open` enters its names, and no other, and it creates no file where there is a segment. -/
theorem openSeeded_entered (h : HeldFirm config b ps d) (he : Entered n d) (seed : ℕ) :
    Triple (OnDisk (· = d)) (openSeeded config seed) (fun _ => OnDisk (Entered n))
      (fun _ => OnDisk (Entered n)) (OnDisk (Entered n)) := by
  have hsame : ∀ w : World, w.disk = d → Entered n w.disk := by
    rintro w rfl
    exact he
  unfold openSeeded
  refine Triple.cond (fun _ => Triple.raise _ hsame) fun _ => ?_
  refine Triple.cond (fun _ => Triple.raise _ hsame) fun _ => ?_
  apply Triple.seq (((lockDirectory_triple d).both Entered.lockDirectory).conseq
    (fun _ hw => ⟨hw, hsame _ hw⟩) (fun _ _ hw => hw) (fun _ _ hw => hw.2) fun _ hw => hw.2)
  have hunlock : ∀ w : World, Entered n w.disk → Entered n (unlock w).disk :=
    fun _ hw => ⟨hw.1, hw.2, hw.3⟩
  refine Triple.bind (Q := fun _ => OnDisk (Entered n)) (Triple.onError ?_) fun _ => Triple.ret _ fun _ h => h
  refine Triple.conseq (P := fun w => w.disk = acquired d ∧ Entered n w.disk)
    (E := fun _ => OnDisk (Entered n)) ?_ (fun _ hw => ⟨hw.1.1, hw.2⟩) (fun _ _ h => h) (fun _ => hunlock)
    fun _ h => h
  have hheld : HeldFirm config b ps (acquired d) := HeldFirm.ofFiles _ _ ⟨fun _ => rfl, rfl⟩ h
  apply Triple.bind (Q := fun bases w => (w.disk = acquired d ∧ bases = basesOf (acquired d)) ∧
    Entered n w.disk)
  · refine Triple.bind (Triple.mapErr (((readDir_reads (acquired d)).both (readDir_keeps (Entered n))).conseq
      (fun _ h => h) (fun _ _ h => h) (fun _ _ h => h.2) fun _ h => h.2)) fun names => ?_
    exact Triple.ret _ fun w h => ⟨⟨h.1.1, by rw [h.1.2, basesOf]⟩, h.2⟩
  intro bases
  apply Triple.of_fact (fun _ h => h.1.2)
  rintro rfl
  have hdiscard := (discardIncompleteHighest_triple (d := acquired d) config).both
    (discardIncompleteHighest_keeps (I := Entered n) config (fun m _ h => h.remove m)
      (fun _ h => h.syncDir) (basesOf (acquired d)))
  refine Triple.bind (hdiscard.conseq (fun _ h => ⟨h.1.1, h.2⟩) (fun _ _ h => h) (fun _ _ h => h.2)
    fun _ h => h.2) ?_
  rintro bases w ⟨⟨hdis, rfl⟩, hw⟩
  have hmem := (hheld.discards hdis).mem_basesOf
  cases hb : basesOf w.disk with
  | nil => simp [hb] at hmem
  | cons base rest =>
    have hkeep : Keeps (OnDisk (Entered n)) (recoverSegments config none base rest) :=
      recoverSegments_keeps config (fun m g _ h => h.modify m g) none base rest
    exact Keeps.bind hkeep (fun _ => Keeps.ret _) w hw

/-- Segment `b` starts with the records `ps`, synced, and under durable names. -/
structure FirmAt (config : WalConfig) (b : ℕ) (ps : List Bytes) (d : Disk) : Prop where
  held : HeldFirm config b ps d
  entered : Entered (filenameFor b) d

/-- A handle on the segments `bases`, its last record `last`, writes from record `m` on only,
and goes on from segment `b` no earlier. -/
structure ClearOf (b m last : ℕ) (bases : List ℕ) : Prop where
  le : m ≤ last + 1
  below : ∀ c ∈ bases, b < c → m ≤ c

variable {oldest seed : ℕ} {sealed xs ys : List (List Bytes)} {active rest : List Bytes} {g : File}

theorem FirmAt.powerCut (h : FirmAt config b ps d) (hcut : PowerCut d d') : FirmAt config b ps d' := by
  obtain ⟨f, hf, hh, hrun, hsync⟩ := h.held
  have hname := h.entered.name.resolve_left (by simp [hf])
  obtain ⟨hname', g, hg, hagree, hsync'⟩ :=
    hcut.file h.entered.dirDurable hname hf (hrun.le_file hh.le_length) hsync
  have hexists := hcut.dir h.entered.dirExists h.entered.dirDurable
  refine ⟨⟨g, hg, ?_, ?_, hsync'⟩, hexists, hcut.dirFound hexists, Or.inr hname'⟩
  · exact hh.congr (hagree.mono le_rfl (Nat.le_add_right _ _))
  · exact hrun.congr (hagree.mono (Nat.zero_le _) le_rfl)

theorem FirmAt.unlocked (h : FirmAt config b ps d) : FirmAt config b ps { d with locked := false } :=
  ⟨HeldFirm.ofFiles _ _ ⟨fun _ => rfl, rfl⟩ h.held, h.entered.1, h.entered.2, h.entered.3⟩

theorem FirmAt.syncDir (h : FirmAt config b ps d) : FirmAt config b ps d.syncDir :=
  ⟨HeldFirm.ofFiles _ _ (.syncDir _) h.held, h.entered.syncDir⟩

/-- The records of the segment end at or before those of the active one. -/
theorem HeldFirm.runSize_le (h : HeldFirm config b ps d) (hc : Carries config d oldest sealed active f)
    (hw : ClearOf b (b + ps.length) (activeBase oldest sealed + active.length - 1) (basesFrom oldest sealed))
    (hn : filenameFor (activeBase oldest sealed) = filenameFor b) : runSize ps ≤ runSize active := by
  obtain rfl := filenameFor_injective hc.activeBase_le h.le_u64Max hn
  obtain ⟨g, hg, -, hrun, -⟩ := h
  obtain rfl := Option.some.inj (hc.file.symm.trans hg)
  have hpos := hc.activeBase_pos
  have hle := hw.le
  rcases hrun.prefix_total hc.run with hp | hp
  · exact runSize_mono hp
  · rw [List.IsPrefix.eq_of_length_le hp (by omega)]

/-- What is written behind the records of the active segment. -/
theorem FirmAt.put_active (h : FirmAt config b ps d) (hc : Carries config d oldest sealed active f)
    (hw : ClearOf b (b + ps.length) (activeBase oldest sealed + active.length - 1) (basesFrom oldest sealed))
    (hs : SameBefore (headerSize + runSize active) f g) :
    FirmAt config b ps (d.put (filenameFor (activeBase oldest sealed)) g) := by
  refine ⟨h.held.rewritten hc.file (fun hn => ?_) ⟨(OnlyAt.put _ _ _).toDiffersAt, g,
    Disk.put_file_self _ _ _, hs⟩, h.entered.put hc.file g⟩
  exact Nat.add_le_add_left (h.held.runSize_le hc hw hn) _

/-- The next segment is another file. -/
theorem FirmAt.next (h : FirmAt config b ps d) (hc : Committing config d oldest sealed active f rest)
    (hr : rest ≠ []) (ha : active ≠ [])
    (honly : OnlyAt (filenameFor (activeBase oldest sealed + active.length)) d d') :
    FirmAt config b ps d' := by
  have hfree := hc.next_free ha (hc.next_le_u64Max hr)
  refine ⟨h.held.added hfree honly.toDiffersAt, h.entered.onlyAt honly fun hn => ?_⟩
  obtain ⟨f, hf, -⟩ := h.held
  rw [hn, hfree] at hf
  simp at hf

/-- Older segments are deleted. -/
theorem FirmAt.removeAll (h : FirmAt config b ps d) (hc : Carries config d oldest (xs ++ ys) active f)
    (hb : activeBase oldest xs ≤ b) :
    FirmAt config b ps (removeAll ((basesFrom oldest (xs ++ ys)).take xs.length) d) := by
  refine ⟨h.held.of_file ?_, h.entered.removeAll _⟩
  exact (basesOf_drop hc.ne_nil hc.bases (fun _ hb => removeAll_file_mem hb)
    fun _ hn => removeAll_file hn).2 b h.held.le_u64Max hb

theorem openSeeded_firmAt (h : FirmAt config b ps d) (seed : ℕ) :
    Triple (OnDisk (· = d)) (openSeeded config seed) (fun _ => OnDisk (FirmAt config b ps))
      (fun _ => OnDisk (FirmAt config b ps)) (OnDisk (FirmAt config b ps)) :=
  ((openSeeded_heldFirm h.held seed).both (openSeeded_entered h.held h.entered seed)).conseq
    (fun _ hw => ⟨hw, hw⟩) (fun _ _ hw => ⟨hw.1, hw.2⟩) (fun _ _ hw => ⟨hw.1, hw.2⟩) fun _ hw => ⟨hw.1, hw.2⟩

/-- The segment is one of the log, and its records are among those there. -/
theorem HeldFirm.segment (h : HeldFirm config b ps d)
    (hlog : LogOn config.segmentSize config.maxRecordSize d oldest sealed active f) :
    ∃ xs qs ys, sealed ++ [active] = xs ++ qs :: ys ∧ b = activeBase oldest xs ∧ ps <+: qs := by
  rcases mem_basesFrom_cases (hlog.bases ▸ h.mem_basesOf) with rfl | ⟨xs, qs, ys, rfl, rfl⟩
  · exact ⟨sealed, active, [], rfl, rfl, h.prefix_of_stops hlog.file hlog.holds⟩
  · obtain ⟨-, g, hg, hholds, -⟩ := (ChainFrom.append_iff.mp hlog.chain).2.1
    exact ⟨xs, qs, ys ++ [active], by simp, rfl, h.prefix_of_stops hg hholds⟩

theorem HeldFirm.mem_numbered (h : HeldFirm config b ps d)
    (hlog : LogOn config.segmentSize config.maxRecordSize d oldest sealed active f) {r : ℕ × Bytes}
    (hr : r ∈ numbered b ps) : r ∈ numbered oldest (sealed.flatten ++ active) := by
  obtain ⟨xs, qs, ys, hsplit, rfl, more, rfl⟩ := h.segment hlog
  have hflat := congrArg List.flatten hsplit
  rw [List.flatten_append, List.flatten_singleton] at hflat
  rw [hflat, List.flatten_append, List.flatten_cons, List.append_assoc, numbered_append]
  refine List.mem_append_right _ ?_
  rw [numbered_append]
  exact List.mem_append_left _ hr

omit [Crc32c] in
/-- The bases above a segment come after its records. -/
theorem le_of_mem_basesFrom {c : ℕ} {qs : List Bytes} (hc : c ∈ basesFrom oldest sealed)
    (hsplit : sealed ++ [active] = xs ++ qs :: ys) (hlt : activeBase oldest xs < c) :
    activeBase oldest xs + qs.length ≤ c := by
  rcases List.eq_nil_or_concat ys with rfl | ⟨ys, q, rfl⟩
  · obtain ⟨rfl, -⟩ := List.append_inj' hsplit rfl
    have := (mem_basesFrom_le hc).2
    omega
  · rw [List.concat_eq_append, ← List.cons_append, ← List.append_assoc] at hsplit
    obtain ⟨rfl, -⟩ := List.append_inj' hsplit rfl
    rcases mem_basesFrom_append.mp hc with hc | hc
    · have := (mem_basesFrom_le hc).2
      omega
    · rcases List.mem_cons.mp hc with rfl | hc
      · omega
      · exact (mem_basesFrom_le hc).1

omit [Crc32c] in
theorem clearOf_of_split {qs : List Bytes} (hsplit : sealed ++ [active] = xs ++ qs :: ys) (hp : ps <+: qs) :
    ClearOf (activeBase oldest xs) (activeBase oldest xs + ps.length)
      (activeBase oldest sealed + active.length - 1) (basesFrom oldest sealed) := by
  have hle := hp.length_le
  have hlen := congrArg (fun segs => oldest + segs.flatten.length) hsplit
  simp only [List.flatten_append, List.length_append, List.flatten_cons, List.flatten_nil,
    List.length_nil] at hlen
  refine ⟨by simp only [activeBase]; omega, fun c hc hlt => ?_⟩
  have := le_of_mem_basesFrom hc hsplit hlt
  omega

theorem HeldFirm.clearOf (h : HeldFirm config b ps d)
    (hlog : LogOn config.segmentSize config.maxRecordSize d oldest sealed active f) :
    ClearOf b (b + ps.length) (activeBase oldest sealed + active.length - 1) (basesFrom oldest sealed) := by
  obtain ⟨xs, qs, ys, hsplit, rfl, hp⟩ := h.segment hlog
  exact clearOf_of_split hsplit hp

/-- What an `open` that returns recovers. -/
theorem HeldFirm.recovered {wal : Wal} {rep : RecoveryReport} {rs : List (ℕ × Bytes)}
    (h : HeldFirm config b ps d) (hrec : Recovers config d seed wal rep rs) (hs : seed ≤ u64Max) :
    ∀ r ∈ numbered b ps, r ∈ rs := by
  obtain ⟨-, -, -, d₀, hdis, oldest, sealed, active, ts, -, -, rfl, hfound⟩ := hrec.cases hs
  have hacq : HeldFirm config b ps (acquired d) := HeldFirm.ofFiles _ _ ⟨fun _ => rfl, rfl⟩ h
  have hheld := hacq.discards hdis
  rcases hfound with ⟨hnil, -⟩ | ⟨f, f', hlog, -⟩
  · simpa [hnil] using hheld.mem_basesOf
  · exact fun r hr => hheld.mem_numbered hlog hr

/-- The segment is firm, and an open handle, unless it is poisoned, is clear of it. -/
structure Firm (config : WalConfig) (b : ℕ) (ps : List Bytes) (d : Disk) (handle : Option Wal) : Prop where
  firmAt : FirmAt config b ps d
  clear : ∀ wal, handle = some wal → wal.poisoned = false →
    ClearOf b (b + ps.length) wal.durableLsn wal.segments

variable {staged : List Bytes} {observed : List ℕ}

theorem Firm.of_poisoned {wal : Wal} (h : FirmAt config b ps d) (hp : wal.poisoned = true) :
    Firm config b ps d (some wal) := by
  refine ⟨h, fun wal' hw hp' => ?_⟩
  obtain rfl := Option.some.inj hw
  simp [hp] at hp'

theorem firm_handleOn (h : FirmAt config b ps d)
    (hw : ClearOf b (b + ps.length) (activeBase oldest sealed + active.length - 1)
      (basesFrom oldest sealed)) :
    Firm config b ps d (some (handleOn config oldest sealed active observed staged)) :=
  ⟨h, fun _ hwal _ => Option.some.inj hwal ▸ hw⟩

theorem commitRule_firm (config : WalConfig) (b : ℕ) (ps : List Bytes) (oldest : ℕ) :
    CommitRule config oldest
      (fun sealed active _ _ _ d => FirmAt config b ps d ∧ ClearOf b (b + ps.length)
        (activeBase oldest sealed + active.length - 1) (basesFrom oldest sealed))
      fun _ _ _ d => FirmAt config b ps d where
  cut _ hc hj _ := hj.1.put_active hc.toCarries hj.2 (.write _ hc.le_length le_rfl)
  store {sealed active _ rest f d} hc hj _ := by
    have hwrite := SameBefore.write (encodeRun (activeBase oldest sealed + active.length)
      (fit (roomIn config active) rest)) hc.le_length le_rfl
    refine ⟨hj.1.put_active hc.toCarries hj.2 (hwrite.trans (.sync hwrite.length)), ?_, hj.2.below⟩
    have := hj.2.le
    rw [List.length_append]
    omega
  begun hc hj hr ha _ hb := hj.1.next hc hr ha hb.1
  rolled {sealed active _ _ _ _ _ _} hc hj hr ha _ honly _ := by
    have hpos := hc.activeBase_pos
    have hle := hj.2.le
    refine ⟨(hj.1.next hc hr ha honly).syncDir, ?_, fun c hcm hlt => ?_⟩
    · rw [Carries.activeBase_roll, List.length_nil]
      omega
    · rw [basesFrom_append_singleton] at hcm
      rcases List.mem_append.mp hcm with hcm | hcm
      · exact hj.2.below c hcm hlt
      · rw [List.mem_singleton.mp hcm]
        omega

theorem commit_firm (hv : config.Valid) (hc : Committing config d oldest sealed active f staged)
    (h : Firm config b ps d (some (handleOn config oldest sealed active observed staged)))
    (fates : List Fate) :
    Ends (fun _ s => Firm config b ps s.world.disk (some s.wal))
      (fun _ s => Firm config b ps s.world.disk (some s.wal))
      (fun s => FirmAt config b ps s.world.disk)
      (commit ⟨handleOn config oldest sealed active observed staged, ⟨d, fates⟩⟩) := by
  by_cases hs : staged = []
  · subst hs
    exact h
  · refine (commit_triple (commitRule_firm config b ps oldest) hv hs fates hc
      ⟨h.firmAt, h.clear _ rfl rfl⟩).imp ?_ ?_ ?_
    · rintro _ s ⟨-, _, _, _, _, -, hwal, -, hfirm, hclear⟩
      rw [hwal]
      exact firm_handleOn hfirm hclear
    · rintro _ s ⟨-, _, _, _, hwal, hfirm⟩
      exact .of_poisoned hfirm (by rw [hwal]; rfl)
    · rintro s ⟨_, _, _, -, hfirm⟩
      exact hfirm

/-- A checkpoint below the last of its records leaves the segment. -/
theorem checkpoint_firm (hc : Carries config d oldest sealed active f)
    (h : Firm config b ps d (some (handleOn config oldest sealed active observed staged)))
    {upTo : ℕ} (hlt : upTo + 1 < b + ps.length) (fates : List Fate) :
    Ends (fun _ s => Firm config b ps s.world.disk (some s.wal))
      (fun _ s => Firm config b ps s.world.disk (some s.wal))
      (fun s => FirmAt config b ps s.world.disk)
      (checkpoint upTo ⟨handleOn config oldest sealed active observed staged, ⟨d, fates⟩⟩) := by
  have hclear := h.clear _ rfl rfl
  have hmem := h.firmAt.held.mem_basesOf
  rw [hc.bases] at hmem
  obtain ⟨xs, ys, rfl, hx, -, hends⟩ := checkpoint_triple hc observed staged upTo fates
  have hsub : ∀ c ∈ basesFrom (activeBase oldest xs) ys, c ∈ basesFrom oldest (xs ++ ys) :=
    fun c hcm => mem_basesFrom_append.mpr (Or.inr hcm)
  -- the segment is not below the last one that goes
  have hle : activeBase oldest xs ≤ b := by
    by_contra hgt
    have := hclear.below (activeBase oldest xs) (hsub _ (by
      obtain ⟨r, hr⟩ := basesFrom_eq_cons (activeBase oldest xs) ys
      rw [hr]
      exact List.mem_cons_self)) (Nat.not_le.mp hgt)
    rcases hx with rfl | hx
    · have := (mem_basesFrom_le hmem).1
      simp only [activeBase_nil] at hgt
      omega
    · omega
  have hsome : ∀ k ≤ xs.length,
      FirmAt config b ps (removeAll ((basesFrom oldest (xs ++ ys)).take k) d) := by
    intro k hk
    have hsplit : xs ++ ys = xs.take k ++ (xs.drop k ++ ys) := by
      rw [← List.append_assoc, List.take_append_drop]
    have hall : activeBase oldest xs = activeBase (activeBase oldest (xs.take k)) (xs.drop k) := by
      rw [← activeBase_append, List.take_append_drop]
    have hbelow := le_activeBase (activeBase oldest (xs.take k)) (xs.drop k)
    have hleft := h.firmAt.removeAll (hsplit ▸ hc) (show activeBase oldest (xs.take k) ≤ b by omega)
    rwa [← hsplit, List.length_take_of_le hk] at hleft
  refine hends.imp ?_ ?_ ?_
  · rintro _ s ⟨hwal, hs⟩
    rw [hwal]
    refine firm_handleOn ?_ ⟨?_, fun c hcm => hclear.below c (hsub c hcm)⟩
    · rcases hs with ⟨-, hs⟩ | ⟨-, hs⟩
      · exact hs ▸ h.firmAt
      · exact hs ▸ (hsome _ le_rfl).syncDir
    · have := hclear.le
      simp only [handleOn, activeBase_append] at this
      exact this
  · rintro _ s ⟨-, hwal, k, hk, hs⟩
    exact .of_poisoned (hs ▸ hsome k hk) (by rw [hwal]; rfl)
  · rintro s ⟨-, k, hk, hs⟩
    exact hs ▸ hsome k hk

/-- An append changes what is staged only. -/
theorem append_firm {wal : Wal} (h : Firm config b ps d (some wal)) (fates : List Fate) (p : Bytes) :
    Ends (fun _ s => Firm config b ps s.world.disk (some s.wal))
      (fun _ s => Firm config b ps s.world.disk (some s.wal))
      (fun s => FirmAt config b ps s.world.disk) (append p ⟨wal, ⟨d, fates⟩⟩) := by
  have hstaged : ∀ wal' : Wal, wal'.poisoned = wal.poisoned → wal'.durableLsn = wal.durableLsn →
      wal'.segments = wal.segments → Firm config b ps d (some wal') := by
    refine fun wal' hp hd hs => ⟨h.firmAt, fun _ hw hpois => ?_⟩
    obtain rfl := Option.some.inj hw
    rw [hd, hs]
    exact h.clear wal rfl (hp ▸ hpois)
  rw [append, Prog.bind_of_ret (Prog.state_run _)]
  split_ifs
  · exact h
  · exact h
  · cases checkedNext wal.lastLsn with
    | none => exact h
    | some lsn => exact hstaged _ rfl rfl rfl

end

end OpenWal
