import OpenWal.Theory.Opening

namespace OpenWal
open ByteSeq Posix CrashProg

variable [Crc32c]

/-- The directory holds the log with oldest number `oldest`: sealed segments with
the payloads `sealed`, then the active file `f` with those of `active`. -/
structure LogOn (ss mx : ℕ) (d : Disk) (oldest : ℕ) (sealed : List (List Bytes))
    (active : List Bytes) (f : File) : Prop where
  bases : basesOf d = basesFrom oldest sealed
  chain : SealedFrom ss mx d oldest sealed
  file : d.file (filenameFor (activeBase oldest sealed)) = some f
  holds : SegmentHolds ss mx f.data (activeBase oldest sealed) active

def handleOn (config : WalConfig) (oldest : ℕ) (sealed : List (List Bytes)) (active : List Bytes)
    (observed : List ℕ) (staged : List Bytes) : Wal where
  segments := basesFrom oldest sealed
  active := filenameFor (activeBase oldest sealed)
  writeOffset := headerSize + runSize active
  oldestLsn := oldest
  lastLsn := activeBase oldest sealed + active.length - 1 + staged.length
  durableLsn := activeBase oldest sealed + active.length - 1
  segmentSize := config.segmentSize
  maxRecordSize := config.maxRecordSize
  staging := encodeRun (activeBase oldest sealed + active.length) staged
  observed := observed
  poisoned := false

omit [Crc32c] in
def reportOn (oldest : ℕ) (sealed : List (List Bytes)) (active : List Bytes) (ts : TailState) :
    RecoveryReport where
  oldestLsn := oldest
  durableLsn := activeBase oldest sealed + active.length - 1
  tailState := ts
  segmentsScanned := (basesFrom oldest sealed).length

variable {config : WalConfig} {d d' : Disk} {oldest : ℕ} {sealed : List (List Bytes)}
  {active : List Bytes} {f f' : File}

namespace LogOn

variable {ss mx : ℕ}

theorem activeBase_le (h : LogOn ss mx d oldest sealed active f) :
    activeBase oldest sealed ≤ u64Max := h.holds.header.le_u64Max

theorem activeBase_pos (h : LogOn ss mx d oldest sealed active f) :
    1 ≤ activeBase oldest sealed := h.holds.header.pos

theorem next_le (h : LogOn ss mx d oldest sealed active f) :
    activeBase oldest sealed + active.length ≤ u64Max + 1 :=
  h.holds.run.lsn_le (h.activeBase_le.trans (Nat.le_succ _))

theorem oldest_pos (h : LogOn ss mx d oldest sealed active f) : 1 ≤ oldest := by
  cases sealed with
  | nil => exact h.activeBase_pos
  | cons ps rest =>
    obtain ⟨-, g, -, hg, -⟩ := h.chain.1
    exact hg.header.pos

theorem getLast?_bases (h : LogOn ss mx d oldest sealed active f) :
    (basesOf d).getLast? = some (activeBase oldest sealed) := by
  rw [h.bases, basesFrom_getLast?]

theorem bases_ne_nil (h : LogOn ss mx d oldest sealed active f) : basesOf d ≠ [] := by
  intro hnil
  simpa [hnil] using h.getLast?_bases

/-- No segment lies above the active one. -/
theorem free (h : LogOn ss mx d oldest sealed active f) {b : ℕ} (hb : b ≤ u64Max)
    (hlt : activeBase oldest sealed < b) : d.file (filenameFor b) = none := by
  cases hf : d.file (filenameFor b) with
  | none => rfl
  | some g =>
    have hmem := mem_basesOf.mpr ⟨hb, g, hf⟩
    rw [h.bases] at hmem
    have := (mem_basesFrom_le hmem).2
    omega

theorem le_length (h : LogOn ss mx d oldest sealed active f) :
    headerSize + runSize active ≤ f.data.length := h.holds.run.le_file h.holds.header.le_length

/-- Replacing the active file by one with the same records and more. -/
theorem setActive (h : LogOn ss mx d oldest sealed active f)
    (hset : SetTo d (filenameFor (activeBase oldest sealed)) f' d') {active' : List Bytes}
    (hs : SegmentHolds ss mx f'.data (activeBase oldest sealed) active') :
    LogOn ss mx d' oldest sealed active' f' := by
  refine ⟨(basesOf_setTo h.activeBase_le h.file hset).trans h.bases, h.chain.congr fun b _ hlt hb => ?_,
    hset.self, hs⟩
  exact hset.others _ (filenameFor_ne hb h.activeBase_le (by omega))

/-- A directory holds one log. -/
theorem unique {oldest' : ℕ} {sealed' : List (List Bytes)} {active' : List Bytes} {f' : File}
    (h : LogOn ss mx d oldest sealed active f) (h' : LogOn ss mx d oldest' sealed' active' f') :
    oldest' = oldest ∧ sealed' = sealed ∧ active' = active := by
  have hbases : basesFrom oldest sealed = basesFrom oldest' sealed' := h.bases.symm.trans h'.bases
  have hsame : ∀ {c ps qs}, SegmentAt ss mx d c ps → SegmentAt ss mx d c qs → ps = qs := by
    rintro c ps qs ⟨g, hg, hs⟩ ⟨g', hg', hs'⟩
    obtain rfl := Option.some.inj (hg.symm.trans hg')
    exact hs.run.eq_of_stops hs.stops hs'.run hs'.stops
  obtain rfl : oldest = oldest' := by
    obtain ⟨l, hl⟩ := basesFrom_eq_cons oldest sealed
    obtain ⟨l', hl'⟩ := basesFrom_eq_cons oldest' sealed'
    rw [hl, hl'] at hbases
    exact (List.cons.inj hbases).1
  obtain rfl := h.chain.eq_of_basesFrom h'.chain hbases fun c ps qs ⟨_, g, hg, hs, _⟩ ⟨_, g', hg', hs', _⟩ _ =>
    hsame ⟨g, hg, hs⟩ ⟨g', hg', hs'⟩
  exact ⟨rfl, rfl, hsame ⟨_, h'.file, h'.holds⟩ ⟨_, h.file, h.holds⟩⟩

/-- Without its active segment the log ends with the last sealed one. -/
theorem dropLast {init : List (List Bytes)} {last : List Bytes}
    (h : LogOn ss mx d oldest (init ++ [last]) active f) (hb : basesOf d' = (basesOf d).dropLast)
    (hd : ∀ c ≤ u64Max, c < activeBase oldest (init ++ [last]) →
      d'.file (filenameFor c) = d.file (filenameFor c)) :
    ∃ f', LogOn ss mx d' oldest init last f' ∧ CleanAt ss f'.data (headerSize + runSize last) := by
  obtain ⟨hinit, ⟨hne, g, hg, hs, hc⟩, -⟩ := ChainFrom.append_iff.mp h.chain
  have hlt : activeBase oldest init < activeBase oldest (init ++ [last]) := by
    rw [activeBase_append, activeBase_cons, activeBase_nil]
    exact Nat.lt_add_of_pos_right (List.length_pos_iff.mpr hne)
  refine ⟨g, ⟨?_, SealedFrom.congr hinit fun c _ hlt' hcu => hd c hcu (hlt'.trans hlt), ?_, hs⟩, hc⟩
  · rw [hb, h.bases, basesFrom_append_singleton, List.dropLast_concat]
  · rw [hd _ hs.header.le_u64Max hlt, hg]

end LogOn

def acquired (d : Disk) : Disk :=
  { d with dirExists := true, dirDurable := d.dirExists && d.dirDurable, locked := true }

omit [Crc32c] in
@[simp] theorem acquired_file (d : Disk) (n : FileName) : (acquired d).file n = d.file n := rfl

omit [Crc32c] in
@[simp] theorem basesOf_acquired (d : Disk) : basesOf (acquired d) = basesOf d := rfl

theorem logOn_acquired {ss mx : ℕ} : LogOn ss mx (acquired d) oldest sealed active f ↔
    LogOn ss mx d oldest sealed active f := by
  have hsealed : ∀ base (xs : List (List Bytes)), SealedFrom ss mx (acquired d) base xs ↔
      SealedFrom ss mx d base xs := by
    intro base xs
    exact ⟨fun h => h.congr fun _ _ _ _ => rfl, fun h => h.congr fun _ _ _ _ => rfl⟩
  exact ⟨fun h => ⟨h.bases, (hsealed _ _).mp h.chain, h.file, h.holds⟩,
    fun h => ⟨h.bases, (hsealed _ _).mpr h.chain, h.file, h.holds⟩⟩

def recoveredOn (oldest : ℕ) (sealed : List (List Bytes)) (active : List Bytes) (ts : TailState) :
    Recovered where
  active := filenameFor (activeBase oldest sealed)
  writeOffset := headerSize + runSize active
  lastLsn := activeBase oldest sealed + active.length - 1
  oldestLsn := oldest
  segments := basesFrom oldest sealed
  tailState := ts

theorem recoverFound_of_logOn (seed : ℕ) {ts : TailState}
    (h : LogOn config.segmentSize config.maxRecordSize d oldest sealed active f)
    (ht : TailOk config.segmentSize config.maxRecordSize f (activeBase oldest sealed)
      (headerSize + runSize active) (activeBase oldest sealed + active.length) ts f') :
    ∃ d', recoverFound config seed (basesOf d) ⟨d, []⟩ =
        (.ret (recoveredOn oldest sealed active ts), ⟨d', []⟩) ∧
      SetTo d (filenameFor (activeBase oldest sealed)) f' d' := by
  obtain ⟨rest, hr⟩ := basesFrom_eq_cons oldest sealed
  have hfollows : Follows none oldest := fun _ hm => absurd hm (by simp)
  obtain ⟨prevMax, hp, hseg⟩ := recoverSegments_of_sealedFrom config hfollows h.chain
    h.activeBase_le hr
  obtain ⟨d', hone, hset⟩ := recoverOne_of_tailOk config h.file h.holds hp ht
  refine ⟨d', ?_, hset⟩
  have hlast : rest.getLastD oldest = activeBase oldest sealed := by
    rw [← basesFrom_getLastD oldest oldest sealed, hr, List.getLastD_cons]
  rw [h.bases, hr, recoverFound, recoverAll, Prog.bind_of_ret (hseg.trans hone), hlast, recoveredOn, hr]
  rfl

/-- Where what follows the records of the active segment is no end, recovery fails there. -/
theorem recoverFound_of_fatal (seed : ℕ)
    (h : LogOn config.segmentSize config.maxRecordSize d oldest sealed active f)
    (hc : ¬ CleanAt config.segmentSize f.data (headerSize + runSize active))
    (ht : ¬ TornAt config.segmentSize config.maxRecordSize f.data (headerSize + runSize active)
      (activeBase oldest sealed + active.length)) :
    recoverFound config seed (basesOf d) ⟨d, []⟩ =
      (.err (fatalError (activeBase oldest sealed) true (headerSize + runSize active)
        (activeBase oldest sealed + active.length)), ⟨d, []⟩) := by
  obtain ⟨rest, hr⟩ := basesFrom_eq_cons oldest sealed
  have hfollows : Follows none oldest := fun _ hm => absurd hm (by simp)
  obtain ⟨prevMax, hp, hseg⟩ := recoverSegments_of_sealedFrom config hfollows h.chain
    h.activeBase_le hr
  have hone := recoverOne_of_fatal config h.file h.holds hp true hc fun _ => ht
  rw [h.bases, hr, recoverFound, recoverAll, Prog.bind_of_err (hseg.trans hone)]

theorem freshSegment_zeroOn (base ss created : ℕ) :
    ZeroOn (freshSegment base ss created).data headerSize ss := by
  intro i hi hlt
  rw [freshSegment, List.getElem?_append_right (by rw [encodeHeader_length]; exact hi),
    encodeHeader_length, zeros_getElem?, if_pos (by omega)]

theorem freshSegment_cleanAt {ss : ℕ} (base created : ℕ) (hss : headerSize + 20 ≤ ss) :
    CleanAt ss (freshSegment base ss created).data headerSize :=
  Or.inr ((freshSegment_zeroOn base ss created).mono le_rfl hss)

theorem freshSegment_holds {ss mx base created : ℕ} (h1 : 1 ≤ base) (hb : base ≤ u64Max)
    (hss : headerSize + 20 ≤ ss) : SegmentHolds ss mx (freshSegment base ss created).data base [] :=
  ⟨headerOk_encodeHeader _ h1 hb, trivial, (freshSegment_cleanAt base created hss).stops⟩

/-- A new segment in a directory without one is a log without records. -/
theorem logOn_fresh {ss : ℕ} (mx : ℕ) {seed created : ℕ} (h1 : 1 ≤ seed) (hseed : seed ≤ u64Max)
    (hss : headerSize + 20 ≤ ss) (hnone : basesOf d = [])
    (hset : SetTo d (filenameFor seed) (freshSegment seed ss created) d') :
    LogOn ss mx d' seed [] [] (freshSegment seed ss created) := by
  refine ⟨basesOf_eq (by simp [basesFrom]) fun b => ?_, trivial, hset.self,
    freshSegment_holds h1 hseed hss⟩
  simp only [basesFrom, List.mem_singleton]
  constructor
  · rintro rfl
    exact ⟨hseed, _, hset.self⟩
  · rintro ⟨hb, g, hg⟩
    by_contra hne
    rw [hset.others _ (filenameFor_ne hb hseed hne)] at hg
    have := mem_basesOf.mpr ⟨hb, g, hg⟩
    simp [hnone] at this

/-- Where there is no segment, the log starts at the seed. -/
theorem recoverFound_of_none (config : WalConfig) {seed : ℕ} (h : basesOf d = []) (hseed : seed ≤ u64Max)
    (hss : headerSize ≤ config.segmentSize) :
    ∃ created d', recoverFound config seed (basesOf d) ⟨d, []⟩ =
        (.ret (recoveredOn seed [] [] .clean), ⟨d', []⟩) ∧
      SetTo d (filenameFor seed) (freshSegment seed config.segmentSize created) d' := by
  have hnone : d.file (filenameFor seed) = none := by
    cases hf : d.file (filenameFor seed) with
    | none => rfl
    | some g =>
      have := mem_basesOf.mpr ⟨hseed, g, hf⟩
      simp [h] at this
  obtain ⟨created, d', hc, hset⟩ := create_calm hnone hss
  refine ⟨created, d'.syncDir, ?_, ⟨hset.self, hset.others, hset.locked, ?_⟩⟩
  · rw [h, recoverFound, coldStart, Prog.bind_of_ret hc, fsyncDirectory,
      Prog.seq_of_ret (Prog.mapErr_of_ret (fsyncDir_calm d'))]
    rfl
  · rw [Disk.syncDir_unlinked, hset.unlinked]

theorem recoverDirectory_of_discards {d₀ : Disk} (h : Discards config d d₀) (seed : ℕ) :
    recoverDirectory config seed ⟨d, []⟩ = recoverFound config seed (basesOf d₀) ⟨d₀, []⟩ := by
  rw [recoverDirectory, Prog.bind_of_ret (discoverSegments_calm d),
    Prog.bind_of_ret (discardIncompleteHighest_of_discards h)]

/-- Where recovery of a directory succeeds, it found a log with an accepted end, or
started one. -/
theorem recoverDirectory_eq_ret {seed : ℕ} {rec' : Recovered} {w : World}
    (h : recoverDirectory config seed ⟨d, []⟩ = (.ret rec', w)) :
    ∃ d₀, Discards config d d₀ ∧ recoverFound config seed (basesOf d₀) ⟨d₀, []⟩ = (.ret rec', w) ∧
      (basesOf d₀ = [] ∨ ∃ oldest sealed active f ts f',
        LogOn config.segmentSize config.maxRecordSize d₀ oldest sealed active f ∧
        TailOk config.segmentSize config.maxRecordSize f (activeBase oldest sealed)
          (headerSize + runSize active) (activeBase oldest sealed + active.length) ts f') := by
  rw [recoverDirectory, Prog.bind_of_ret (discoverSegments_calm d)] at h
  obtain ⟨bases, w₀, hd, h⟩ := Prog.bind_eq_ret h
  obtain ⟨d₀, hdis, rfl, rfl⟩ := discardIncompleteHighest_eq_ret config hd
  refine ⟨d₀, hdis, h, ?_⟩
  cases hb : basesOf d₀ with
  | nil => exact Or.inl rfl
  | cons base rest =>
    right
    rw [hb, recoverFound, recoverAll] at h
    obtain ⟨seg, w₁, hseg, h⟩ := Prog.bind_eq_ret h
    obtain ⟨-, sealed, active, f, ts, f', hbases, hchain, hf, hs, ht⟩ := recoverSegments_eq_ret config hseg
    exact ⟨base, sealed, active, f, ts, f', ⟨hb.trans hbases, hchain, hf, hs⟩, ht⟩

omit [Crc32c] in
theorem lockDirectory_calm (hl : d.locked = false) :
    lockDirectory ⟨d, []⟩ = (.ret (), ⟨acquired d, []⟩) := by
  set d₁ : Disk := { d with dirExists := true, dirDurable := d.dirExists && d.dirDurable }
  have hdir : createDirAll ⟨d, []⟩ = (.ret (), ⟨d₁, []⟩) := rfl
  have hfile : openLockFile ⟨d₁, []⟩ = (.ret (), ⟨d₁, []⟩) := rfl
  have hlock : flock ⟨d₁, []⟩ = (.ret (), ⟨acquired d, []⟩) := by
    rw [flock, Prog.bind_of_ret (Prog.state_run _), if_neg (by simp [d₁, hl])]
    rfl
  rw [lockDirectory, Prog.seq_of_ret (Prog.mapErr_of_ret hdir), Prog.seq_of_ret hfile, hlock]

omit [Crc32c] in
theorem lockDirectory_locked (hl : d.locked = true) :
    ∃ w, lockDirectory ⟨d, []⟩ = (.err .locked, w) := by
  set d₁ : Disk := { d with dirExists := true, dirDurable := d.dirExists && d.dirDurable }
  have hdir : createDirAll ⟨d, []⟩ = (.ret (), ⟨d₁, []⟩) := rfl
  have hfile : openLockFile ⟨d₁, []⟩ = (.ret (), ⟨d₁, []⟩) := rfl
  have hlock : flock ⟨d₁, []⟩ = (.err .locked, ⟨d₁, []⟩) := by
    rw [flock, Prog.bind_of_ret (Prog.state_run _), if_pos (by simpa [d₁] using hl)]
    rfl
  exact ⟨_, by rw [lockDirectory, Prog.seq_of_ret (Prog.mapErr_of_ret hdir), Prog.seq_of_ret hfile, hlock]⟩

omit [Crc32c] in
theorem lockDirectory_eq_ret {w : World} (h : lockDirectory ⟨d, []⟩ = (.ret (), w)) :
    d.locked = false := by
  by_contra hl
  obtain ⟨w', hlock⟩ := lockDirectory_locked (by simpa using hl : d.locked = true)
  rw [hlock] at h
  simp at h

/-- `open` takes the lock and recovers; an error drops the lock. -/
theorem openSeeded_locked {seed : ℕ} (hv : config.Valid) (hseed : 1 ≤ seed) (hl : d.locked = false) :
    openSeeded config seed ⟨d, []⟩ =
      (do
        let rec' ← Prog.onError unlock (recoverDirectory config seed)
        return (rec'.wal config, rec'.report)) ⟨acquired d, []⟩ := by
  rw [openSeeded, if_neg (Nat.not_lt.mpr hv), if_neg (by simp [isNone, show seed ≠ 0 by omega]),
    Prog.seq_of_ret (lockDirectory_calm hl)]

theorem openSeeded_of_recovered {seed : ℕ} {ts : TailState} {w : World} (hv : config.Valid)
    (hseed : 1 ≤ seed) (hl : d.locked = false)
    (h : recoverDirectory config seed ⟨acquired d, []⟩ =
      (.ret (recoveredOn oldest sealed active ts), w)) :
    openSeeded config seed ⟨d, []⟩ =
      (.ret (handleOn config oldest sealed active [] [], reportOn oldest sealed active ts), w) := by
  rw [openSeeded_locked hv hseed hl, Prog.bind_of_ret (Prog.onError_of_ret h)]
  rfl

theorem openSeeded_of_err {seed : ℕ} {e : WalError} {w : World} (hv : config.Valid)
    (hseed : 1 ≤ seed) (hl : d.locked = false)
    (h : recoverDirectory config seed ⟨acquired d, []⟩ = (.err e, w)) :
    openSeeded config seed ⟨d, []⟩ = (.err e, unlock w) := by
  rw [openSeeded_locked hv hseed hl, Prog.bind_of_err (Prog.onError_of_err h)]

theorem openSeeded_eq_ret_recovered {seed : ℕ} {r : Wal × RecoveryReport} {w : World}
    (h : openSeeded config seed ⟨d, []⟩ = (.ret r, w)) :
    config.Valid ∧ 1 ≤ seed ∧ d.locked = false ∧
      ∃ rec', recoverDirectory config seed ⟨acquired d, []⟩ = (.ret rec', w) := by
  have hv : config.Valid := by
    by_contra hv
    rw [openSeeded, if_pos (Nat.not_le.mp hv)] at h
    simp at h
  have hseed : 1 ≤ seed := by
    by_contra hs
    rw [openSeeded, if_neg (Nat.not_lt.mpr hv), if_pos (by simp [isNone]; omega)] at h
    simp at h
  have hl : d.locked = false := by
    rw [openSeeded, if_neg (Nat.not_lt.mpr hv), if_neg (by simp [isNone, show seed ≠ 0 by omega])] at h
    obtain ⟨_, w', hlock, -⟩ := Prog.bind_eq_ret h
    exact lockDirectory_eq_ret hlock
  refine ⟨hv, hseed, hl, ?_⟩
  rw [openSeeded_locked hv hseed hl] at h
  obtain ⟨rec', w', hr, hret⟩ := Prog.bind_eq_ret h
  obtain ⟨-, rfl⟩ := Prod.mk.inj hret
  exact ⟨rec', Prog.onError_eq_ret hr⟩

/-- A directory that holds a log with an accepted end is opened on it. -/
theorem openSeeded_of_logOn {seed : ℕ} {ts : TailState} (hv : config.Valid) (hseed : 1 ≤ seed)
    (hl : d.locked = false)
    (h : LogOn config.segmentSize config.maxRecordSize d oldest sealed active f)
    (ht : TailOk config.segmentSize config.maxRecordSize f (activeBase oldest sealed)
      (headerSize + runSize active) (activeBase oldest sealed + active.length) ts f') :
    ∃ d', openSeeded config seed ⟨d, []⟩ =
        (.ret (handleOn config oldest sealed active [] [], reportOn oldest sealed active ts),
          ⟨d', []⟩) ∧
      SetTo (acquired d) (filenameFor (activeBase oldest sealed)) f' d' := by
  have hkeep : Discards config (acquired d) (acquired d) :=
    .keep (logOn_acquired.mpr h).getLast?_bases h.file h.holds.header
  obtain ⟨d', hr, hset⟩ := recoverFound_of_logOn seed (logOn_acquired.mpr h) ht
  exact ⟨d', openSeeded_of_recovered hv hseed hl ((recoverDirectory_of_discards hkeep seed).trans hr),
    hset⟩

omit [Crc32c] in
theorem WalConfig.Valid.fits (hv : config.Valid) {n : ℕ} (hn : n ≤ config.maxRecordSize) :
    headerSize + framedSize n ≤ config.segmentSize := by
  have := framedSize_le n
  have : config.maxRecordSize + 91 ≤ config.segmentSize := hv
  simp only [headerSize]
  omega

omit [Crc32c] in
theorem WalConfig.Valid.room (hv : config.Valid) : headerSize + 20 ≤ config.segmentSize := by
  have : config.maxRecordSize + 91 ≤ config.segmentSize := hv
  simp only [headerSize]
  omega

/-- A directory without a segment is opened on an empty log. -/
theorem openSeeded_of_none {seed : ℕ} (hv : config.Valid) (hseed : 1 ≤ seed) (hs : seed ≤ u64Max)
    (hl : d.locked = false) (h : basesOf d = []) :
    ∃ created d', openSeeded config seed ⟨d, []⟩ =
        (.ret (handleOn config seed [] [] [] [], reportOn seed [] [] .clean), ⟨d', []⟩) ∧
      SetTo (acquired d) (filenameFor seed) (freshSegment seed config.segmentSize created) d' := by
  have hnothing : Discards config (acquired d) (acquired d) := .nothing h
  obtain ⟨created, d', hr, hset⟩ := recoverFound_of_none (d := acquired d) config h hs
    ((Nat.le_add_right _ _).trans hv.room)
  exact ⟨created, d', openSeeded_of_recovered hv hseed hl
    ((recoverDirectory_of_discards hnothing seed).trans hr), hset⟩

/-- What a successful `open` of `d` returns, and the disk `d'` it leaves. -/
inductive Opens (config : WalConfig) (d : Disk) (seed : ℕ) : Wal → RecoveryReport → Disk → Prop
  | created {d₀ d' : Disk} {created : ℕ} : Discards config (acquired d) d₀ → basesOf d₀ = [] →
      SetTo d₀ (filenameFor seed) (freshSegment seed config.segmentSize created) d' →
      Opens config d seed (handleOn config seed [] [] [] []) (reportOn seed [] [] .clean) d'
  | recovered {d₀ d' : Disk} {oldest : ℕ} {sealed : List (List Bytes)} {active : List Bytes}
      {f f' : File} {ts : TailState} : Discards config (acquired d) d₀ →
      LogOn config.segmentSize config.maxRecordSize d₀ oldest sealed active f →
      TailOk config.segmentSize config.maxRecordSize f (activeBase oldest sealed)
        (headerSize + runSize active) (activeBase oldest sealed + active.length) ts f' →
      SetTo d₀ (filenameFor (activeBase oldest sealed)) f' d' →
      Opens config d seed (handleOn config oldest sealed active [] []) (reportOn oldest sealed active ts)
        d'

theorem openSeeded_opens {seed : ℕ} {wal : Wal} {rep : RecoveryReport} {w : World}
    (hs : seed ≤ u64Max) (h : openSeeded config seed ⟨d, []⟩ = (.ret (wal, rep), w)) :
    config.Valid ∧ 1 ≤ seed ∧ ∃ d', w = ⟨d', []⟩ ∧ Opens config d seed wal rep d' := by
  obtain ⟨hv, hseed, hl, rec', hr⟩ := openSeeded_eq_ret_recovered h
  refine ⟨hv, hseed, ?_⟩
  obtain ⟨d₀, hdis, -, hnone | ⟨oldest, sealed, active, f, ts, f', hlog, ht⟩⟩ :=
    recoverDirectory_eq_ret hr
  · obtain ⟨created, d', hc, hset⟩ := recoverFound_of_none config hnone hs
      ((Nat.le_add_right _ _).trans hv.room)
    have hopen := openSeeded_of_recovered hv hseed hl ((recoverDirectory_of_discards hdis seed).trans hc)
    rw [h, Prod.mk.injEq, Outcome.ret.injEq, Prod.mk.injEq] at hopen
    obtain ⟨⟨rfl, rfl⟩, rfl⟩ := hopen
    exact ⟨d', rfl, .created hdis hnone hset⟩
  · obtain ⟨d', hc, hset⟩ := recoverFound_of_logOn seed hlog ht
    have hopen := openSeeded_of_recovered hv hseed hl ((recoverDirectory_of_discards hdis seed).trans hc)
    rw [h, Prod.mk.injEq, Outcome.ret.injEq, Prod.mk.injEq] at hopen
    obtain ⟨⟨rfl, rfl⟩, rfl⟩ := hopen
    exact ⟨d', rfl, .recovered hdis hlog ht hset⟩

/-- Where `open` succeeds, the directory holds the log of the handle, which ends
cleanly; its records were there before. -/
theorem Opens.log {seed : ℕ} {wal : Wal} {rep : RecoveryReport} (h : Opens config d seed wal rep d')
    (hv : config.Valid) (h1 : 1 ≤ seed) (hs : seed ≤ u64Max) :
    ∃ oldest sealed active ts f',
      wal = handleOn config oldest sealed active [] [] ∧ rep = reportOn oldest sealed active ts ∧
      LogOn config.segmentSize config.maxRecordSize d' oldest sealed active f' ∧
      CleanAt config.segmentSize f'.data (headerSize + runSize active) ∧ d'.locked = true ∧
      (sealed = [] ∧ active = [] ∨
        SealedFrom config.segmentSize config.maxRecordSize d oldest sealed ∧
        SegmentAt config.segmentSize config.maxRecordSize d (activeBase oldest sealed) active) := by
  cases h with
  | @created d₀ _ created hdis hnone hset =>
    exact ⟨seed, [], [], .clean, _, rfl, rfl, logOn_fresh _ h1 hs hv.room hnone hset,
      freshSegment_cleanAt seed created hv.room, hset.locked.trans hdis.locked, Or.inl ⟨rfl, rfl⟩⟩
  | @recovered d₀ _ oldest sealed active f f' ts hdis hlog ht hset =>
    obtain ⟨hholds, hclean⟩ := ht.holds hlog.holds
    refine ⟨oldest, sealed, active, ts, f', rfl, rfl, hlog.setActive hset hholds, hclean,
      hset.locked.trans hdis.locked, Or.inr ⟨?_, f, hdis.file hlog.file, hlog.holds⟩⟩
    exact hlog.chain.mono fun n g hg => hdis.file hg

end OpenWal
