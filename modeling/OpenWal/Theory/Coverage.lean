import OpenWal.Theory.FailingRuns

namespace OpenWal
open ByteSeq Posix CrashProg

variable [Crc32c]

def Sealed (b : ℕ) (d : Disk) : Prop :=
  ∃ b' f, b < b' ∧ d.file (filenameFor b') = some f ∧ HeaderOk f.data b'

variable {d d' : Disk} {b : ℕ} {f f' : File}

theorem Sealed.le_u64Max (h : Sealed b d) : b ≤ u64Max := by
  obtain ⟨b', f, hlt, -, hh⟩ := h
  exact hlt.le.trans hh.le_u64Max

/-- The highest segment is above a sealed one. -/
theorem Sealed.lt_highest (h : Sealed b d) {base : ℕ} (hb : (basesOf d).getLast? = some base) :
    b < base := by
  obtain ⟨b', f, hlt, hf, hh⟩ := h
  exact hlt.trans_le (le_highest_basesOf (mem_basesOf.mpr ⟨hh.le_u64Max, f, hf⟩) hb)

/-- A discarded segment had no valid header. -/
theorem Sealed.dropped {config : WalConfig} (h : Sealed b d) (hd : Dropped config d d') :
    Sealed b d' := by
  obtain ⟨base, f, hb, hf, hi, hs⟩ := hd
  have hbase := (mem_basesOf.mp (List.mem_of_getLast? hb)).1
  obtain ⟨b', f', hlt, hf', hh⟩ := h
  have hne : b' ≠ base := by
    rintro rfl
    obtain rfl := Option.some.inj (hf.symm.trans hf')
    rcases hi with hnil | ⟨-, hno, -⟩
    · have := hh.le_length
      simp [hnil, headerSize] at this
    · exact hno hh
  refine ⟨b', f', hlt, ?_, hh⟩
  rwa [hs.file, Disk.remove_file_ne _ (filenameFor_ne hh.le_u64Max hbase hne)]

def RecordsSynced (config : WalConfig) (b : ℕ) (f : File) : Prop :=
  ∀ ps, Run config.segmentSize config.maxRecordSize f.data headerSize b ps →
    f.SyncedOn headerSize (headerSize + runSize ps)

variable {config : WalConfig}

omit [Crc32c] in
theorem syncedOn_of_all {x y : ℕ} (h : (List.range y).all f.synced = true) : f.SyncedOn x y :=
  fun _ _ hi => List.all_eq_true.mp h _ (List.mem_range.mpr hi)

theorem recordsSynced_of_all (h : f.SyncedOn headerSize f.data.length) : RecordsSynced config b f := by
  intro ps hr
  by_cases hle : headerSize ≤ f.data.length
  · exact h.mono le_rfl (hr.le_file hle)
  · cases ps with
    | nil =>
      intro i hi hi'
      rw [runSize_nil] at hi'
      omega
    | cons p ps =>
      have := hr.1.le_file
      omega

theorem sync_recordsSynced (f : File) : RecordsSynced config b f.sync :=
  recordsSynced_of_all (File.sync_syncedOn _ le_rfl)

theorem freshSegment_recordsSynced (base created : ℕ) (hss : headerSize ≤ config.segmentSize) :
    RecordsSynced config b (freshSegment base config.segmentSize created) := by
  apply recordsSynced_of_all
  intro i _ hi
  have hl : (freshSegment base config.segmentSize created).data.length = config.segmentSize := by
    simp only [freshSegment, List.length_append, encodeHeader_length, zeros_length]
    omega
  rw [hl] at hi
  exact decide_eq_true hi

/-- Where the records end cleanly there are no others. -/
theorem recordsSynced_of_cleanAt {ps : List Bytes}
    (hr : Run config.segmentSize config.maxRecordSize f.data headerSize b ps)
    (hc : CleanAt config.segmentSize f.data (headerSize + runSize ps))
    (hs : f.SyncedOn headerSize (headerSize + runSize ps)) : RecordsSynced config b f := by
  intro qs hqs
  obtain ⟨more, rfl⟩ := hr.prefix_of_stops hc.stops hqs
  rw [runSize_append] at hs
  exact hs.mono le_rfl (by omega)

/-- Every record of a sealed segment is synced. -/
def Covered (config : WalConfig) (d : Disk) : Prop :=
  ∀ b f, Sealed b d → d.file (filenameFor b) = some f → RecordsSynced config b f

theorem Covered.of_subset (h : Covered config d)
    (hd : ∀ n f, d'.file n = some f → d.file n = some f) : Covered config d' := by
  rintro b f ⟨b', f', hlt, hf', hh⟩ hf
  exact h b f ⟨b', f', hlt, hd _ _ hf', hh⟩ (hd _ _ hf)

theorem Covered.ofFiles : OfFiles (Covered config) := fun _ _ hd h =>
  h.of_subset fun _ _ hf => (hd.file _).symm.trans hf

theorem Covered.removeAll (h : Covered config d) (bases : List ℕ) :
    Covered config (removeAll bases d) :=
  h.of_subset fun _ _ hf => removeAll_subset hf

/-- Behind its header, the highest segment may change. -/
theorem Covered.highest (h : Covered config d) {base : ℕ} (hb : (basesOf d).getLast? = some base)
    (hf : d.file (filenameFor base) = some f) (hd : DiffersAt (filenameFor base) d d')
    (hf' : d'.file (filenameFor base) = some f') (hs : AgreeOn f.data f'.data 0 headerSize) :
    Covered config d' := by
  have hbase := (mem_basesOf.mp (List.mem_of_getLast? hb)).1
  rintro b g ⟨b', g', hlt, hg', hh⟩ hg
  have hsealed : Sealed b d := by
    by_cases hne : b' = base
    · subst hne
      obtain rfl := Option.some.inj (hf'.symm.trans hg')
      exact ⟨b', f, hlt, hf, hh.congr hs.symm⟩
    · exact ⟨b', g', hlt, (hd.others _ (filenameFor_ne hh.le_u64Max hbase hne)).symm.trans hg', hh⟩
  have hlt' := hsealed.lt_highest hb
  exact h b g hsealed ((hd.others _ (filenameFor_ne hsealed.le_u64Max hbase hlt'.ne)).symm.trans hg)

/-- What a write behind the records of the active segment leaves covered. -/
theorem Covered.put_active {oldest : ℕ} {sealed : List (List Bytes)} {active : List Bytes}
    (h : Covered config d) (hc : Carries config d oldest sealed active f)
    (hs : SameBefore (headerSize + runSize active) f f') :
    Covered config (d.put (filenameFor (activeBase oldest sealed)) f') :=
  h.highest hc.getLast?_bases hc.file (OnlyAt.put _ _ _).toDiffersAt (Disk.put_file_self _ _ _)
    (hs.data.mono le_rfl (Nat.le_add_right _ _))

/-- A single segment is not sealed. -/
theorem covered_of_none (hnone : basesOf d = []) {n : FileName} (hd : DiffersAt n d d') :
    Covered config d' := by
  rintro b f ⟨b', f', hlt, hf', hh⟩ hf
  have hname : ∀ c g, c ≤ u64Max → d'.file (filenameFor c) = some g → filenameFor c = n := by
    intro c g hc hg
    by_contra hne
    have := mem_basesOf.mpr ⟨hc, g, (hd.others _ hne).symm.trans hg⟩
    simp [hnone] at this
  have hb := hname b f (hlt.le.trans hh.le_u64Max) hf
  exact absurd (hb.trans (hname b' f' hh.le_u64Max hf').symm)
    (filenameFor_ne (hlt.le.trans hh.le_u64Max) hh.le_u64Max hlt.ne)

/-- What becomes of the next segment seals the active one. -/
theorem Covered.next {oldest : ℕ} {sealed : List (List Bytes)} {active rest : List Bytes}
    (h : Covered config d) (hc : Committing config d oldest sealed active f rest) (hr : rest ≠ [])
    (ha : active ≠ []) (hs : RecordsSynced config (activeBase oldest sealed) f)
    (hd : DiffersAt (filenameFor (activeBase oldest sealed + active.length)) d d') :
    Covered config d' := by
  have hnext := hc.next_le_u64Max hr
  have hbelow := hc.below_next hr ha hd
  rintro b g ⟨b', g', hlt, hg', hh⟩ hg
  have hle' : b' ≤ activeBase oldest sealed + active.length := by
    by_contra hlt'
    have hother := hd.others _ (filenameFor_ne hh.le_u64Max hnext (by omega))
    rw [hother, hc.free hh.le_u64Max (by omega)] at hg'
    simp at hg'
  have hb := hlt.le.trans hh.le_u64Max
  have hlen := List.length_pos_iff.mpr ha
  -- between the active segment and the next one there is none
  have hle : b ≤ activeBase oldest sealed := by
    by_contra hlt'
    have hother := hd.others _ (filenameFor_ne hb hnext (by omega))
    rw [hother, hc.free hb (by omega)] at hg
    simp at hg
  rw [hbelow b hle hb] at hg
  rcases hle.lt_or_eq with hlt' | rfl
  · exact h b g ⟨activeBase oldest sealed, f, hlt', hc.file, hc.header⟩ hg
  · obtain rfl := Option.some.inj (hc.file.symm.trans hg)
    exact hs

/-- What is discarded seals nothing. -/
theorem Sealed.discards {d₀ : Disk} (h : Sealed b d) (hd : Discards config (acquired d) d₀) : Sealed b d₀ := by
  obtain ⟨b', f, hlt, hf, hh⟩ := h
  have hacq : Sealed b (acquired d) := ⟨b', f, hlt, hf, hh⟩
  rcases hd.dropped with rfl | hd
  · exact hacq
  · exact hacq.dropped hd

/-- The active segment of an open log is not sealed. -/
theorem LogOn.not_sealed {oldest : ℕ} {sealed : List (List Bytes)} {active : List Bytes}
    (h : LogOn config.segmentSize config.maxRecordSize d oldest sealed active f) :
    ¬ Sealed (activeBase oldest sealed) d :=
  fun hs => lt_irrefl _ (hs.lt_highest h.getLast?_bases)

theorem Covered.dropped (h : Covered config d) (hd : Dropped config d d') : Covered config d' := by
  obtain ⟨base, f, -, -, -, hs⟩ := hd
  exact Covered.ofFiles _ _ hs (h.of_subset fun _ _ hf => remove_subset hf)

theorem openSeeded_covered (h : Covered config d) (seed : ℕ) :
    Triple (OnDisk (· = d)) (openSeeded config seed) (fun _ => OnDisk (Covered config))
      (fun _ => OnDisk (Covered config)) (OnDisk (Covered config)) := by
  have hdis : ∀ d₀, Discards config (acquired d) d₀ → Covered config d₀ := by
    intro d₀ hd
    have hacq : Covered config (acquired d) := Covered.ofFiles _ _ ⟨fun _ => rfl, rfl⟩ h
    rcases hd.dropped with rfl | hd
    · exact hacq
    · exact hacq.dropped hd
  refine (openSeeded_triple seed Covered.ofFiles h (fun _ _ d' hd => h.dropped hd) ?_ ?_).conseq
    (fun _ hw => hw) (fun _ _ hw => hw) (fun _ _ hw => hw.1) fun _ hw => hw
  · intro _ _ d₀ d' _ hnil hd _
    exact covered_of_none hnil hd
  · rintro - - d₀ base f ps d' hd hb hf - ⟨⟨hdiff, f', hf', hs⟩, -⟩
    exact (hdis d₀ hd).highest hb hf hdiff hf' (hs.data.mono le_rfl (Nat.le_add_right _ _))

theorem covered_fresh (fallocates : Bool) (clock : ℕ → ℕ) :
    Covered config (Disk.fresh fallocates clock) := by
  intro b f _ hf
  have hnone : (Disk.fresh fallocates clock).file (filenameFor b) = none := rfl
  simp [hnone] at hf

end OpenWal
