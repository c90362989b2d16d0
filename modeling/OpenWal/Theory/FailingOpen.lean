import OpenWal.Theory.Interrupted

namespace OpenWal
open ByteSeq Posix CrashProg

variable {d : Disk} {n : FileName} {f : File}

variable [Crc32c]

theorem coldStart_keeps (ss seed : ℕ) (d : Disk) :
    Keeps (OnDisk (DiffersAt (filenameFor seed) d)) (coldStart ss seed) :=
  (create_keeps seed ss d).bind fun _ =>
    (fsyncDirectory_keeps (.differsAt _ d)).seq (Keeps.ret _)

/-- Of a log that is being started there is at most a segment in creation. -/
theorem coldStart_begunFile {ss seed : ℕ} (hnone : d.file (filenameFor seed) = none)
    (hss : headerSize ≤ ss) :
    Triple (OnDisk (· = d)) (coldStart ss seed) (fun _ => OnDisk (BegunFile seed ss))
      (fun _ => OnDisk (BegunFile seed ss)) (OnDisk (BegunFile seed ss)) := by
  apply Triple.bind (Q := fun _ => OnDisk (BegunFile seed ss))
  · refine (create_triple hnone hss).conseq (fun _ h => h) ?_ (fun _ _ h => h.2.2) fun _ h => h.2
    rintro name w ⟨-, -, created, hf⟩
    exact begunFile_of_file hf (freshSegment_begunData seed created)
  · intro name
    have hfiles : OfFiles (BegunFile seed ss) := fun d d' hs h g hg => h g ((hs.file _).symm.trans hg)
    exact (fsyncDirectory_keeps hfiles).seq (Keeps.ret _)

theorem coldStart_steady (ss seed : ℕ) : Steady Env.calm (coldStart ss seed) :=
  (create_steady _ _).bind fun _ => fsyncDirectory_steady.seq (Steady.ret _)

section

variable {ss mx base : ℕ} {ps : List Bytes} {name : FileName}

/-- A sealed segment is only read. -/
theorem recoverSegment_keeps {I : Disk → Prop} (hss : ss < 2 ^ 64)
    (hs : SegmentHolds ss mx f.data base ps) :
    Keeps (OnDisk I) (recoverSegment name f.data base false ss mx) := by
  by_cases hc : CleanAt ss f.data (headerSize + runSize ps)
  · rw [recoverSegment_of_cleanAt name false hs.run hs.header.le_u64Max hc]
    exact Keeps.ret _
  · rw [recoverSegment_of_fatal name false hs.run hs.header.le_u64Max hss hs.stops hc (by simp)]
    exact Keeps.raise _

/-- Of the active one, at most what lies behind its records is rewritten. -/
theorem recoverSegment_leaves {I : Disk → Prop} (hss : ss < 2 ^ 64)
    (hs : SegmentHolds ss mx f.data base ps) (hI : I d)
    (hz : ∀ d', Zeroing name f (headerSize + runSize ps) ss d d' → I d')
    (hf : d.file name = some f) :
    Triple (OnDisk (· = d)) (recoverSegment name f.data base true ss mx) (fun _ => OnDisk I)
      (fun _ => OnDisk I) (OnDisk I) := by
  have hsame : ∀ w : World, w.disk = d → I w.disk := fun w hw => hw ▸ hI
  by_cases hc : CleanAt ss f.data (headerSize + runSize ps)
  · rw [recoverSegment_of_cleanAt name true hs.run hs.header.le_u64Max hc]
    exact Triple.ret _ hsame
  by_cases ht : TornAt ss mx f.data (headerSize + runSize ps) (base + ps.length)
  · rw [recoverSegment_of_tornAt name hs.run hs.header.le_u64Max hss hs.stops ht]
    have hroom := room_of_not_cleanAt hc
    exact ((zeroToEof_zeroing hf (hs.run.le_file hs.header.le_length) (by omega)).seq
      (Keeps.ret _)).conseq (fun _ h => h) (fun _ w => hz w.disk) (fun _ w => hz w.disk)
      fun w => hz w.disk
  · rw [recoverSegment_of_fatal name true hs.run hs.header.le_u64Max hss hs.stops hc fun _ => ht]
    exact Triple.raise _ hsame

theorem recoverSegment_steady (hss : ss < 2 ^ 64) (hs : SegmentHolds ss mx f.data base ps)
    (isActive : Bool) : Steady Env.calm (recoverSegment name f.data base isActive ss mx) := by
  by_cases hc : CleanAt ss f.data (headerSize + runSize ps)
  · rw [recoverSegment_of_cleanAt name isActive hs.run hs.header.le_u64Max hc]
    exact Steady.ret _
  by_cases ht : isActive = true ∧ TornAt ss mx f.data (headerSize + runSize ps) (base + ps.length)
  · rw [ht.1, recoverSegment_of_tornAt name hs.run hs.header.le_u64Max hss hs.stops ht.2]
    exact (zeroToEof_steady _ _).seq (Steady.ret _)
  · rw [recoverSegment_of_fatal name isActive hs.run hs.header.le_u64Max hss hs.stops hc
      fun ha h => ht ⟨ha, h⟩]
    exact Steady.raise _

end

variable (config : WalConfig) {I : Disk → Prop} {base : ℕ}

/-- One turn, given what recovering the segment does. -/
theorem recoverOne_triple {prevMax : Option ℕ} {isActive : Bool} (hI : I d)
    (hseg : ∀ f ps, d.file (filenameFor base) = some f →
      SegmentHolds config.segmentSize config.maxRecordSize f.data base ps →
      Triple (OnDisk (· = d)) (recoverSegment (filenameFor base) f.data base isActive
        config.segmentSize config.maxRecordSize) (fun _ => OnDisk I) (fun _ => OnDisk I) (OnDisk I)) :
    Triple (OnDisk (· = d)) (recoverOne config prevMax base isActive) (fun _ => OnDisk I)
      (fun _ => OnDisk I) (OnDisk I) := by
  have hsame : ∀ w : World, w.disk = d → I w.disk := fun w hw => hw ▸ hI
  apply Triple.bind (Triple.mapErr ((openFile_reads _ d).conseq (fun _ h => h) (fun _ _ h => h)
    (fun _ => hsame) hsame))
  intro file
  apply Triple.of_fact (fun _ h => h.2)
  rintro ⟨f, hf, rfl⟩
  refine Triple.pre ?_ fun _ h => h.1
  by_cases hlen : headerSize ≤ f.data.length
  · rw [readHeader_of_le hlen]
    simp only
    cases hd : decodeHeader (f.data.take headerSize) with
    | error e => exact Triple.raise _ hsame
    | ok parsed =>
      simp only
      refine Triple.cond (fun _ => Triple.raise _ hsame) fun hb => ?_
      obtain rfl := not_not.mp hb
      refine Triple.cond (fun _ => Triple.raise _ hsame) fun _ => ?_
      obtain ⟨ps, hs⟩ := HeaderOk.exists_holds ⟨hlen, hd⟩ config.segmentSize config.maxRecordSize
      exact hseg f ps hf hs
  · rw [readHeader_of_lt (Nat.not_le.mp hlen)]
    exact Triple.raise _ hsame

theorem recoverOne_steady (prevMax : Option ℕ) (base : ℕ) (isActive : Bool) :
    Steady Env.calm (recoverOne config prevMax base isActive) := by
  apply (openFile_steady _).mapErr.bind
  intro file
  by_cases hlen : headerSize ≤ file.length
  · rw [readHeader_of_le hlen]
    simp only
    cases hd : decodeHeader (file.take headerSize) with
    | error e => exact Steady.raise _
    | ok parsed =>
      simp only
      split_ifs with hb hp
      · exact Steady.raise _
      · exact Steady.raise _
      · obtain rfl := not_not.mp hb
        obtain ⟨ps, hs⟩ := HeaderOk.exists_holds (f := ⟨file, fun _ => false⟩) ⟨hlen, hd⟩
          config.segmentSize config.maxRecordSize
        exact recoverSegment_steady (f := ⟨file, fun _ => false⟩) config.segmentSize_lt hs isActive
  · rw [readHeader_of_lt (Nat.not_le.mp hlen)]
    exact Steady.raise _

/-- Only the last segment, the active one, may be rewritten. -/
theorem recoverSegments_triple {bases : List ℕ} {prevMax : Option ℕ} (hI : I d)
    (hz : ∀ f ps d', d.file (filenameFor (bases.getLastD base)) = some f →
      SegmentHolds config.segmentSize config.maxRecordSize f.data (bases.getLastD base) ps →
      Zeroing (filenameFor (bases.getLastD base)) f (headerSize + runSize ps) config.segmentSize d d' →
      I d') :
    Triple (OnDisk (· = d)) (recoverSegments config prevMax base bases) (fun _ => OnDisk I)
      (fun _ => OnDisk I) (OnDisk I) := by
  induction bases generalizing base prevMax with
  | nil =>
    apply recoverOne_triple config hI
    intro f ps hf hs
    exact recoverSegment_leaves config.segmentSize_lt hs hI (fun d' => hz f ps d' hf hs) hf
  | cons next bases ih =>
    have hsame : ∀ w : World, w.disk = d → I w.disk := fun w hw => hw ▸ hI
    rw [recoverSegments]
    apply Triple.bind (Q := fun _ => OnDisk fun e => e = d)
    · apply Triple.conseq (recoverOne_triple config (I := fun e => e = d) rfl fun f ps hf hs =>
        recoverSegment_keeps config.segmentSize_lt hs) (fun _ h => h) (fun _ _ h => h)
        (fun _ => hsame) hsame
    · intro seg
      refine Triple.cond (fun _ => Triple.raise _ hsame) fun _ => ?_
      apply ih
      rwa [List.getLastD_cons] at hz

theorem recoverSegments_steady (prevMax : Option ℕ) (base : ℕ) (bases : List ℕ) :
    Steady Env.calm (recoverSegments config prevMax base bases) := by
  induction bases generalizing base prevMax with
  | nil => exact recoverOne_steady config _ _ _
  | cons next bases ih =>
    rw [recoverSegments]
    apply (recoverOne_steady config _ _ _).bind
    intro seg
    split_ifs
    · exact Steady.raise _
    · exact ih _ _

def Dropped (d d' : Disk) : Prop :=
  ∃ base f, (basesOf d).getLast? = some base ∧ d.file (filenameFor base) = some f ∧
    Incomplete config.segmentSize config.maxRecordSize f.data base ∧
    SameFiles (d.remove (filenameFor base)) d'

theorem discardIncompleteHighest_steady (bases : List ℕ) :
    Steady Env.calm (discardIncompleteHighest bases config) := by
  unfold discardIncompleteHighest
  split
  · exact Steady.ret _
  · apply (openFile_steady _).mapErr.bind
    intro file
    split
    · exact Steady.raise _
    · exact Steady.ret _
    · exact (removeFile_steady _).mapErr.seq (fsyncDirectory_steady.seq (Steady.ret _))

variable {config} in
theorem Discards.dropped {d₀ : Disk} (h : Discards config d d₀) : d₀ = d ∨ Dropped config d d₀ := by
  cases h with
  | nothing => exact Or.inl rfl
  | keep => exact Or.inl rfl
  | drop hb hf hi => exact Or.inr ⟨_, _, hb, hf, hi, .syncDir _⟩

/-- The discard removes an incomplete highest segment or nothing. -/
theorem discardIncompleteHighest_triple :
    Triple (OnDisk (· = d)) (discardIncompleteHighest (basesOf d) config)
      (fun bases w => Discards config d w.disk ∧ bases = basesOf w.disk)
      (fun _ => OnDisk fun e => e = d ∨ Dropped config d e)
      (OnDisk fun e => e = d ∨ Dropped config d e) := by
  have hfail : Triple (OnDisk (· = d)) (discardIncompleteHighest (basesOf d) config)
      (fun _ _ => True) (fun _ => OnDisk fun e => e = d ∨ Dropped config d e)
      (OnDisk fun e => e = d ∨ Dropped config d e) := by
    unfold discardIncompleteHighest
    split
    · exact Triple.ret _ fun _ _ => trivial
    · rename_i base hb
      simp only
      apply Triple.bind (Triple.mapErr ((openFile_reads _ d).conseq (fun _ h => h) (fun _ _ h => h)
        (fun _ _ => Or.inl) fun _ => Or.inl))
      intro file
      apply Triple.of_fact (fun _ h => h.2)
      rintro ⟨f, hf, rfl⟩
      refine Triple.pre ?_ fun _ h => h.1
      split
      · exact Triple.raise _ fun _ => Or.inl
      · exact Triple.ret _ fun _ _ => trivial
      · rename_i hi
        have hi := (isIncompleteCreate_iff config).mp hi
        have hdropped : OfFiles (Dropped config d) := by
          rintro e e' hs ⟨b, g, h₁, h₂, h₃, h₄⟩
          exact ⟨b, g, h₁, h₂, h₃, h₄.trans hs⟩
        have hremove : Triple (OnDisk (· = d)) (removeFile (filenameFor base))
            (fun _ => OnDisk (Dropped config d)) (fun _ => OnDisk (· = d)) (OnDisk (· = d)) :=
          (removeFile_triple hf).conseq (fun _ h => h)
            (fun _ w hw => ⟨base, f, hb, hf, hi, (show w.disk = _ from hw) ▸ .refl _⟩)
            (fun _ _ h => h.2) fun _ h => h
        apply Triple.seq (Triple.mapErr (hremove.conseq (fun _ h => h) (fun _ _ h => h)
          (fun _ _ => Or.inl) fun _ => Or.inl))
        apply Triple.seq (Q := fun _ => OnDisk (Dropped config d))
        · exact (fsyncDirectory_keeps hdropped).conseq (fun _ h => h) (fun _ _ h => h)
            (fun _ _ => Or.inr) fun _ => Or.inr
        · exact Triple.ret _ fun _ _ => trivial
  apply ((discardIncompleteHighest_steady config (basesOf d)).triple hfail).post
  rintro bases w ⟨s, hs, hr⟩
  have hs : s.disk = d := hs
  rw [Env.calm, hs] at hr
  obtain ⟨d₀, hdis, hw, rfl⟩ := discardIncompleteHighest_eq_ret config hr
  obtain rfl : w.disk = d₀ := congrArg Env.disk hw
  exact ⟨hdis, rfl⟩

theorem recoverFound_triple (seed : ℕ) (hI : I d)
    (hcold : ∀ d', basesOf d = [] → DiffersAt (filenameFor seed) d d' →
      (seed ≤ u64Max → headerSize ≤ config.segmentSize → BegunFile seed config.segmentSize d') → I d')
    (hzero : ∀ base f ps d', (basesOf d).getLast? = some base → d.file (filenameFor base) = some f →
      SegmentHolds config.segmentSize config.maxRecordSize f.data base ps →
      Zeroing (filenameFor base) f (headerSize + runSize ps) config.segmentSize d d' → I d') :
    Triple (OnDisk (· = d)) (recoverFound config seed (basesOf d)) (fun _ => OnDisk I)
      (fun _ => OnDisk I) (OnDisk I) := by
  cases hb : basesOf d with
  | nil =>
    have hdiff := (coldStart_keeps config.segmentSize seed d).ends (P := OnDisk (· = d)) (by
      rintro w rfl
      exact .refl _ _)
    by_cases h : seed ≤ u64Max ∧ headerSize ≤ config.segmentSize
    · have hnone : d.file (filenameFor seed) = none := by
        cases hf : d.file (filenameFor seed) with
        | none => rfl
        | some f => simpa [hb] using mem_basesOf.mpr ⟨h.1, f, hf⟩
      have hc : ∀ w : World, DiffersAt (filenameFor seed) d w.disk ∧
          BegunFile seed config.segmentSize w.disk → I w.disk :=
        fun w hw => hcold w.disk hb hw.1 fun _ _ => hw.2
      exact (hdiff.both (coldStart_begunFile hnone h.2)).conseq (fun _ hw => ⟨hw, hw⟩) (fun _ => hc)
        (fun _ => hc) hc
    · have hc : ∀ w : World, DiffersAt (filenameFor seed) d w.disk → I w.disk :=
        fun w hw => hcold w.disk hb hw fun hs hss => absurd ⟨hs, hss⟩ h
      exact hdiff.conseq (fun _ h => h) (fun _ => hc) (fun _ => hc) hc
  | cons base rest =>
    refine (recoverSegments_triple config hI fun f ps d' => ?_).bind fun _ => Triple.ret _ fun _ h => h
    apply hzero
    rw [hb, List.getLast?_cons, List.getLastD_eq_getLast?]

omit [Crc32c] in
theorem lockDirectory_steady : Steady Env.calm lockDirectory := by
  apply createDirAll_steady.mapErr.seq
  apply Steady.seq (Steady.syscall _ _ _)
  refine Steady.state_bind (fun _ => rfl) fun w => ?_
  split_ifs
  · exact Steady.raise _
  · exact Steady.syscall _ _ _

omit [Crc32c] in
/-- Locking leaves the files alone, and the lock to whoever holds it. -/
theorem lockDirectory_triple (d : Disk) :
    Triple (OnDisk (· = d)) lockDirectory (fun _ w => w.disk = acquired d ∧ d.locked = false)
      (fun _ => OnDisk fun e => SameFiles d e ∧ e.locked = d.locked) (OnDisk (SameFiles d)) := by
  set P : Disk → Prop := fun e => SameFiles d e ∧ e.locked = d.locked
  have hflock : Triple (OnDisk P) flock (fun _ _ => True) (fun _ => OnDisk P) (OnDisk P) := by
    refine Triple.bind Keeps.state fun w => Triple.cond (fun _ => Triple.raise _ fun _ h => h) fun _ => ?_
    exact syscall_onDisk (Q := fun _ => True) (fun _ _ => trivial) (fun _ _ h => h) fun _ _ h => h
  have hkeep : Triple (OnDisk P) lockDirectory (fun _ _ => True) (fun _ => OnDisk P) (OnDisk P) := by
    apply Triple.seq (Keeps.mapErr (Keeps.syscall (I := P) (fun e h => ?_) fun _ _ h => h))
    · exact Triple.seq (Keeps.syscall (I := P) (fun _ h => h) fun _ _ h => h) hflock
    · exact ⟨h.1.trans ⟨fun _ => rfl, rfl⟩, h.2⟩
  have hfail : Triple (OnDisk (· = d)) lockDirectory (fun _ _ => True) (fun _ => OnDisk P)
      (OnDisk (SameFiles d)) :=
    hkeep.conseq (fun w hw => ⟨hw ▸ .refl _, hw ▸ rfl⟩) (fun _ _ h => h) (fun _ _ h => h) fun _ h => h.1
  apply (lockDirectory_steady.triple hfail).post
  rintro _ w ⟨s, hs, hr⟩
  have hs : s.disk = d := hs
  rw [Env.calm, hs] at hr
  have hl := lockDirectory_eq_ret hr
  rw [lockDirectory_calm hl] at hr
  exact ⟨(congrArg Env.disk (Prod.mk.inj hr).2).symm, hl⟩

variable {config}

theorem openSeeded_steady (seed : ℕ) : Steady Env.calm (openSeeded config seed) := by
  unfold openSeeded
  split_ifs
  · exact Steady.raise _
  · exact Steady.raise _
  · apply lockDirectory_steady.seq
    refine Steady.bind (Steady.onError ?_) fun _ => Steady.ret _
    apply (readDir_steady.mapErr.bind fun _ => Steady.ret _).bind
    intro bases
    apply (discardIncompleteHighest_steady config bases).bind
    rintro (_ | ⟨base, rest⟩)
    · exact coldStart_steady _ _
    · exact (recoverSegments_steady config _ _ _).bind fun _ => Steady.ret _

/-- What holds of the directory after an `open`, however it ends: it holds of the
files as they are, without an incomplete highest one, with a first one, and with the
active one rewritten behind its records. -/
theorem openSeeded_triple (seed : ℕ) (hfiles : OfFiles I) (hI : I d)
    (hdrop : config.Valid → d.locked = false → ∀ d', Dropped config d d' → I d')
    (hcold : config.Valid → d.locked = false → ∀ d₀ d', Discards config (acquired d) d₀ →
      basesOf d₀ = [] → DiffersAt (filenameFor seed) d₀ d' →
      (seed ≤ u64Max → headerSize ≤ config.segmentSize → BegunFile seed config.segmentSize d') → I d')
    (hzero : config.Valid → d.locked = false → ∀ d₀ base f ps d', Discards config (acquired d) d₀ →
      (basesOf d₀).getLast? = some base → d₀.file (filenameFor base) = some f →
      SegmentHolds config.segmentSize config.maxRecordSize f.data base ps →
      Zeroing (filenameFor base) f (headerSize + runSize ps) config.segmentSize d₀ d' → I d') :
    Triple (OnDisk (· = d)) (openSeeded config seed) (fun _ => OnDisk I)
      (fun _ => OnDisk fun e => I e ∧ e.locked = d.locked) (OnDisk I) := by
  have hsame : ∀ w : World, w.disk = d → I w.disk ∧ w.disk.locked = d.locked := by
    rintro w rfl
    exact ⟨hI, rfl⟩
  unfold openSeeded
  refine Triple.cond (fun _ => Triple.raise _ hsame) fun hv => ?_
  refine Triple.cond (fun _ => Triple.raise _ hsame) fun _ => ?_
  apply Triple.seq ((lockDirectory_triple d).conseq (fun _ h => h) (fun _ _ h => h)
    (fun _ w h => ⟨hfiles _ _ h.1 hI, h.2⟩) fun w h => hfiles _ _ h hI)
  apply Triple.of_fact (fun _ h => h.2)
  intro hl
  refine Triple.pre (P := OnDisk fun e => e = acquired d) ?_ fun _ h => h.1
  have hfree : ∀ w : World, I w.disk → I (unlock w).disk ∧ (unlock w).disk.locked = d.locked :=
    fun w hw => ⟨hfiles w.disk _ ⟨fun _ => rfl, rfl⟩ hw, hl.symm⟩
  have hacq : I (acquired d) := hfiles d _ ⟨fun _ => rfl, rfl⟩ hI
  have hacqw : ∀ w : World, w.disk = acquired d → I w.disk := fun w hw => hw ▸ hacq
  have hv := Nat.not_lt.mp hv
  have hdropped : ∀ e, e = acquired d ∨ Dropped config (acquired d) e → I e := by
    rintro e (rfl | ⟨base, f, hb, hf, hi, hs⟩)
    · exact hacq
    · have hsame : SameFiles d (acquired d) := ⟨fun _ => rfl, rfl⟩
      exact hdrop hv hl e ⟨base, f, hb, hf, hi, (hsame.remove _).trans hs⟩
  refine Triple.bind (Q := fun _ => OnDisk I) (Triple.onError ?_) fun _ => Triple.ret _ fun _ h => h
  refine Triple.conseq (E := fun _ => OnDisk I) ?_ (fun _ h => h) (fun _ _ h => h) (fun _ => hfree)
    fun _ h => h
  -- the directory is read, its highest segment discarded, and the rest recovered
  apply Triple.bind (Q := fun bases w => w.disk = acquired d ∧ bases = basesOf (acquired d))
  · refine Triple.bind (Triple.mapErr ((readDir_reads (acquired d)).conseq (fun _ h => h)
      (fun _ _ h => h) (fun _ => hacqw) hacqw)) fun names => ?_
    exact Triple.ret _ fun w h => ⟨h.1, by rw [h.2, basesOf]⟩
  intro bases
  apply Triple.of_fact (fun _ h => h.2)
  rintro rfl
  refine Triple.bind (((discardIncompleteHighest_triple config).pre fun _ h => h.1).conseq
    (fun _ h => h) (fun _ _ h => h) (fun _ w => hdropped w.disk) fun w => hdropped w.disk) ?_
  rintro bases w ⟨hdis, rfl⟩
  have hleft : I w.disk := hdropped _ hdis.dropped
  exact recoverFound_triple config seed hleft (fun d' => hcold hv hl _ d' hdis)
    (fun base f ps d' => hzero hv hl _ base f ps d' hdis) w rfl

end OpenWal
