import OpenWal.Theory.Directory

namespace OpenWal
open ByteSeq Posix CrashProg

variable [Crc32c]

variable {d d' : Disk} {ss mx : ℕ}

/-- What an accepted active segment `f` ends with, and what recovery makes of the
file: its run stops at `y`, where number `e` is missing. -/
inductive TailOk (ss mx : ℕ) (f : File) (base y e : ℕ) : TailState → File → Prop
  | clean : CleanAt ss f.data y → TailOk ss mx f base y e .clean f
  | torn : TornAt ss mx f.data y e →
      TailOk ss mx f base y e (.truncatedAt base y) (zeroed y ss f)

omit [Crc32c] in
theorem zeroed_data (ss : ℕ) {x : ℕ} {f : File} (h : x ≤ f.data.length) :
    AgreeOn (zeroed x ss f).data f.data 0 x ∧ ZeroOn (zeroed x ss f).data x ss := by
  refine ⟨overwrite_agreeOn_before _ h 0, fun i hx hi => ?_⟩
  have hi' : i < x + (zeros (ss - x)).length := by
    rw [zeros_length]
    omega
  rw [zeroed, File.sync_data, File.write_data, overwrite_getElem? _ h, if_pos ⟨hx, hi'⟩,
    zeros_getElem?, if_pos (by omega)]

/-- After recovery the active segment holds what it held, and ends cleanly. -/
theorem TailOk.holds {f f' : File} {base : ℕ} {ps : List Bytes} {ts : TailState}
    (h : TailOk ss mx f base (headerSize + runSize ps) (base + ps.length) ts f')
    (hs : SegmentHolds ss mx f.data base ps) :
    SegmentHolds ss mx f'.data base ps ∧ CleanAt ss f'.data (headerSize + runSize ps) := by
  cases h with
  | clean hc => exact ⟨hs, hc⟩
  | torn ht =>
    have hy := hs.run.le_file hs.header.le_length
    obtain ⟨ha, hz⟩ := zeroed_data ss hy
    have hroom := room_of_not_cleanAt ht.1
    have hc : CleanAt ss (zeroed (headerSize + runSize ps) ss f).data (headerSize + runSize ps) :=
      Or.inr (hz.mono le_rfl hroom)
    refine ⟨⟨hs.header.congr (ha.symm.mono le_rfl (by omega)),
      hs.run.congr (ha.symm.mono (by simp only [headerSize]; omega) le_rfl), hc.stops⟩, hc⟩

def Follows (prevMax : Option ℕ) (base : ℕ) : Prop := ∀ pm ∈ prevMax, checkedNext pm = some base

omit [Crc32c] in
theorem follows_some {pm base : ℕ} (h : pm + 1 = base) (hb : base ≤ u64Max) :
    Follows (some pm) base := by
  rintro _ ⟨⟩
  rw [checkedNext_eq_some]
  omega

variable (config : WalConfig) {base : ℕ} {f : File} {prevMax : Option ℕ}

theorem recoverOne_of_header (isActive : Bool) (hf : d.file (filenameFor base) = some f)
    (hh : HeaderOk f.data base) (hp : Follows prevMax base) :
    recoverOne config prevMax base isActive ⟨d, []⟩ =
      recoverSegment (filenameFor base) f.data base isActive config.segmentSize
        config.maxRecordSize ⟨d, []⟩ := by
  have hany : ¬ (prevMax.any fun pm => decide (checkedNext pm ≠ some base)) = true := by
    intro h
    obtain ⟨pm, hpm, hne⟩ := (Option.any_eq_true _ _).mp h
    simp [hp pm hpm] at hne
  rw [recoverOne, Prog.bind_of_ret (Prog.mapErr_of_ret (openFile_calm hf)),
    readHeader_of_le hh.le_length]
  simp only [hh.2, ne_eq, not_true_eq_false, if_false]
  rw [if_neg hany]

/-- What a turn that succeeds has checked. -/
theorem recoverOne_eq_ret {isActive : Bool} {seg : SegmentRecovery} {w : World}
    (h : recoverOne config prevMax base isActive ⟨d, []⟩ = (.ret seg, w)) :
    Follows prevMax base ∧ ∃ f, d.file (filenameFor base) = some f ∧ HeaderOk f.data base := by
  rw [recoverOne] at h
  obtain ⟨file, t, hopen, h⟩ := Prog.bind_eq_ret h
  have hopen := Prog.mapErr_eq_ret hopen
  cases hf : d.file (filenameFor base) with
  | none => simp [openFile_calm_missing hf] at hopen
  | some f =>
    rw [openFile_calm hf, Prod.mk.injEq, Outcome.ret.injEq] at hopen
    obtain ⟨rfl, rfl⟩ := hopen
    by_cases hlen : headerSize ≤ f.data.length
    · rw [readHeader_of_le hlen] at h
      cases hd : decodeHeader (f.data.take headerSize) with
      | error e => simp [hd] at h
      | ok parsed =>
        simp only [hd] at h
        split_ifs at h with hb hp
        · simp at h
        · simp at h
        · have hb := not_not.mp hb
          subst hb
          refine ⟨fun pm hpm => ?_, f, rfl, hlen, hd⟩
          by_contra hne
          exact hp ((Option.any_eq_true _ _).mpr ⟨pm, hpm, by simpa using hne⟩)
    · rw [readHeader_of_lt (Nat.not_le.mp hlen)] at h
      simp at h

section Verdicts

variable {ps : List Bytes} (hf : d.file (filenameFor base) = some f)
  (hs : SegmentHolds config.segmentSize config.maxRecordSize f.data base ps)
  (hp : Follows prevMax base)

include hf hs hp

theorem recoverOne_of_cleanAt (isActive : Bool)
    (hc : CleanAt config.segmentSize f.data (headerSize + runSize ps)) :
    recoverOne config prevMax base isActive ⟨d, []⟩ =
      (.ret ⟨base + ps.length - 1, headerSize + runSize ps, .clean⟩, ⟨d, []⟩) := by
  rw [recoverOne_of_header config isActive hf hs.header hp,
    recoverSegment_of_cleanAt _ isActive hs.run hs.header.le_u64Max hc]
  rfl

theorem recoverOne_of_fatal (isActive : Bool)
    (hc : ¬ CleanAt config.segmentSize f.data (headerSize + runSize ps))
    (ht : isActive = true → ¬ TornAt config.segmentSize config.maxRecordSize f.data
      (headerSize + runSize ps) (base + ps.length)) :
    recoverOne config prevMax base isActive ⟨d, []⟩ =
      (.err (fatalError base isActive (headerSize + runSize ps) (base + ps.length)), ⟨d, []⟩) := by
  rw [recoverOne_of_header config isActive hf hs.header hp,
    recoverSegment_of_fatal _ isActive hs.run hs.header.le_u64Max config.segmentSize_lt hs.stops hc ht]
  rfl

/-- The active segment is accepted with a clean end or a torn one. -/
theorem recoverOne_of_tailOk {ts : TailState} {f' : File}
    (ht : TailOk config.segmentSize config.maxRecordSize f base (headerSize + runSize ps)
      (base + ps.length) ts f') :
    ∃ d', recoverOne config prevMax base true ⟨d, []⟩ =
      (.ret ⟨base + ps.length - 1, headerSize + runSize ps, ts⟩, ⟨d', []⟩) ∧
        SetTo d (filenameFor base) f' d' := by
  cases ht with
  | clean hc =>
    exact ⟨d, recoverOne_of_cleanAt config hf hs hp true hc, hf, fun _ _ => rfl, rfl, rfl⟩
  | torn ht =>
    have hroom := room_of_not_cleanAt ht.1
    have hz := zeroToEof_calm hf
      (show headerSize + runSize ps < config.segmentSize by omega)
    refine ⟨_, ?_, setTo_put d _ _⟩
    rw [recoverOne_of_header config true hf hs.header hp, recoverSegment_of_tornAt _ hs.run
      hs.header.le_u64Max config.segmentSize_lt hs.stops ht, Prog.seq_of_ret hz]
    rfl

end Verdicts

/-- Every segment with a valid header holds some run. -/
theorem HeaderOk.exists_holds (hh : HeaderOk f.data base) (ss mx : ℕ) :
    ∃ ps, SegmentHolds ss mx f.data base ps := by
  obtain ⟨ps, hr, hs⟩ := Run.exists_stops ss mx f.data headerSize base
  exact ⟨ps, hh, hr, hs⟩

/-- Sealed segments in a chain are passed over. -/
theorem recoverSegments_of_sealedFrom {sealed : List (List Bytes)} (hp : Follows prevMax base)
    (hs : SealedFrom config.segmentSize config.maxRecordSize d base sealed)
    (ha : activeBase base sealed ≤ u64Max) {bases : List ℕ}
    (hb : basesFrom base sealed = base :: bases) :
    ∃ prevMax', Follows prevMax' (activeBase base sealed) ∧
      recoverSegments config prevMax base bases ⟨d, []⟩ =
        recoverOne config prevMax' (activeBase base sealed) true ⟨d, []⟩ := by
  induction sealed generalizing base prevMax bases with
  | nil =>
    obtain rfl : bases = [] := by simpa [basesFrom] using hb.symm
    exact ⟨prevMax, hp, rfl⟩
  | cons ps rest ih =>
    obtain ⟨⟨hne, f, hf, hh, hc⟩, hrest⟩ := hs
    have hpos := List.length_pos_iff.mpr hne
    have hbase := hh.header.pos
    rw [activeBase_cons] at ha
    have hle := le_activeBase (base + ps.length) rest
    obtain ⟨bases', hb'⟩ := basesFrom_eq_cons (base + ps.length) rest
    obtain rfl : bases = (base + ps.length) :: bases' := by
      rw [basesFrom, hb', List.cons.injEq] at hb
      exact hb.2.symm
    have hnext : Follows (some (base + ps.length - 1)) (base + ps.length) :=
      follows_some (by omega) (by omega)
    obtain ⟨prevMax', hp', hr⟩ := ih hnext hrest ha hb'
    refine ⟨prevMax', by rwa [activeBase_cons], ?_⟩
    rw [activeBase_cons, recoverSegments, Prog.bind_of_ret (recoverOne_of_cleanAt config hf hh hp false hc),
      if_neg (by simp only; omega)]
    exact hr

/-- Where recovery succeeds, the segments are a chain of sealed ones and an active
one with an accepted end. -/
theorem recoverSegments_eq_ret {bases : List ℕ} {seg : SegmentRecovery} {w : World}
    (h : recoverSegments config prevMax base bases ⟨d, []⟩ = (.ret seg, w)) :
    Follows prevMax base ∧ ∃ sealed active f ts f', base :: bases = basesFrom base sealed ∧
      SealedFrom config.segmentSize config.maxRecordSize d base sealed ∧
      d.file (filenameFor (activeBase base sealed)) = some f ∧
      SegmentHolds config.segmentSize config.maxRecordSize f.data (activeBase base sealed) active ∧
      TailOk config.segmentSize config.maxRecordSize f (activeBase base sealed)
        (headerSize + runSize active) (activeBase base sealed + active.length) ts f' := by
  induction bases generalizing base prevMax with
  | nil =>
    rw [recoverSegments] at h
    obtain ⟨hp, f, hf, hh⟩ := recoverOne_eq_ret config h
    obtain ⟨active, hs⟩ := hh.exists_holds config.segmentSize config.maxRecordSize
    refine ⟨hp, [], active, f, ?_⟩
    by_cases hc : CleanAt config.segmentSize f.data (headerSize + runSize active)
    · exact ⟨.clean, f, rfl, trivial, hf, hs, .clean hc⟩
    · by_cases ht : TornAt config.segmentSize config.maxRecordSize f.data
          (headerSize + runSize active) (base + active.length)
      · exact ⟨_, _, rfl, trivial, hf, hs, .torn ht⟩
      · rw [recoverOne_of_fatal config hf hs hp true hc fun _ => ht] at h
        simp at h
  | cons next bases ih =>
    rw [recoverSegments] at h
    obtain ⟨seg₁, w₁, h₁, h⟩ := Prog.bind_eq_ret h
    obtain ⟨hp, f, hf, hh⟩ := recoverOne_eq_ret config h₁
    obtain ⟨ps, hs⟩ := hh.exists_holds config.segmentSize config.maxRecordSize
    by_cases hc : CleanAt config.segmentSize f.data (headerSize + runSize ps)
    · rw [recoverOne_of_cleanAt config hf hs hp false hc, Prod.mk.injEq, Outcome.ret.injEq] at h₁
      obtain ⟨rfl, rfl⟩ := h₁
      simp only at h
      split_ifs at h with hlt
      · simp at h
      have hbase := hs.header.pos
      have hne : ps ≠ [] := by
        rintro rfl
        simp only [List.length_nil] at hlt
        omega
      obtain ⟨hp', sealed, active, f', ts, f'', hb, hrest, hact⟩ := ih h
      -- the check for gaps has let the next segment pass
      obtain rfl : next = base + ps.length := by
        have := (checkedNext_eq_some.mp (hp' _ rfl)).2
        have := List.length_pos_iff.mpr hne
        omega
      refine ⟨hp, ps :: sealed, active, f', ts, f'', ?_, ⟨⟨hne, f, hf, hs, hc⟩, hrest⟩, ?_⟩
      · rw [basesFrom, ← hb]
      · rw [activeBase_cons]
        exact hact
    · rw [recoverOne_of_fatal config hf hs hp false hc (by simp)] at h₁
      simp at h₁

/-- What creation leaves when it is interrupted: nothing, or a file without a valid
header and without a record in the first slot. -/
def Incomplete (ss mx : ℕ) (file : Bytes) (base : ℕ) : Prop :=
  file = [] ∨ (headerSize ≤ file.length ∧ ¬ HeaderOk file base ∧
    ∀ lsn p, ¬ FrameAt ss mx file headerSize lsn p)

theorem Incomplete.not_headerOk {ss mx : ℕ} {file : Bytes} (h : Incomplete ss mx file base) :
    ¬ HeaderOk file base := by
  rcases h with rfl | ⟨-, hn, -⟩
  · exact fun hh => absurd hh.le_length (by simp [headerSize])
  · exact hn

theorem isIncompleteCreate_of_headerOk (hh : HeaderOk f.data base) :
    isIncompleteCreate f.data base config = .ok false := by
  simp [isIncompleteCreate, readHeader_of_le hh.le_length, hh.2]

theorem isIncompleteCreate_eq_false (h : isIncompleteCreate f.data base config = .ok false) :
    HeaderOk f.data base := by
  unfold isIncompleteCreate at h
  by_cases hlen : headerSize ≤ f.data.length
  · rw [readHeader_of_le hlen] at h
    simp only at h
    split_ifs at h with hd
    · exact ⟨hlen, hd⟩
    · split at h <;> simp at h
  · rw [readHeader_of_lt (Nat.not_le.mp hlen)] at h
    simp only at h
    split_ifs at h
    simp at h

theorem isIncompleteCreate_iff : isIncompleteCreate f.data base config = .ok true ↔
    Incomplete config.segmentSize config.maxRecordSize f.data base := by
  unfold isIncompleteCreate Incomplete
  by_cases hlen : headerSize ≤ f.data.length
  · have hne : f.data ≠ [] := by
      intro h
      simp [h, headerSize] at hlen
    rw [readHeader_of_le hlen]
    simp only [hne, hlen, true_and, false_or]
    by_cases hd : decodeHeader (f.data.take headerSize) = .ok base
    · have : HeaderOk f.data base := ⟨hlen, hd⟩
      simp [hd, this]
    · have hh : ¬ HeaderOk f.data base := fun h => hd h.2
      rw [if_neg hd]
      simp only [hh, not_false_eq_true, true_and]
      split
      · rename_i lsn n k hr
        obtain ⟨p, -, -, hp⟩ := readRecordAt_eq_record hr
        simp only [reduceCtorEq, false_iff]
        exact fun h => h lsn p hp
      · rename_i hr
        simp only [true_iff]
        intro lsn p hp
        exact hr _ _ _ (congrArg Prod.fst (readRecordAt_of_frameAt hp []))
  · rw [readHeader_of_lt (Nat.not_le.mp hlen)]
    simp only [hlen, false_and, or_false]
    by_cases hz : f.data.length = 0
    · simp [List.length_eq_zero_iff.mp hz]
    · simp [hz, List.length_eq_zero_iff.not.mp hz]

variable {bases : List ℕ}

theorem discardIncompleteHighest_of_headerOk (hb : bases.getLast? = some base)
    (hf : d.file (filenameFor base) = some f) (hh : HeaderOk f.data base) :
    discardIncompleteHighest bases config ⟨d, []⟩ = (.ret bases, ⟨d, []⟩) := by
  rw [discardIncompleteHighest, hb]
  simp only
  rw [Prog.bind_of_ret (Prog.mapErr_of_ret (openFile_calm hf)), isIncompleteCreate_of_headerOk config hh]
  rfl

theorem discardIncompleteHighest_of_incomplete (hb : bases.getLast? = some base)
    (hf : d.file (filenameFor base) = some f)
    (hi : Incomplete config.segmentSize config.maxRecordSize f.data base) :
    discardIncompleteHighest bases config ⟨d, []⟩ =
      (.ret bases.dropLast, ⟨(d.remove (filenameFor base)).syncDir, []⟩) := by
  rw [discardIncompleteHighest, hb]
  simp only
  rw [Prog.bind_of_ret (Prog.mapErr_of_ret (openFile_calm hf)), (isIncompleteCreate_iff config).mpr hi]
  simp only
  rw [Prog.seq_of_ret (Prog.mapErr_of_ret (removeFile_calm hf)), fsyncDirectory,
    Prog.seq_of_ret (Prog.mapErr_of_ret (fsyncDir_calm _))]
  rfl

/-- `d₀` is what discarding an incomplete highest segment leaves of `d`. -/
inductive Discards (config : WalConfig) (d : Disk) : Disk → Prop
  | nothing : basesOf d = [] → Discards config d d
  | keep {base : ℕ} {f : File} : (basesOf d).getLast? = some base →
      d.file (filenameFor base) = some f → HeaderOk f.data base → Discards config d d
  | drop {base : ℕ} {f : File} : (basesOf d).getLast? = some base →
      d.file (filenameFor base) = some f →
      Incomplete config.segmentSize config.maxRecordSize f.data base →
      Discards config d (d.remove (filenameFor base)).syncDir

omit [Crc32c] in
theorem mem_dropLast_basesOf {b : ℕ} (hb : (basesOf d).getLast? = some base) :
    b ∈ (basesOf d).dropLast ↔ b ∈ basesOf d ∧ b ≠ base := by
  have hsplit := List.dropLast_append_getLast? base hb
  have hsort := basesOf_sorted d
  rw [← hsplit] at hsort ⊢
  rw [List.dropLast_concat]
  have hlt := (List.pairwise_append.mp hsort).2.2
  constructor
  · intro h
    exact ⟨List.mem_append_left _ h, (hlt b h base List.mem_cons_self).ne⟩
  · rintro ⟨h, hne⟩
    rcases List.mem_append.mp h with h | h
    · exact h
    · exact absurd (List.mem_singleton.mp h) hne

omit [Crc32c] in
/-- The bases left once the highest segment is unlinked. -/
theorem basesOf_remove_highest (hb : (basesOf d).getLast? = some base) :
    basesOf (d.remove (filenameFor base)).syncDir = (basesOf d).dropLast := by
  obtain ⟨hu, -⟩ := mem_basesOf.mp (List.mem_of_getLast? hb)
  apply basesOf_eq ((basesOf_sorted d).sublist (List.dropLast_sublist _))
  intro b
  rw [mem_dropLast_basesOf hb, mem_basesOf, and_assoc]
  refine and_congr_right fun hbu => ?_
  rw [Disk.syncDir_file]
  by_cases hbb : b = base
  · subst hbb
    simp
  · rw [Disk.remove_file_ne d (filenameFor_ne hbu hu hbb)]
    simp [hbb]

variable {config} in
theorem discardIncompleteHighest_of_discards {d₀ : Disk} (h : Discards config d d₀) :
    discardIncompleteHighest (basesOf d) config ⟨d, []⟩ = (.ret (basesOf d₀), ⟨d₀, []⟩) := by
  cases h with
  | nothing hb =>
    rw [hb]
    rfl
  | keep hb hf hh => exact discardIncompleteHighest_of_headerOk config hb hf hh
  | @drop base f hb hf hi =>
    rw [discardIncompleteHighest_of_incomplete config hb hf hi, basesOf_remove_highest hb]

theorem discardIncompleteHighest_eq_ret {w : World}
    (h : discardIncompleteHighest (basesOf d) config ⟨d, []⟩ = (.ret bases, w)) :
    ∃ d₀, Discards config d d₀ ∧ w = ⟨d₀, []⟩ ∧ bases = basesOf d₀ := by
  have hfrom : ∀ {d₀}, Discards config d d₀ → ∃ d₀, Discards config d d₀ ∧ w = ⟨d₀, []⟩ ∧
      bases = basesOf d₀ := by
    intro d₀ hd
    rw [discardIncompleteHighest_of_discards hd, Prod.mk.injEq, Outcome.ret.injEq] at h
    exact ⟨d₀, hd, h.2.symm, h.1.symm⟩
  cases hb : (basesOf d).getLast? with
  | none => exact hfrom (.nothing (List.getLast?_eq_none_iff.mp hb))
  | some base =>
    obtain ⟨-, f, hf⟩ := mem_basesOf.mp (List.mem_of_getLast? hb)
    by_cases hh : HeaderOk f.data base
    · exact hfrom (.keep hb hf hh)
    · by_cases hi : Incomplete config.segmentSize config.maxRecordSize f.data base
      · exact hfrom (.drop hb hf hi)
      · exfalso
        rw [discardIncompleteHighest, hb] at h
        simp only at h
        rw [Prog.bind_of_ret (Prog.mapErr_of_ret (openFile_calm hf))] at h
        rcases hv : isIncompleteCreate f.data base config with e | b
        · simp [hv] at h
        · cases b with
          | false => exact hh (isIncompleteCreate_eq_false config hv)
          | true => exact hi ((isIncompleteCreate_iff config).mp hv)

/-- What is left after the discard was there before. -/
theorem Discards.file {config : WalConfig} {d₀ : Disk} (h : Discards config d d₀) {n : FileName}
    {g : File} (hg : d₀.file n = some g) : d.file n = some g := by
  cases h with
  | nothing => exact hg
  | keep => exact hg
  | @drop base f hb hf hi =>
    rw [Disk.syncDir_file] at hg
    by_cases hn : n = filenameFor base
    · rw [hn, Disk.remove_file_self] at hg
      simp at hg
    · rwa [Disk.remove_file_ne d hn] at hg

/-- A highest segment with a valid header is kept. -/
theorem Discards.eq_of_headerOk {config : WalConfig} {d₀ : Disk} (h : Discards config d d₀)
    (hb : (basesOf d).getLast? = some base) (hf : d.file (filenameFor base) = some f)
    (hh : HeaderOk f.data base) : d₀ = d := by
  cases h with
  | nothing => rfl
  | keep => rfl
  | drop hb' hf' hi =>
    rw [hb, Option.some.injEq] at hb'
    subst hb'
    rw [hf, Option.some.injEq] at hf'
    subst hf'
    exact absurd hh hi.not_headerOk

theorem Discards.locked {config : WalConfig} {d₀ : Disk} (h : Discards config d d₀) :
    d₀.locked = d.locked := by
  cases h with
  | nothing => rfl
  | keep => rfl
  | drop => simp

end OpenWal
