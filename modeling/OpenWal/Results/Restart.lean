import OpenWal.Theory.FailingOpen

namespace OpenWal
open ByteSeq Posix CrashProg

variable {d : Disk} {n : FileName} {f : File} {x : ℕ}

section

variable [Crc32c]

variable {config : WalConfig} {base : ℕ}

def recoverActive (config : WalConfig) (base : ℕ) (f : File) (w : World) :
    Outcome WalError SegmentRecovery × World :=
  recoverSegment (filenameFor base) f.data base true config.segmentSize config.maxRecordSize w

/-- Recovering what an interruption left ends as the recovery `seg` would have,
with the tail zeroed. -/
def Resumes (config : WalConfig) (base : ℕ) (seg : SegmentRecovery) (d : Disk) : Prop :=
  ∃ g seg' w' g', d.file (filenameFor base) = some g ∧
    recoverActive config base g ⟨d, []⟩ = (.ret seg', w') ∧
    seg'.maxLsn = seg.maxLsn ∧ seg'.writeOffset = seg.writeOffset ∧
    w'.disk.file (filenameFor base) = some g' ∧ ZeroOn g'.data seg.writeOffset config.segmentSize

/-- A torn verdict, read back. -/
theorem torn_of_recoverActive {seg : SegmentRecovery} {w : World} (hh : HeaderOk f.data base)
    (h : recoverActive config base f ⟨d, []⟩ = (.ret seg, w))
    (ht : seg.tailState = .truncatedAt base x) :
    ∃ ps, SegmentHolds config.segmentSize config.maxRecordSize f.data base ps ∧
      x = headerSize + runSize ps ∧ seg.writeOffset = x ∧ seg.maxLsn + 1 = base + ps.length ∧
      TornAt config.segmentSize config.maxRecordSize f.data x (base + ps.length) := by
  obtain ⟨ps, hs⟩ := hh.exists_holds config.segmentSize config.maxRecordSize
  have hpos := hh.pos
  rw [recoverActive] at h
  by_cases hc : CleanAt config.segmentSize f.data (headerSize + runSize ps)
  · rw [recoverSegment_of_cleanAt _ _ hs.run hh.le_u64Max hc] at h
    obtain ⟨rfl, -⟩ := by simpa using h
    simp at ht
  by_cases htorn : TornAt config.segmentSize config.maxRecordSize f.data (headerSize + runSize ps)
      (base + ps.length)
  · rw [recoverSegment_of_tornAt _ hs.run hh.le_u64Max config.segmentSize_lt hs.stops htorn] at h
    obtain ⟨_, t, -, h⟩ := Prog.bind_eq_ret h
    obtain ⟨rfl, -⟩ := by simpa using h
    obtain rfl : headerSize + runSize ps = x := by simpa using ht
    refine ⟨ps, hs, rfl, rfl, ?_, htorn⟩
    simp only
    omega
  · rw [recoverSegment_of_fatal _ true hs.run hh.le_u64Max config.segmentSize_lt hs.stops hc
      fun _ => htorn] at h
    simp at h

/-- `file` is not clean at `x`, and no valid record there, or one or two slots on,
goes on from the record numbered `last`. -/
def StillTorn (config : WalConfig) (file : Bytes) (x last : ℕ) : Prop :=
  ¬ ZeroOn file x (x + 20) ∧ ∀ lsn p, last < lsn →
    (lsn = last + 1 → ¬ FrameAt config.segmentSize config.maxRecordSize file x lsn p) ∧
    ¬ FrameAt config.segmentSize config.maxRecordSize file (x + 8) lsn p ∧
    ¬ FrameAt config.segmentSize config.maxRecordSize file (x + 16) lsn p

/-- Zeros over less than a record header change no record behind the third slot. -/
theorem stillTorn_iff {last y : ℕ} {file : Bytes} (hx : x ≤ f.data.length) (hxy : x ≤ y)
    (hfile : file = overwrite f.data x (zeros (y - x)))
    (ht : TornAt config.segmentSize config.maxRecordSize f.data x (last + 1)) :
    StillTorn config file x last ↔
      Stops config.segmentSize config.maxRecordSize file x (last + 1) ∧
        TornAt config.segmentSize config.maxRecordSize file x (last + 1) := by
  have hroom := room_of_not_cleanAt ht.1
  constructor
  · rintro ⟨hnz, hno⟩
    have hshort : y < x + 20 := by
      by_contra hge
      refine hnz fun i hi hi' => ?_
      rw [hfile, overwrite_getElem? _ hx, zeros_length, if_pos (by omega), zeros_getElem?,
        if_pos (by omega)]
    refine ⟨fun p hp => (hno _ p (Nat.lt_succ_self _)).1 rfl hp, ?_, ?_, ?_⟩
    · rintro (hlt | hz)
      · omega
      · exact hnz hz
    · rintro he ⟨k, lsn, p, hk, hle, hp⟩
      obtain ⟨-, h8, h16⟩ := hno lsn p hle
      match k with
      | 0 => exact h8 hp
      | 1 => exact h16 hp
      | k + 2 =>
        -- the record is one of the untouched file's
        refine ht.2.1 he ⟨k + 2, lsn, p, hk, hle, hp.congr ?_⟩
        rw [hfile]
        refine (overwrite_agreeOn_after _ hx _).mono ?_ le_rfl
        rw [zeros_length]
        omega
    · intro he
      obtain ⟨hlen, hz⟩ := ht.2.2 he
      have hlen' : file.length = max f.data.length y := by
        rw [hfile, overwrite_length _ hx, zeros_length, Nat.add_sub_cancel' hxy]
      refine ⟨by omega, fun i hi hi' => ?_⟩
      rw [hfile, overwrite_getElem? _ hx, zeros_length]
      split_ifs with hin
      · rw [zeros_getElem?, if_pos (by omega)]
      · exact hz i hi (by omega)
  · rintro ⟨hs, hc, hno, -⟩
    refine ⟨fun hz => hc (Or.inr hz), fun lsn p hlt => ⟨?_, fun hp => ?_, fun hp => ?_⟩⟩
    · rintro rfl
      exact hs p
    · have := hp.lsn_le
      exact hno (by omega) ⟨0, lsn, p, by simp, hlt, hp⟩
    · have := hp.lsn_le
      exact hno (by omega) ⟨1, lsn, p, by simp [scanBound], hlt, hp⟩

section

variable {d' : Disk} {g : File} {ps : List Bytes} {seg : SegmentRecovery}

/-- A second recovery that finds the whole tail zeroed has nothing left to do. -/
theorem resumes_of_zeroOn (hg : d'.file (filenameFor base) = some g) (hb : base ≤ u64Max)
    (hrun : Run config.segmentSize config.maxRecordSize g.data headerSize base ps)
    (hx : seg.writeOffset = headerSize + runSize ps) (hmax : base + ps.length - 1 = seg.maxLsn)
    (hroom : headerSize + runSize ps + 20 ≤ config.segmentSize)
    (hzero : ZeroOn g.data (headerSize + runSize ps) config.segmentSize) :
    Resumes config base seg d' := by
  have hc : CleanAt config.segmentSize g.data (headerSize + runSize ps) :=
    Or.inr (hzero.mono le_rfl hroom)
  have hrec : recoverActive config base g ⟨d', []⟩ =
      (.ret ⟨base + ps.length - 1, headerSize + runSize ps, .clean⟩, ⟨d', []⟩) := by
    rw [recoverActive, recoverSegment_of_cleanAt _ _ hrun hb hc]
    rfl
  exact ⟨g, _, _, g, hg, hrec, hmax, hx.symm, hg, by rwa [hx]⟩

/-- A second recovery that finds the segment torn where it was zeroes the tail again. -/
theorem resumes_of_tornAt (hg : d'.file (filenameFor base) = some g) (hb : base ≤ u64Max)
    (hrun : Run config.segmentSize config.maxRecordSize g.data headerSize base ps)
    (hx : seg.writeOffset = headerSize + runSize ps) (hmax : base + ps.length - 1 = seg.maxLsn)
    (hlen : headerSize + runSize ps ≤ g.data.length)
    (hstops : Stops config.segmentSize config.maxRecordSize g.data (headerSize + runSize ps)
      (base + ps.length))
    (htorn : TornAt config.segmentSize config.maxRecordSize g.data (headerSize + runSize ps)
      (base + ps.length)) : Resumes config base seg d' := by
  have hroom := room_of_not_cleanAt htorn.1
  have hcalm := zeroToEof_calm hg (by omega : headerSize + runSize ps < config.segmentSize)
  have hrec : recoverActive config base g ⟨d', []⟩ = (.ret ⟨base + ps.length - 1,
      headerSize + runSize ps, .truncatedAt base (headerSize + runSize ps)⟩,
      ⟨d'.put (filenameFor base) (zeroed (headerSize + runSize ps) config.segmentSize g), []⟩) := by
    rw [recoverActive, recoverSegment_of_tornAt _ hrun hb config.segmentSize_lt hstops htorn,
      Prog.seq_of_ret hcalm]
    rfl
  refine ⟨g, _, _, _, hg, hrec, hmax, hx.symm, Disk.put_file_self _ _ _, ?_⟩
  rw [hx]
  exact (zeroed_data _ hlen).2

/-- What the next recovery makes of a zeroing that was interrupted. -/
theorem resumes_iff_of_zeroed
    (hs : SegmentHolds config.segmentSize config.maxRecordSize f.data base ps)
    (hx : seg.writeOffset = headerSize + runSize ps) (hmax : seg.maxLsn + 1 = base + ps.length)
    (ht : TornAt config.segmentSize config.maxRecordSize f.data (headerSize + runSize ps)
      (base + ps.length))
    (hz : ZeroedUpTo (filenameFor base) f (headerSize + runSize ps) config.segmentSize d')
    (hg : d'.file (filenameFor base) = some g) :
    Resumes config base seg d' ↔ ZeroOn g.data seg.writeOffset config.segmentSize ∨
      StillTorn config g.data seg.writeOffset seg.maxLsn := by
  obtain ⟨y, hy, hxy, g', hg', hdata⟩ := hz
  obtain rfl := Option.some.inj (hg'.symm.trans hg)
  have hlen := hs.run.le_file hs.header.le_length
  have hb := hs.header.le_u64Max
  have hpos := hs.header.pos
  have hroom := room_of_not_cleanAt ht.1
  have hbefore : AgreeOn f.data g'.data 0 (headerSize + runSize ps) := by
    rw [hdata]
    exact (overwrite_agreeOn_before _ hlen 0).symm
  have hrun : Run config.segmentSize config.maxRecordSize g'.data headerSize base ps :=
    hs.run.congr (hbefore.mono (Nat.zero_le _) le_rfl)
  have hglen : headerSize + runSize ps ≤ g'.data.length := by
    rw [hdata]
    exact hlen.trans (le_overwrite_length _ _ _)
  have hmax' : base + ps.length - 1 = seg.maxLsn := by omega
  rw [hx, stillTorn_iff hlen hxy hdata (hmax ▸ ht), hmax]
  constructor
  · rintro ⟨g₁, seg', w', g₂, hg₁, hrec, hm, ho, hg₂, hzero⟩
    obtain rfl := Option.some.inj (hg.symm.trans hg₁)
    -- the second scan may find more records than the first, never fewer
    obtain ⟨qs, hq, hstops⟩ := Run.exists_stops config.segmentSize config.maxRecordSize g'.data
      headerSize base
    have hle := hq.prefix_of_stops hstops hrun
    rw [recoverActive] at hrec
    by_cases hc : CleanAt config.segmentSize g'.data (headerSize + runSize qs)
    · rw [recoverSegment_of_cleanAt _ _ hq hb hc] at hrec
      obtain ⟨rfl, rfl⟩ := by simpa using hrec
      obtain rfl := Option.some.inj (hg.symm.trans hg₂)
      rw [hx] at hzero
      exact Or.inl hzero
    by_cases htq : TornAt config.segmentSize config.maxRecordSize g'.data (headerSize + runSize qs)
        (base + qs.length)
    · rw [recoverSegment_of_tornAt _ hq hb config.segmentSize_lt hstops htq] at hrec
      obtain ⟨_, t, -, hrec⟩ := Prog.bind_eq_ret hrec
      obtain ⟨rfl, -⟩ := by simpa using hrec
      simp only at hm
      -- the same last number leaves no further record
      obtain rfl := hle.eq_of_length (by omega)
      exact Or.inr ⟨hstops, htq⟩
    · rw [recoverSegment_of_fatal _ true hq hb config.segmentSize_lt hstops hc fun _ => htq] at hrec
      simp at hrec
  · rintro (hzero | ⟨hstops, htorn⟩)
    · exact resumes_of_zeroOn hg hb hrun hx hmax' hroom hzero
    · exact resumes_of_tornAt hg hb hrun hx hmax' hglen hstops htorn

end

/-- However the recovery of a torn tail ends, a second one ends as the first would
have, and leaves the tail zeroed, exactly where all of the tail is zeroed already
or the segment is still torn at the same place. -/
theorem resumes_iff {seg : SegmentRecovery} {fates : List Fate} {w : World} {g : File}
    (hf : d.file (filenameFor base) = some f) (hh : HeaderOk f.data base)
    (h : recoverActive config base f ⟨d, []⟩ = (.ret seg, w))
    (ht : seg.tailState = .truncatedAt base x)
    (hg : (recoverActive config base f ⟨d, fates⟩).2.disk.file (filenameFor base) = some g) :
    Resumes config base seg (recoverActive config base f ⟨d, fates⟩).2.disk ↔
      ZeroOn g.data x config.segmentSize ∨ StillTorn config g.data x seg.maxLsn := by
  obtain ⟨ps, hs, rfl, hx, hmax, htorn⟩ := torn_of_recoverActive hh h ht
  have hroom := room_of_not_cleanAt htorn.1
  have hz : ZeroedUpTo (filenameFor base) f (headerSize + runSize ps) config.segmentSize
      (recoverActive config base f ⟨d, fates⟩).2.disk := by
    have hends := (zeroToEof_triple hf
      (by omega : headerSize + runSize ps ≤ config.segmentSize)).seq
      (Triple.ret (Q := fun _ => OnDisk (ZeroedUpTo (filenameFor base) f (headerSize + runSize ps)
          config.segmentSize)) (⟨base + ps.length - 1, headerSize + runSize ps,
        .truncatedAt base (headerSize + runSize ps)⟩ : SegmentRecovery) fun _ hw => hw) ⟨d, fates⟩ rfl
    rw [← recoverSegment_of_tornAt (filenameFor base) hs.run hh.le_u64Max config.segmentSize_lt
      hs.stops htorn] at hends
    rw [recoverActive]
    rcases hr : recoverSegment (filenameFor base) f.data base true config.segmentSize
      config.maxRecordSize ⟨d, fates⟩ with ⟨o, w'⟩
    rw [hr] at hends
    cases o with
    | ret a => exact hends
    | err e => exact hends
    | crashed => exact hends
    | diverged => exact hends.elim
  have h := resumes_iff_of_zeroed hs hx hmax htorn hz hg
  rwa [hx] at h

end

def staleTail : Disk :=
  .holding [(filenameFor 1, encodeHeader 1 0 ++ (1 :: zeros 40 ++ 5 :: zeros 30))]

/-- The process dies when 20 bytes are zeroed: enough to end the records cleanly. -/
theorem staleTail_run : ∃ f w w' g, staleTail.file (filenameFor 1) = some f ∧ HeaderOk f.data 1 ∧
    recoverActive tightConfig 1 f ⟨staleTail, []⟩ = (.ret ⟨0, 64, .truncatedAt 1 64⟩, w) ∧
    recoverActive tightConfig 1 f ⟨staleTail, [.crash 20]⟩ = (.crashed, w') ∧
    w'.disk.file (filenameFor 1) = some g ∧ g.data[105]? = some 5 ∧ ZeroOn g.data 64 84 := by
  set f : File := ⟨encodeHeader 1 0 ++ (1 :: zeros 40 ++ 5 :: zeros 30), fun _ => false⟩ with hf
  have hgot : ((recoverActive tightConfig 1 f ⟨staleTail, [.crash 20]⟩).2.disk.file (filenameFor 1)).map
      (fun g => (g.data[105]?, slice g.data 64 84)) = some (some 5, zeros 20) := by decide +kernel
  obtain ⟨g, hg, hdata⟩ := Option.map_eq_some_iff.mp hgot
  obtain ⟨h105, hzero⟩ := Prod.mk.inj hdata
  refine ⟨f, (recoverActive tightConfig 1 f ⟨staleTail, []⟩).2,
    (recoverActive tightConfig 1 f ⟨staleTail, [.crash 20]⟩).2, g, AList.lookup_insert _, ?_,
    Prod.ext ?_ rfl, Prod.ext ?_ rfl, hg, h105, zeroOn_of_slice_eq hzero⟩
  · rw [hf]
    exact headerOk_encodeHeader _ le_rfl (by decide)
  · decide +kernel
  · decide +kernel

/-- The stale byte outlives both recoveries. -/
theorem staleTail_not_resumed : ∃ f w w', staleTail.file (filenameFor 1) = some f ∧
    HeaderOk f.data 1 ∧
    recoverActive tightConfig 1 f ⟨staleTail, []⟩ = (.ret ⟨0, 64, .truncatedAt 1 64⟩, w) ∧
    recoverActive tightConfig 1 f ⟨staleTail, [.crash 20]⟩ = (.crashed, w') ∧
    ¬ Resumes tightConfig 1 ⟨0, 64, .truncatedAt 1 64⟩ w'.disk := by
  obtain ⟨f, w, w', g, hf, hh, h, h', hg, h105, hzero⟩ := staleTail_run
  refine ⟨f, w, w', hf, hh, h, h', ?_⟩
  rintro ⟨g₁, seg', w'', g', hg₁, hrec, hmax, -, hg', hz⟩
  obtain rfl := Option.some.inj (hg.symm.trans hg₁)
  have hc : CleanAt tightConfig.segmentSize g.data (headerSize + runSize []) := Or.inr hzero
  have hrun : Run tightConfig.segmentSize tightConfig.maxRecordSize g.data headerSize 1 [] := trivial
  rw [recoverActive, recoverSegment_of_cleanAt _ _ hrun (by decide) hc] at hrec
  obtain ⟨-, rfl⟩ := Prod.mk.inj hrec
  obtain rfl := Option.some.inj (hg.symm.trans hg')
  have := hz 105 (by decide) (by decide)
  simp [h105] at this

theorem resumes_iff_staleTail : ∃ f g w', staleTail.file (filenameFor 1) = some f ∧
    recoverActive tightConfig 1 f ⟨staleTail, [.crash 20]⟩ = (.crashed, w') ∧
    w'.disk.file (filenameFor 1) = some g ∧
    (Resumes tightConfig 1 ⟨0, 64, .truncatedAt 1 64⟩ w'.disk ↔
      ZeroOn g.data 64 tightConfig.segmentSize ∨ StillTorn tightConfig g.data 64 0) := by
  obtain ⟨f, w, w', g, hf, hh, h, h', hg, -⟩ := staleTail_run
  have hg' : (recoverActive tightConfig 1 f ⟨staleTail, [.crash 20]⟩).2.disk.file (filenameFor 1) =
      some g := by rw [h']; exact hg
  have hiff := resumes_iff hf hh h rfl hg'
  rw [h'] at hiff
  exact ⟨f, g, w', hf, h', hg, hiff⟩

end OpenWal
