import OpenWal.Theory.Adopted

namespace OpenWal
open ByteSeq Posix CrashProg Simulation

section

variable [Crc32c]

def AcceptedSealed (config : WalConfig) (d : Disk) (b b' : ℕ) : Prop :=
  ∃ f seg, d.file (filenameFor b) = some f ∧
    recoverSegment (filenameFor b) f.data b false config.segmentSize config.maxRecordSize ⟨d, []⟩ =
      (.ret seg, ⟨d, []⟩) ∧ seg.maxLsn + 1 = b'

variable {config : WalConfig} {d : Disk} {base oldest : ℕ} {ps : List Bytes} {f : File}
  {m₀ m₁ m : Machine}

theorem acceptedSealed_iff (hf : d.file (filenameFor base) = some f) (hpos : 1 ≤ base)
    (hb : base ≤ u64Max)
    (hrun : Run config.segmentSize config.maxRecordSize f.data headerSize base ps) :
    AcceptedSealed config d base (base + ps.length) ↔
      CleanAt config.segmentSize f.data (headerSize + runSize ps) := by
  constructor
  · rintro ⟨g, seg, hg, hr, hmax⟩
    obtain rfl := Option.some.inj (hg.symm.trans hf)
    obtain ⟨qs, hrq, hsq⟩ := Run.exists_stops config.segmentSize config.maxRecordSize g.data
      headerSize base
    by_cases hc : CleanAt config.segmentSize g.data (headerSize + runSize qs)
    · rw [recoverSegment_of_cleanAt _ _ hrq hb hc] at hr
      simp only [Prog.pure_run, Prod.mk.injEq, Outcome.ret.injEq, and_true] at hr
      subst hr
      have hle := hrq.prefix_of_stops hsq hrun
      obtain rfl := hle.eq_of_length (by simp only at hmax; omega)
      exact hc
    · rw [recoverSegment_of_fatal _ _ hrq hb config.segmentSize_lt hsq hc (by simp)] at hr
      simp at hr
  · intro hc
    refine ⟨f, _, hf, by rw [recoverSegment_of_cleanAt _ _ hrun hb hc]; rfl, ?_⟩
    simp only
    omega

omit [Crc32c] in
/-- Neighbours among the bases of a log are the ends of its segments. -/
theorem adjacent_iff {P : ℕ → ℕ → Prop} {segs : List (List Bytes)} :
    (∀ pre b b' post, basesFrom base segs = pre ++ b :: b' :: post → P b b') ↔
      ChainFrom (fun b ps => P b (b + ps.length)) base segs := by
  induction segs generalizing base with
  | nil =>
    refine ⟨fun _ => trivial, fun _ pre b b' post h => ?_⟩
    have hlen := congrArg List.length h
    simp only [basesFrom, List.length_append, List.length_cons, List.length_nil] at hlen
    omega
  | cons ps rest ih =>
    obtain ⟨tail, htail⟩ := basesFrom_eq_cons (base + ps.length) rest
    constructor
    · intro h
      refine ⟨h [] _ _ tail (by rw [basesFrom, htail]; rfl), ih.mp fun pre b b' post hsplit => ?_⟩
      exact h (base :: pre) b b' post (by rw [basesFrom, hsplit]; rfl)
    · rintro ⟨hhead, hrest⟩ pre b b' post hsplit
      cases pre with
      | nil =>
        rw [basesFrom, htail] at hsplit
        obtain ⟨rfl, hcons⟩ := List.cons.inj hsplit
        obtain ⟨rfl, -⟩ := List.cons.inj hcons
        exact hhead
      | cons c pre => exact ih.mpr hrest pre b b' post (List.cons.inj hsplit).2

omit [Crc32c] in
/-- The same from the segment that follows `sealed` on. -/
theorem adjacent_from_iff {P : ℕ → ℕ → Prop} {sealed segs : List (List Bytes)} :
    (∀ pre b b' post, basesFrom oldest (sealed ++ segs) = pre ++ b :: b' :: post →
        sealed.length ≤ pre.length → P b b') ↔
      ChainFrom (fun b ps => P b (b + ps.length)) (activeBase oldest sealed) segs := by
  induction sealed generalizing oldest with
  | nil =>
    rw [activeBase_nil, ← adjacent_iff]
    simp
  | cons ps rest ih =>
    rw [activeBase_cons, ← ih]
    constructor
    · intro h pre b b' post hsplit hlen
      exact h (oldest :: pre) b b' post (by rw [List.cons_append, basesFrom, hsplit]; rfl)
        (Nat.succ_le_succ hlen)
    · intro h pre b b' post hsplit hlen
      cases pre with
      | nil => simp at hlen
      | cons c pre => exact h pre b b' post (List.cons.inj hsplit).2 (Nat.le_of_succ_le_succ hlen)

/-- After appends and commits that roll, recovery accepts every segment they left
behind exactly where the adopted one ends cleanly behind what it kept. -/
theorem acceptedSealed_iff_cleanAt {seed : ℕ} {rep : RecoveryReport} {ops : List Op}
    {os : List (Outcome WalError Reply)} {wal wal' : Wal} (hseed : (Op.openLog seed).Legal)
    (hopen : m₀.runCalm config [.openLog seed] = some ([.ret (.opened rep)], m₁))
    (hops : ∀ op ∈ ops, op.IsWrite) (hrun : m₁.runCalm config ops = some (os, m))
    (hok : ∀ o ∈ os, ∃ r, o = .ret r) (hw : m₁.handle = some wal) (hw' : m.handle = some wal')
    (hroll : wal'.active ≠ wal.active) (hf : m₁.disk.file wal.active = some f) :
    (∀ pre b b' post, wal'.segments = pre ++ b :: b' :: post →
        wal.segments.length ≤ pre.length + 1 → AcceptedSealed config m.disk b b') ↔
      CleanAt config.segmentSize f.data
        (wal.writeOffset + runSize (keptBy (wal.segmentSize - wal.writeOffset) [] ops)) := by
  rw [Machine.runCalm_eq_some] at hopen hrun
  cases hopen with
  | cons hopen hnil =>
  cases hnil
  obtain ⟨hv, oldest, sealed, active, ts, f₁, rfl, -, hlog⟩ := logOn_of_open hseed hopen hw
  obtain rfl : f₁ = f := Option.some.inj (hlog.file.symm.trans hf)
  have hkept : (handleOn config oldest sealed active [] []).segmentSize -
      (handleOn config oldest sealed active [] []).writeOffset =
      config.segmentSize - (headerSize + runSize active + runSize []) := rfl
  rw [hkept]
  set fill := keptBy (config.segmentSize - (headerSize + runSize active + runSize [])) [] ops with hfill
  rcases (filling_start hv hw hlog).run hlog hv hops hrun hok with ⟨staged, hf'⟩ | hrolled
  · -- the active segment is still the adopted one
    obtain ⟨observed, hh'⟩ := hf'.handle
    rw [hw', Option.some.injEq] at hh'
    rw [hh'] at hroll
    exact absurd rfl hroll
  rw [List.nil_append, ← hfill] at hrolled
  obtain ⟨segs, last, observed, staged, d₁, f₂, g, hh', hne, hset, hdata, hb, hfits, hext, -⟩ := hrolled
  obtain rfl := Option.some.inj (hw'.symm.trans hh')
  obtain ⟨hheader, hrun', hdrop⟩ := run_of_overwrite hlog.holds hb hfits
  rw [← hdata] at hheader hrun' hdrop
  have hlen := List.length_pos_iff.mpr hne
  have hoff : (handleOn config oldest sealed active [] []).writeOffset + runSize fill =
      headerSize + runSize (active ++ fill) := by
    simp only [handleOn, runSize_append, Nat.add_assoc]
  have hbase : activeBase oldest (sealed ++ [active ++ fill]) =
      activeBase oldest sealed + (active ++ fill).length := by
    rw [activeBase_append, activeBase_cons, activeBase_nil]
  -- the adopted segment, as it was left behind
  have hadopted : m.disk.file (filenameFor (activeBase oldest sealed)) = some f₂ := by
    rw [hext.others _ fun c hc => ?_, hset.self]
    have hle := mem_basesFrom_le hc
    rw [hbase] at hle
    have := hext.written.header.le_u64Max
    rw [hbase] at this
    exact filenameFor_ne hlog.activeBase_le (by omega) (by omega)
  have hacc := acceptedSealed_iff hadopted hlog.activeBase_pos hlog.activeBase_le hrun'
  have hclean : CleanAt config.segmentSize f₂.data (headerSize + runSize (active ++ fill)) ↔
      CleanAt config.segmentSize f₁.data (headerSize + runSize (active ++ fill)) :=
    ⟨fun h => h.congr (agreeOn_of_drop_eq hdrop _), fun h => h.congr (agreeOn_of_drop_eq hdrop.symm _)⟩
  rw [hoff, ← hclean, ← hacc]
  have hsegs : (handleOn config oldest (sealed ++ [active ++ fill] ++ segs) last observed staged).segments =
      basesFrom oldest (sealed ++ (active ++ fill) :: segs) := by
    simp only [handleOn, List.append_assoc, List.singleton_append]
  have hseglen : (handleOn config oldest sealed active [] []).segments.length = sealed.length + 1 :=
    basesFrom_length oldest sealed
  have hnew : ChainFrom (fun b ps => AcceptedSealed config m.disk b (b + ps.length))
      (activeBase oldest sealed + (active ++ fill).length) segs := by
    rw [← hbase]
    apply hext.chain.imp
    -- a segment that was written from its start
    rintro b ps - - ⟨-, g', hg', hw', -⟩
    exact (acceptedSealed_iff hg' hw'.header.pos hw'.header.le_u64Max
      (hw'.holds config.maxRecordSize_lt).run).mpr hw'.cleanAt
  rw [hsegs, hseglen]
  simp only [Nat.add_le_add_iff_right]
  rw [adjacent_from_iff]
  exact and_iff_left hnew

end

def cutOff : Machine := .onDisk (.holding [(filenameFor 1, encodeHeader 1 0 ++ zeros 20)])

/-- The second record does not fit and rolls; the first one ends the file. -/
theorem cutOff_run : ∃ m₁ m wal wal' f,
    cutOff.runCalm tightConfig [.openLog 1] = some ([.ret (.opened ⟨1, 0, .clean, 1⟩)], m₁) ∧
    m₁.runCalm tightConfig [.append (zeros 20), .append (zeros 20), .commit] =
      some ([.ret (.appended 1), .ret (.appended 2), .ret (.committed 2)], m) ∧
    m₁.handle = some wal ∧ m.handle = some wal' ∧ wal'.active ≠ wal.active ∧
    wal.segments.length = 1 ∧ wal'.segments = [1, 2] ∧
    m₁.disk.file wal.active = some f ∧
    ¬ AcceptedSealed tightConfig m.disk 1 2 := by
  obtain ⟨m₁, h₁⟩ := Machine.runCalm_of_fst tightConfig cutOff [.openLog 1]
    [.ret (.opened ⟨1, 0, .clean, 1⟩)] (by decide +kernel)
  obtain ⟨m, h₂⟩ := Machine.runCalm_of_append h₁ [.append (zeros 20), .append (zeros 20), .commit]
    [.ret (.appended 1), .ret (.appended 2), .ret (.committed 2)] (by decide +kernel)
  have h₁₂ := Machine.runCalm_append h₁ [.append (zeros 20), .append (zeros 20), .commit]
  rw [h₂] at h₁₂
  obtain ⟨wal, hw, ha⟩ := Option.map_eq_some_iff.mp (Machine.eq_of_runCalm h₁
    (fun m => m.handle.map fun wal => (wal.active, wal.segments)) (b := some (filenameFor 1, [1]))
    (by decide +kernel))
  obtain ⟨wal', hw', ha'⟩ := Option.map_eq_some_iff.mp (Machine.eq_of_runCalm h₁₂
    (fun m => m.handle.map fun wal => (wal.active, wal.segments)) (b := some (filenameFor 2, [1, 2]))
    (by decide +kernel))
  obtain ⟨f, hf⟩ := Option.isSome_iff_exists.mp (Machine.eq_of_runCalm h₁
    (fun m => (m.disk.file (filenameFor 1)).isSome) (b := true) (by decide +kernel))
  have hrejected := Machine.eq_of_runCalm h₁₂ (fun m => (m.disk.file (filenameFor 1)).map fun f =>
    decide ((recoverSegment (filenameFor 1) f.data 1 false 136 45 ⟨m.disk, []⟩).1 =
      .err (.corruption 1 104 "invalid record in sealed segment"))) (b := some true) (by decide +kernel)
  rw [Prod.mk.injEq] at ha ha'
  refine ⟨m₁, m, wal, wal', f, h₁, h₂, hw, hw', ?_, by rw [ha.2]; rfl, ha'.2, by rw [ha.1, hf], ?_⟩
  · rw [ha.1, ha'.1]
    exact filenameFor_ne (by decide) (by decide) (by decide)
  · rintro ⟨g, seg, hg, hr, -⟩
    rw [hg, Option.map_some, Option.some.injEq] at hrejected
    simp [tightConfig] at hr
    simp [hr] at hrejected

theorem acceptedSealed_iff_cleanAt_cutOff : ∃ (m₁ m : Machine) (wal wal' : Wal) (f : File),
    m₁.handle = some wal ∧ m.handle = some wal' ∧ m₁.disk.file wal.active = some f ∧
    ((∀ pre b b' post, wal'.segments = pre ++ b :: b' :: post →
        wal.segments.length ≤ pre.length + 1 → AcceptedSealed tightConfig m.disk b b') ↔
      CleanAt 136 f.data (wal.writeOffset + runSize (keptBy (wal.segmentSize - wal.writeOffset) []
        [.append (zeros 20), .append (zeros 20), .commit]))) := by
  obtain ⟨m₁, m, wal, wal', f, h₁, h₂, hw, hw', hroll, -, -, hf, -⟩ := cutOff_run
  exact ⟨m₁, m, wal, wal', f, hw, hw', hf, acceptedSealed_iff_cleanAt ⟨by decide, by decide⟩ h₁
    (by simp [Op.IsWrite]) h₂ (by simp) hw hw' hroll hf⟩

/-- Recovery refuses the segment that was left behind. -/
theorem cutOff_refused : ∃ m₁ m wal wal',
    cutOff.runCalm tightConfig [.openLog 1] = some ([.ret (.opened ⟨1, 0, .clean, 1⟩)], m₁) ∧
    m₁.runCalm tightConfig [.append (zeros 20), .append (zeros 20), .commit] =
      some ([.ret (.appended 1), .ret (.appended 2), .ret (.committed 2)], m) ∧
    m₁.handle = some wal ∧ m.handle = some wal' ∧ wal'.active ≠ wal.active ∧
    ¬ ∀ pre b b' post, wal'.segments = pre ++ b :: b' :: post →
        wal.segments.length ≤ pre.length + 1 → AcceptedSealed tightConfig m.disk b b' := by
  obtain ⟨m₁, m, wal, wal', f, h₁, h₂, hw, hw', hroll, hl, hsegs, -, hrejected⟩ := cutOff_run
  exact ⟨m₁, m, wal, wal', h₁, h₂, hw, hw', hroll, fun h => hrejected (h [] 1 2 [] hsegs (by simp [hl]))⟩

end OpenWal
