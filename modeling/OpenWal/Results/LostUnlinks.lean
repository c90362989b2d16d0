import OpenWal.Theory.CrashStates
import OpenWal.Theory.FailingRuns

namespace OpenWal
open ByteSeq Posix CrashProg

/-- Of the files that `after` lacks, power loss may bring some back as they were in `before`. -/
structure UnlinksLost (before after d : Disk) : Prop where
  files : ∀ n, d.file n = after.file n ∨ d.file n = before.file n
  locked : d.locked = false

section

variable [Crc32c] {config : WalConfig} {d d' : Disk} {oldest b k : ℕ} {sealed xs ys : List (List Bytes)}
  {active : List Bytes} {f : File}

omit [Crc32c] in
theorem mem_basesFrom_split (h : b ∈ basesFrom oldest sealed) :
    ∃ us vs, sealed = us ++ vs ∧ b = activeBase oldest us := by
  rcases mem_basesFrom_cases h with rfl | ⟨us, ps, vs, hs, hb⟩
  · exact ⟨sealed, [], (List.append_nil _).symm, rfl⟩
  · exact ⟨us, ps :: vs, hs, hb⟩

omit [Crc32c] in
/-- The last bases are those of the last segments. -/
theorem basesFrom_suffix {l : List ℕ} (h : l <:+ basesFrom oldest sealed) (hne : l ≠ []) :
    ∃ us vs, sealed = us ++ vs ∧ l = basesFrom (activeBase oldest us) vs := by
  obtain ⟨pre, hpre⟩ := h
  have hlen := congrArg List.length hpre
  have hpos := List.length_pos_iff.mpr hne
  rw [List.length_append, basesFrom_length] at hlen
  have hus : (sealed.take pre.length).length = pre.length := List.length_take_of_le (by omega)
  have hsplit := List.take_append_drop pre.length sealed
  refine ⟨sealed.take pre.length, sealed.drop pre.length, hsplit.symm, ?_⟩
  rw [← basesFrom_drop, hsplit, hus, ← hpre, List.drop_left]

omit [Crc32c] in
theorem getLast?_basesOf (hb : b ∈ basesOf d) (hmax : ∀ c ∈ basesOf d, c ≤ b) :
    (basesOf d).getLast? = some b := by
  cases h : (basesOf d).getLast? with
  | none =>
    rw [List.getLast?_eq_none_iff.mp h] at hb
    simp at hb
  | some c =>
    rw [Nat.le_antisymm (hmax c (List.mem_of_getLast? h)) (le_highest_basesOf hb h)]

structure Left (d d' : Disk) (oldest : ℕ) (sealed : List (List Bytes)) (kept : ℕ) : Prop where
  subset : ∀ n g, d'.file n = some g → d.file n = some g
  /-- Nothing else is gone. -/
  others : ∀ n, (∀ b ∈ basesFrom oldest sealed, b < kept → n ≠ filenameFor b) → d'.file n = d.file n

theorem UnlinksLost.left (h : Carries config d oldest (xs ++ ys) active f) (hk : k ≤ xs.length)
    (hlost : UnlinksLost d (removeAll ((basesFrom oldest (xs ++ ys)).take k) d) d') :
    Left d d' oldest (xs ++ ys) (activeBase oldest xs) where
  subset n g hg := by
    rcases hlost.files n with hn | hn
    · exact removeAll_subset (hn ▸ hg)
    · exact hn ▸ hg
  others n hn := by
    rcases hlost.files n with hn' | hn'
    · rw [hn']
      apply removeAll_file
      intro b hb
      have hsort := basesFrom_sorted oldest h.ne_nil
      have hsplit := List.take_append_drop xs.length (basesFrom oldest (xs ++ ys))
      rw [basesFrom_drop] at hsplit
      rw [← hsplit] at hsort
      have hfirst : activeBase oldest xs ∈ basesFrom (activeBase oldest xs) ys := by
        obtain ⟨r, hr⟩ := basesFrom_eq_cons (activeBase oldest xs) ys
        rw [hr]
        exact List.mem_cons_self
      have hb' : b ∈ (basesFrom oldest (xs ++ ys)).take xs.length :=
        List.take_subset_take_left _ hk hb
      exact hn b (List.mem_of_mem_take hb) ((List.pairwise_append.mp hsort).2.2 b hb' _ hfirst)
    · exact hn'

namespace Left

variable {kept upTo seed : ℕ} (hd : Left d d' oldest sealed kept)
  (h : Carries config d oldest sealed active f) (hkept : kept ≤ activeBase oldest sealed)

include hd h

theorem file_of_le (hb : b ≤ u64Max) (hle : kept ≤ b) :
    d'.file (filenameFor b) = d.file (filenameFor b) := by
  apply hd.others
  intro c hc hlt
  have := (mem_basesFrom_le hc).2.trans h.activeBase_le
  exact filenameFor_ne hb this (by omega)

theorem mem_basesOf (hb : b ∈ basesOf d') : b ∈ basesFrom oldest sealed := by
  obtain ⟨hle, g, hg⟩ := OpenWal.mem_basesOf.mp hb
  rw [← h.bases]
  exact OpenWal.mem_basesOf.mpr ⟨hle, g, hd.subset _ _ hg⟩

include hkept

/-- The active segment is the highest one still. -/
theorem getLast?_bases : (basesOf d').getLast? = some (activeBase oldest sealed) := by
  apply getLast?_basesOf
  · exact OpenWal.mem_basesOf.mpr ⟨h.activeBase_le, f, by rw [hd.file_of_le h h.activeBase_le hkept, h.file]⟩
  · exact fun c hc => (mem_basesFrom_le (hd.mem_basesOf h hc)).2

theorem discards : Discards config (acquired d') (acquired d') :=
  .keep (hd.getLast?_bases h hkept) ((hd.file_of_le h h.activeBase_le hkept).trans h.file) h.header

omit hkept in
/-- Where the segments left are the last ones, they are a log. -/
theorem carries {us vs : List (List Bytes)} (hsplit : sealed = us ++ vs)
    (hbases : basesOf d' = basesFrom (activeBase oldest us) vs) :
    Carries config d' (activeBase oldest us) vs active f := by
  subst hsplit
  have htake := List.take_append_drop us.length (basesFrom oldest (us ++ vs))
  rw [basesFrom_drop] at htake
  have hsort := basesFrom_sorted oldest h.ne_nil
  rw [← htake] at hsort
  obtain ⟨-, -, hlt⟩ := List.pairwise_append.mp hsort
  apply h.drop
  · intro b hb
    by_contra hsome
    obtain ⟨g, hg⟩ := Option.ne_none_iff_exists'.mp hsome
    have hle := (mem_basesFrom_le (List.mem_of_mem_take hb)).2.trans h.activeBase_le
    have hm : b ∈ basesOf d' := OpenWal.mem_basesOf.mpr ⟨hle, g, hg⟩
    exact absurd (hlt b hb b (hbases ▸ hm)) (lt_irrefl b)
  · intro n hn
    by_cases hbase : ∃ b ∈ basesFrom (activeBase oldest us) vs, n = filenameFor b
    · obtain ⟨b, hb, rfl⟩ := hbase
      rw [← hbases] at hb
      obtain ⟨-, g, hg⟩ := OpenWal.mem_basesOf.mp hb
      rw [hg, hd.subset _ _ hg]
    · apply hd.others
      rintro b hb -
      rw [← htake] at hb
      rcases List.mem_append.mp hb with hb | hb
      · exact hn b hb
      · exact fun heq => hbase ⟨b, hb, heq⟩

end Left

/-- Sealed segments that recovery accepts are those of the log. -/
theorem eq_of_sealedFrom {zs : List (List Bytes)} (hsub : ∀ n g, d'.file n = some g → d.file n = some g)
    (h : ChainFrom (HeldAt config.segmentSize config.maxRecordSize d) oldest ys)
    (hc : CleanSealed config d' oldest ys)
    (hs : SealedFrom config.segmentSize config.maxRecordSize d' oldest zs)
    (ha : activeBase oldest zs = activeBase oldest ys) : zs = ys := by
  induction ys generalizing oldest zs with
  | nil =>
    cases zs with
    | nil => rfl
    | cons qs zs =>
      have := List.length_pos_iff.mpr hs.1.1
      have := le_activeBase (oldest + qs.length) zs
      rw [activeBase_cons, activeBase_nil] at ha
      omega
  | cons ps ys ih =>
    obtain ⟨⟨hne, g, hg, -, hr⟩, hrest⟩ := h
    cases zs with
    | nil =>
      have := List.length_pos_iff.mpr hne
      have := le_activeBase (oldest + ps.length) ys
      rw [activeBase_cons, activeBase_nil] at ha
      omega
    | cons qs zs =>
      obtain ⟨⟨-, g', hg', hq, hclean⟩, hzs⟩ := hs
      obtain rfl := Option.some.inj (hg.symm.trans (hsub _ _ hg'))
      obtain rfl : qs = ps := hq.run.eq_of_stops hq.stops hr (hc.1 g hg').stops
      rw [ih hrest hc.2 hzs (by rwa [activeBase_cons, activeBase_cons] at ha)]

/-- Every `open` recovers the last of the records `rs`, among them all above `upTo`, and the
number `durable`. -/
def RecoversAbove (config : WalConfig) (d : Disk) (upTo durable : ℕ) (rs : List (ℕ × Bytes)) : Prop :=
  ∀ seed, (Op.openLog seed).Legal → ∃ wal rep rs', Recovers config d seed wal rep rs' ∧ rs' <:+ rs ∧
    (∀ r ∈ rs, upTo < r.1 → r ∈ rs') ∧ rep.durableLsn = durable

namespace Left

variable {kept upTo : ℕ} (hd : Left d d' oldest sealed kept)
  (h : Carries config d oldest sealed active f) (hkept : kept ≤ activeBase oldest sealed)

include hd h

theorem recoversAbove (hv : config.Valid) (hl : d'.locked = false) (hkept : kept ∈ basesFrom oldest sealed)
    (hupTo : kept = oldest ∨ kept - 1 ≤ upTo) (hsuffix : basesOf d' <:+ basesFrom oldest sealed)
    (hclean : CleanSealed config d' oldest sealed) (hi : InertActive config oldest sealed active f) :
    RecoversAbove config d' upTo (activeBase oldest sealed + active.length - 1)
      (numbered oldest (sealed.flatten ++ active)) := by
  have hkept' : kept ∈ basesOf d' := by
    rw [← h.bases] at hkept
    obtain ⟨hle, g, hg⟩ := OpenWal.mem_basesOf.mp hkept
    exact OpenWal.mem_basesOf.mpr ⟨hle, g, (hd.file_of_le h hle le_rfl).trans hg⟩
  obtain ⟨us, vs, rfl, hbases⟩ := basesFrom_suffix hsuffix (List.ne_nil_of_mem hkept')
  have hc := hd.carries h rfl hbases
  rintro seed ⟨h1, -⟩
  have hi' : InertActive config (activeBase oldest us) vs active f := by
    rwa [InertActive, ← activeBase_append]
  have hacq : Carries config (acquired d') (activeBase oldest us) vs active f := hc.of_file fun _ => rfl
  obtain ⟨ts, hrec⟩ := hacq.recovers hv h1 hl (.keep hc.getLast?_bases hc.file hc.header)
    (ChainFrom.append_iff.mp hclean).2 hi'
  have hall : numbered oldest ((us ++ vs).flatten ++ active) =
      numbered oldest us.flatten ++ numbered (activeBase oldest us) (vs.flatten ++ active) := by
    rw [List.flatten_append, List.append_assoc, numbered_append]
    rfl
  refine ⟨_, _, _, hrec, hall ▸ List.suffix_append _ _, fun r hr hlt => ?_, by
    rw [reportOn, activeBase_append]⟩
  rw [hall] at hr
  refine (List.mem_append.mp hr).resolve_left fun hold => ?_
  -- what is gone is below the segments that no checkpoint could delete
  have hfst : r.1 ∈ (numbered oldest us.flatten).map Prod.fst := List.mem_map_of_mem hold
  rw [numbered_map_fst, List.mem_range'_1] at hfst
  have := (mem_basesFrom_le (hbases ▸ hkept')).1
  simp only [activeBase] at this
  omega

include hkept

theorem endsWell (hsuffix : basesOf d' <:+ basesFrom oldest sealed)
    (hrec : RecoversAbove config d' upTo (activeBase oldest sealed + active.length - 1)
      (numbered oldest (sealed.flatten ++ active))) :
    CleanSealed config d' oldest sealed ∧ InertActive config oldest sealed active f := by
  have hlast := hd.getLast?_bases h hkept
  have hpos := h.activeBase_pos
  have hne : basesOf d' ≠ [] := by
    rintro hnil
    simp [hnil] at hlast
  obtain ⟨us, vs, rfl, hbases⟩ := basesFrom_suffix hsuffix hne
  have hc : Carries config (acquired d') (activeBase oldest us) vs active f :=
    (hd.carries h rfl hbases).of_file fun _ => rfl
  obtain ⟨wal, rep, rs', hr, -, -, hdurable⟩ := hrec 1 ⟨le_rfl, by decide⟩
  obtain ⟨hclean, hi⟩ := hc.endsWell_of_recovers (by decide) (hd.discards h hkept) hr
    (by rw [← activeBase_append]; omega)
  rw [InertActive, ← activeBase_append] at hi
  refine ⟨ChainFrom.append_iff.mpr ⟨?_, hclean⟩, hi⟩
  apply (ChainFrom.append_iff.mp h.chain).1.imp
  rintro b ps - hle ⟨hps, g, -, hh, -⟩ f' hf'
  have hm : b ∈ basesOf d' := OpenWal.mem_basesOf.mpr ⟨hh.le_u64Max, f', hf'⟩
  have := (mem_basesFrom_le (hbases ▸ hm)).1
  have := List.length_pos_iff.mpr hps
  omega

theorem suffix (hclean : CleanSealed config d' oldest sealed) {durable : ℕ}
    (hrec : RecoversAbove config d' upTo durable (numbered oldest (sealed.flatten ++ active))) :
    basesOf d' <:+ basesFrom oldest sealed := by
  obtain ⟨wal, rep, rs', hr, -, -, -⟩ := hrec 1 ⟨le_rfl, by decide⟩
  obtain ⟨-, -, -, d₀, hdis, base, zs, qs, ts, -, -, -, hcases⟩ := hr.cases (by decide)
  obtain rfl := (hd.discards h hkept).unique hdis
  have hlast := hd.getLast?_bases h hkept
  rcases hcases with ⟨hnone, -⟩ | ⟨g, g', hlog, -⟩
  · rw [basesOf_acquired] at hnone
    simp [hnone] at hlast
  have hbases : basesOf d' = basesFrom base zs := hlog.bases
  have hmem : base ∈ basesOf d' := by
    obtain ⟨r, hr⟩ := basesFrom_eq_cons base zs
    rw [hbases, hr]
    exact List.mem_cons_self
  obtain ⟨us, vs, rfl, rfl⟩ := mem_basesFrom_split (hd.mem_basesOf h hmem)
  rw [hbases, basesFrom_getLast?, activeBase_append] at hlast
  obtain rfl := eq_of_sealedFrom hd.subset (ChainFrom.append_iff.mp h.chain).2
    (ChainFrom.append_iff.mp hclean).2 (hlog.chain.congr fun _ _ _ _ => rfl) (Option.some.inj hlast)
  rw [hbases, ← basesFrom_drop]
  exact List.drop_suffix _ _

end Left

variable {ok : Machine → Op → List Fate → Prop} {m₀ m : Machine} {wal : Wal}

/-- Power loss before the directory sync of a checkpoint leaves a log with everything above
`upTo`: exactly where the segment files left are the last ones, as far as they end well. -/
theorem checkpoint_survives_powerLoss (hh : m₀.handle = none) (hl : m₀.disk.locked = false)
    (hm : Machine.Reaches config ok m₀ m) (hw : m.handle = some wal) (hp : wal.poisoned = false) :
    ∃ oldest sealed active f, wal.segments = basesFrom oldest sealed ∧
      wal.durableLsn + 1 = activeBase oldest sealed + active.length ∧
      Carries config m.disk oldest sealed active f ∧
      ∀ upTo fates s d', checkpoint upTo ⟨wal, ⟨m.disk, fates⟩⟩ = (.crashed, s) →
        UnlinksLost m.disk s.world.disk d' →
          (CleanSealed config d' oldest sealed → InertActive config oldest sealed active f →
            (RecoversAbove config d' upTo wal.durableLsn (numbered oldest (sealed.flatten ++ active)) ↔
              basesOf d' <:+ wal.segments)) ∧
          (basesOf d' <:+ wal.segments →
            (RecoversAbove config d' upTo wal.durableLsn (numbered oldest (sealed.flatten ++ active)) ↔
              CleanSealed config d' oldest sealed ∧ InertActive config oldest sealed active f)) := by
  have hu := (Upheld.trivially config ok).run (hh ▸ .rest hl trivial) hm
  rw [hw] at hu
  cases hu with
  | stuck _ _ hpois => simp [hp] at hpois
  | live hv hlock hdir hc hobs hlive =>
    rename_i oldest sealed active observed staged f
    have hcar := hc.toCarries
    have hpos := hcar.activeBase_pos
    refine ⟨oldest, sealed, active, f, rfl, by simp only [handleOn]; omega, hcar, ?_⟩
    intro upTo fates s d' hrun hlost
    -- the call crashed among the unlinks, `k` of which were made
    obtain ⟨xs, ys, rfl, hx, -, hends⟩ := checkpoint_triple hcar observed staged upTo fates
    rw [hrun] at hends
    obtain ⟨-, k, hk, hdisk⟩ := hends
    rw [hdisk] at hlost
    have hleft := hlost.left hcar hk
    have hkept : activeBase oldest xs ∈ basesFrom oldest (xs ++ ys) := by
      obtain ⟨r, hr⟩ := basesFrom_eq_cons (activeBase oldest xs) ys
      exact mem_basesFrom_append.mpr (Or.inr (hr ▸ List.mem_cons_self))
    have hle := (mem_basesFrom_le hkept).2
    have hbelow : activeBase oldest xs = oldest ∨ activeBase oldest xs - 1 ≤ upTo :=
      hx.imp (fun hnil => by rw [hnil, activeBase_nil]) id
    have hgives := fun hsuffix hclean hi =>
      hleft.recoversAbove hcar hv hlost.locked hkept hbelow hsuffix hclean hi
    exact ⟨fun hclean hi => ⟨fun hrec => hleft.suffix hcar hle hclean hrec, fun hs => hgives hs hclean hi⟩,
      fun hs => ⟨fun hrec => hleft.endsWell hcar hle hs hrec, fun hi => hgives hs hi.1 hi.2⟩⟩

end

def restoring (n : FileName) (before after : Disk) : Disk :=
  match before.file n with
  | some f => { after.put n f with locked := false }
  | none => { after with locked := false }

theorem restoring_unlinksLost (n : FileName) (before after : Disk) :
    UnlinksLost before after (restoring n before after) := by
  unfold restoring
  cases hn : before.file n with
  | none => exact ⟨fun _ => Or.inl rfl, rfl⟩
  | some f =>
    refine ⟨fun m => ?_, rfl⟩
    by_cases hm : m = n
    · exact Or.inr (by rw [hm, hn]; exact Disk.put_file_self _ _ _)
    · exact Or.inl (Disk.put_file_ne _ _ hm)

/-- Three segments, the lower two of which are unlinked when power is lost. -/
theorem lostUnlink_run : ∃ m wal s, Machine.Reaches tightConfig (fun _ _ _ => True)
      (Machine.fresh true fun _ => 0) m ∧ m.handle = some wal ∧ wal.poisoned = false ∧
    wal.segments = [1, 4, 7] ∧ wal.durableLsn = 7 ∧
    checkpoint 6 ⟨wal, ⟨m.disk, [.ok, .ok, .crash 0]⟩⟩ = (.crashed, s) ∧
    reportOf tightConfig 1 (restoring (filenameFor 1) m.disk s.world.disk) = none := by
  have hrun : ((Machine.fresh true fun _ => 0).runFated tightConfig
      [(.openLog 1, []), (.append [7], []), (.append [8], []), (.append [9], []), (.append [10], []),
        (.append [11], []), (.append [12], []), (.append [13], []), (.commit, [])]).map
        (fun r => r.2.handle.map fun wal => (wal.poisoned, wal.segments, wal.durableLsn,
          decide ((checkpoint 6 ⟨wal, ⟨r.2.disk, [.ok, .ok, .crash 0]⟩⟩).1 = .crashed),
          (reportOf tightConfig 1 (restoring (filenameFor 1) r.2.disk
            (checkpoint 6 ⟨wal, ⟨r.2.disk, [.ok, .ok, .crash 0]⟩⟩).2.world.disk)).isNone)) =
      some (some (false, [1, 4, 7], 7, true, true)) := by decide +kernel
  obtain ⟨⟨os, m⟩, hrun, hres⟩ := Option.map_eq_some_iff.mp hrun
  obtain ⟨wal, hh, hwal⟩ := Option.map_eq_some_iff.mp hres
  simp only [Prod.mk.injEq, decide_eq_true_eq, Option.isNone_iff_eq_none] at hwal
  obtain ⟨hp, hsegs, hdurable, hcrash, hreport⟩ := hwal
  have hm : Machine.Reaches tightConfig (fun _ _ _ => True) (Machine.fresh true fun _ => 0) m :=
    Machine.Reaches.start.runFated (by simp [Op.Legal]; decide) hrun
  exact ⟨m, wal, _, hm, hh, hp, hsegs, hdurable, Prod.ext hcrash rfl, hreport⟩

/-- The oldest segment is back and the one after it is not: `open` refuses the gap. -/
theorem lostUnlink_refused : ∃ m wal s d', Machine.Reaches tightConfig (fun _ _ _ => True)
      (Machine.fresh true fun _ => 0) m ∧ m.handle = some wal ∧ wal.poisoned = false ∧
    checkpoint 6 ⟨wal, ⟨m.disk, [.ok, .ok, .crash 0]⟩⟩ = (.crashed, s) ∧
    UnlinksLost m.disk s.world.disk d' ∧ ∀ rs, ¬ RecoversAbove tightConfig d' 6 wal.durableLsn rs := by
  obtain ⟨m, wal, s, hm, hh, hp, -, -, hcrash, hreport⟩ := lostUnlink_run
  refine ⟨m, wal, s, _, hm, hh, hp, hcrash, restoring_unlinksLost (filenameFor 1) _ _, fun rs h => ?_⟩
  obtain ⟨wal', rep, rs', ⟨w, -, hopen, -⟩, -⟩ := h 1 ⟨le_rfl, by decide⟩
  rw [reportOf, hopen] at hreport
  simp at hreport

/-- The same state, wherever the second checkpoint dies. -/
theorem checkpoint_survives_powerLoss_three : ∃ (m : Machine) (wal : Wal), m.handle = some wal ∧
    wal.segments = [1, 4, 7] ∧
    ∃ oldest sealed active f, wal.segments = basesFrom oldest sealed ∧
      Carries tightConfig m.disk oldest sealed active f ∧
      ∀ upTo fates s d', checkpoint upTo ⟨wal, ⟨m.disk, fates⟩⟩ = (.crashed, s) →
        UnlinksLost m.disk s.world.disk d' → basesOf d' <:+ wal.segments →
          CleanSealed tightConfig d' oldest sealed → InertActive tightConfig oldest sealed active f →
            RecoversAbove tightConfig d' upTo wal.durableLsn (numbered oldest (sealed.flatten ++ active)) := by
  obtain ⟨m, wal, s, hm, hh, hp, hsegs, -⟩ := lostUnlink_run
  obtain ⟨oldest, sealed, active, f, hseg, -, hc, hall⟩ := checkpoint_survives_powerLoss rfl rfl hm hh hp
  exact ⟨m, wal, hh, hsegs, oldest, sealed, active, f, hseg, hc,
    fun upTo fates s d' hcrash hlost hs hclean hi => ((hall upTo fates s d' hcrash hlost).1 hclean hi).mpr hs⟩

end OpenWal
