import OpenWal.Results.CrashRuns
import OpenWal.Results.DurableNames
import OpenWal.Theory.Firm

namespace OpenWal
open ByteSeq Posix CrashProg

section

variable [Crc32c]

/-- The states reached from `m₀` by calls that meet `ok` and by power cuts. A cut within a call
is the death of the process in that call, and then the cut. -/
inductive Machine.Endures (config : WalConfig) (ok : Machine → Op → List Fate → Prop) (m₀ : Machine) :
    Machine → Prop
  | start : Endures config ok m₀ m₀
  | call {m m' : Machine} {op : Op} {fates : List Fate} {o : Outcome WalError Reply} :
      Endures config ok m₀ m → op.Legal → ok m op fates → m.exec config op fates = some (o, m') →
      Endures config ok m₀ m'
  | cut {m : Machine} {d : Disk} : Endures config ok m₀ m → PowerCut m.disk d →
      Endures config ok m₀ ⟨d, none, m.reported⟩

variable {config : WalConfig} {b l seed : ℕ} {ps staged : List Bytes} {d d' : Disk} {oldest : ℕ}
  {sealed xs ys : List (List Bytes)} {active : List Bytes} {observed : List ℕ} {f : File}
  {m₀ m m' : Machine} {op : Op} {fates : List Fate} {o : Outcome WalError Reply} {wal : Wal}
  {ok : Machine → Op → List Fate → Prop} {p : Bytes} {rs : List (ℕ × Bytes)}

theorem Machine.Endures.mono {ok' : Machine → Op → List Fate → Prop} (h : Machine.Endures config ok m₀ m)
    (hok : ∀ {m op fates}, ok m op fates → ok' m op fates) : Machine.Endures config ok' m₀ m := by
  induction h with
  | start => exact .start
  | call _ hlegal hcall he ih => exact ih.call hlegal (hok hcall) he
  | cut _ hcut ih => exact ih.cut hcut

theorem Machine.Endures.trans (h : Machine.Endures config ok m₀ m) (h' : Machine.Endures config ok m m') :
    Machine.Endures config ok m₀ m' := by
  induction h' with
  | start => exact h
  | call _ hlegal hcall he ih => exact ih.call hlegal hcall he
  | cut _ hcut ih => exact ih.cut hcut

/-- What is upheld whatever there is between two processes. -/
theorem Upheld.endures {live : ℕ → List (List Bytes) → List Bytes → File → Disk → Prop}
    {mid : ℕ → List (List Bytes) → List Bytes → List Bytes → File → Disk → Prop}
    (h : Upheld config ok (fun _ => True) (fun _ _ => True) live mid)
    (h₀ : Upholds config (fun _ => True) (fun _ _ => True) live m₀.disk m₀.handle)
    (hm : Machine.Endures config ok m₀ m) :
    Upholds config (fun _ => True) (fun _ _ => True) live m.disk m.handle := by
  induction hm with
  | start => exact h₀
  | call _ hlegal hok he ih => exact (h.step ih hlegal hok he).1
  | cut _ hcut _ => exact .rest hcut.unlocked trivial

theorem execOn_firm {α : Type} {prog : Prog Sys WalError α} {reply : α → Reply}
    (he : m.execOn wal fates (reply <$> prog) = (o, m'))
    (h : Ends (fun _ s => Firm config b ps s.world.disk (some s.wal))
      (fun _ s => Firm config b ps s.world.disk (some s.wal)) (fun s => FirmAt config b ps s.world.disk)
      (prog ⟨wal, ⟨m.disk, fates⟩⟩)) : Firm config b ps m'.disk m'.handle := by
  obtain ⟨a, s, -, hs, rfl⟩ | ⟨e, s, -, hs, rfl⟩ | ⟨s, -, hs, rfl⟩ := Machine.execOn_ends h he
  · exact hs
  · exact hs
  · exact ⟨hs.unlocked, fun _ hw => by simp [Machine.die] at hw⟩

theorem Firm.die (h : Firm config b ps m.disk m.handle) : Firm config b ps m.die.disk m.die.handle :=
  ⟨h.firmAt.unlocked, fun _ hw => by simp [Machine.die] at hw⟩

theorem execOpen_firm (h : Firm config b ps m.disk m.handle) (hseed : seed ≤ u64Max)
    (he : m.execOpen config seed fates = (o, m')) : Firm config b ps m'.disk m'.handle := by
  have hends : Ends (fun _ => OnDisk (FirmAt config b ps)) (fun _ => OnDisk (FirmAt config b ps))
      (OnDisk (FirmAt config b ps)) (openSeeded config seed ⟨m.disk, fates⟩) :=
    openSeeded_firmAt h.firmAt seed _ rfl
  have hexec := he
  unfold Machine.execOpen at he
  rcases hopen : openSeeded config seed ⟨m.disk, fates⟩ with ⟨r, w⟩
  rw [hopen] at he hends
  cases r with
  | ret _ =>
    obtain ⟨rfl, rfl⟩ := Prod.mk.inj he
    obtain ⟨-, -, -, _, _, _, _, _, hhandle, -, hlog, -⟩ :=
      Machine.opened hseed ((Machine.exec_openLog ..).trans (congrArg some hexec))
    have hfirm : FirmAt config b ps w.disk := hends
    rw [hhandle]
    exact firm_handleOn hfirm (hfirm.held.clearOf hlog)
  | err _ =>
    obtain ⟨-, rfl⟩ := Prod.mk.inj he
    exact ⟨hends, h.clear⟩
  | crashed =>
    obtain ⟨-, rfl⟩ := Prod.mk.inj he
    exact ⟨FirmAt.unlocked hends, fun _ hw => by simp [Machine.die] at hw⟩
  | diverged => exact hends.elim

/-- Every call keeps a firm segment; a checkpoint has to be below the last of its records. -/
theorem firm_step
    (hu : Upholds config (fun _ => True) (fun _ _ => True) (fun _ _ _ _ _ => True) m.disk m.handle)
    (h : Firm config b ps m.disk m.handle) (hlegal : op.Legal)
    (hlt : ∀ upTo, op = .checkpoint upTo → upTo + 1 < b + ps.length)
    (he : m.exec config op fates = some (o, m')) : Firm config b ps m'.disk m'.handle := by
  rcases hh : m.handle with _ | wal
  · cases op with
    | openLog seed => exact execOpen_firm h hlegal.2 (Option.some.inj he)
    | _ => simp [Machine.exec_none hh] at he
  have hwal : Firm config b ps m.disk (some wal) := hh ▸ h
  rw [hh] at hu
  cases op with
  | openLog seed => exact execOpen_firm h hlegal.2 (Option.some.inj he)
  | append payload =>
    rw [Machine.exec_append hh, Option.some.injEq] at he
    exact execOn_firm he (append_firm hwal fates payload)
  | commit =>
    rw [Machine.exec_commit hh, Option.some.injEq] at he
    refine execOn_firm he ?_
    cases hu with
    | live hv _ _ hc => exact commit_firm hv hc hwal fates
    | stuck _ _ hp =>
      rw [commit_poisoned hp]
      exact hwal
  | checkpoint upTo =>
    rw [Machine.exec_checkpoint hh, Option.some.injEq] at he
    refine execOn_firm he ?_
    cases hu with
    | live _ _ _ hc => exact checkpoint_firm hc.toCarries hwal (hlt upTo rfl) fates
    | stuck _ _ hp =>
      rw [checkpoint_poisoned hp]
      exact hwal
  | replay start =>
    rw [Machine.exec_replay hh, Option.some.injEq] at he
    obtain ⟨-, rfl⟩ := Prod.mk.inj he
    exact h
  | close =>
    rw [Machine.exec_close hh, Option.some.injEq] at he
    obtain ⟨-, rfl⟩ := Prod.mk.inj he
    exact h.die

def KeepsFrom (l : ℕ) (_ : Machine) (op : Op) (_ : List Fate) : Prop :=
  ∀ upTo, op = .checkpoint upTo → upTo < l

theorem firm_endures
    (hu : Upholds config (fun _ => True) (fun _ _ => True) (fun _ _ _ _ _ => True) m.disk m.handle)
    (h : Firm config b ps m.disk m.handle) (hl : l < b + ps.length)
    (hm' : Machine.Endures config (KeepsFrom l) m m') : Firm config b ps m'.disk m'.handle := by
  induction hm' with
  | start => exact h
  | call hr hlegal hok he ih =>
    refine firm_step ((Upheld.trivially config (KeepsFrom l)).endures hu hr) ih hlegal ?_ he
    intro upTo hop
    have := hok upTo hop
    omega
  | cut _ hcut ih => exact ⟨ih.firmAt.powerCut hcut, fun _ hw => by simp at hw⟩

structure FirmLog (config : WalConfig) (oldest : ℕ) (sealed : List (List Bytes)) (active : List Bytes)
    (f : File) (d : Disk) : Prop where
  dir : DirNamed d
  named : Named d
  sealed : ChainFrom (fun b ps => HeldFirm config b ps d) oldest sealed
  active : f.SyncedOn 0 (headerSize + runSize active)

/-- The names in the directory are durable, and the records of its segments are synced. -/
structure FoundFirm (config : WalConfig) (d : Disk) : Prop where
  dir : DirNamed d
  named : Named d
  synced : ∀ b f ps, d.file (filenameFor b) = some f → HeaderOk f.data b →
    Run config.segmentSize config.maxRecordSize f.data headerSize b ps →
    f.SyncedOn 0 (headerSize + runSize ps)

/-- So it is after a power cut. -/
theorem FoundFirm.of_powerCut (h : PowerCut d d') (hd : d'.dirExists = true) : FoundFirm config d' where
  dir := ⟨hd, h.dirFound hd⟩
  named _ hb := by
    obtain ⟨-, f, hf⟩ := mem_basesOf.mp hb
    exact (h.found _ f hf).1
  synced _ f _ hf hh hr := (h.found _ f hf).2.mono le_rfl (hr.le_file hh.le_length)

/-- The opens of a run that find the directory unlocked find it so. -/
def OpensFirm (config : WalConfig) (m : Machine) (op : Op) (_ : List Fate) : Prop :=
  ∀ seed, op = .openLog seed → m.disk.locked = false → FoundFirm config m.disk

theorem chain_heldFirm_congr (hc : Carries config d oldest sealed active f)
    (h : ChainFrom (fun b ps => HeldFirm config b ps d) oldest sealed)
    (hd : ∀ b ≤ u64Max, b < activeBase oldest sealed → d'.file (filenameFor b) = d.file (filenameFor b)) :
    ChainFrom (fun b ps => HeldFirm config b ps d') oldest sealed := by
  refine (hc.chain.and h).imp fun b ps _ hle ⟨⟨hne, _⟩, hheld⟩ => hheld.of_file (hd b hheld.le_u64Max ?_)
  have := List.length_pos_iff.mpr hne
  omega

theorem freshSegment_syncedOn (base created : ℕ) (hss : headerSize ≤ config.segmentSize) :
    (freshSegment base config.segmentSize created).SyncedOn 0 (headerSize + runSize []) := by
  intro i _ hi
  rw [runSize_nil] at hi
  simp only [freshSegment, decide_eq_true_eq]
  omega

namespace FirmLog

theorem store (h : FirmLog config oldest sealed active f d) (hc : Carries config d oldest sealed active f)
    {qs : List Bytes} {g : File} (hle : headerSize + runSize qs ≤ g.data.length) :
    FirmLog config oldest sealed qs g.sync
      (d.put (filenameFor (activeBase oldest sealed)) g.sync) := by
  refine ⟨h.dir, h.named.put hc.file _, chain_heldFirm_congr hc h.sealed fun b hb hlt => ?_,
    File.sync_syncedOn 0 hle⟩
  exact Disk.put_file_ne _ _ (hc.name_ne hb hlt)

theorem roll (h : FirmLog config oldest sealed active f d)
    (hc : Committing config d oldest sealed active f staged) (hs : staged ≠ []) (ha : active ≠ [])
    (hss : headerSize ≤ config.segmentSize)
    (honly : OnlyAt (filenameFor (activeBase oldest sealed + active.length)) d d') (created : ℕ) :
    FirmLog config oldest (sealed ++ [active]) []
      (freshSegment (activeBase oldest sealed + active.length) config.segmentSize created) d'.syncDir := by
  have hsame := hc.below_next hs ha honly.toDiffersAt
  refine ⟨⟨honly.dirExists.trans h.dir.1, honly.dirDurable.trans h.dir.2⟩, syncDir_named _,
    ChainFrom.append_iff.mpr ⟨?_, ⟨f, ?_, hc.header, hc.run, h.active⟩, trivial⟩,
    freshSegment_syncedOn _ _ hss⟩
  · exact chain_heldFirm_congr hc.toCarries h.sealed fun b hb hlt => hsame b hlt.le hb
  · exact (hsame _ le_rfl hc.activeBase_le).trans hc.file

theorem removeAll (h : FirmLog config oldest (xs ++ ys) active f d)
    (hc : Carries config d oldest (xs ++ ys) active f) : FirmLog config (activeBase oldest xs) ys active f
      (removeAll ((basesFrom oldest (xs ++ ys)).take xs.length) d).syncDir := by
  obtain ⟨-, he, hd, -⟩ := removeAll_flags ((basesFrom oldest (xs ++ ys)).take xs.length) d
  refine ⟨⟨he.trans h.dir.1, hd.trans h.dir.2⟩, syncDir_named _, ?_, h.active⟩
  refine (ChainFrom.append_iff.mp h.sealed).2.imp fun b ps hle _ hheld => hheld.of_file ?_
  exact (basesOf_drop hc.ne_nil hc.bases (fun _ hb => removeAll_file_mem hb)
    fun _ hn => removeAll_file hn).2 b hheld.le_u64Max hle

/-- What an `open` that returns leaves of what it found. -/
theorem of_opens {rep : RecoveryReport} (h : FoundFirm config d) (hv : config.Valid) (h1 : 1 ≤ seed)
    (hseed : seed ≤ u64Max) (ho : Opens config d seed wal rep d') (hdir : DirNamed d') (hnamed : Named d')
    (hlog : LogOn config.segmentSize config.maxRecordSize d' oldest sealed active f) :
    FirmLog config oldest sealed active f d' := by
  suffices hs : ChainFrom (fun b ps => HeldFirm config b ps d') oldest sealed ∧
      f.SyncedOn 0 (headerSize + runSize active) from ⟨hdir, hnamed, hs.1, hs.2⟩
  cases ho with
  | created hdis hnil hset =>
    obtain ⟨rfl, rfl, rfl⟩ := (logOn_fresh config.maxRecordSize h1 hseed hv.room hnil hset).unique hlog
    obtain rfl := Option.some.inj (hset.self.symm.trans hlog.file)
    have hroom := hv.room
    exact ⟨trivial, freshSegment_syncedOn _ _ ((Nat.le_add_right _ _).trans hroom)⟩
  | recovered hdis hlog₀ ht hset =>
    obtain ⟨rfl, rfl, rfl⟩ := (hlog₀.setActive hset (ht.holds hlog₀.holds).1).unique hlog
    obtain rfl := Option.some.inj (hset.self.symm.trans hlog.file)
    constructor
    · have hfound := hlog₀.chain.imp fun b ps _ _ (⟨_, g, hg, hs, _⟩ : SealedAt _ _ _ b ps) =>
        (⟨g, hg, hs.header, hs.run, h.synced b g ps (hdis.file hg) hs.header hs.run⟩ :
          HeldFirm config b ps _)
      refine chain_heldFirm_congr hlog₀.carries hfound fun b hb hlt => ?_
      exact hset.others _ (hlog₀.carries.name_ne hb hlt)
    · cases ht with
      | clean => exact h.synced _ _ _ (hdis.file hlog₀.file) hlog₀.holds.header hlog₀.holds.run
      | torn => exact File.sync_syncedOn 0 (hlog.holds.run.le_file hlog.holds.header.le_length)

end FirmLog

theorem upheld_firm (config : WalConfig) : Upheld config (OpensFirm config) (fun _ => True)
    (fun _ _ => True) (FirmLog config)
    fun oldest sealed active _ f d => config.Valid ∧ FirmLog config oldest sealed active f d where
  rest_of_stuck _ := trivial
  stuck_die _ := trivial
  stuck_of_live _ _ := trivial
  fails _ _ _ _ := (openSeeded_unlocks config _ _ _ rfl).imp (fun _ _ _ => trivial)
    (fun _ _ _ => trivial) fun _ _ => trivial
  opens {m seed fates wal rep w _ _ _ _} hseed _ hl hok hopen hopens _ hlog _ := by
    have hfound := hok seed rfl hl
    obtain ⟨hv, h1, -⟩ := openSeeded_opens hseed (openSeeded_steady seed _ _ _ hopen)
    obtain ⟨hdir, hnamed⟩ := openSeeded_durable ⟨hfound.dir, Or.inl hfound.named⟩ seed hopen
    exact .of_opens hfound hv h1 hseed hopens hdir hnamed hlog
  begins hv _ _ h _ _ := ⟨hv, h⟩
  commits oldest := {
    cut := fun _ _ _ _ => trivial
    store := fun {sealed active _ rest f d} hc hj hq => by
      refine ⟨hj.1, hj.2.store hc.toCarries ?_⟩
      have hx := hc.le_length
      rw [File.write_data, runSize_append, overwrite_length _ hx, encodeRun_length]
      omega
    begun := fun _ _ _ _ _ _ => trivial
    rolled := fun {_ _ _ _ _ _ _ created} hc hj hr ha _ honly _ =>
      ⟨hj.1, hj.2.roll hc hr ha ((Nat.le_add_right _ _).trans hj.1.room) honly created⟩ }
  ends _ h := h.2
  unlinks _ _ := trivial
  deletes hc h _ := h.removeAll hc

omit [Crc32c] in
theorem mem_numbered_flatten {e : ℕ} {segs : List (List Bytes)} {r : ℕ × Bytes}
    (h : r ∈ numbered e segs.flatten) :
    ∃ xs qs ys, segs = xs ++ qs :: ys ∧ r ∈ numbered (activeBase e xs) qs := by
  induction segs generalizing e with
  | nil => simp at h
  | cons qs segs ih =>
    rw [List.flatten_cons, numbered_append] at h
    rcases List.mem_append.mp h with h | h
    · exact ⟨[], qs, segs, rfl, h⟩
    · obtain ⟨xs, qs', ys, rfl, hr⟩ := ih h
      exact ⟨qs :: xs, qs', ys, rfl, by rwa [activeBase_cons]⟩

/-- Every record of such a log is in a segment that stays. -/
theorem FirmLog.firm (h : FirmLog config oldest sealed active f d)
    (hc : Carries config d oldest sealed active f) (observed : List ℕ) (staged : List Bytes)
    (hmem : (l, p) ∈ numbered oldest (sealed.flatten ++ active)) : ∃ b ps, (l, p) ∈ numbered b ps ∧
      Firm config b ps d (some (handleOn config oldest sealed active observed staged)) := by
  have hall : sealed.flatten ++ active = (sealed ++ [active]).flatten := by
    rw [List.flatten_append, List.flatten_singleton]
  rw [hall] at hmem
  obtain ⟨xs, qs, ys, hsplit, hin⟩ := mem_numbered_flatten hmem
  have hheld : HeldFirm config (activeBase oldest xs) qs d := by
    rcases List.eq_nil_or_concat ys with rfl | ⟨ys, q, rfl⟩
    · obtain ⟨rfl, hq⟩ := List.append_inj' hsplit rfl
      obtain rfl := List.head_eq_of_cons_eq hq
      exact ⟨f, hc.file, hc.header, hc.run, h.active⟩
    · rw [List.concat_eq_append, ← List.cons_append, ← List.append_assoc] at hsplit
      obtain ⟨rfl, -⟩ := List.append_inj' hsplit rfl
      exact (ChainFrom.append_iff.mp h.sealed).2.1
  have hfirm : FirmAt config (activeBase oldest xs) qs d :=
    ⟨hheld, h.dir.1, h.dir.2, Or.inr (h.named _ hheld.mem_basesOf)⟩
  exact ⟨_, qs, hin, firm_handleOn hfirm (clearOf_of_split hsplit (List.prefix_refl qs))⟩

variable {wal' : Wal} {rep rep' : RecoveryReport} {rs' : List (ℕ × Bytes)} {seed' : ℕ} {wal'' : Wal}

theorem firm_outlives
    (hu : Upholds config (fun _ => True) (fun _ _ => True) (fun _ _ _ _ _ => True) m.disk m.handle)
    (h : Firm config b ps m.disk m.handle) (hmem : (l, p) ∈ numbered b ps)
    (hm' : Machine.Endures config (KeepsFrom l) m m') (hseed : (Op.openLog seed).Legal)
    (hrec : Recovers config m'.die.disk seed wal' rep rs) : (l, p) ∈ rs := by
  have hfirm := (firm_endures hu h (mem_numbered_bounds hmem).2 hm').die
  exact hfirm.firmAt.held.recovered hrec hseed.2 _ hmem

/-- A record an open handle counts as durable, and that would be recovered if its process died
now, is recovered after any further calls and power cuts, until a checkpoint may delete it. -/
theorem durable_outlives (hh : m₀.handle = none) (hl : m₀.disk.locked = false)
    (hm : Machine.Endures config (OpensFirm config) m₀ m) (hw : m.handle = some wal)
    (hp : wal.poisoned = false) (hseed : (Op.openLog seed).Legal)
    (hrec : Recovers config m.die.disk seed wal' rep rs) (hmem : (l, p) ∈ rs) (hle : l ≤ wal.durableLsn)
    (hm' : Machine.Endures config (KeepsFrom l) m m') (hseed' : (Op.openLog seed').Legal)
    (hrec' : Recovers config m'.die.disk seed' wal'' rep' rs') : (l, p) ∈ rs' := by
  have hstart : Upholds config (fun _ => True) (fun _ _ => True) (FirmLog config) m₀.disk m₀.handle :=
    hh ▸ .rest hl trivial
  have hu := (upheld_firm config).endures hstart hm
  have hforget := hu.forget
  rw [hw] at hu
  cases hu with
  | stuck _ _ hpois => simp [hp] at hpois
  | live hv hlock hdir hc hobs h =>
    rename_i oldest sealed active observed staged f
    have hpos := hc.activeBase_pos
    -- the number is one of the log's, and the log's record of that number is recovered
    have hbounds : oldest ≤ l ∧ l < oldest + (sealed.flatten ++ active).length := by
      constructor
      · obtain ⟨-, -, -, d₀, hdis, oldest', sealed', active', _, -, -, rfl, hfound⟩ := hrec.cases hseed.2
        rcases hfound with ⟨-, rfl, rfl, rfl⟩ | ⟨g, -, hlog, -⟩
        · simp at hmem
        · obtain ⟨r, hr⟩ := basesFrom_eq_cons oldest' sealed'
          have hfirst : oldest' ∈ basesOf d₀ := by
            rw [hlog.bases, hr]
            exact List.mem_cons_self
          obtain ⟨hle', g', hg'⟩ := mem_basesOf.mp hfirst
          have hin : oldest' ∈ basesOf m.disk := mem_basesOf.mpr ⟨hle', g', hdis.file hg'⟩
          exact (mem_basesFrom_le (hc.bases ▸ hin)).1.trans (mem_numbered_bounds hmem).1
      · simp only [handleOn] at hle
        simp only [List.length_append, activeBase] at hle hpos ⊢
        omega
    obtain ⟨q, hq⟩ : ∃ q, (l, q) ∈ numbered oldest (sealed.flatten ++ active) := by
      have hnum : l ∈ (numbered oldest (sealed.flatten ++ active)).map Prod.fst := by
        rw [numbered_map_fst, List.mem_range'_1]
        exact hbounds
      obtain ⟨⟨_, q⟩, hq, rfl⟩ := List.mem_map.mp hnum
      exact ⟨q, hq⟩
    obtain ⟨b, ps, hin, hfirm⟩ := h.firm hc.toCarries observed staged hq
    rw [← hw] at hfirm
    have hnow := firm_outlives hforget hfirm hin .start hseed hrec
    obtain ⟨-, -, -, _, -, _, _, _, _, -, -, hrs, -⟩ := hrec.cases hseed.2
    rw [hrs] at hmem hnow
    rw [numbered_unique hmem hnow]
    exact firm_outlives hforget hfirm hin hm' hseed' hrec'

theorem CommitRule.and {J J' : List (List Bytes) → List Bytes → List ℕ → List Bytes → File → Disk → Prop}
    {X X' : List (List Bytes) → List Bytes → List ℕ → Disk → Prop} (h : CommitRule config oldest J X)
    (h' : CommitRule config oldest J' X') : CommitRule config oldest
      (fun sealed active observed rest f d =>
        J sealed active observed rest f d ∧ J' sealed active observed rest f d)
      fun sealed active observed d => X sealed active observed d ∧ X' sealed active observed d where
  cut k hc hj hq := ⟨h.cut k hc hj.1 hq, h'.cut k hc hj.2 hq⟩
  store hc hj hq := ⟨h.store hc hj.1 hq, h'.store hc hj.2 hq⟩
  begun hc hj hr ha hq hb := ⟨h.begun hc hj.1 hr ha hq hb, h'.begun hc hj.2 hr ha hq hb⟩
  rolled hc hj hr ha hq honly hf :=
    ⟨h.rolled hc hj.1 hr ha hq honly hf, h'.rolled hc hj.2 hr ha hq honly hf⟩

/-- What is stored and what is still to store are the records `log` throughout a commit. -/
theorem commitRule_stores (config : WalConfig) (oldest : ℕ) (log : List Bytes) : CommitRule config oldest
    (fun sealed active _ rest _ _ => sealed.flatten ++ (active ++ rest) = log) fun _ _ _ _ => True where
  cut _ _ _ _ := trivial
  store _ hj _ := by rw [List.append_assoc, fit_append_overflow, hj]
  begun _ _ _ _ _ _ := trivial
  rolled _ hj _ _ _ _ _ := by simpa using hj

/-- What a commit that returns leaves of such a log. -/
theorem commit_firmLog (hv : config.Valid) (hc : Committing config d oldest sealed active f staged)
    (h : FirmLog config oldest sealed active f d) (fates : List Fate) :
    Ends (fun durable s => ∃ sealed' active' observed' f',
        durable = activeBase oldest sealed' + active'.length - 1 ∧
        s.wal = handleOn config oldest sealed' active' observed' [] ∧
        Carries config s.world.disk oldest sealed' active' f' ∧
        FirmLog config oldest sealed' active' f' s.world.disk ∧
        sealed'.flatten ++ active' = sealed.flatten ++ (active ++ staged))
      (fun _ _ => True) (fun _ => True)
      (commit ⟨handleOn config oldest sealed active observed staged, ⟨d, fates⟩⟩) := by
  by_cases hs : staged = []
  · subst hs
    exact ⟨sealed, active, observed, f, rfl, rfl, hc.toCarries, h, by rw [List.append_nil]⟩
  · have hrule := ((upheld_firm config).commits oldest).and
      (commitRule_stores config oldest (sealed.flatten ++ (active ++ staged)))
    refine (commit_triple hrule hv hs fates hc ⟨⟨hv, h⟩, rfl⟩).imp ?_ (fun _ _ _ => trivial) fun _ _ => trivial
    rintro durable s ⟨hdurable, sealed', active', observed', f', hnext, hwal, hc', ⟨-, hfirm⟩, hlog⟩
    have hpos := hc.activeBase_pos
    rw [List.append_nil] at hlog
    exact ⟨sealed', active', observed', f', by omega, hwal, hc', hfirm, hlog⟩

/-- A record that a commit acknowledged is recovered after any further calls and power cuts,
until a checkpoint may delete it. -/
theorem committed_outlives {m₁ : Machine} {w : ℕ} (hh : m₀.handle = none) (hl : m₀.disk.locked = false)
    (hm : Machine.Endures config (OpensFirm config) m₀ m) (hw : m.handle = some wal)
    (hst : wal.staging = encodeRun (wal.durableLsn + 1) staged)
    (hb : Batch config.maxRecordSize (wal.durableLsn + 1) staged)
    (he : m.exec config .commit fates = some (.ret (.committed w), m₁))
    (hmem : (l, p) ∈ numbered (wal.durableLsn + 1) staged)
    (hm' : Machine.Endures config (KeepsFrom l) m₁ m') (hseed : (Op.openLog seed).Legal)
    (hrec : Recovers config m'.die.disk seed wal' rep rs) : (l, p) ∈ rs := by
  have hstart : Upholds config (fun _ => True) (fun _ _ => True) (FirmLog config) m₀.disk m₀.handle :=
    hh ▸ .rest hl trivial
  have hu := (upheld_firm config).endures hstart hm
  have hlegal : Op.commit.Legal := trivial
  have hafter := ((upheld_firm config).endures hstart
    (hm.call hlegal (fun _ hop => by simp at hop) he)).forget
  rw [Machine.exec_commit hw, Option.some.injEq] at he
  rw [hw] at hu
  cases hu with
  | stuck _ _ hpois => simp [Machine.execOn, Prog.map_of_err (commit_poisoned hpois)] at he
  | live hv hlock hdir hc hobs h =>
    rename_i oldest sealed active observed staged' f
    have hpos := hc.activeBase_pos
    have hnext : (handleOn config oldest sealed active observed staged').durableLsn + 1 =
        activeBase oldest sealed + active.length := by
      simp only [handleOn]
      omega
    rw [hnext] at hst hb hmem
    obtain rfl := hc.batch.eq_of_encodeRun hb config.maxRecordSize_lt hst
    obtain ⟨a, s, -, hs, rfl⟩ | ⟨e, s, ho, -⟩ | ⟨s, ho, -⟩ :=
      Machine.execOn_ends (commit_firmLog hv hc h fates) he
    · obtain ⟨sealed', active', observed', f', -, hwal, hc', hfirm, hlog⟩ := hs
      have hin : (l, p) ∈ numbered oldest (sealed'.flatten ++ active') := by
        rw [hlog, ← List.append_assoc, numbered_append, List.length_append, ← Nat.add_assoc]
        exact List.mem_append_right _ hmem
      obtain ⟨b, ps, hseg, hstays⟩ := hfirm.firm hc' observed' [] hin
      rw [← hwal] at hstays
      exact firm_outlives hafter hstays hseg hm' hseed hrec
    · simp at ho
    · simp at ho

end

/-- A record is committed, and the power fails with ten bytes of the next one stored. -/
theorem powerOff_run : ∃ m m₁ m₂ wal wal₁,
    Machine.Endures tightConfig (OpensFirm tightConfig) (Machine.onDisk (Disk.holding [])) m ∧
    m.handle = some wal ∧ wal.durableLsn = 0 ∧ wal.staging = encodeRun 1 [zeros 20] ∧
    m.exec tightConfig .commit [] = some (.ret (.committed 1), m₁) ∧
    m₁.handle = some wal₁ ∧ wal₁.poisoned = false ∧ wal₁.durableLsn = 1 ∧
    (∃ wal' rep, Recovers tightConfig m₁.die.disk 1 wal' rep [(1, zeros 20)]) ∧
    Machine.Endures tightConfig (KeepsFrom 1) m₁ m₂ ∧
    ∃ wal' rep, Recovers tightConfig m₂.die.disk 1 wal' rep [(1, zeros 20)] := by
  have hrun : ((Machine.onDisk (Disk.holding [])).runFated tightConfig
      [(.openLog 1, []), (.append (zeros 20), []), (.commit, []), (.append [7], []),
        (.commit, [.crash 10])]).map (fun r => r.1[2]?) = some (some (.ret (.committed 1))) := by
    decide +kernel
  obtain ⟨⟨os, m₅⟩, hrun, hres⟩ := Option.map_eq_some_iff.mp hrun
  obtain ⟨o₁, os₁, m₁, rfl, h₁, hrest⟩ := Machine.runFated_cons hrun
  obtain ⟨o₂, os₂, m₂, rfl, h₂, hrest⟩ := Machine.runFated_cons hrest
  obtain ⟨o₃, os₃, m₃, rfl, h₃, hrest⟩ := Machine.runFated_cons hrest
  obtain ⟨o₄, os₄, m₄, rfl, h₄, hrest⟩ := Machine.runFated_cons hrest
  obtain ⟨o₅, os₅, m₅, rfl, h₅, hrest⟩ := Machine.runFated_cons hrest
  obtain ⟨-, rfl⟩ := Prod.mk.inj (Option.some.inj hrest)
  have hcommitted : o₃ = .ret (.committed 1) := by simpa using hres
  subst hcommitted
  have hstaged : ((Machine.onDisk (Disk.holding [])).runFated tightConfig
      [(.openLog 1, []), (.append (zeros 20), [])]).map
      (fun r => r.2.handle.map fun wal => (wal.durableLsn, wal.staging)) =
        some (some (0, encodeRun 1 [zeros 20])) := by decide +kernel
  have hdurable : ((Machine.onDisk (Disk.holding [])).runFated tightConfig
      [(.openLog 1, []), (.append (zeros 20), []), (.commit, [])]).map
      (fun r => (r.2.handle.map fun wal => (wal.poisoned, wal.durableLsn),
        replayOf tightConfig 1 r.2.die.disk)) =
        some (some (false, 1), some [(1, zeros 20)]) := by decide +kernel
  have hleft : ((Machine.onDisk (Disk.holding [])).runFated tightConfig
      [(.openLog 1, []), (.append (zeros 20), []), (.commit, []), (.append [7], []),
        (.commit, [.crash 10])]).map (fun r => replayOf tightConfig 1 r.2.disk.powerOff) =
        some (some [(1, zeros 20)]) := by decide +kernel
  simp only [Machine.runFated, h₁, h₂, h₃, h₄, h₅, Option.map_some, Option.some.injEq, Prod.mk.injEq]
    at hstaged hdurable hleft
  obtain ⟨wal, hw, hwal⟩ := Option.map_eq_some_iff.mp hstaged
  obtain ⟨wal₁, hw₁, hwal₁⟩ := Option.map_eq_some_iff.mp hdurable.1
  obtain ⟨hzero, hstaging⟩ := Prod.mk.inj hwal
  obtain ⟨hpoisoned, hone⟩ := Prod.mk.inj hwal₁
  have hopen : OpensFirm tightConfig (Machine.onDisk (Disk.holding [])) (.openLog 1) [] := by
    refine fun _ _ _ => ⟨⟨rfl, rfl⟩, by decide, fun b f ps hf => ?_⟩
    have hnone : (Machine.onDisk (Disk.holding [])).disk.file (filenameFor b) = none := rfl
    simp [hnone] at hf
  have hlegal : (Op.openLog 1).Legal ∧ Op.commit.Legal ∧ ∀ p, (Op.append p).Legal :=
    ⟨⟨le_rfl, by decide⟩, trivial, fun _ => trivial⟩
  have hm₁ := Machine.Endures.start.call hlegal.1 hopen h₁
  have hm₂ := hm₁.call (hlegal.2.2 _) (fun _ h => by simp at h) h₂
  have hkeeps : ∀ {m op fates}, (∀ upTo, op ≠ .checkpoint upTo) → KeepsFrom 1 m op fates :=
    fun h upTo hop => absurd hop (h upTo)
  have hm₄ := Machine.Endures.start.call (hlegal.2.2 _) (hkeeps (by simp)) h₄
  have hm₅ := (hm₄.call hlegal.2.1 (hkeeps (by simp)) h₅).cut (Disk.powerCut_powerOff _)
  exact ⟨m₂, m₃, _, wal, wal₁, hm₂, hw, hzero, hstaging, h₃, hw₁, hpoisoned, hone,
    recovers_of_replayOf hdurable.2, hm₅, recovers_of_replayOf hleft⟩

/-- The record that was committed outlives the cut. -/
theorem committed_outlives_powerOff : ∃ m m₁ m' wal wal' rep rs,
    Machine.Endures tightConfig (OpensFirm tightConfig) (Machine.onDisk (Disk.holding [])) m ∧
    m.handle = some wal ∧ m.exec tightConfig .commit [] = some (.ret (.committed 1), m₁) ∧
    Machine.Endures tightConfig (KeepsFrom 1) m₁ m' ∧ Recovers tightConfig m'.die.disk 1 wal' rep rs ∧
    (1, zeros 20) ∈ rs := by
  obtain ⟨m, m₁, m', wal, -, hm, hw, hzero, hst, he, -, -, -, -, hm', wal', rep, hrec⟩ := powerOff_run
  have hlegal : (Op.openLog 1).Legal := ⟨le_rfl, by decide⟩
  have hnext : wal.durableLsn + 1 = 1 := congrArg (· + 1) hzero
  have hbatch : Batch tightConfig.maxRecordSize (wal.durableLsn + 1) [zeros 20] := by
    rw [hnext]
    exact ⟨by decide, by decide⟩
  have hstaged : wal.staging = encodeRun (wal.durableLsn + 1) [zeros 20] := by
    rw [hnext]
    exact hst
  have hmem : (1, zeros 20) ∈ numbered (wal.durableLsn + 1) [zeros 20] := by
    rw [hnext]
    exact List.mem_cons_self
  exact ⟨m, m₁, m', wal, wal', rep, _, hm, hw, he, hm', hrec,
    committed_outlives rfl rfl hm hw hstaged hbatch he hmem hm' hlegal hrec⟩

/-- And so does what was durable before it. -/
theorem durable_outlives_powerOff : ∃ m m' wal wal' rep rs,
    Machine.Endures tightConfig (OpensFirm tightConfig) (Machine.onDisk (Disk.holding [])) m ∧
    m.handle = some wal ∧ wal.durableLsn = 1 ∧ Machine.Endures tightConfig (KeepsFrom 1) m m' ∧
    Recovers tightConfig m'.die.disk 1 wal' rep rs ∧ (1, zeros 20) ∈ rs := by
  obtain ⟨m₀, m, m', -, wal, hm, -, -, -, he, hw, hp, hone, ⟨wal', rep, hrec⟩, hm', wal'', rep', hrec'⟩ :=
    powerOff_run
  have hlegal : (Op.openLog 1).Legal := ⟨le_rfl, by decide⟩
  have hcommit : Op.commit.Legal := trivial
  have hall := hm.call hcommit (fun _ h => by simp at h) he
  exact ⟨m, m', wal, wal'', rep', _, hall, hw, hone, hm', hrec', durable_outlives rfl rfl hall hw hp hlegal hrec
    List.mem_cons_self hone.ge hm' hlegal hrec'⟩

end OpenWal
