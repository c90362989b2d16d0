import OpenWal.Results.CrashRuns

namespace OpenWal
open ByteSeq Posix CrashProg

section

variable [Crc32c]

variable {config : WalConfig} {Q : ℕ → Bytes → Prop} {d : Disk} {oldest seed : ℕ}
  {sealed : List (List Bytes)} {active staged : List Bytes} {observed : List ℕ} {f : File}
  {m₀ m m' : Machine} {op : Op} {fates : List Fate} {o : Outcome WalError Reply} {wal : Wal}
  {ok : Machine → Op → List Fate → Prop}

theorem stagedMeet_iff (hc : Committing config d oldest sealed active f staged) :
    StagedMeet config Q (handleOn config oldest sealed active observed staged) ↔
      ∀ r ∈ numbered (activeBase oldest sealed + active.length) staged, Q r.1 r.2 := by
  have hpos := hc.activeBase_pos
  have hnext : activeBase oldest sealed + active.length - 1 + 1 =
      activeBase oldest sealed + active.length := by omega
  simp only [StagedMeet, handleOn, hnext, forall_const]
  constructor
  · exact fun h => h staged rfl hc.batch
  · intro h staged' hst hb
    obtain rfl := hc.batch.eq_of_encodeRun hb config.maxRecordSize_lt hst
    exact h

theorem stagedMeet_of_poisoned (hp : wal.poisoned = true) : StagedMeet config Q wal := by
  intro hpois
  simp [hp] at hpois

theorem stagedMeet_nil (hc : Carries config d oldest sealed active f) :
    StagedMeet config Q (handleOn config oldest sealed active observed []) :=
  (stagedMeet_iff ⟨hc, .nil_of_le hc.next_le⟩).mpr fun r hr => by simp at hr

def Offered (Q : ℕ → Bytes → Prop) (m : Machine) (op : Op) : Prop :=
  ∀ wal payload, m.handle = some wal → op = .append payload → Q (wal.lastLsn + 1) payload

theorem append_stagedMeet (hc : Committing config d oldest sealed active f staged)
    (h : StagedMeet config Q (handleOn config oldest sealed active observed staged)) {p : Bytes}
    (hp : Q ((handleOn config oldest sealed active observed staged).lastLsn + 1) p) (w : World) :
    Ends (fun _ s => StagedMeet config Q s.wal) (fun _ s => StagedMeet config Q s.wal) (fun _ => True)
      (append p ⟨handleOn config oldest sealed active observed staged, w⟩) := by
  by_cases hlen : config.maxRecordSize < p.length
  · rw [append_tooLarge hlen]
    exact h
  have hlen := Nat.not_lt.mp hlen
  by_cases hx : u64Max < activeBase oldest sealed + active.length + staged.length
  · rw [append_exhausted hlen hx]
    exact h
  have hx := Nat.not_lt.mp hx
  have hpos := hc.activeBase_pos
  rw [append_staged hlen hpos hx]
  have hbatch : Batch config.maxRecordSize (activeBase oldest sealed + active.length) (staged ++ [p]) := by
    refine Batch.append_iff.mpr ⟨hc.batch, by simpa using hlen, ?_⟩
    simp only [List.length_singleton]
    omega
  refine (stagedMeet_iff (d := d) (f := f) ⟨hc.toCarries, hbatch⟩).mpr fun r hr => ?_
  rw [numbered_append] at hr
  rcases List.mem_append.mp hr with hr | hr
  · exact (stagedMeet_iff hc).mp h r hr
  · obtain rfl := List.mem_singleton.mp hr
    have hlast : (handleOn config oldest sealed active observed staged).lastLsn + 1 =
        activeBase oldest sealed + active.length + staged.length := by
      simp only [handleOn]
      omega
    rwa [hlast] at hp

theorem commit_stagedMeet (hv : config.Valid) (hc : Committing config d oldest sealed active f staged)
    (fates : List Fate) :
    Ends (fun _ s => StagedMeet config Q s.wal) (fun _ s => StagedMeet config Q s.wal) (fun _ => True)
      (commit ⟨handleOn config oldest sealed active observed staged, ⟨d, fates⟩⟩) := by
  by_cases hs : staged = []
  · subst hs
    exact stagedMeet_nil hc.toCarries
  · have hrule := (Upheld.trivially config fun _ _ _ => True).commits oldest
    refine (commit_triple hrule hv hs fates hc trivial).imp ?_ ?_ fun _ _ => trivial
    · rintro _ s ⟨-, _, _, _, _, -, hwal, hc', -⟩
      rw [hwal]
      exact stagedMeet_nil hc'
    · rintro _ s ⟨-, _, _, _, hwal, -⟩
      rw [hwal]
      exact stagedMeet_of_poisoned rfl

theorem checkpoint_stagedMeet (hc : Committing config d oldest sealed active f staged)
    (h : StagedMeet config Q (handleOn config oldest sealed active observed staged)) (upTo : ℕ)
    (fates : List Fate) :
    Ends (fun _ s => StagedMeet config Q s.wal) (fun _ s => StagedMeet config Q s.wal) (fun _ => True)
      (checkpoint upTo ⟨handleOn config oldest sealed active observed staged, ⟨d, fates⟩⟩) := by
  obtain ⟨xs, ys, rfl, -, -, hends⟩ := checkpoint_triple hc.toCarries observed staged upTo fates
  refine hends.imp ?_ ?_ fun _ _ => trivial
  · rintro _ s ⟨hwal, -⟩
    rw [hwal]
    -- the batch goes on from the same number
    have hnext := activeBase_append oldest xs ys
    have hbatch := hc.batch
    have hmeet := (stagedMeet_iff hc).mp h
    rw [hnext] at hbatch hmeet
    exact (stagedMeet_iff ⟨hc.toCarries.removeAll, hbatch⟩).mpr hmeet
  · rintro _ s ⟨-, hwal, -⟩
    rw [hwal]
    exact stagedMeet_of_poisoned rfl

omit [Crc32c] in
/-- What a method leaves of the handle. -/
theorem execOn_handle {α : Type} {prog : Prog Sys WalError α} {reply : α → Reply} {I : Wal → Prop}
    (he : m.execOn wal fates (reply <$> prog) = (o, m'))
    (h : Ends (fun _ s => I s.wal) (fun _ s => I s.wal) (fun _ => True) (prog ⟨wal, ⟨m.disk, fates⟩⟩)) :
    ∀ wal', m'.handle = some wal' → I wal' := by
  intro wal' hw
  obtain ⟨a, s, -, hs, rfl⟩ | ⟨e, s, -, hs, rfl⟩ | ⟨s, -, -, rfl⟩ := Machine.execOn_ends h he
  · exact Option.some.inj hw ▸ hs
  · exact Option.some.inj hw ▸ hs
  · simp [Machine.die] at hw

/-- Every call keeps to `Q` what is staged. -/
theorem stagedMeet_step
    (hu : Upholds config (fun _ => True) (fun _ _ => True) (fun _ _ _ _ _ => True) m.disk m.handle)
    (h : ∀ wal, m.handle = some wal → StagedMeet config Q wal) (hlegal : op.Legal)
    (hoffered : Offered Q m op) (he : m.exec config op fates = some (o, m')) :
    ∀ wal, m'.handle = some wal → StagedMeet config Q wal := by
  have hopen : ∀ {seed}, op = .openLog seed → ∀ wal, m'.handle = some wal → StagedMeet config Q wal := by
    rintro seed rfl wal hw
    have hexec := he
    rw [Machine.exec_openLog, Machine.execOpen, Option.some.injEq] at hexec
    rcases hrun : openSeeded config seed ⟨m.disk, fates⟩ with ⟨r, w⟩
    rw [hrun] at hexec
    cases r with
    | ret r =>
      obtain ⟨rfl, rfl⟩ := Prod.mk.inj hexec
      obtain ⟨-, -, -, _, _, _, _, _, hhandle, -, hlog, -⟩ := Machine.opened hlegal.2 he
      obtain rfl := Option.some.inj (hhandle.symm.trans hw)
      exact stagedMeet_nil hlog.carries
    | err e =>
      obtain ⟨-, rfl⟩ := Prod.mk.inj hexec
      exact h wal hw
    | crashed =>
      obtain ⟨-, rfl⟩ := Prod.mk.inj hexec
      simp [Machine.die] at hw
    | diverged =>
      obtain ⟨-, rfl⟩ := Prod.mk.inj hexec
      exact h wal hw
  rcases hh : m.handle with _ | wal
  · cases op with
    | openLog seed => exact hopen rfl
    | _ => simp [Machine.exec_none hh] at he
  have hwal := h wal hh
  rw [hh] at hu
  cases op with
  | openLog seed => exact hopen rfl
  | append payload =>
    rw [Machine.exec_append hh, Option.some.injEq] at he
    refine execOn_handle he ?_
    cases hu with
    | live _ _ _ hc => exact append_stagedMeet hc hwal (hoffered _ payload hh rfl) _
    | stuck _ _ hp =>
      rw [append_poisoned hp]
      exact hwal
  | commit =>
    rw [Machine.exec_commit hh, Option.some.injEq] at he
    refine execOn_handle he ?_
    cases hu with
    | live hv _ _ hc => exact commit_stagedMeet hv hc fates
    | stuck _ _ hp =>
      rw [commit_poisoned hp]
      exact hwal
  | checkpoint upTo =>
    rw [Machine.exec_checkpoint hh, Option.some.injEq] at he
    refine execOn_handle he ?_
    cases hu with
    | live _ _ _ hc => exact checkpoint_stagedMeet hc hwal upTo fates
    | stuck _ _ hp =>
      rw [checkpoint_poisoned hp]
      exact hwal
  | replay start =>
    rw [Machine.exec_replay hh, Option.some.injEq] at he
    obtain ⟨-, rfl⟩ := Prod.mk.inj he
    exact h
  | close =>
    rw [Machine.exec_close hh, Option.some.injEq] at he
    obtain ⟨-, rfl⟩ := Prod.mk.inj he
    intro wal' hw
    simp [Machine.die] at hw

def BenignOffered (config : WalConfig) (Q : ℕ → Bytes → Prop) (m : Machine) (op : Op)
    (fates : List Fate) : Prop := Benign config m op fates ∧ Offered Q m op

/-- Over a run whose appends meet `Q`, so does what is staged at every call. -/
theorem reaches_stagedMeet (hh : m₀.handle = none) (hl : m₀.disk.locked = false)
    (hm : Machine.Reaches config (BenignOffered config Q) m₀ m) :
    (∀ wal, m.handle = some wal → StagedMeet config Q wal) ∧
      Machine.Reaches config (fun m op fates => Benign config m op fates ∧
        ∀ wal, m.handle = some wal → StagedMeet config Q wal) m₀ m := by
  induction hm with
  | start => exact ⟨fun wal hw => by simp [hh] at hw, .start⟩
  | step hr hlegal hok he ih =>
    have hu := (Upheld.trivially config (BenignOffered config Q)).run (hh ▸ .rest hl trivial) hr
    exact ⟨stagedMeet_step hu ih.1 hlegal hok.2 he, ih.2.step hlegal ⟨hok.1, ih.1⟩ he⟩

omit [Crc32c] in
theorem stable_forall : Stable Q fun oldest ps => ∀ r ∈ numbered oldest ps, Q r.1 r.2 where
  append h hq r hr := by
    rw [numbered_append] at hr
    exact (List.mem_append.mp hr).elim (h r) (hq r)
  drop h r hr := by
    apply h
    rw [numbered_append]
    exact List.mem_append_right _ hr

/-- An undisturbed `open` recovers one list of records. -/
theorem Recovers.unique {wal' : Wal} {rep rep' : RecoveryReport} {rs rs' : List (ℕ × Bytes)}
    (h : Recovers config d seed wal rep rs) (h' : Recovers config d seed wal' rep' rs') : rs = rs' := by
  obtain ⟨w, r, hopen, hr, hrs⟩ := h
  obtain ⟨w', r', hopen', hr', hrs'⟩ := h'
  rw [hopen, Prod.mk.injEq, Outcome.ret.injEq, Prod.mk.injEq] at hopen'
  obtain ⟨⟨rfl, rfl⟩, rfl⟩ := hopen'
  obtain rfl := Except.ok.inj (hr.symm.trans hr')
  exact (Prod.mk.inj (hrs.symm.trans hrs')).1

/-- Whatever calls fail and whenever the process dies, a replay yields no record that was not
appended under its number, and neither does one after the next `open`. -/
theorem replayed_was_appended (hh : m₀.handle = none) (hl : m₀.disk.locked = false)
    (hb : basesOf m₀.disk = []) (hm : Machine.Reaches config (BenignOffered config Q) m₀ m) :
    (∀ {wal start rs failure}, m.handle = some wal → wal.poisoned = false →
        m.replayed wal start = .ret (.records rs failure) → ∀ r ∈ rs, Q r.1 r.2) ∧
      ∀ {seed wal rep rs}, m.handle = none → (∀ b, NotCut b m.disk) → (Op.openLog seed).Legal →
        Recovers config m.disk seed wal rep rs → ∀ r ∈ rs, Q r.1 r.2 := by
  have hup := upheld_benign (Q := Q) (fun m op fates => Benign config m op fates ∧
    ∀ wal, m.handle = some wal → StagedMeet config Q wal) stable_forall (fun h => h.1) fun h hw => h.2 _ hw
  have hu := hup.run (holding_start hh hl hb fun _ _ r hr => by simp at hr) (reaches_stagedMeet hh hl hm).2
  constructor
  · intro wal start rs failure hw hp hr r hmem
    rw [hw] at hu
    cases hu with
    | stuck _ _ hpois => simp [hp] at hpois
    | live _ _ _ hc _ h => exact h.holds r (mem_of_replayed hc.toCarries h hr r hmem)
  · intro seed wal rep rs hnone hcut hseed hrec r hmem
    rw [hnone] at hu
    cases hu with
    | rest hl' h =>
      obtain ⟨hv, -⟩ := hrec.cases hseed.2
      obtain ⟨_, _, _, _, hps, hrec', -⟩ := (h hcut).recovers hv hl' hseed
      exact hps r (hrec.unique hrec' ▸ hmem)

end

/-- A process dies with a record half written, and what is left was appended all the same. -/
theorem replayed_was_appended_cut : ∃ m,
    Machine.Reaches tightConfig (BenignOffered tightConfig fun l p => (l, p) ∈ [(1, zeros 20), (2, [7])])
      (Machine.fresh true fun _ => 0) m ∧ m.handle = none ∧
    ((∀ {wal start rs failure}, m.handle = some wal → wal.poisoned = false →
        m.replayed wal start = .ret (.records rs failure) → ∀ r ∈ rs, (r.1, r.2) ∈ [(1, zeros 20), (2, [7])]) ∧
      ∀ {seed wal rep rs}, m.handle = none → (∀ b, NotCut b m.disk) → (Op.openLog seed).Legal →
        Recovers tightConfig m.disk seed wal rep rs → ∀ r ∈ rs, (r.1, r.2) ∈ [(1, zeros 20), (2, [7])]) := by
  obtain ⟨m, m', wal, hm, hm', -, -, -, hnone, -⟩ := cutSecond_reaches
  have hall : Machine.Reaches tightConfig
      (BenignOffered tightConfig fun l p => (l, p) ∈ [(1, zeros 20), (2, [7])])
      (Machine.fresh true fun _ => 0) m' := (hm.trans hm').mono fun h => ⟨h.1, h.2.2⟩
  exact ⟨m', hall, hnone, replayed_was_appended rfl rfl (by decide) hall⟩

end OpenWal
