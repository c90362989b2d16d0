import OpenWal.Theory.FailingRuns

namespace OpenWal
open ByteSeq Posix CrashProg

def Op.OfWriter : Op → Prop
  | .append _ => True
  | .commit => True
  | .checkpoint _ => True
  | _ => False

/-- The watermarks after each of the runs of records, from `durable` on. -/
def marks : ℕ → List (List Bytes) → List ℕ
  | _, [] => []
  | durable, qs :: runs => (durable + qs.length) :: marks (durable + qs.length) runs

theorem marks_append (durable : ℕ) (xs ys : List (List Bytes)) :
    marks durable (xs ++ ys) = marks durable xs ++ marks (durable + xs.flatten.length) ys := by
  induction xs generalizing durable with
  | nil => simp [marks]
  | cons x xs ih => simp [marks, ih, Nat.add_assoc]

/-- Runs that are not empty move the watermark up. -/
theorem marks_sorted {durable : ℕ} {runs : List (List Bytes)} (h : ∀ qs ∈ runs, qs ≠ []) :
    (durable :: marks durable runs).Pairwise (· < ·) := by
  induction runs generalizing durable with
  | nil => simp [marks]
  | cons qs runs ih =>
    have hlt : durable < durable + qs.length :=
      Nat.lt_add_of_pos_right (List.length_pos_iff.mpr (h qs List.mem_cons_self))
    have hrest : ((durable + qs.length) :: marks (durable + qs.length) runs).Pairwise (· < ·) :=
      ih fun ps hp => h ps (List.mem_cons_of_mem qs hp)
    refine List.pairwise_cons.mpr ⟨fun w hw => ?_, hrest⟩
    rcases List.mem_cons.mp hw with rfl | hw
    · exact hlt
    · exact hlt.trans ((List.pairwise_cons.mp hrest).1 w hw)

theorem marks_getLast? (durable : ℕ) (runs : List (List Bytes)) :
    (durable :: marks durable runs).getLast? = some (durable + runs.flatten.length) := by
  induction runs generalizing durable with
  | nil => simp [marks]
  | cons qs runs ih =>
    rw [marks, List.getLast?_cons_cons, ih, List.flatten_cons, List.length_append, Nat.add_assoc]

section

variable [Crc32c]

/-- The frames of the records `qs`, numbered from `e`, lie in the file `f` behind `x`, and
were synced after they were written. -/
structure SyncedAt (f : File) (x e : ℕ) (qs : List Bytes) : Prop where
  ne_nil : qs ≠ []
  frames : slice f.data x (x + runSize qs) = encodeRun e qs
  synced : f.SyncedOn x (x + runSize qs)

def SyncedIn (d : Disk) (e : ℕ) (qs : List Bytes) : Prop :=
  ∃ b f x, d.file (filenameFor b) = some f ∧ SyncedAt f x e qs

def SyncedWithin (base y : ℕ) (d : Disk) (e : ℕ) (qs : List Bytes) : Prop :=
  ∃ b f x, b ≤ u64Max ∧ (b < base ∨ b = base ∧ x + runSize qs ≤ y) ∧
    d.file (filenameFor b) = some f ∧ SyncedAt f x e qs

variable {d d' : Disk} {f f' : File} {e x y base : ℕ} {qs : List Bytes}

theorem SyncedWithin.syncedIn (h : SyncedWithin base y d e qs) : SyncedIn d e qs := by
  obtain ⟨b, f, x, -, -, hf, hs⟩ := h
  exact ⟨b, f, x, hf, hs⟩

theorem SyncedAt.le_length (h : SyncedAt f x e qs) : x + runSize qs ≤ f.data.length := by
  have hpos : 0 < runSize qs := Nat.pos_of_ne_zero (runSize_eq_zero.not.mpr h.ne_nil)
  have hl := congrArg List.length h.frames
  rw [slice_length, encodeRun_length] at hl
  omega

theorem SyncedAt.congr (h : SyncedAt f x e qs) (hs : SameBefore (x + runSize qs) f f') :
    SyncedAt f' x e qs where
  ne_nil := h.ne_nil
  frames := by
    rw [← h.frames]
    exact (hs.data.mono (Nat.zero_le _) le_rfl).slice_eq.symm
  synced := hs.syncedOn h.synced le_rfl

/-- What is written behind the records leaves them synced. -/
theorem SyncedWithin.mono {base' y' : ℕ} (h : SyncedWithin base y d e qs)
    (hlower : ∀ b < base, b ≤ u64Max → d'.file (filenameFor b) = d.file (filenameFor b))
    (hbase : ∀ f, d.file (filenameFor base) = some f →
      ∃ f', d'.file (filenameFor base) = some f' ∧ ∀ z ≤ y, z ≤ f.data.length → SameBefore z f f')
    (hle : base < base' ∨ base = base' ∧ y ≤ y') : SyncedWithin base' y' d' e qs := by
  obtain ⟨b, f, x, hb, hlt | ⟨rfl, hx⟩, hf, hs⟩ := h
  · exact ⟨b, f, x, hb, Or.inl (by omega), (hlower b hlt hb).trans hf, hs⟩
  · obtain ⟨f', hf', hsame⟩ := hbase f hf
    exact ⟨b, f', x, hb, by omega, hf', hs.congr (hsame _ hx hs.le_length)⟩

variable {config : WalConfig} {oldest : ℕ} {sealed : List (List Bytes)} {active staged : List Bytes}
  {observed : List ℕ}

/-- Between two turns, the batch is stored and synced up to `rest`, with one mark a run. -/
def Marked (durable : ℕ) (old : List ℕ) (staged : List Bytes) (oldest : ℕ)
    (sealed : List (List Bytes)) (active : List Bytes) (observed : List ℕ) (rest : List Bytes)
    (_ : File) (d : Disk) : Prop :=
  ∃ runs, observed = old ++ marks durable runs ∧ runs.flatten ++ rest = staged ∧
    activeBase (durable + 1) runs = activeBase oldest sealed + active.length ∧
    ChainFrom (SyncedWithin (activeBase oldest sealed) (headerSize + runSize active) d) (durable + 1) runs

def MarkedBefore (durable : ℕ) (old : List ℕ) (oldest : ℕ) (sealed : List (List Bytes))
    (active : List Bytes) (observed : List ℕ) (d : Disk) : Prop :=
  ∃ runs, observed = old ++ marks durable runs ∧
    activeBase (durable + 1) runs = activeBase oldest sealed + active.length ∧
    ChainFrom (SyncedIn d) (durable + 1) runs

theorem Marked.before {durable : ℕ} {old : List ℕ} {rest : List Bytes} {f : File} {d d' : Disk}
    (h : Marked durable old staged oldest sealed active observed rest f d)
    (hlower : ∀ b < activeBase oldest sealed, b ≤ u64Max →
      d'.file (filenameFor b) = d.file (filenameFor b))
    (hbase : ∀ f, d.file (filenameFor (activeBase oldest sealed)) = some f →
      ∃ f', d'.file (filenameFor (activeBase oldest sealed)) = some f' ∧
        ∀ z ≤ headerSize + runSize active, z ≤ f.data.length → SameBefore z f f') :
    MarkedBefore durable old oldest sealed active observed d' := by
  obtain ⟨runs, hobs, -, hnext, hchain⟩ := h
  exact ⟨runs, hobs, hnext, hchain.imp fun _ _ _ _ hs =>
    (hs.mono hlower hbase (Or.inr ⟨rfl, le_rfl⟩)).syncedIn⟩

theorem commitRule_marked (config : WalConfig) (durable : ℕ) (old : List ℕ) (staged : List Bytes)
    (oldest : ℕ) : CommitRule config oldest (Marked durable old staged oldest)
      (MarkedBefore durable old oldest) where
  cut {sealed active observed rest f d} k hc hj _ := by
    apply hj.before
    · exact fun b hlt hb => Disk.put_file_ne _ _ (hc.name_ne hb hlt)
    · intro g hg
      obtain rfl := Option.some.inj (hc.file.symm.trans hg)
      exact ⟨_, Disk.put_file_self _ _ _, fun z hz hl => .write _ hl hz⟩
  store {sealed active observed rest f d} hc hj hq := by
    obtain ⟨runs, hobs, hstaged, hnext, hchain⟩ := hj
    set qs := fit (roomIn config active) rest
    have hlen : headerSize + runSize active ≤ f.data.length := hc.le_length
    have hpos := hc.activeBase_pos
    have hqs := List.length_pos_iff.mpr hq
    -- the records that fit are one more run, told of by its last number
    refine ⟨runs ++ [qs], ?_, ?_, ?_, ChainFrom.append_iff.mpr ⟨?_, ?_, trivial⟩⟩
    · have hlast : durable + runs.flatten.length + qs.length =
          activeBase oldest sealed + active.length + qs.length - 1 := by
        unfold activeBase at hnext
        unfold activeBase
        omega
      rw [hobs, marks_append, List.append_assoc, marks, marks, hlast]
    · rw [List.flatten_append, List.append_assoc, ← hstaged]
      simp [qs, fit_append_overflow]
    · rw [activeBase_append, hnext, activeBase_cons, activeBase_nil, List.length_append, Nat.add_assoc]
    · apply hchain.imp
      intro e ps _ _ hs
      refine hs.mono (fun b hlt hb => Disk.put_file_ne _ _ (hc.name_ne hb hlt)) ?_
        (Or.inr ⟨rfl, by rw [runSize_append]; omega⟩)
      intro g hg
      obtain rfl := Option.some.inj (hc.file.symm.trans hg)
      refine ⟨_, Disk.put_file_self _ _ _, fun z hz hl => (SameBefore.write _ hl hz).trans (.sync ?_)⟩
      exact hl.trans (le_overwrite_length _ _ _)
    · rw [hnext]
      -- the sync covers the whole file, the run among it
      have hslice := overwrite_slice_self (encodeRun (activeBase oldest sealed + active.length) qs) hlen
      rw [encodeRun_length] at hslice
      refine ⟨activeBase oldest sealed, _, headerSize + runSize active, hc.activeBase_le,
        Or.inr ⟨rfl, by rw [runSize_append]; omega⟩, Disk.put_file_self _ _ _, hq, hslice, ?_⟩
      apply File.sync_syncedOn
      have hl := congrArg List.length hslice
      rw [slice_length, encodeRun_length] at hl
      have := runSize_eq_zero.not.mpr hq
      simp only [File.write]
      omega
  begun {sealed active observed rest f d d'} hc hj hr ha _ hb := by
    have hsame := hc.below_next hr ha hb.1.toDiffersAt
    exact hj.before (fun b hlt hb => hsame b hlt.le hb) fun g hg =>
      ⟨g, (hsame _ le_rfl hc.activeBase_le).trans hg, fun z _ hl => .refl hl⟩
  rolled {sealed active observed rest f d d' created} hc hj hr ha _ honly _ := by
    obtain ⟨runs, hobs, hstaged, hnext, hchain⟩ := hj
    have hsame := hc.below_next hr ha (honly.toDiffersAt.trans (.of_sameFiles (.syncDir d')))
    have hlt := List.length_pos_iff.mpr ha
    refine ⟨runs, hobs, hstaged, by rw [Carries.activeBase_roll, hnext]; rfl, ?_⟩
    rw [Carries.activeBase_roll]
    apply hchain.imp
    intro e ps _ _ hs
    exact hs.mono (fun b hlt hb => hsame b hlt.le hb)
      (fun g hg => ⟨g, (hsame _ le_rfl hc.activeBase_le).trans hg, fun z _ hl => .refl hl⟩)
      (Or.inl (by omega))

structure Tells (wal wal' : Wal) (d : Disk) (runs : List (List Bytes)) : Prop where
  observed : wal'.observed = wal.observed ++ marks wal.durableLsn runs
  durable : wal'.durableLsn = wal.durableLsn + runs.flatten.length
  synced : ChainFrom (SyncedIn d) (wal.durableLsn + 1) runs

theorem Tells.nothing {wal wal' : Wal} (d : Disk) (ho : wal'.observed = wal.observed)
    (hd : wal'.durableLsn = wal.durableLsn) : Tells wal wal' d [] :=
  ⟨by rw [ho, marks, List.append_nil], hd, trivial⟩

theorem Carries.next_eq (h : Carries config d oldest sealed active f) (observed : List ℕ)
    (staged : List Bytes) : activeBase oldest sealed + active.length =
      (handleOn config oldest sealed active observed staged).durableLsn + 1 := by
  have := h.activeBase_pos
  simp only [handleOn]
  omega

theorem commit_tells (hv : config.Valid) (hc : Committing config d oldest sealed active f staged)
    (observed : List ℕ) (fates : List Fate) {wal : Wal}
    (hw : wal = handleOn config oldest sealed active observed staged) :
    Ends
      (fun durable s => durable = wal.durableLsn + staged.length ∧
        ∃ runs, runs.flatten = staged ∧ Tells wal s.wal s.world.disk runs)
      (fun e s => e.IsIo ∧ s.wal.poisoned = true ∧ ∃ runs, Tells wal s.wal s.world.disk runs)
      (fun _ => True) (commit ⟨wal, ⟨d, fates⟩⟩) := by
  have hnext : activeBase oldest sealed + active.length = wal.durableLsn + 1 :=
    hw ▸ hc.next_eq observed staged
  by_cases hs : staged = []
  · subst hw hs
    exact ⟨rfl, [], rfl, .nothing _ rfl rfl⟩
  -- at first no run was told of
  have hstart : Marked wal.durableLsn observed staged oldest sealed active observed staged f d :=
    ⟨[], by rw [marks, List.append_nil], rfl, hnext.symm, trivial⟩
  have hobs : wal.observed = observed := by rw [hw]; rfl
  have hends := commit_triple (commitRule_marked config wal.durableLsn observed staged oldest) hv hs fates
    hc hstart
  rw [← hw] at hends
  refine hends.imp ?_ ?_ fun _ _ => trivial
  · rintro durable s ⟨rfl, sealed', active', observed', f', hnext', hwal, hc', runs, hmarks, hflat, hlast,
      hchain⟩
    rw [List.append_nil] at hflat
    refine ⟨by omega, runs, hflat, ?_, ?_, hchain.imp fun _ _ _ _ h => h.syncedIn⟩
    · rw [hwal, hobs]
      exact hmarks
    · rw [hwal, hflat]
      simp only [handleOn]
      omega
  · rintro e s ⟨he, sealed', active', observed', hwal, runs, hmarks, hlast, hchain⟩
    refine ⟨he, by rw [hwal]; rfl, runs, ?_, ?_, hchain⟩
    · rw [hwal, hobs]
      exact hmarks
    · rw [hwal]
      simp only [batchOn, handleOn, Wal.poison]
      unfold activeBase at hlast ⊢
      omega

theorem append_tells (hc : Committing config d oldest sealed active f staged) (observed : List ℕ)
    (fates : List Fate) {wal : Wal} (hw : wal = handleOn config oldest sealed active observed staged)
    (p : Bytes) :
    Ends (fun _ s => s.world.disk = d ∧ Tells wal s.wal s.world.disk [])
      (fun e s => (e = .recordTooLarge ∨ e = .lsnExhausted ∧
        u64Max < activeBase oldest sealed + active.length + staged.length) ∧
          s.world.disk = d ∧ s.wal = wal) (fun _ => False)
      (append p ⟨wal, ⟨d, fates⟩⟩) := by
  subst hw
  by_cases hp : config.maxRecordSize < p.length
  · rw [append_tooLarge hp]
    exact ⟨Or.inl rfl, rfl, rfl⟩
  have hp := Nat.not_lt.mp hp
  by_cases hx : u64Max < activeBase oldest sealed + active.length + staged.length
  · rw [append_exhausted hp hx]
    exact ⟨Or.inr ⟨rfl, hx⟩, rfl, rfl⟩
  · rw [append_staged hp hc.activeBase_pos (Nat.not_lt.mp hx)]
    exact ⟨rfl, .nothing _ rfl rfl⟩

/-- What the calls of the writer keep to in the state `m`, where `wal` is open. -/
structure Disciplined (config : WalConfig) (m : Machine) (wal : Wal) : Prop where
  /-- The watermark moves over runs of whole records that were written and synced, and the
  observer is told of each move. -/
  tells : ∀ {op : Op} {fates : List Fate} {o : Outcome WalError Reply} {m' : Machine} {wal' : Wal},
    op.OfWriter → m.exec config op fates = some (o, m') → m'.handle = some wal' →
    ∃ runs, Tells wal wal' m'.disk runs
  /-- A call that fails leaves the handle poisoned. -/
  poisons : ∀ {op : Op} {fates : List Fate} {e : WalError} {m' : Machine}, op.OfWriter →
    m.exec config op fates = some (.err e, m') → e.IsIo →
    ∃ wal', m'.handle = some wal' ∧ wal'.poisoned = true
  /-- A poisoned handle stays as it is, and the files with it. -/
  refuses : wal.poisoned = true → ∀ {op : Op} (fates : List Fate), op.OfWriter →
    ∃ m', m.exec config op fates = some (.err .poisoned, m') ∧ m'.disk = m.disk ∧ m'.handle = m.handle
  /-- Errors that refuse a call change nothing. -/
  unchanged : ∀ {op : Op} {fates : List Fate} {e : WalError} {m' : Machine}, op.OfWriter →
    m.exec config op fates = some (.err e, m') →
    e = .recordTooLarge ∨ e = .lsnExhausted ∨ e = .poisoned → m'.disk = m.disk ∧ m'.handle = m.handle
  /-- With the numbers used up, what is staged can still be made durable: a commit whose
  calls succeed returns, and one that returns has synced every staged record. -/
  exhausted : ∀ {p : Bytes} {fates : List Fate} {m' : Machine},
    m.exec config (.append p) fates = some (.err .lsnExhausted, m') →
    ∃ staged, wal.staging = encodeRun (wal.durableLsn + 1) staged ∧
      wal.durableLsn + staged.length = u64Max ∧
      (∃ m'', m'.exec config .commit [] = some (.ret (.committed u64Max), m'')) ∧
      ∀ {fates : List Fate} {durable : ℕ} {m'' : Machine},
        m'.exec config .commit fates = some (.ret (.committed durable), m'') →
        durable = u64Max ∧ ∃ runs, runs.flatten = staged ∧
          ChainFrom (SyncedIn m''.disk) (wal.durableLsn + 1) runs

variable {m m' : Machine} {op : Op} {fates : List Fate} {o : Outcome WalError Reply} {wal : Wal}

inductive Ended (m : Machine) (wal : Wal) (m' : Machine) : Outcome WalError Reply → Prop
  | ret {r : Reply} {wal' : Wal} {runs : List (List Bytes)} : m'.handle = some wal' →
      Tells wal wal' m'.disk runs → Ended m wal m' (.ret r)
  | failed {e : WalError} {wal' : Wal} {runs : List (List Bytes)} : e.IsIo → m'.handle = some wal' →
      wal'.poisoned = true → Tells wal wal' m'.disk runs → Ended m wal m' (.err e)
  | refused {e : WalError} : ¬ e.IsIo → m'.disk = m.disk → m'.handle = some wal → Ended m wal m' (.err e)
  | died : m'.handle = none → Ended m wal m' .crashed

theorem append_ended (hh : m.handle = some wal) (hc : Committing config m.disk oldest sealed active f staged)
    (hw : wal = handleOn config oldest sealed active observed staged) {p : Bytes}
    (he : m.exec config (.append p) fates = some (o, m')) : Ended m wal m' o := by
  rw [Machine.exec_append hh, Option.some.injEq] at he
  obtain ⟨lsn, s, rfl, ⟨-, ht⟩, rfl⟩ | ⟨e, s, rfl, ⟨hkind, hdisk, hwal⟩, rfl⟩ | ⟨s, -, hfalse, -⟩ :=
    Machine.execOn_ends (append_tells hc observed fates hw p) he
  · exact .ret rfl ht
  · refine .refused ?_ hdisk (congrArg some hwal)
    rcases hkind with rfl | ⟨rfl, -⟩ <;> exact id
  · exact hfalse.elim

theorem commit_ended (hv : config.Valid) (hh : m.handle = some wal)
    (hc : Committing config m.disk oldest sealed active f staged)
    (hw : wal = handleOn config oldest sealed active observed staged)
    (he : m.exec config .commit fates = some (o, m')) : Ended m wal m' o := by
  rw [Machine.exec_commit hh, Option.some.injEq] at he
  obtain ⟨durable, s, rfl, ⟨-, runs, -, ht⟩, rfl⟩ | ⟨e, s, rfl, ⟨hio, hp, runs, ht⟩, rfl⟩ | ⟨s, rfl, -, rfl⟩ :=
    Machine.execOn_ends (commit_tells hv hc observed fates hw) he
  · exact .ret rfl ht
  · exact .failed hio rfl hp ht
  · exact .died rfl

theorem checkpoint_ended (hh : m.handle = some wal) (hc : Carries config m.disk oldest sealed active f)
    (hw : wal = handleOn config oldest sealed active observed staged) {upTo : ℕ}
    (he : m.exec config (.checkpoint upTo) fates = some (o, m')) : Ended m wal m' o := by
  rw [Machine.exec_checkpoint hh, Option.some.injEq] at he
  obtain ⟨xs, ys, rfl, -, -, hends⟩ := checkpoint_triple hc observed staged upTo fates
  rw [← hw] at hends
  obtain ⟨_, s, rfl, ⟨hwal, -⟩, rfl⟩ | ⟨e, s, rfl, ⟨hio, hwal, -⟩, rfl⟩ | ⟨s, rfl, -, rfl⟩ :=
    Machine.execOn_ends hends he
  · refine .ret rfl (Tells.nothing _ ?_ ?_)
    · rw [hwal, hw]
      rfl
    · rw [hwal, hw]
      simp only [handleOn, activeBase_append]
  · refine .failed hio rfl (by rw [hwal]; rfl) (Tells.nothing _ ?_ ?_)
    · rw [hwal, hw]
      rfl
    · rw [hwal, hw]
      rfl
  · exact .died rfl

theorem writer_ended (hv : config.Valid) (hh : m.handle = some wal)
    (hc : Committing config m.disk oldest sealed active f staged)
    (hw : wal = handleOn config oldest sealed active observed staged) (hop : op.OfWriter)
    (he : m.exec config op fates = some (o, m')) : Ended m wal m' o := by
  cases op with
  | append p => exact append_ended hh hc hw he
  | commit => exact commit_ended hv hh hc hw he
  | checkpoint upTo => exact checkpoint_ended hh hc.toCarries hw he
  | _ => exact hop.elim

/-- A commit none of whose calls fails returns. -/
theorem commit_returns (hv : config.Valid)
    (hc : Committing config d oldest sealed active f staged) (observed : List ℕ) :
    ∃ s, commit ⟨handleOn config oldest sealed active observed staged, ⟨d, []⟩⟩ =
      (.ret (activeBase oldest sealed + active.length - 1 + staged.length), s) := by
  by_cases hs : staged = []
  · subst hs
    exact ⟨_, commit_nothing d⟩
  · obtain ⟨d₁, -, ⟨-, observed', h⟩ | ⟨-, -, segs, last, observed', g, d', h, -⟩⟩ :=
      commit_adopted observed hs hc.file hc.activeBase_pos (fun b hb hlt => hc.free hb hlt) hv hc.batch
        rfl rfl
    · exact ⟨_, h⟩
    · exact ⟨_, h⟩

/-- With the numbers used up, a commit is of the records that are staged. -/
theorem exhausted_commits (hv : config.Valid) (hh : m.handle = some wal)
    (hc : Committing config m.disk oldest sealed active f staged)
    (hw : wal = handleOn config oldest sealed active observed staged)
    (hx : u64Max < activeBase oldest sealed + active.length + staged.length) :
    wal.staging = encodeRun (wal.durableLsn + 1) staged ∧ wal.durableLsn + staged.length = u64Max ∧
      (∃ m', m.exec config .commit [] = some (.ret (.committed u64Max), m')) ∧
      ∀ {fates : List Fate} {durable : ℕ} {m' : Machine},
        m.exec config .commit fates = some (.ret (.committed durable), m') →
        durable = u64Max ∧ ∃ runs, runs.flatten = staged ∧
          ChainFrom (SyncedIn m'.disk) (wal.durableLsn + 1) runs := by
  have hnext : activeBase oldest sealed + active.length = wal.durableLsn + 1 :=
    hw ▸ hc.next_eq observed staged
  have hlast := hc.batch.last
  have hsum : wal.durableLsn + staged.length = u64Max := by omega
  refine ⟨by rw [← hnext, hw]; rfl, hsum, ?_, ?_⟩
  · obtain ⟨s, hs⟩ := commit_returns hv hc observed
    have hdurable : activeBase oldest sealed + active.length - 1 + staged.length = u64Max := by omega
    rw [← hw, hdurable] at hs
    refine ⟨m.after s (reportedBy (.ret (.committed u64Max))), ?_⟩
    rw [Machine.exec_commit hh, Machine.execOn, Prog.map_of_ret hs]
    rfl
  · intro fates durable m' he
    rw [Machine.exec_commit hh, Option.some.injEq] at he
    obtain ⟨n, s, ho, ⟨rfl, runs, hflat, ht⟩, rfl⟩ | ⟨e, s, ho, -⟩ | ⟨s, ho, -⟩ :=
      Machine.execOn_ends (commit_tells hv hc observed fates hw) he
    · obtain rfl : durable = _ := by simpa using ho
      exact ⟨hsum, runs, hflat, ht.synced⟩
    · simp at ho
    · simp at ho

theorem live_disciplined (hv : config.Valid) (hh : m.handle = some wal)
    (hc : Committing config m.disk oldest sealed active f staged)
    (hw : wal = handleOn config oldest sealed active observed staged) : Disciplined config m wal where
  tells hop he hm' := by
    cases writer_ended hv hh hc hw hop he with
    | ret hm ht => exact ⟨_, Option.some.inj (hm.symm.trans hm') ▸ ht⟩
    | failed _ hm _ ht => exact ⟨_, Option.some.inj (hm.symm.trans hm') ▸ ht⟩
    | refused _ _ hm =>
      obtain rfl := Option.some.inj (hm.symm.trans hm')
      exact ⟨[], .nothing _ rfl rfl⟩
    | died hm => simp [hm] at hm'
  poisons hop he hio := by
    cases writer_ended hv hh hc hw hop he with
    | failed _ hm hp _ => exact ⟨_, hm, hp⟩
    | refused hno => exact absurd hio hno
  refuses hp := by
    rw [hw] at hp
    exact absurd hp (by simp [handleOn])
  unchanged hop he hkind := by
    cases writer_ended hv hh hc hw hop he with
    | failed hio => rcases hkind with rfl | rfl | rfl <;> exact hio.elim
    | refused _ hd hm => exact ⟨hd, hm.trans hh.symm⟩
  exhausted {p fates m'} he := by
    rw [Machine.exec_append hh, Option.some.injEq] at he
    obtain ⟨lsn, s, ho, -⟩ | ⟨e, s, ho, ⟨hkind, hdisk, hwal⟩, rfl⟩ | ⟨s, -, hfalse, -⟩ :=
      Machine.execOn_ends (append_tells hc observed fates hw p) he
    · simp at ho
    · obtain rfl : WalError.lsnExhausted = e := by simpa using ho
      obtain ⟨-, hx⟩ : WalError.lsnExhausted = WalError.lsnExhausted ∧
          u64Max < activeBase oldest sealed + active.length + staged.length := by simpa using hkind
      have hm : (m.after s []).handle = some wal := congrArg some hwal
      have hd : (m.after s []).disk = m.disk := hdisk
      obtain ⟨h₁, h₂, h₃, h₄⟩ := exhausted_commits hv hm (hd.symm ▸ hc) hw hx
      exact ⟨staged, h₁, h₂, h₃, h₄⟩
    · exact hfalse.elim

theorem poisoned_exec (hh : m.handle = some wal) (hp : wal.poisoned = true) (hop : op.OfWriter)
    (fates : List Fate) :
    m.exec config op fates = some (.err .poisoned, m.after ⟨wal, ⟨m.disk, fates⟩⟩ []) := by
  cases op with
  | append p =>
    rw [Machine.exec_append hh, Machine.execOn, Prog.map_of_err (append_poisoned hp p)]
    rfl
  | commit =>
    rw [Machine.exec_commit hh, Machine.execOn, Prog.map_of_err (commit_poisoned hp)]
    rfl
  | checkpoint upTo =>
    rw [Machine.exec_checkpoint hh, Machine.execOn, Prog.map_of_err (checkpoint_poisoned hp upTo)]
    rfl
  | _ => exact hop.elim

theorem poisoned_disciplined (hh : m.handle = some wal) (hp : wal.poisoned = true) :
    Disciplined config m wal where
  tells {op fates o m' wal'} hop he hm' := by
    obtain ⟨-, rfl⟩ := Prod.mk.inj (Option.some.inj ((poisoned_exec hh hp hop fates).symm.trans he))
    obtain rfl : wal = wal' := Option.some.inj hm'
    exact ⟨[], .nothing _ rfl rfl⟩
  poisons {op fates e m'} hop he _ := by
    obtain ⟨-, rfl⟩ := Prod.mk.inj (Option.some.inj ((poisoned_exec hh hp hop fates).symm.trans he))
    exact ⟨wal, rfl, hp⟩
  refuses _ {op} fates hop := ⟨_, poisoned_exec hh hp hop fates, rfl, hh.symm⟩
  unchanged {op fates e m'} hop he _ := by
    obtain ⟨-, rfl⟩ := Prod.mk.inj (Option.some.inj ((poisoned_exec hh hp hop fates).symm.trans he))
    exact ⟨rfl, hh.symm⟩
  exhausted {p fates m'} he := by
    have hop : (Op.append p).OfWriter := trivial
    simpa using (poisoned_exec hh hp hop fates).symm.trans he

theorem handle_of_writer (hop : op.OfWriter) (he : m.exec config op fates = some (o, m')) :
    ∃ wal, m.handle = some wal := by
  refine Machine.handle_of_exec ?_ he
  rintro seed rfl
  exact hop

/-- What a run of the writer told. -/
theorem run_marks {m₀ : Machine} {wal₀ : Wal} (hh₀ : m₀.handle = some wal₀) (ho : wal₀.observed = [])
    (hall : ∀ {m wal}, Machine.Reaches config (fun _ op _ => op.OfWriter) m₀ m → m.handle = some wal →
      Disciplined config m wal)
    (hm : Machine.Reaches config (fun _ op _ => op.OfWriter) m₀ m) :
    ∀ {wal}, m.handle = some wal → ∃ runs : List (List Bytes), (∀ qs ∈ runs, qs ≠ []) ∧
      wal.observed = marks wal₀.durableLsn runs ∧
      wal.durableLsn = wal₀.durableLsn + runs.flatten.length := by
  induction hm with
  | start =>
    intro wal hh
    obtain rfl := Option.some.inj (hh₀.symm.trans hh)
    exact ⟨[], by simp, ho, rfl⟩
  | step hm _ hop he ih =>
    intro wal hh
    obtain ⟨wal₁, hh₁⟩ := handle_of_writer hop he
    obtain ⟨runs, hne, hobs, hdur⟩ := ih hh₁
    obtain ⟨more, ht⟩ := (hall hm hh₁).tells hop he hh
    refine ⟨runs ++ more, fun qs hq => ?_, ?_, ?_⟩
    · rcases List.mem_append.mp hq with hq | hq
      · exact hne qs hq
      · exact ht.synced.forall_mem (fun _ _ ⟨_, _, _, _, hs⟩ => hs.ne_nil) qs hq
    · rw [ht.observed, hobs, hdur, marks_append]
    · rw [ht.durable, hdur, List.flatten_append, List.length_append, Nat.add_assoc]

/-- Whatever calls fail in a run of the writer from an opened log, each of its calls keeps
to the discipline, and the observer has heard an ascending sequence of watermarks that
ends in the one the handle has. -/
theorem writer_discipline {seed : ℕ} {rep : RecoveryReport} {m₀ : Machine} (hseed : seed ≤ u64Max)
    (hopen : (Machine.onDisk d).exec config (.openLog seed) fates = some (.ret (.opened rep), m₀))
    (hm : Machine.Reaches config (fun _ op _ => op.OfWriter) m₀ m) (hh : m.handle = some wal) :
    Disciplined config m wal ∧
      (rep.durableLsn :: wal.observed).Pairwise (· < ·) ∧
      (rep.durableLsn :: wal.observed).getLast? = some wal.durableLsn := by
  obtain ⟨hv, hlock, hdir, oldest, sealed, active, ts, f, hh₀, rfl, hlog, -⟩ := Machine.opened hseed hopen
  have hstart : Upholds config (fun _ => True) (fun _ _ => True) (fun _ _ _ _ _ => True) m₀.disk
      m₀.handle := by
    rw [hh₀]
    exact .live hv hlock hdir ⟨hlog.carries, .nil_of_le hlog.next_le⟩ (by simp) trivial
  have hall : ∀ {m wal}, Machine.Reaches config (fun _ op _ => op.OfWriter) m₀ m →
      m.handle = some wal → Disciplined config m wal := by
    intro m wal hm hh
    have hu := (Upheld.trivially config fun _ op _ => op.OfWriter).run hstart hm
    rw [hh] at hu
    cases hu with
    | live hv _ _ hc => exact live_disciplined hv hh hc rfl
    | stuck _ _ hp => exact poisoned_disciplined hh hp
  obtain ⟨runs, hne, hobs, hdur⟩ := run_marks hh₀ rfl hall hm hh
  refine ⟨hall hm hh, ?_, ?_⟩
  · rw [hobs]
    exact marks_sorted hne
  · rw [hobs, hdur]
    exact marks_getLast? _ _

end

/-- Two records are committed, and the write of the third fails after 5 bytes. -/
theorem writer_discipline_failedWrite : ∃ rep m₀ m wal,
    (Machine.onDisk (Disk.fresh true fun _ => 0)).exec tightConfig (.openLog 1) [] =
      some (.ret (.opened rep), m₀) ∧
    Machine.Reaches tightConfig (fun _ op _ => op.OfWriter) m₀ m ∧ m.handle = some wal ∧
    wal.poisoned = true ∧ wal.observed = [2] ∧ Disciplined tightConfig m wal ∧
    (rep.durableLsn :: wal.observed).Pairwise (· < ·) ∧
    (rep.durableLsn :: wal.observed).getLast? = some wal.durableLsn := by
  have hrun : ((Machine.onDisk (Disk.fresh true fun _ => 0)).runFated tightConfig
      [(.openLog 1, []), (.append [1, 2, 3], []), (.append [], []), (.commit, []), (.append [4], []),
        (.commit, [.fail 5])]).map
        (fun r => (r.1.head?, r.2.handle.map fun wal => (wal.poisoned, wal.observed))) =
      some (some (.ret (.opened ⟨1, 0, .clean, 1⟩)), some (true, [2])) := by decide +kernel
  obtain ⟨⟨os, m⟩, hrun, hres⟩ := Option.map_eq_some_iff.mp hrun
  obtain ⟨hhead, hhandle⟩ := Prod.mk.inj hres
  obtain ⟨wal, hh, hwal⟩ := Option.map_eq_some_iff.mp hhandle
  obtain ⟨hp, hobs⟩ := Prod.mk.inj hwal
  obtain ⟨o, os', m₀, rfl, hopen, hrest⟩ := Machine.runFated_cons hrun
  obtain rfl : o = .ret (.opened ⟨1, 0, .clean, 1⟩) := Option.some.inj hhead
  have hm : Machine.Reaches tightConfig (fun _ op _ => op.OfWriter) m₀ m :=
    Machine.Reaches.start.runFated (by simp [Op.Legal, Op.OfWriter]) hrest
  exact ⟨_, m₀, m, wal, hopen, hm, hh, hp, hobs, writer_discipline (by decide) hopen hm hh⟩

end OpenWal
