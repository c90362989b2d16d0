import OpenWal.Theory.CalmRuns

namespace OpenWal
open ByteSeq Posix CrashProg Simulation

def Op.IsWrite : Op → Prop
  | .append _ => True
  | .commit => True
  | _ => False

/-- The payloads that successful calls commit, `staged` being staged before. -/
def committedBy : List Bytes → List Op → List Bytes
  | staged, .append p :: ops => committedBy (staged ++ [p]) ops
  | staged, .commit :: ops => staged ++ committedBy [] ops
  | _, _ => []

/-- Those of them that go to a segment with `room` bytes left: all up to the first
commit with records left over, and of that one what fits. -/
def keptBy : ℕ → List Bytes → List Op → List Bytes
  | room, staged, .append p :: ops => keptBy room (staged ++ [p]) ops
  | room, staged, .commit :: ops =>
    if overflow room staged = [] then staged ++ keptBy (room - runSize staged) [] ops
    else fit room staged
  | _, _, _ => []

variable [Crc32c]

variable {config : WalConfig} {d d' : Disk} {oldest : ℕ} {sealed : List (List Bytes)}
  {active fill staged : List Bytes} {f : File} {m m' : Machine}

structure Filling (config : WalConfig) (d : Disk) (oldest : ℕ) (sealed : List (List Bytes))
    (active : List Bytes) (f : File) (fill staged : List Bytes) (m : Machine) : Prop where
  handle : ∃ observed, m.handle =
    some (handleOn config oldest sealed (active ++ fill) observed staged)
  file : ∃ f', SetTo d (filenameFor (activeBase oldest sealed)) f' m.disk ∧
    f'.data = overwrite f.data (headerSize + runSize active)
      (encodeRun (activeBase oldest sealed + active.length) fill)
  batch : Batch config.maxRecordSize (activeBase oldest sealed + active.length) (fill ++ staged)
  fits : headerSize + runSize active + runSize fill ≤ config.segmentSize

/-- The adopted segment was left behind with `fill` in it, and fresh ones follow. -/
def Rolled (config : WalConfig) (d : Disk) (oldest : ℕ) (sealed : List (List Bytes))
    (active : List Bytes) (f : File) (fill : List Bytes) (m : Machine) : Prop :=
  ∃ segs last observed staged d₁ f₁ g,
    m.handle = some (handleOn config oldest (sealed ++ [active ++ fill] ++ segs) last observed staged) ∧
    active ++ fill ≠ [] ∧
    SetTo d (filenameFor (activeBase oldest sealed)) f₁ d₁ ∧
    f₁.data = overwrite f.data (headerSize + runSize active)
      (encodeRun (activeBase oldest sealed + active.length) fill) ∧
    Batch config.maxRecordSize (activeBase oldest sealed + active.length) fill ∧
    headerSize + runSize active + runSize fill ≤ config.segmentSize ∧
    Extended config False d₁ (activeBase oldest (sealed ++ [active ++ fill])) segs last g m.disk ∧
    Batch config.maxRecordSize
      (activeBase oldest (sealed ++ [active ++ fill] ++ segs) + last.length) staged

/-- Another segment is active then. -/
theorem Rolled.active_ne {d : Disk} {wal : Wal} (h : Rolled config d oldest sealed active f fill m)
    (hw : m.handle = some wal) : wal.active ≠ filenameFor (activeBase oldest sealed) := by
  obtain ⟨segs, last, observed, staged, d₁, f₁, g, hh, hne, -, -, -, -, hext, -⟩ := h
  obtain rfl := Option.some.inj (hw.symm.trans hh)
  have hlen := List.length_pos_iff.mpr hne
  have hle := hext.written.header.le_u64Max
  rw [← activeBase_append] at hle
  have hlt : activeBase oldest sealed < activeBase oldest (sealed ++ [active ++ fill] ++ segs) := by
    have := le_activeBase (activeBase oldest sealed + (active ++ fill).length) segs
    simp only [activeBase_append, activeBase_cons, activeBase_nil]
    omega
  exact filenameFor_ne hle (hlt.le.trans hle) hlt.ne'

/-- What `open` hands out. -/
theorem logOn_of_open {m₀ m₁ : Machine} {seed : ℕ} {rep : RecoveryReport} {wal : Wal}
    (hseed : (Op.openLog seed).Legal)
    (h : Machine.CalmStep config m₀ (.openLog seed) (.ret (.opened rep)) m₁)
    (hw : m₁.handle = some wal) :
    config.Valid ∧ ∃ oldest sealed active ts f, wal = handleOn config oldest sealed active [] [] ∧
      rep = reportOn oldest sealed active ts ∧
      LogOn config.segmentSize config.maxRecordSize m₁.disk oldest sealed active f := by
  obtain ⟨wal₁, w, ho, hh, hdisk⟩ := Machine.calmStep_open_eq_ret h
  obtain rfl : wal₁ = wal := Option.some.inj (hh.symm.trans hw)
  obtain ⟨hv, h1, d', rfl, hopens⟩ := openSeeded_opens hseed.2 ho
  obtain ⟨oldest, sealed, active, ts, f, hwal, hrep, hlog, -, -, -⟩ := hopens.log hv h1 hseed.2
  exact ⟨hv, oldest, sealed, active, ts, f, hwal, hrep, hdisk ▸ hlog⟩

theorem filling_start {observed : List ℕ} (hv : config.Valid)
    (hh : m.handle = some (handleOn config oldest sealed active observed []))
    (h : LogOn config.segmentSize config.maxRecordSize m.disk oldest sealed active f) :
    Filling config m.disk oldest sealed active f [] [] m := by
  refine ⟨⟨observed, by rw [List.append_nil, hh]⟩, ⟨f, ⟨h.file, fun _ _ => rfl, rfl, rfl⟩, by simp⟩,
    Batch.nil_of_le h.next_le, ?_⟩
  have := h.holds.run.le_segment ((Nat.le_add_right _ _).trans hv.room)
  simpa using this

/-- Records written behind those of a segment continue its run, and the bytes behind
them are those that were there. -/
theorem run_of_overwrite {base : ℕ} {file : Bytes}
    (hs : SegmentHolds config.segmentSize config.maxRecordSize file base active)
    (hb : Batch config.maxRecordSize (base + active.length) fill)
    (hfits : headerSize + runSize active + runSize fill ≤ config.segmentSize) :
    HeaderOk (overwrite file (headerSize + runSize active) (encodeRun (base + active.length) fill)) base ∧
    Run config.segmentSize config.maxRecordSize
      (overwrite file (headerSize + runSize active) (encodeRun (base + active.length) fill))
      headerSize base (active ++ fill) ∧
    (overwrite file (headerSize + runSize active) (encodeRun (base + active.length) fill)).drop
      (headerSize + runSize (active ++ fill)) = file.drop (headerSize + runSize (active ++ fill)) := by
  have hle := hs.run.le_file hs.header.le_length
  have hbefore := (overwrite_agreeOn_before (encodeRun (base + active.length) fill) hle 0).symm
  have hself := overwrite_slice_self (encodeRun (base + active.length) fill) hle
  rw [encodeRun_length] at hself
  refine ⟨hs.header.congr (hbefore.mono le_rfl (by omega)),
    (hs.run.congr (hbefore.mono (Nat.zero_le _) le_rfl)).append
      (run_of_slice_eq hfits hb.small config.maxRecordSize_lt hb.last hself), ?_⟩
  apply overwrite_drop _ hle
  rw [encodeRun_length, runSize_append]
  omega

/-- What an append on a handle that is not poisoned does, if it succeeds. -/
theorem append_eq_ret {observed : List ℕ} {p : Bytes} {o : Outcome WalError Reply}
    (hh : m.handle = some (handleOn config oldest sealed active observed staged))
    (hpos : 1 ≤ activeBase oldest sealed)
    (hstep : Machine.CalmStep config m (.append p) o m') (hok : ∃ r, o = .ret r) :
    m'.handle = some (handleOn config oldest sealed active observed (staged ++ [p])) ∧
      m'.disk = m.disk ∧ p.length ≤ config.maxRecordSize ∧
      activeBase oldest sealed + active.length + staged.length ≤ u64Max := by
  obtain ⟨r, rfl⟩ := hok
  have hdet : ∀ {o' m''}, Machine.CalmStep config m (.append p) o' m'' →
      (Outcome.ret r : Outcome WalError Reply) = o' ∧ m' = m'' := by
    intro o' m'' h
    have := hstep.symm.trans h
    simpa using this
  by_cases hp : config.maxRecordSize < p.length
  · have := (hdet (Machine.calmStep_append_err hh (append_tooLarge hp))).1
    simp at this
  have hp := Nat.not_lt.mp hp
  by_cases hx : u64Max < activeBase oldest sealed + active.length + staged.length
  · have := (hdet (Machine.calmStep_append_err hh (append_exhausted hp hx))).1
    simp at this
  have hx := Nat.not_lt.mp hx
  obtain ⟨-, rfl⟩ := hdet (Machine.calmStep_append hh (append_staged hp hpos hx))
  exact ⟨rfl, rfl, hp, hx⟩

theorem Filling.append {p : Bytes} {o : Outcome WalError Reply}
    (h : Filling config d oldest sealed active f fill staged m)
    (hpos : 1 ≤ activeBase oldest sealed)
    (hstep : Machine.CalmStep config m (.append p) o m') (hok : ∃ r, o = .ret r) :
    Filling config d oldest sealed active f fill (staged ++ [p]) m' := by
  obtain ⟨observed, hh⟩ := h.handle
  obtain ⟨hh', hd, hp, hx⟩ := append_eq_ret hh hpos hstep hok
  refine ⟨⟨observed, hh'⟩, hd ▸ h.file, ?_, h.fits⟩
  rw [← List.append_assoc]
  refine Batch.append_iff.mpr ⟨h.batch, ⟨by simpa using hp, ?_⟩⟩
  rw [List.length_append] at hx ⊢
  rw [List.length_singleton]
  omega

/-- The outcome of a call that succeeds and whose run is known. -/
theorem calmStep_commit_eq {wal wal' : Wal} {durable : ℕ} {o : Outcome WalError Reply}
    (hh : m.handle = some wal) (hstep : Machine.CalmStep config m .commit o m')
    (h : commit ⟨wal, ⟨m.disk, []⟩⟩ = (.ret durable, ⟨wal', ⟨d', []⟩⟩)) :
    m'.handle = some wal' ∧ m'.disk = d' := by
  have := hstep.symm.trans (Machine.calmStep_commit hh h)
  simp only [Option.some.injEq, Prod.mk.injEq] at this
  rw [this.2]
  exact ⟨rfl, rfl⟩

/-- A commit fills the segment, or rolls. -/
theorem Filling.commit {o : Outcome WalError Reply}
    (h : Filling config d oldest sealed active f fill staged m)
    (hlog : LogOn config.segmentSize config.maxRecordSize d oldest sealed active f)
    (hv : config.Valid) (hstep : Machine.CalmStep config m .commit o m') :
    if overflow (config.segmentSize - (headerSize + runSize active + runSize fill)) staged = [] then
      Filling config d oldest sealed active f (fill ++ staged) [] m'
    else Rolled config d oldest sealed active f (fill ++
      fit (config.segmentSize - (headerSize + runSize active + runSize fill)) staged) m' := by
  obtain ⟨observed, hh⟩ := h.handle
  obtain ⟨f₁, hset, hdata⟩ := h.file
  obtain ⟨hbf, hbs⟩ := Batch.append_iff.mp h.batch
  have hroom : headerSize + runSize active + runSize fill = headerSize + runSize (active ++ fill) := by
    rw [runSize_append, Nat.add_assoc]
  have hnum : activeBase oldest sealed + (active ++ fill).length =
      activeBase oldest sealed + active.length + fill.length := by
    rw [List.length_append, Nat.add_assoc]
  by_cases hs : staged = []
  · subst hs
    obtain ⟨hh', hd⟩ := calmStep_commit_eq hh hstep (commit_nothing m.disk)
    rw [if_pos (overflow_eq_nil (Nat.zero_le _)), List.append_nil]
    exact ⟨⟨observed, hh'⟩, hd ▸ h.file, h.batch, h.fits⟩
  have hfree : ∀ b ≤ u64Max, activeBase oldest sealed < b → m.disk.file (filenameFor b) = none := by
    intro b hb hlt
    rw [hset.others _ (filenameFor_ne hb hlog.activeBase_le (by omega))]
    exact hlog.free hb hlt
  set room := config.segmentSize - (headerSize + runSize active + runSize fill) with hroom'
  have hmore := fit_append_overflow room staged
  have hfitle := runSize_fit_le room staged
  set a := fit room staged with ha
  set more := overflow room staged with hmo
  have hdata' : ∀ qs, (stored (headerSize + runSize (active ++ fill))
      (activeBase oldest sealed + (active ++ fill).length) qs f₁).data =
      overwrite f.data (headerSize + runSize active)
        (encodeRun (activeBase oldest sealed + active.length) (fill ++ qs)) := by
    intro qs
    rw [stored_data, hdata, ← hroom, hnum]
    exact overwrite_encodeRun _ _ _ _ _
  have hba : Batch config.maxRecordSize (activeBase oldest sealed + active.length) (fill ++ a) := by
    have hb := h.batch
    rw [← hmore, ← List.append_assoc] at hb
    exact (Batch.append_iff.mp hb).1
  have hfit : fit (config.segmentSize - (headerSize + runSize (active ++ fill))) staged = a := by
    rw [← hroom]
  have hover : overflow (config.segmentSize - (headerSize + runSize (active ++ fill))) staged = more := by
    rw [← hroom]
  obtain ⟨d₁, hset₁, ⟨hm, observed', hc⟩ | ⟨hm, hne, segs, last, observed', g, d', hc, hflat, hext⟩⟩ :=
    commit_adopted observed hs hset.self hlog.activeBase_pos hfree hv (hnum ▸ hbs) hfit hover
  · obtain ⟨hh', hd⟩ := calmStep_commit_eq hh hstep hc
    rw [hm, List.append_nil] at hmore
    rw [if_pos hm]
    refine ⟨⟨observed', by rw [hh', List.append_assoc]⟩,
      ⟨_, hd ▸ hset.trans hset₁, by rw [hdata' a, hmore]⟩, ?_, ?_⟩
    · rw [List.append_nil]
      exact h.batch
    · rw [runSize_append, ← hmore]
      have := h.fits
      omega
  · obtain ⟨hh', hd⟩ := calmStep_commit_eq hh hstep hc
    have hfits := h.fits
    rw [if_neg hm]
    rw [List.append_assoc active] at hh' hne hext
    refine ⟨segs, last, observed', [], d₁, _, g, hh', hne, hset.trans hset₁, hdata' a, hba, ?_,
      hd ▸ hext, ?_⟩
    · rw [runSize_append]
      omega
    · rw [activeBase_append]
      exact Batch.nil_of_le hext.written.batch.last

/-- A log that rolled stays so. -/
theorem Rolled.step {op : Op} {o : Outcome WalError Reply}
    (h : Rolled config d oldest sealed active f fill m) (hop : op.IsWrite)
    (hlog : LogOn config.segmentSize config.maxRecordSize d oldest sealed active f)
    (hv : config.Valid) (hstep : Machine.CalmStep config m op o m') (hok : ∃ r, o = .ret r) :
    Rolled config d oldest sealed active f fill m' := by
  obtain ⟨segs, last, observed, staged, d₁, f₁, g, hh, hne, hset, hdata, hbf, hfits, hext, hb⟩ := h
  cases op with
  | append p =>
    have hpos : 1 ≤ activeBase oldest (sealed ++ [active ++ fill] ++ segs) := by
      rw [activeBase_append]
      exact hext.written.header.pos
    obtain ⟨hh', hd, hp, hx⟩ := append_eq_ret hh hpos hstep hok
    exact ⟨segs, last, observed, staged ++ [p], d₁, f₁, g, hh', hne, hset, hdata, hbf, hfits,
      hd ▸ hext, Batch.append_iff.mpr ⟨hb, ⟨by simpa using hp, by simpa using hx⟩⟩⟩
  | commit =>
    by_cases hs : staged = []
    · subst hs
      obtain ⟨hh', hd⟩ := calmStep_commit_eq hh hstep (commit_nothing m.disk)
      exact ⟨segs, last, observed, [], d₁, f₁, g, hh', hne, hset, hdata, hbf, hfits, hd ▸ hext, hb⟩
    · set base := activeBase oldest (sealed ++ [active ++ fill]) with hbase
      have hact : activeBase oldest (sealed ++ [active ++ fill] ++ segs) = activeBase base segs :=
        activeBase_append _ _ _
      have hlt : activeBase oldest sealed < base := by
        have := List.length_pos_iff.mpr hne
        rw [hbase, activeBase_append]
        simp only [activeBase_cons, activeBase_nil]
        omega
      have hle := hext.written.header.le_u64Max
      -- the commit may roll on, to names above the active one, which are free
      have hfree : ∀ b ≤ u64Max, activeBase base segs < b → m.disk.file (filenameFor b) = none := by
        intro b hb hlt'
        have := le_activeBase base segs
        rw [hext.others _ fun c hc => ?_, hset.others _ (filenameFor_ne hb hlog.activeBase_le (by omega))]
        · exact hlog.free hb (by omega)
        · have hc := mem_basesFrom_le hc
          exact filenameFor_ne hb (by omega) (by omega)
      have hfile := hext.file
      have hwritten := hext.written
      rw [← hact] at hfile hwritten hfree
      obtain ⟨segs', last', observed', g', d', hc, -, hext', -⟩ :=
        commit_calm False observed hs hfile hwritten hfree hv hb False.elim
      obtain ⟨hh', hd⟩ := calmStep_commit_eq hh hstep hc
      rw [hact] at hext'
      have htrans := hext.trans hext'
      rw [List.append_assoc _ segs] at hh'
      refine ⟨segs ++ segs', last', observed', [], d₁, f₁, g', hh', hne, hset, hdata, hbf, hfits,
        hd ▸ htrans, ?_⟩
      rw [activeBase_append]
      exact Batch.nil_of_le htrans.written.batch.last

  | _ => exact hop.elim

/-- What a run of successful appends and commits leaves: the adopted segment still
active, with all that was committed, or left behind with what it kept. -/
theorem Filling.run {ops : List Op} {os : List (Outcome WalError Reply)}
    (hlog : LogOn config.segmentSize config.maxRecordSize d oldest sealed active f)
    (hv : config.Valid) (hops : ∀ op ∈ ops, op.IsWrite)
    (hrun : Runs (Machine.CalmStep config) m ops os m') (hok : ∀ o ∈ os, ∃ r, o = .ret r)
    (h : Filling config d oldest sealed active f fill staged m) :
    (∃ staged', Filling config d oldest sealed active f (fill ++ committedBy staged ops) staged' m') ∨
      Rolled config d oldest sealed active f (fill ++
        keptBy (config.segmentSize - (headerSize + runSize active + runSize fill)) staged ops) m' := by
  induction hrun generalizing fill staged with
  | nil m => exact Or.inl ⟨staged, by simpa [committedBy] using h⟩
  | @cons m m₁ m' op o ops os hstep hrun ih =>
    have hop := hops op List.mem_cons_self
    have hops' : ∀ op ∈ ops, op.IsWrite := fun op hm => hops op (List.mem_cons_of_mem _ hm)
    have ho := hok o List.mem_cons_self
    have hok' : ∀ o ∈ os, ∃ r, o = .ret r := fun o hm => hok o (List.mem_cons_of_mem _ hm)
    cases op with
    | append p => exact ih hops' hok' (h.append hlog.activeBase_pos hstep ho)
    | commit =>
      have hc := h.commit hlog hv hstep
      rw [committedBy, keptBy]
      split_ifs at hc ⊢ with hover
      · have := ih hops' hok' hc
        rw [List.append_assoc, List.append_assoc, runSize_append, ← Nat.add_assoc,
          ← Nat.sub_sub _ _ (runSize staged)] at this
        exact this
      · refine Or.inr (hrun.invariant Op.IsWrite (fun o => ∃ r, o = .ret r) ?_ hops' hok' hc)
        exact fun m op o m' h hop ho hstep => h.step hop hlog hv hstep ho
    | _ => exact hop.elim

end OpenWal
