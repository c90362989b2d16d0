import OpenWal.Results.Refinement
import OpenWal.Theory.FailingRuns

namespace OpenWal
open ByteSeq Posix CrashProg

section

variable [Crc32c]

/-- A segment file of `ss` bytes: a header for `base`, the frames of `ps` from that number on,
and zeros. -/
def SegmentImage (ss base : ℕ) (ps : List Bytes) (data : Bytes) : Prop :=
  data.length = ss ∧ ∃ header, decodeHeader header = .ok base ∧ header.length = headerSize ∧
    data = header ++ (encodeRun base ps ++ zeros (ss - (headerSize + runSize ps)))

/-- The handle stands for the payloads `held`, segment by segment, and for those of `staged`
that are still to commit. -/
structure HandleInvariant (config : WalConfig) (d : Disk) (w : Wal) (held : List (List Bytes))
    (staged : List Bytes) : Prop where
  segments_ne : w.segments ≠ []
  increasing : w.segments.Pairwise (· < ·)
  oldest : w.segments.head? = some w.oldestLsn
  /-- There are no other segment files. -/
  files : basesOf d = w.segments
  images : List.Forall₂ (fun base ps => ∃ f, d.file (filenameFor base) = some f ∧
    SegmentImage config.segmentSize base ps f.data) w.segments held
  /-- Every segment but the last holds a record, and the next one goes on behind its last. -/
  dense : (w.segments.zip held).IsChain fun s t => s.2 ≠ [] ∧ s.1 + s.2.length = t.1
  active : ∃ base ps, w.segments.getLast? = some base ∧ held.getLast? = some ps ∧
    w.active = filenameFor base ∧ w.writeOffset = headerSize + (encodeRun base ps).length ∧
    w.durableLsn + 1 = base + ps.length
  aligned : w.writeOffset % 8 = 0
  room : headerSize ≤ w.writeOffset ∧ w.writeOffset ≤ config.segmentSize
  staging : w.staging = encodeRun (w.durableLsn + 1) staged
  last : w.lastLsn = w.durableLsn + staged.length
  idle : w.staging = [] → w.durableLsn = w.lastLsn

variable {config : WalConfig} {m m' m₀ : Machine} {s : LogModel} {op : Op}
  {o : Outcome WalError Reply} {d : Disk} {oldest base : ℕ} {sealed : List (List Bytes)}
  {active staged ps : List Bytes} {observed : List ℕ} {f : File} {safe : Prop}

theorem Written.image {ss mx : ℕ} {data : Bytes} (h : Written ss mx data base ps) :
    SegmentImage ss base ps data := by
  have hfits := h.fits
  have hlen := h.length
  refine ⟨hlen, data.take headerSize, h.header.2, List.length_take_of_le h.header.le_length, ?_⟩
  have htail : data.drop (headerSize + runSize ps) = zeros (ss - (headerSize + runSize ps)) := by
    rw [← h.rest.slice_eq, slice, List.take_of_length_le (by rw [List.length_drop, hlen])]
  have hmiddle := slice_eq_take_drop data headerSize (runSize ps)
  rw [h.frames] at hmiddle
  rw [hmiddle, ← htail, ← List.drop_drop, List.take_append_drop, List.take_append_drop]

omit [Crc32c] in
theorem forall₂_of_chainFrom {P : ℕ → List Bytes → Prop} (h : ChainFrom P base sealed)
    (hlast : P (activeBase base sealed) active) :
    List.Forall₂ P (basesFrom base sealed) (sealed ++ [active]) := by
  induction sealed generalizing base with
  | nil => exact .cons hlast .nil
  | cons ps rest ih =>
    rw [activeBase_cons] at hlast
    exact .cons h.1 (ih h.2 hlast)

omit [Crc32c] in
theorem isChain_basesFrom (hne : ∀ ps ∈ sealed, ps ≠ []) (base : ℕ) (active : List Bytes) :
    ((basesFrom base sealed).zip (sealed ++ [active])).IsChain
      fun s t => s.2 ≠ [] ∧ s.1 + s.2.length = t.1 := by
  induction sealed generalizing base with
  | nil => exact .singleton _
  | cons ps rest ih =>
    have htail := ih (fun qs hqs => hne qs (List.mem_cons_of_mem _ hqs)) (base + ps.length)
    have hhead := hne ps List.mem_cons_self
    cases rest with
    | nil => exact .cons_cons ⟨hhead, rfl⟩ htail
    | cons qs rest => exact .cons_cons ⟨hhead, rfl⟩ htail

/-- Every handle on a stored log stands for its records. -/
theorem StoredLog.handleInvariant (h : StoredLog config safe d oldest sealed active f)
    (observed : List ℕ) (staged : List Bytes) :
    HandleInvariant config d (handleOn config oldest sealed active observed staged)
      (sealed ++ [active]) staged := by
  have hpos := h.activeBase_pos
  have hmod := runSize_mod active
  obtain ⟨rest, hrest⟩ := basesFrom_eq_cons oldest sealed
  have hdurable : activeBase oldest sealed + active.length - 1 + 1 =
      activeBase oldest sealed + active.length := by omega
  refine ⟨?_, basesFrom_sorted oldest h.chain.ne_nil, ?_, h.bases, ?_, ?_, ?_, ?_, ?_, ?_, rfl, ?_⟩
  · simp [handleOn, hrest]
  · simp [handleOn, hrest]
  · have hlast : ∃ g, d.file (filenameFor (activeBase oldest sealed)) = some g ∧
        SegmentImage config.segmentSize (activeBase oldest sealed) active g.data :=
      ⟨f, h.file, h.written.image⟩
    refine forall₂_of_chainFrom (h.chain.imp ?_) hlast
    rintro b ps - - ⟨-, g, hg, hw, -⟩
    exact ⟨g, hg, hw.image⟩
  · exact isChain_basesFrom h.chain.ne_nil oldest active
  · refine ⟨_, active, basesFrom_getLast? oldest sealed, List.getLast?_concat .., rfl, ?_, hdurable⟩
    rw [encodeRun_length]
    rfl
  · simp only [handleOn, headerSize]
    omega
  · exact ⟨Nat.le_add_right _ _, h.written.fits⟩
  · simp only [handleOn, hdurable]
  · intro hnil
    have hstaged : staged = [] := encodeRun_eq_nil.mp hnil
    simp [handleOn, hstaged]

theorem Answered.represents {isOpen : Bool} (h : Answered config m s op isOpen)
    (hstep : Machine.CalmStep config m op o m') : ∃ s', Represents config m' s' := by
  obtain ⟨o₁, m₁, s', hstep₁, -, hs', -⟩ := h
  have heq := Option.some.inj (hstep.symm.trans hstep₁)
  exact ⟨s', (Prod.mk.inj heq).2 ▸ hs'⟩

/-- An `open` that fails before it has touched the directory leaves all as it was. -/
theorem represents_of_refused {seed : ℕ} {e : WalError} {w : World} (h : Represents config m s)
    (hopen : openSeeded config seed ⟨m.disk, []⟩ = (.err e, w)) (hw : w.disk = m.disk)
    (hstep : Machine.CalmStep config m (.openLog seed) o m') : ∃ s', Represents config m' s' := by
  rw [Machine.CalmStep, Machine.exec_openLog, Machine.execOpen, hopen] at hstep
  obtain ⟨-, rfl⟩ := Prod.mk.inj (Option.some.inj hstep)
  refine ⟨s, ?_⟩
  rw [hw]
  exact h

theorem openSeeded_of_invalid (hv : ¬ config.Valid) (seed : ℕ) (w : World) :
    openSeeded config seed w = (.err .invalidConfig, w) := by
  rw [openSeeded, if_pos (Nat.lt_of_not_ge hv)]
  rfl

abbrev UpheldBy (config : WalConfig) (m : Machine) : Prop :=
  Upholds config (fun _ => True) (fun _ _ => True) (fun _ _ _ _ _ => True) m.disk m.handle

theorem UpheldBy.of_handle {w : Wal} (h : UpheldBy config m) (hh : m.handle = some w)
    (hp : w.poisoned = false) : config.Valid ∧ m.disk.dirExists = true := by
  rw [UpheldBy, hh] at h
  cases h with
  | live hv _ hd => exact ⟨hv, hd⟩
  | stuck _ _ hpois => simp [hp] at hpois

/-- One call, by cases on what the machine stands for. -/
theorem Represents.step (h : Represents config m s) (hu : UpheldBy config m) (hlegal : op.Legal)
    (hstep : Machine.CalmStep config m op o m') : ∃ s', Represents config m' s' := by
  cases h with
  | absent hh hl hb =>
    cases op with
    | openLog seed =>
      by_cases hv : config.Valid
      · exact (answered_create hv hlegal hl hb).represents hstep
      · exact represents_of_refused (.absent hh hl hb) (openSeeded_of_invalid hv seed _) rfl hstep
    | _ => simp [Machine.CalmStep, Machine.exec_none hh] at hstep
  | closed hh hl h =>
    cases op with
    | openLog seed =>
      by_cases hv : config.Valid
      · exact (answered_reopen hv hlegal hl h).represents hstep
      · exact represents_of_refused (.closed hh hl h) (openSeeded_of_invalid hv seed _) rfl hstep
    | _ => simp [Machine.CalmStep, Machine.exec_none hh] at hstep
  | opened hh hl h hb =>
    obtain ⟨hv, hd⟩ := hu.of_handle hh rfl
    cases op with
    | openLog seed =>
      have hends : Ends (fun _ _ => False) (fun _ => OnDisk (· = m.disk)) (OnDisk (· = m.disk))
          (openSeeded config seed ⟨m.disk, []⟩) := openSeeded_of_locked hl hd seed _ rfl
      rcases hopen : openSeeded config seed ⟨m.disk, []⟩ with ⟨p, w⟩
      rw [hopen] at hends
      cases p with
      | err e => exact represents_of_refused (.opened hh hl h hb) hopen hends hstep
      | crashed =>
        -- the death of the process would be no more than a close
        rw [Machine.CalmStep, Machine.exec_openLog, Machine.execOpen, hopen] at hstep
        obtain ⟨-, rfl⟩ := Prod.mk.inj (Option.some.inj hstep)
        rw [show w.disk = m.disk from hends]
        exact (answered_close hh h).represents (Machine.calmStep_close hh)
      | ret r => exact hends.elim
      | diverged => exact hends.elim
    | append p => exact (answered_append p hh hl h hb).represents hstep
    | commit => exact (answered_commit hv hh hl h hb).represents hstep
    | checkpoint upTo => exact (answered_checkpoint upTo hh hl h hb).represents hstep
    | replay start => exact (answered_replay start hh hl h hb).represents hstep
    | close => exact (answered_close hh h).represents hstep

def NoFailure (_ : Machine) (_ : Op) (fates : List Fate) : Prop := fates = []

theorem represents_of_reaches (hh : m₀.handle = none) (hl : m₀.disk.locked = false)
    (hb : basesOf m₀.disk = []) (hm : Machine.Reaches config NoFailure m₀ m) :
    ∃ s, Represents config m s := by
  induction hm with
  | start => exact ⟨_, .absent hh hl hb⟩
  | step hm hlegal hok he ih =>
    obtain ⟨s, hs⟩ := ih
    have hu := (Upheld.trivially config NoFailure).run (hh ▸ .rest hl trivial) hm
    obtain rfl := hok
    exact hs.step hu hlegal he

/-- In every state that calls without a failure reach from a directory without segments, the
open handle stands for the records in its segment files and for those that are staged. -/
theorem handle_represents_records (hh : m₀.handle = none) (hl : m₀.disk.locked = false)
    (hb : basesOf m₀.disk = []) (hm : Machine.Reaches config NoFailure m₀ m) {w : Wal}
    (hw : m.handle = some w) : ∃ held staged, HandleInvariant config m.disk w held staged := by
  obtain ⟨s, hs⟩ := represents_of_reaches hh hl hb hm
  cases hs with
  | absent hnone => simp [hw] at hnone
  | closed hnone => simp [hw] at hnone
  | opened hsome _ h =>
    obtain rfl := Option.some.inj (hw.symm.trans hsome)
    exact ⟨_, _, h.handleInvariant _ _⟩

end

/-- Four records in two segments, after a reopen, and one that is staged. -/
theorem handle_represents_records_reopened : ∃ m w held staged,
    Machine.Reaches tightConfig NoFailure (Machine.fresh true fun _ => 0) m ∧
      m.handle = some w ∧ w.segments = [5, 8] ∧ HandleInvariant tightConfig m.disk w held staged := by
  have hrun : ((Machine.fresh true fun _ => 0).runFated tightConfig
      [(.openLog 5, []), (.append [7], []), (.append [8], []), (.append [9], []), (.append [10], []),
        (.commit, []), (.close, []), (.openLog 1, []), (.append [11], [])]).map
        (fun r => r.2.handle.map fun w => w.segments) = some (some [5, 8]) := by decide +kernel
  obtain ⟨⟨os, m⟩, hrun, hres⟩ := Option.map_eq_some_iff.mp hrun
  obtain ⟨w, hw, hsegs⟩ := Option.map_eq_some_iff.mp hres
  have hm : Machine.Reaches tightConfig NoFailure (Machine.fresh true fun _ => 0) m :=
    Machine.Reaches.start.runFated (by simp [Op.Legal, NoFailure]; decide) hrun
  obtain ⟨held, staged, h⟩ := handle_represents_records rfl rfl rfl hm hw
  exact ⟨m, w, held, staged, hm, hw, hsegs, h⟩

end OpenWal
