import OpenWal.Spec.LogModel
import OpenWal.Theory.CalmRuns

namespace OpenWal
open ByteSeq Posix CrashProg Simulation

section

variable [Crc32c]

inductive Represents (config : WalConfig) (m : Machine) : LogModel → Prop
  | absent : m.handle = none → m.disk.locked = false → basesOf m.disk = [] →
      Represents config m .absent
  | closed {oldest : ℕ} {sealed : List (List Bytes)} {active : List Bytes} {f : File} :
      m.handle = none → m.disk.locked = false →
      StoredLog config False m.disk oldest sealed active f →
      Represents config m (.closed ⟨oldest, sealed.flatten ++ active⟩)
  | opened {oldest : ℕ} {sealed : List (List Bytes)} {active staged : List Bytes}
      {observed : List ℕ} {f : File} :
      m.handle = some (handleOn config oldest sealed active observed staged) →
      m.disk.locked = true →
      StoredLog config False m.disk oldest sealed active f →
      Batch config.maxRecordSize (activeBase oldest sealed + active.length) staged →
      Represents config m (.opened ⟨oldest, sealed.flatten ++ active⟩ staged)

variable {config : WalConfig} {m : Machine} {oldest : ℕ} {sealed : List (List Bytes)}
  {active staged : List Bytes} {observed : List ℕ} {f : File}

omit [Crc32c] in
theorem logContent_last (oldest : ℕ) (sealed : List (List Bytes)) (active : List Bytes) :
    (LogContent.mk oldest (sealed.flatten ++ active)).last =
      activeBase oldest sealed + active.length - 1 := by
  simp only [LogContent.last, activeBase, List.length_append, Nat.add_assoc]

/-- The call is answered as the model allows, and leaves a state of it. -/
def Answered (config : WalConfig) (m : Machine) (s : LogModel) (op : Op) (isOpen : Bool) : Prop :=
  ∃ o m' s', Machine.CalmStep config m op o m' ∧ LogModel.Step config s op o s' ∧
    Represents config m' s' ∧ s'.isOpen = isOpen

theorem answered_create (hv : config.Valid) {seed : ℕ} (hseed : (Op.openLog seed).Legal)
    (hl : m.disk.locked = false) (hb : basesOf m.disk = []) :
    Answered config m .absent (.openLog seed) true := by
  obtain ⟨created, d', hopen, hset⟩ := openSeeded_of_none hv hseed.1 hseed.2 hl hb
  have hlog : StoredLog config False d' seed [] [] _ :=
    storedLog_fresh (d := acquired m.disk) hseed.1 hseed.2 hv hb hset
  exact ⟨_, _, .opened ⟨seed, []⟩ [], Machine.calmStep_open hopen, .create,
    .opened rfl hset.locked hlog (Batch.nil_of_le hlog.next_le), rfl⟩

theorem answered_reopen (hv : config.Valid) {seed : ℕ} (hseed : (Op.openLog seed).Legal)
    (hl : m.disk.locked = false) (h : StoredLog config False m.disk oldest sealed active f) :
    Answered config m (.closed ⟨oldest, sealed.flatten ++ active⟩) (.openLog seed) true := by
  obtain ⟨d', hopen, hset⟩ := openSeeded_of_logOn hv hseed.1 hl h.logOn (.clean h.written.cleanAt)
  have hlog : StoredLog config False d' oldest sealed active f := h.acquired.setActive hset h.written
  refine ⟨_, _, .opened ⟨oldest, sealed.flatten ++ active⟩ [], Machine.calmStep_open hopen, ?_,
    .opened rfl hset.locked hlog (Batch.nil_of_le hlog.next_le), rfl⟩
  rw [reportOn, ← logContent_last]
  exact .reopen

theorem answered_append (p : Bytes)
    (hh : m.handle = some (handleOn config oldest sealed active observed staged))
    (hl : m.disk.locked = true) (h : StoredLog config False m.disk oldest sealed active f)
    (hb : Batch config.maxRecordSize (activeBase oldest sealed + active.length) staged) :
    Answered config m (.opened ⟨oldest, sealed.flatten ++ active⟩ staged) (.append p) true := by
  have hpos := h.activeBase_pos
  have hlast := hb.last
  by_cases hp : config.maxRecordSize < p.length
  · exact ⟨_, _, _, Machine.calmStep_append_err hh (append_tooLarge hp), .tooLarge hp,
      .opened rfl hl h hb, rfl⟩
  have hp := Nat.not_lt.mp hp
  by_cases hx : u64Max < activeBase oldest sealed + active.length + staged.length
  · refine ⟨_, _, _, Machine.calmStep_append_err hh (append_exhausted hp hx), .exhausted hp ?_,
      .opened rfl hl h hb, rfl⟩
    rw [logContent_last]
    omega
  have hx := Nat.not_lt.mp hx
  have hb' : Batch config.maxRecordSize (activeBase oldest sealed + active.length) (staged ++ [p]) :=
    Batch.append_iff.mpr ⟨hb, ⟨by simpa using hp, by simpa using hx⟩⟩
  refine ⟨_, _, .opened ⟨oldest, sealed.flatten ++ active⟩ (staged ++ [p]),
    Machine.calmStep_append hh (append_staged hp hpos hx), ?_, .opened rfl hl h hb', rfl⟩
  have hnum : activeBase oldest sealed + active.length + staged.length =
      (LogContent.mk oldest (sealed.flatten ++ active)).last + staged.length + 1 := by
    rw [logContent_last]
    omega
  rw [hnum]
  refine .stage hp ?_
  rw [logContent_last]
  omega

theorem answered_commit (hv : config.Valid)
    (hh : m.handle = some (handleOn config oldest sealed active observed staged))
    (hl : m.disk.locked = true) (h : StoredLog config False m.disk oldest sealed active f)
    (hb : Batch config.maxRecordSize (activeBase oldest sealed + active.length) staged) :
    Answered config m (.opened ⟨oldest, sealed.flatten ++ active⟩ staged) .commit true := by
  by_cases hs : staged = []
  · subst hs
    refine ⟨_, _, .opened ⟨oldest, sealed.flatten ++ active ++ []⟩ [],
      Machine.calmStep_commit hh (commit_nothing m.disk), ?_, ?_, rfl⟩
    · rw [← logContent_last]
      exact .commit
    · rw [List.append_nil]
      exact .opened rfl hl h hb
  · obtain ⟨segs, active', observed', f', d', hc, hflat, hext, -⟩ :=
      commit_calm False observed hs h.file h.written (fun _ => h.logOn.free) hv hb False.elim
    have hlog := h.extend hext
    have hrecords : sealed.flatten ++ active ++ staged = (sealed ++ segs).flatten ++ active' := by
      rw [List.append_assoc, ← hflat, List.flatten_append, List.append_assoc]
    refine ⟨_, _, .opened ⟨oldest, sealed.flatten ++ active ++ staged⟩ [],
      Machine.calmStep_commit hh hc, ?_, ?_, rfl⟩
    · rw [← logContent_last]
      exact .commit
    · rw [hrecords]
      exact .opened rfl (hext.locked.trans hl) hlog (Batch.nil_of_le hlog.next_le)

theorem answered_checkpoint (upTo : ℕ)
    (hh : m.handle = some (handleOn config oldest sealed active observed staged))
    (hl : m.disk.locked = true) (h : StoredLog config False m.disk oldest sealed active f)
    (hb : Batch config.maxRecordSize (activeBase oldest sealed + active.length) staged) :
    Answered config m (.opened ⟨oldest, sealed.flatten ++ active⟩ staged) (.checkpoint upTo) true := by
  obtain ⟨xs, ys, d', rfl, hx, hc, hlog, hl'⟩ :=
    checkpoint_calm observed staged upTo h
  have hrecords : ((xs ++ ys).flatten ++ active).drop xs.flatten.length = ys.flatten ++ active := by
    rw [List.flatten_append, List.append_assoc, List.drop_left]
  refine ⟨_, _, _, Machine.calmStep_checkpoint hh hc, .checkpoint xs.flatten.length ?_ ?_, ?_, rfl⟩
  · simp only [List.flatten_append, List.length_append]
    omega
  · intro l hle hlt
    change oldest ≤ l at hle
    change l < oldest + xs.flatten.length at hlt
    rcases hx with rfl | hx
    · simp only [List.flatten_nil, List.length_nil] at hlt
      omega
    · simp only [activeBase] at hx
      omega
  · simp only [hrecords]
    rw [activeBase_append] at hb
    exact .opened rfl (hl'.trans hl) hlog hb

theorem answered_replay (start : ℕ)
    (hh : m.handle = some (handleOn config oldest sealed active observed staged))
    (hl : m.disk.locked = true) (h : StoredLog config False m.disk oldest sealed active f)
    (hb : Batch config.maxRecordSize (activeBase oldest sealed + active.length) staged) :
    Answered config m (.opened ⟨oldest, sealed.flatten ++ active⟩ staged) (.replay start) true := by
  have hrep : Represents config m (.opened ⟨oldest, sealed.flatten ++ active⟩ staged) :=
    .opened hh hl h hb
  by_cases hstart : start = 0 ∨ oldest ≤ start
  · obtain ⟨r, hr, hdrain⟩ :=
      drain_readerFrom observed staged h.logOn hstart
    refine ⟨_, _, _, Machine.calmStep_replay config start hh, ?_, hrep, rfl⟩
    rw [Machine.replayed, hr]
    simp only [hdrain, ← numbered_filter]
    exact .replay hstart
  · obtain ⟨h0, hlt⟩ := not_or.mp hstart
    have hlt := Nat.not_le.mp hlt
    refine ⟨_, _, _, Machine.calmStep_replay config start hh, ?_, hrep, rfl⟩
    rw [Machine.replayed, readerFrom_below (Nat.pos_of_ne_zero h0) hlt]
    exact .below (Nat.pos_of_ne_zero h0) hlt

theorem answered_close
    (hh : m.handle = some (handleOn config oldest sealed active observed staged))
    (h : StoredLog config False m.disk oldest sealed active f) :
    Answered config m (.opened ⟨oldest, sealed.flatten ++ active⟩ staged) .close false :=
  ⟨_, _, _, Machine.calmStep_close hh, .close, .closed rfl rfl
    ⟨h.bases, h.chain.congr fun _ _ _ _ => rfl, h.file, h.written⟩, rfl⟩

/-- A call made in turn is answered, and what comes after it is in turn again. -/
theorem answered_of_inTurn (hv : config.Valid) {s : LogModel} {op : Op} {ops : List Op}
    (h : Represents config m s) (ht : InTurn s.isOpen (op :: ops)) :
    ∃ isOpen, Answered config m s op isOpen ∧ InTurn isOpen ops := by
  cases h with
  | absent hh hl hb =>
    cases op with
    | openLog seed => exact ⟨true, answered_create hv ht.1 hl hb, ht.2⟩
    | _ => exact ht.elim
  | closed hh hl h =>
    cases op with
    | openLog seed => exact ⟨true, answered_reopen hv ht.1 hl h, ht.2⟩
    | _ => exact ht.elim
  | opened hh hl h hb =>
    cases op with
    | openLog seed => exact ht.elim
    | append p => exact ⟨true, answered_append p hh hl h hb, ht.2⟩
    | commit => exact ⟨true, answered_commit hv hh hl h hb, ht.2⟩
    | checkpoint upTo => exact ⟨true, answered_checkpoint upTo hh hl h hb, ht.2⟩
    | replay start => exact ⟨true, answered_replay start hh hl h hb, ht.2⟩
    | close => exact ⟨false, answered_close hh h, ht⟩

/-- Every sequence of calls, the handle dropped and the log opened again any number
of times, is answered as the model answers it. -/
theorem runCalm_refines_logModel (hv : config.Valid) (fallocates : Bool) (clock : ℕ → ℕ)
    {ops : List Op} (hops : InTurn false ops) :
    ∃ os m s, (Machine.fresh fallocates clock).runCalm config ops = some (os, m) ∧
      Runs (LogModel.Step config) .absent ops os s := by
  have hfresh : Represents config (Machine.fresh fallocates clock) .absent := .absent rfl rfl rfl
  obtain ⟨os, m, s, hc, ha, -⟩ := exists_runs_of_simulation
    (Represents config) (fun s ops => InTurn s.isOpen ops) (fun m s op ops hrel hok => by
      obtain ⟨isOpen, ⟨o, m', s', hstep, hspec, hrel', ho⟩, hok'⟩ := answered_of_inTurn hv hrel hok
      exact ⟨o, m', s', hstep, hspec, hrel', ho ▸ hok'⟩) hfresh hops
  exact ⟨os, m, s, Machine.runCalm_eq_some.mpr hc, ha⟩

end

/-- Two segments, a checkpoint that drops the first, and a crash with a staged record. -/
theorem runCalm_refines_logModel_two_segments : ∃ os m s,
    (Machine.fresh true fun _ => 0).runCalm tightConfig
      [.openLog 5, .append (zeros 20), .append (zeros 20), .commit, .checkpoint 5, .append [], .close,
        .openLog 1, .replay 0] = some (os, m) ∧
      Runs (LogModel.Step tightConfig) .absent
        [.openLog 5, .append (zeros 20), .append (zeros 20), .commit, .checkpoint 5, .append [], .close,
          .openLog 1, .replay 0] os s :=
  runCalm_refines_logModel (by decide) true (fun _ => 0) (by
    simp only [InTurn, Op.Legal]
    decide)

end OpenWal
