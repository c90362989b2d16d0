import OpenWal.Results.DenseReader
import OpenWal.Theory.CheckedReading
import OpenWal.Theory.CheckedRecovery
import OpenWal.Theory.Recovered

namespace OpenWal
open ByteSeq Posix CrashProg

section

variable [Crc32c] {config : WalConfig} {oldest : ℕ} {sealed : List (List Bytes)}
  {active rest : List Bytes} {observed : List ℕ} {f : File} {d : Disk}

omit [Crc32c] in
theorem length_le_flatten {ss : List (List Bytes)} (h : ∀ ps ∈ ss, ps ≠ []) :
    ss.length ≤ ss.flatten.length := by
  induction ss with
  | nil => exact le_rfl
  | cons ps ss ih =>
    have hps := List.length_pos_of_ne_nil (h ps List.mem_cons_self)
    have hrest := ih fun qs hqs => h qs (List.mem_cons_of_mem _ hqs)
    rw [List.length_cons, List.flatten_cons, List.length_append]
    omega

/-- There are no more segments than record numbers. -/
theorem Carries.segments_few (h : Carries config d oldest sealed active f) :
    (basesFrom oldest sealed).length ≤ u64Max := by
  have hle := h.activeBase_le
  have hpos := h.oldest_pos
  have hflat := length_le_flatten h.ne_nil
  rw [activeBase] at hle
  rw [basesFrom_length]
  omega

theorem Carries.room (h : Carries config d oldest sealed active f) (hv : config.Valid) :
    headerSize + runSize active ≤ config.segmentSize :=
  h.run.le_segment ((Nat.le_add_right _ _).trans hv.room)

section Turns

variable {staging : Bytes} {last : ℕ}
  {J : List (List Bytes) → List Bytes → List ℕ → List Bytes → File → Disk → Prop}
  {X : List (List Bytes) → List Bytes → List ℕ → Disk → Prop}

theorem checkedCommitLoop_eq (h : CommitRule config oldest J X) (hv : config.Valid) {next fuel pos : ℕ}
    {s : Sys} (hs : AtTurn config oldest staging last J next fuel pos s) :
    Checked.commitLoop fuel pos s = Prog.mapErr .error (commitLoop fuel pos) s := by
  induction fuel generalizing pos s with
  | zero => rfl
  | succ fuel ih =>
    obtain ⟨done, sealed, active, observed, rest, rfl, hst, rfl, hfuel, hturn⟩ := hs
    obtain ⟨hwal, f, hc, -⟩ := id hturn
    have hstaging : s.wal.staging = staging := by rw [hwal]; rfl
    have hroom : ¬ s.wal.segmentSize < s.wal.writeOffset := by
      rw [hwal]
      exact Nat.not_lt.mpr (hc.toCarries.room hv)
    rw [Checked.commitLoop, Prog.bind_of_ret (Prog.state_run _), Prog.mapErr, commitLoop,
      Prog.bind_of_ret (Prog.state_run _)]
    by_cases hrest : rest = []
    · have hend : ¬ done.length < s.wal.staging.length := by
        rw [hstaging, hst, hrest]
        simp
      rw [if_neg hend, if_neg hend]
      rfl
    · have hlt : done.length < s.wal.staging.length := by
        have := runSize_eq_zero.not.mpr hrest
        rw [hstaging, hst, List.length_append, encodeRun_length]
        omega
      have hstep := commitStep_triple h hv hrest hfuel hst s hturn
      rw [if_pos hlt, if_pos hlt, if_neg hroom, Prog.bind_run, Prog.bind_run, Prog.andThen,
        Prog.andThen, Prog.mapErr]
      rcases hm : commitStep done.length s with ⟨o, t⟩
      rw [hm] at hstep
      cases o with
      | ret pos => exact ih hstep
      | err e => rfl
      | crashed => rfl
      | diverged => rfl

end Turns

theorem checkedCommit_eq {staged : List Bytes} (hv : config.Valid) (fates : List Fate)
    (hc : Committing config d oldest sealed active f staged) :
    Checked.commit ⟨handleOn config oldest sealed active observed staged, ⟨d, fates⟩⟩ =
      Prog.mapErr .error commit ⟨handleOn config oldest sealed active observed staged, ⟨d, fates⟩⟩ := by
  have hp : ¬ (handleOn config oldest sealed active observed staged).poisoned = true := by
    simp [handleOn]
  rw [Checked.commit, Prog.bind_of_ret (Prog.state_run _), Prog.mapErr, commit,
    Prog.bind_of_ret (Prog.state_run _), if_neg hp, if_neg hp]
  by_cases hs : staged = []
  · subst hs
    rfl
  have hne : (handleOn config oldest sealed active observed staged).staging ≠ [] :=
    encodeRun_eq_nil.not.mpr hs
  have hrule : CommitRule config oldest (fun _ _ _ _ _ _ => True) fun _ _ _ _ => True :=
    ⟨fun _ _ _ _ => trivial, fun _ _ _ => trivial, fun _ _ _ _ _ _ => trivial,
      fun _ _ _ _ _ _ _ => trivial⟩
  have hloop := checkedCommitLoop_eq hrule hv (AtTurn.start observed hs fates hc trivial)
  have hstaging : (handleOn config oldest sealed active observed staged).staging =
      encodeRun (activeBase oldest sealed + active.length) staged := rfl
  rw [if_neg hne, if_neg hne, hstaging, Prog.bind_run, Prog.bind_run, Prog.andThen, Prog.andThen, hloop,
    Prog.mapErr]
  rcases commitLoop _ 0 _ with ⟨o, t⟩
  cases o <;> rfl

variable {seed : ℕ}

/-- The log of the handle an `open` returns, whatever failed before. -/
theorem openSeeded_carries {w w' : World} {wal : Wal} {rep : RecoveryReport} (hseed : seed ≤ u64Max)
    (h : openSeeded config seed w = (.ret (wal, rep), w')) :
    config.Valid ∧ ∃ oldest sealed active f, wal = handleOn config oldest sealed active [] [] ∧
      Carries config w'.disk oldest sealed active f := by
  obtain ⟨hv, h1, d', hw, hopens⟩ := openSeeded_opens hseed (openSeeded_steady seed _ _ _ h)
  obtain ⟨oldest, sealed, active, ts, f, hwal, -, hlog, -⟩ := hopens.log hv h1 hseed
  rw [show w'.disk = d' from congrArg Env.disk hw]
  exact ⟨hv, oldest, sealed, active, f, hwal, hlog.carries⟩

/-- Recovery and replay end on any directory and keep to their bounds: the checked forms
run as the plain ones without a fault, however short the reads come back. -/
theorem recovery_and_replay_are_total [ShortReads] (hss : config.segmentSize ≤ 2 ^ 63 - 1)
    (hseed : seed ≤ u64Max) :
    Audits (Within config.segmentSize config.maxRecordSize) (Checked.openSeeded config seed)
        (openSeeded config seed) ∧
      (∀ w, (openSeeded config seed w).1 ≠ .diverged) ∧
      (∀ d, (∃ r w, openSeeded config seed ⟨d, []⟩ = (.ret r, w)) ∨
        ∃ e w, openSeeded config seed ⟨d, []⟩ = (.err e, w)) ∧
      (∀ w wal rep w', openSeeded config seed w = (.ret (wal, rep), w') → ∀ d start,
        Audits (Within config.segmentSize config.maxRecordSize) (Checked.replay wal d start)
            (replay wal d start) ∧
          ∀ w, (∃ rs, replay wal d start w = (.ret rs, w)) ∨ ∃ e, replay wal d start w = (.err e, w)) ∧
      ∀ m₀ m ok, m₀.handle = none → m₀.disk.locked = false → Machine.Reaches config ok m₀ m →
        ∀ wal, m.handle = some wal →
          (∀ upTo, (Checked.deletablePrefixLen wal.segments upTo : Checked.Guarded WalError ℕ) =
            pure (deletablePrefixLen wal.segments upTo)) ∧
          ∀ fates, Checked.commit ⟨wal, ⟨m.disk, fates⟩⟩ =
            Prog.mapErr .error commit ⟨wal, ⟨m.disk, fates⟩⟩ := by
  refine ⟨Checked.openSeeded_audits hss seed, ?_, fun d => openSeeded_total config d hseed, ?_, ?_⟩
  · intro w hdiv
    -- what `open` ends in has no case for a run that diverges
    have hends := openSeeded_unlocks config w.disk seed w rfl
    rcases hw : openSeeded config seed w with ⟨o, w'⟩
    rw [hw] at hends hdiv
    obtain rfl : o = .diverged := hdiv
    exact hends
  · intro w wal rep w' hopen d start
    obtain ⟨-, oldest, sealed, active, f, rfl, hc⟩ := openSeeded_carries hseed hopen
    have hne : basesFrom oldest sealed ≠ [] := by
      obtain ⟨bases, hb⟩ := basesFrom_eq_cons oldest sealed
      simp [hb]
    have hword : config.segmentSize ≤ u64Max := Checked.le_u64Max_of_small (by omega)
    refine ⟨Checked.replay_audits (w := handleOn config oldest sealed active [] [])
      config.maxRecordSize_lt hword hne hc.segments_few start, fun w => ?_⟩
    · unfold replay
      cases readerFrom (handleOn config oldest sealed active [] []) d start with
      | error e => exact Or.inr ⟨e, rfl⟩
      | ok r => exact Or.inl ⟨_, rfl⟩
  · intro m₀ m ok hh hl hm wal hw
    have hlegal := basesLegal_of_reaches hh hl hm wal hw
    have hu := (Upheld.trivially config ok).run (hh ▸ .rest hl trivial) hm
    refine ⟨fun upTo => ?_, fun fates => ?_⟩
    · rw [Checked.deletablePrefixLen, CheckedProg.require_eq, CheckedProg.pure_bind]
      exact fun b hb => (hlegal b (List.mem_of_mem_tail hb)).1
    · rw [hw] at hu
      -- a poisoned handle never comes to the arithmetic
      cases hu with
      | live hv _ _ hc _ _ => exact checkedCommit_eq hv fates hc
      | stuck _ _ hp _ _ =>
        rw [Checked.commit, Prog.bind_of_ret (Prog.state_run _), if_pos hp, Prog.mapErr,
          commit_poisoned hp, Prog.raise_run]

end

def hostileDisk : Disk := Disk.holding [(filenameFor 0, zeros 100), (filenameFor u64Max, [])]

/-- Reads that come back with a byte at a time. -/
theorem recovery_and_replay_are_total_hostile : ∃ es w, (∀ e ∈ es, Within 136 45 e) ∧
    @Checked.openSeeded _ ⟨fun _ _ => 1⟩ tightConfig 1 ⟨⟨hostileDisk, []⟩, []⟩ =
      (.err (.error .badSegmentHeader), ⟨w, es⟩) := by
  obtain ⟨haudits, -⟩ := @recovery_and_replay_are_total _ tightConfig 1 ⟨fun _ _ => 1⟩ (by decide)
    (by decide)
  have herr : refusalOf tightConfig 1 hostileDisk = some .badSegmentHeader := by decide +kernel
  obtain ⟨w, hopen⟩ := openSeeded_of_refusalOf herr
  obtain ⟨es, hes, hs⟩ := haudits.run hopen
  exact ⟨es, w, hes, hs⟩

end OpenWal
