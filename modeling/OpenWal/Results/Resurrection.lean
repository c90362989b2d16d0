import OpenWal.Theory.Adopted
import OpenWal.Theory.Reopen

namespace OpenWal
open ByteSeq Posix CrashProg Simulation

section

variable [Crc32c]

/-- Once the handle is dropped, the next `open`, whatever its seed, reports `durable`,
and a replay then yields `rs`. -/
def ReopensTo (config : WalConfig) (m : Machine) (durable : ℕ) (rs : List (ℕ × Bytes)) : Prop :=
  ∀ seed, (Op.openLog seed).Legal → ∃ rep m',
    m.runCalm config [.close, .openLog seed, .replay 0] =
      some ([.ret .closed, .ret (.opened rep), .ret (.records rs none)], m') ∧
    rep.durableLsn = durable

variable {config : WalConfig} {d : Disk} {oldest : ℕ} {sealed : List (List Bytes)}
  {active fill staged : List Bytes} {f : File} {m m₀ m₁ : Machine}

/-- The reopening, call by call. -/
theorem reopensTo_iff {durable : ℕ} {rs : List (ℕ × Bytes)} {wal : Wal} (hh : m.handle = some wal) :
    ReopensTo config m durable rs ↔ ∀ seed, (Op.openLog seed).Legal → ∃ rep wal' w r,
      openSeeded config seed ⟨m.die.disk, []⟩ = (.ret (wal', rep), w) ∧ rep.durableLsn = durable ∧
      readerFrom wal' w.disk 0 = .ok r ∧ r.drain w.disk = (rs, none) := by
  refine forall₂_congr fun seed _ => ?_
  simp only [Machine.runCalm_eq_some]
  constructor
  · rintro ⟨rep, m', hruns, hd⟩
    cases hruns with
    | cons hclose hruns =>
      obtain rfl := Machine.calmStep_close_eq hclose
      cases hruns with
      | cons hopen hruns =>
        obtain ⟨wal', w, ho, hw, hdisk⟩ := Machine.calmStep_open_eq_ret hopen
        cases hruns with
        | cons hreplay _ =>
          have hr := (Machine.calmStep_replay_eq hw hreplay).1
          rw [Machine.replayed, hdisk] at hr
          split at hr
          · simp at hr
          · rename_i r hreader
            simp only [Outcome.ret.injEq, Reply.records.injEq] at hr
            exact ⟨rep, wal', w, r, ho, hd, hreader, Prod.ext hr.1.symm hr.2.symm⟩
  · rintro ⟨rep, wal', w, r, ho, hd, hr, hdrain⟩
    have hreplay := Machine.calmStep_replay config 0
      (m := ⟨w.disk, some wal', m.die.reported ++ [rep.durableLsn]⟩) rfl
    rw [Machine.replayed, hr] at hreplay
    simp only [hdrain] at hreplay
    exact ⟨rep, _, .cons (Machine.calmStep_close hh) (.cons (Machine.calmStep_open ho)
      (.cons hreplay (.nil _))), hd⟩

/-- A replay from the start yields all records of the log. -/
theorem replayed_all (h : LogOn config.segmentSize config.maxRecordSize m.disk oldest sealed active f)
    (observed : List ℕ) (staged : List Bytes) :
    m.replayed (handleOn config oldest sealed active observed staged) 0 =
      .ret (.records (numbered oldest (sealed.flatten ++ active)) none) := by
  obtain ⟨r, hr, hdrain⟩ := drain_readerFrom observed staged h (Or.inl rfl)
  rw [Nat.zero_sub, List.drop_zero, Nat.max_eq_left (Nat.zero_le _)] at hdrain
  rw [Machine.replayed, hr]
  simp only [hdrain]

/-- After appends and commits that stay in the segment `open` adopted, the log reopens
to what was recovered and then committed exactly where the bytes left behind the new
end are inert. -/
theorem reopensTo_iff_inert {seed : ℕ} {rep : RecoveryReport} {rs : List (ℕ × Bytes)} {ops : List Op}
    {os : List (Outcome WalError Reply)} {wal wal' : Wal} (hseed : (Op.openLog seed).Legal)
    (hopen : m₀.runCalm config [.openLog seed, .replay 0] =
      some ([.ret (.opened rep), .ret (.records rs none)], m₁))
    (hops : ∀ op ∈ ops, op.IsWrite) (hrun : m₁.runCalm config ops = some (os, m))
    (hok : ∀ o ∈ os, ∃ r, o = .ret r) (hw : m₁.handle = some wal) (hw' : m.handle = some wal')
    (hsame : wal'.active = wal.active) (hf : m₁.disk.file wal.active = some f) :
    ReopensTo config m (rep.durableLsn + (committedBy [] ops).length)
        (rs ++ numbered (rep.durableLsn + 1) (committedBy [] ops)) ↔
      Inert config.segmentSize config.maxRecordSize f.data
        (wal.writeOffset + runSize (committedBy [] ops))
        (rep.durableLsn + 1 + (committedBy [] ops).length) := by
  rw [reopensTo_iff hw']
  rw [Machine.runCalm_eq_some] at hopen hrun
  cases hopen with
  | cons hopen hruns =>
  cases hruns with
  | cons hreplay hnil =>
  cases hnil
  obtain ⟨wal₁, w, -, hh, -⟩ := Machine.calmStep_open_eq_ret hopen
  obtain ⟨hrs, rfl⟩ := Machine.calmStep_replay_eq hh hreplay
  obtain rfl : wal₁ = wal := Option.some.inj (hh.symm.trans hw)
  obtain ⟨hv, oldest, sealed, active, ts, f₁, rfl, rfl, hlog⟩ := logOn_of_open hseed hopen hw
  obtain rfl : f₁ = f := Option.some.inj (hlog.file.symm.trans hf)
  set cs := committedBy [] ops with hcs
  have hpos := hlog.activeBase_pos
  -- the run stayed in the adopted segment: had it rolled, another one would be active
  rcases (filling_start hv hh hlog).run hlog hv hops hrun hok with ⟨staged, hfill⟩ | hrolled
  · rw [List.nil_append] at hfill
    obtain ⟨observed, hh'⟩ := hfill.handle
    obtain ⟨f', hset, hdata⟩ := hfill.file
    obtain ⟨hheader, hrun', hdrop⟩ :=
      run_of_overwrite hlog.holds (Batch.append_iff.mp hfill.batch).1 hfill.fits
    rw [← hdata] at hheader hrun' hdrop
    have hbases : basesOf m.die.disk = basesFrom oldest sealed :=
      (basesOf_setTo hlog.activeBase_le hlog.file hset).trans hlog.bases
    have hchain : SealedFrom config.segmentSize config.maxRecordSize m.die.disk oldest sealed :=
      hlog.chain.congr fun b _ hlt hb => hset.others _ (filenameFor_ne hb hlog.activeBase_le (by omega))
    have hoff : (handleOn config oldest sealed active [] []).writeOffset + runSize cs =
        headerSize + runSize (active ++ cs) := by
      simp only [handleOn, runSize_append, Nat.add_assoc]
    have hnum : (reportOn oldest sealed active ts).durableLsn + 1 + cs.length =
        activeBase oldest sealed + (active ++ cs).length := by
      simp only [reportOn, List.length_append]
      omega
    have hdurable : (reportOn oldest sealed active ts).durableLsn + cs.length =
        activeBase oldest sealed + (active ++ cs).length - 1 := by omega
    rw [hoff, hnum, ← inert_congr hdrop]
    constructor
    · intro h
      obtain ⟨rep, wal, w, -, hopen', hd, -⟩ := h seed hseed
      refine inert_of_openSeeded hseed.2 hopen' hbases hset.self hheader hrun' ?_
      rw [hd, hdurable]
    · intro hi seed' hseed'
      obtain ⟨ts', f'', d'', hopen', hlog'⟩ := openSeeded_of_inert hv hseed'.1 rfl hbases hchain
        hset.self hheader hrun' hi
      obtain ⟨r, hr, hdrain⟩ := drain_readerFrom [] [] hlog' (Or.inl rfl)
      have hrs₀ : rs = numbered oldest (sealed.flatten ++ active) := by
        rw [replayed_all hlog] at hrs
        simpa using hrs
      refine ⟨_, _, _, r, hopen', hdurable.symm, hr, ?_⟩
      rw [hdrain, hrs₀, Nat.zero_sub, List.drop_zero, Nat.max_eq_left (Nat.zero_le _),
        ← List.append_assoc, numbered_append]
      congr 3
      simp only [reportOn, List.length_append, activeBase] at hpos ⊢
      omega
  · exact absurd hsame (hrolled.active_ne hw')

end

/-- An empty segment whose first 24 bytes of records are zero and hide a record numbered 2. -/
def leftover : Machine :=
  .onDisk (.holding [(filenameFor 1, encodeHeader 1 0 ++ zeros 24 ++ encodeFrame 2 [] ++ zeros 24)])

/-- What is committed first ends where the hidden record starts. -/
theorem leftover_run : ∃ m₁ m wal wal' f,
    leftover.runCalm tightConfig [.openLog 1, .replay 0] =
      some ([.ret (.opened ⟨1, 0, .clean, 1⟩), .ret (.records [] none)], m₁) ∧
    m₁.runCalm tightConfig [.append [], .commit] =
      some ([.ret (.appended 1), .ret (.committed 1)], m) ∧
    (m.runCalm tightConfig [.close, .openLog 1, .replay 0]).map Prod.fst =
      some [.ret .closed, .ret (.opened ⟨1, 2, .clean, 1⟩), .ret (.records [(1, []), (2, [])] none)] ∧
    m₁.handle = some wal ∧ m.handle = some wal' ∧ wal'.active = wal.active ∧
    m₁.disk.file wal.active = some f := by
  obtain ⟨m₁, h₁⟩ := Machine.runCalm_of_fst tightConfig leftover [.openLog 1, .replay 0]
    [.ret (.opened ⟨1, 0, .clean, 1⟩), .ret (.records [] none)] (by decide +kernel)
  obtain ⟨m, h₂⟩ := Machine.runCalm_of_append h₁ [.append [], .commit]
    [.ret (.appended 1), .ret (.committed 1)] (by decide +kernel)
  have h₁₂ : leftover.runCalm tightConfig [.openLog 1, .replay 0, .append [], .commit] =
      some ([.ret (.opened ⟨1, 0, .clean, 1⟩), .ret (.records [] none), .ret (.appended 1),
        .ret (.committed 1)], m) := by
    have := Machine.runCalm_append h₁ [.append [], .commit]
    rwa [h₂] at this
  obtain ⟨m₃, h₃⟩ := Machine.runCalm_of_append h₁₂ [.close, .openLog 1, .replay 0]
    [.ret .closed, .ret (.opened ⟨1, 2, .clean, 1⟩), .ret (.records [(1, []), (2, [])] none)]
    (by decide +kernel)
  obtain ⟨wal, hw, ha⟩ := Option.map_eq_some_iff.mp (Machine.eq_of_runCalm h₁
    (fun m => m.handle.map Wal.active) (b := some (filenameFor 1)) (by decide +kernel))
  obtain ⟨wal', hw', ha'⟩ := Option.map_eq_some_iff.mp (Machine.eq_of_runCalm h₁₂
    (fun m => m.handle.map Wal.active) (b := some (filenameFor 1)) (by decide +kernel))
  have hf := Machine.eq_of_runCalm h₁ (fun m => (m.disk.file (filenameFor 1)).isSome) (b := true)
    (by decide +kernel)
  obtain ⟨f, hf⟩ := Option.isSome_iff_exists.mp hf
  exact ⟨m₁, m, wal, wal', f, h₁, h₂, by rw [h₃]; rfl, hw, hw', ha'.trans ha.symm, by rw [ha, hf]⟩

theorem reopensTo_iff_inert_leftover : ∃ (m₁ m : Machine) (wal : Wal) (f : File), m₁.handle = some wal ∧
    m₁.disk.file wal.active = some f ∧
    (ReopensTo tightConfig m 1 [(1, [])] ↔ Inert 136 45 f.data (wal.writeOffset + 24) 2) := by
  obtain ⟨m₁, m, wal, wal', f, h₁, h₂, -, hw, hw', hsame, hf⟩ := leftover_run
  exact ⟨m₁, m, wal, f, hw, hf, reopensTo_iff_inert ⟨by decide, by decide⟩ h₁ (by simp [Op.IsWrite]) h₂
    (by simp) hw hw' hsame hf⟩

/-- The hidden record comes back as record 2. -/
theorem leftover_resurrected : ∃ m₁ m wal wal',
    leftover.runCalm tightConfig [.openLog 1, .replay 0] =
      some ([.ret (.opened ⟨1, 0, .clean, 1⟩), .ret (.records [] none)], m₁) ∧
    m₁.runCalm tightConfig [.append [], .commit] =
      some ([.ret (.appended 1), .ret (.committed 1)], m) ∧
    m₁.handle = some wal ∧ m.handle = some wal' ∧ wal'.active = wal.active ∧
    ¬ ReopensTo tightConfig m 1 [(1, [])] := by
  obtain ⟨m₁, m, wal, wal', f, h₁, h₂, h₃, hw, hw', hsame, -⟩ := leftover_run
  refine ⟨m₁, m, wal, wal', h₁, h₂, hw, hw', hsame, fun h => ?_⟩
  obtain ⟨rep, m', hr, -⟩ := h 1 ⟨by decide, by decide⟩
  rw [hr] at h₃
  simp at h₃

end OpenWal
