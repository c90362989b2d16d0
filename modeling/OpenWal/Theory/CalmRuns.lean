import OpenWal.Library.Simulation
import OpenWal.Theory.Calls
import OpenWal.Model.System

namespace OpenWal
open ByteSeq Posix CrashProg Simulation

namespace Machine

section

variable [Crc32c]

section

variable {config : WalConfig} {m : Machine} {wal : Wal} {fates : List Fate}

theorem exec_openLog (config : WalConfig) (m : Machine) (seed : ℕ) (fates : List Fate) :
    exec config m (.openLog seed) fates = some (execOpen config m seed fates) := rfl

/-- Without a handle there is nothing to call but `open`. -/
theorem exec_none {op : Op} (hh : m.handle = none) (hop : ∀ seed, op ≠ .openLog seed) :
    exec config m op fates = none := by
  cases m
  cases hh
  cases op with
  | openLog seed => exact absurd rfl (hop seed)
  | _ => rfl

theorem handle_of_exec {op : Op} {r : Outcome WalError Reply × Machine}
    (hop : ∀ seed, op ≠ .openLog seed) (he : exec config m op fates = some r) :
    ∃ wal, m.handle = some wal := by
  cases hh : m.handle with
  | some wal => exact ⟨wal, rfl⟩
  | none =>
    rw [exec_none hh hop] at he
    simp at he

theorem exec_append (hh : m.handle = some wal) (payload : Bytes) :
    exec config m (.append payload) fates =
      some (execOn m wal fates (Reply.appended <$> append payload)) := by
  cases m
  cases hh
  rfl

theorem exec_commit (hh : m.handle = some wal) :
    exec config m .commit fates = some (execOn m wal fates (Reply.committed <$> commit)) := by
  cases m
  cases hh
  rfl

theorem exec_checkpoint (hh : m.handle = some wal) (upTo : ℕ) :
    exec config m (.checkpoint upTo) fates =
      some (execOn m wal fates ((fun _ => Reply.checkpointed) <$> checkpoint upTo)) := by
  cases m
  cases hh
  rfl

theorem exec_replay (hh : m.handle = some wal) (start : ℕ) :
    exec config m (.replay start) fates = some (replayed m wal start, m) := by
  cases m
  cases hh
  rfl

theorem exec_close (hh : m.handle = some wal) :
    exec config m .close fates = some (.ret .closed, die m) := by
  cases m
  cases hh
  rfl

end

def CalmStep (config : WalConfig) (m : Machine) (op : Op) (o : Outcome WalError Reply)
    (m' : Machine) : Prop := exec config m op [] = some (o, m')

theorem runCalm_eq_some {config : WalConfig} {m m' : Machine} {ops : List Op}
    {os : List (Outcome WalError Reply)} :
    runCalm config m ops = some (os, m') ↔ Runs (CalmStep config) m ops os m' := by
  induction ops generalizing m os with
  | nil =>
    simp only [runCalm, Option.some.injEq, Prod.mk.injEq]
    constructor
    · rintro ⟨rfl, rfl⟩
      exact .nil m
    · rintro ⟨⟩
      exact ⟨rfl, rfl⟩
  | cons op ops ih =>
    constructor
    · intro h
      rw [runCalm] at h
      split at h
      · simp at h
      · rename_i o m₁ hstep
        split at h
        · simp at h
        · rename_i os' m₂ hrun
          simp only [Option.some.injEq, Prod.mk.injEq] at h
          obtain ⟨rfl, rfl⟩ := h
          exact .cons hstep (ih.mp hrun)
    · rintro (_ | ⟨hstep, hrun⟩)
      rw [runCalm, (hstep : exec config m op [] = _)]
      simp only [ih.mpr hrun]

theorem runCalm_of_fst (config : WalConfig) (m : Machine) (ops : List Op)
    (os : List (Outcome WalError Reply)) (h : (m.runCalm config ops).map Prod.fst = some os) :
    ∃ m', m.runCalm config ops = some (os, m') := by
  obtain ⟨⟨os', m'⟩, hr, rfl⟩ := Option.map_eq_some_iff.mp h
  exact ⟨m', hr⟩

theorem runCalm_append {config : WalConfig} {m m₁ : Machine} {ops : List Op}
    {os : List (Outcome WalError Reply)} (h : m.runCalm config ops = some (os, m₁)) (ops' : List Op) :
    m.runCalm config (ops ++ ops') =
      (m₁.runCalm config ops').map fun r => (os ++ r.1, r.2) := by
  rw [runCalm_eq_some] at h
  induction h with
  | nil m =>
    rcases hr : m.runCalm config ops' with _ | ⟨os', m'⟩ <;> simp [hr]
  | cons hstep _ ih =>
    rw [List.cons_append, runCalm, (hstep : exec config _ _ [] = _)]
    simp only [ih]
    rcases hr : runCalm config _ ops' with _ | ⟨os', m'⟩ <;> simp

/-- What the machine a run ends in shows. -/
theorem eq_of_runCalm {β : Type} {config : WalConfig} {m m₁ : Machine} {ops : List Op}
    {os : List (Outcome WalError Reply)} (h : m.runCalm config ops = some (os, m₁)) (show' : Machine → β)
    {b : β} (hb : (m.runCalm config ops).map (fun r => show' r.2) = some b) : show' m₁ = b := by
  rw [h] at hb
  simpa using hb

/-- The second part of a run whose answers are known. -/
theorem runCalm_of_append {config : WalConfig} {m m₁ : Machine} {ops : List Op}
    {os : List (Outcome WalError Reply)} (h : m.runCalm config ops = some (os, m₁))
    (ops' : List Op) (os' : List (Outcome WalError Reply))
    (h' : (m.runCalm config (ops ++ ops')).map Prod.fst = some (os ++ os')) :
    ∃ m', m₁.runCalm config ops' = some (os', m') := by
  rw [runCalm_append h, Option.map_map] at h'
  obtain ⟨⟨os'', m'⟩, hr, ho⟩ := Option.map_eq_some_iff.mp h'
  have ho' : os'' = os' := List.append_cancel_left ho
  exact ⟨m', by rw [hr, ho']⟩

end

variable {m : Machine} {wal wal' : Wal} {w : World} {fates : List Fate} {prog : Prog Sys WalError Reply}

theorem execOn_of_ret {r : Reply} (h : prog ⟨wal, ⟨m.disk, fates⟩⟩ = (.ret r, ⟨wal', w⟩)) :
    execOn m wal fates prog = (.ret r, ⟨w.disk, some wal',
      m.reported ++ (wal'.observed ++ wal'.durableLsn :: reportedBy (.ret r))⟩) := by
  simp only [execOn, h]
  rfl

theorem execOn_of_err {e : WalError} (h : prog ⟨wal, ⟨m.disk, fates⟩⟩ = (.err e, ⟨wal', w⟩)) :
    execOn m wal fates prog = (.err e, ⟨w.disk, some wal',
      m.reported ++ (wal'.observed ++ [wal'.durableLsn])⟩) := by
  simp only [execOn, h]
  rfl

section

variable [Crc32c] {config : WalConfig}

theorem calmStep_open {seed : ℕ} {rep : RecoveryReport}
    (h : openSeeded config seed ⟨m.disk, []⟩ = (.ret (wal, rep), w)) :
    CalmStep config m (.openLog seed) (.ret (.opened rep))
      ⟨w.disk, some wal, m.reported ++ [rep.durableLsn]⟩ := by
  rw [CalmStep, exec_openLog, execOpen, h]
  rfl

theorem calmStep_open_eq_ret {seed : ℕ} {rep : RecoveryReport} {m' : Machine}
    (h : CalmStep config m (.openLog seed) (.ret (.opened rep)) m') :
    ∃ wal w, openSeeded config seed ⟨m.disk, []⟩ = (.ret (wal, rep), w) ∧ m'.handle = some wal ∧
      m'.disk = w.disk := by
  rw [CalmStep, exec_openLog, execOpen] at h
  rcases hr : openSeeded config seed ⟨m.disk, []⟩ with ⟨o, w⟩
  rw [hr] at h
  cases o with
  | ret r =>
    simp only [Option.some.injEq, Prod.mk.injEq, Outcome.ret.injEq, Reply.opened.injEq] at h
    obtain ⟨rfl, rfl⟩ := h
    exact ⟨r.1, w, rfl, rfl, rfl⟩
  | err e => simp at h
  | crashed => simp at h
  | diverged => simp at h

theorem calmStep_append {p : Bytes} {lsn : ℕ} (hh : m.handle = some wal)
    (h : append p ⟨wal, ⟨m.disk, []⟩⟩ = (.ret lsn, ⟨wal', w⟩)) :
    CalmStep config m (.append p) (.ret (.appended lsn))
      ⟨w.disk, some wal', m.reported ++ (wal'.observed ++ [wal'.durableLsn])⟩ := by
  rw [CalmStep, exec_append hh, execOn_of_ret (Prog.map_of_ret h)]
  rfl

theorem calmStep_append_err {p : Bytes} {e : WalError} (hh : m.handle = some wal)
    (h : append p ⟨wal, ⟨m.disk, []⟩⟩ = (.err e, ⟨wal', w⟩)) :
    CalmStep config m (.append p) (.err e)
      ⟨w.disk, some wal', m.reported ++ (wal'.observed ++ [wal'.durableLsn])⟩ := by
  rw [CalmStep, exec_append hh, execOn_of_err (Prog.map_of_err h)]

theorem calmStep_commit {durable : ℕ} (hh : m.handle = some wal)
    (h : commit ⟨wal, ⟨m.disk, []⟩⟩ = (.ret durable, ⟨wal', w⟩)) :
    CalmStep config m .commit (.ret (.committed durable))
      ⟨w.disk, some wal', m.reported ++ (wal'.observed ++ [wal'.durableLsn, durable])⟩ := by
  rw [CalmStep, exec_commit hh, execOn_of_ret (Prog.map_of_ret h)]
  rfl

theorem calmStep_checkpoint {upTo : ℕ} (hh : m.handle = some wal)
    (h : checkpoint upTo ⟨wal, ⟨m.disk, []⟩⟩ = (.ret (), ⟨wal', w⟩)) :
    CalmStep config m (.checkpoint upTo) (.ret .checkpointed)
      ⟨w.disk, some wal', m.reported ++ (wal'.observed ++ [wal'.durableLsn])⟩ := by
  rw [CalmStep, exec_checkpoint hh, execOn_of_ret (Prog.map_of_ret h)]
  rfl

theorem calmStep_replay (config : WalConfig) (start : ℕ) (hh : m.handle = some wal) :
    CalmStep config m (.replay start) (replayed m wal start) m :=
  exec_replay hh start

theorem calmStep_replay_eq {start : ℕ} {o : Outcome WalError Reply} {m' : Machine}
    (hh : m.handle = some wal) (h : CalmStep config m (.replay start) o m') :
    o = replayed m wal start ∧ m' = m := by
  have := h.symm.trans (calmStep_replay config start hh)
  simpa using this

theorem calmStep_close_eq {o : Outcome WalError Reply} {m' : Machine}
    (h : CalmStep config m .close o m') : m' = m.die := by
  rw [CalmStep] at h
  obtain ⟨wal, hh⟩ := handle_of_exec (by simp) h
  rw [exec_close hh, Option.some.injEq, Prod.mk.injEq] at h
  exact h.2.symm

theorem calmStep_close (hh : m.handle = some wal) :
    CalmStep config m .close (.ret .closed) m.die :=
  exec_close hh

end

end Machine

end OpenWal
