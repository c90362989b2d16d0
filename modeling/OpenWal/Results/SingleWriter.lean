import OpenWal.Model.Processes
import OpenWal.Theory.FailingRuns

namespace OpenWal
open ByteSeq Posix CrashProg

section

variable [Crc32c] {ι : Type} [DecidableEq ι] {config : WalConfig}
  {ok : Machine → Op → List Fate → Prop} {s s' s₀ : Processes ι} {m m' m₀ : Machine} {p q : ι} {op : Op}
  {fates : List Fate} {o : Outcome WalError Reply}

namespace Processes

/-- The processes, seen as one caller: the handle is that of the only process that has one. -/
structure SeenAs (s : Processes ι) (m : Machine) : Prop where
  disk : m.disk = s.disk
  reported : m.reported = s.reported
  holder : (m.handle = none ∧ ∀ p, s.handle p = none) ∨
    ∃ p w, m.handle = some w ∧ s.handle p = some w ∧ ∀ q, q ≠ p → s.handle q = none

omit [Crc32c] in
theorem after_handle_self (s : Processes ι) (p : ι) (o : Outcome WalError Reply) (m : Machine) :
    (s.after p o m).handle p = m.handle := Function.update_self ..

omit [Crc32c] in
theorem after_handle_of_ne (s : Processes ι) (o : Outcome WalError Reply) (m : Machine) (h : q ≠ p) :
    (s.after p o m).handle q = s.handle q := Function.update_of_ne h ..

omit [Crc32c] [DecidableEq ι] in
theorem lockAfter_of_waiting (hp : s.handle p = none) : s.lockAfter p .crashed m = s.disk.locked := by
  simp only [lockAfter, hp]

omit [Crc32c] [DecidableEq ι] in
theorem lockAfter_eq (h : o = .crashed → s.handle p = none → s.disk.locked = m.disk.locked) :
    s.lockAfter p o m = m.disk.locked := by
  unfold lockAfter
  split
  · rename_i hp
    exact h rfl hp
  · rfl

omit [Crc32c] in
/-- The call changed nothing but, where its process died, the lock that was not its own. -/
theorem after_eq_self (hd : { m.disk with locked := s.lockAfter p o m } = s.disk)
    (hh : m.handle = s.handle p) (hr : m.reported = s.reported) : s.after p o m = s := by
  rw [after, hd, hh, hr, Function.update_eq_self]

omit [Crc32c] in
/-- The one caller is `p`. -/
theorem seenAs_after (hlock : s.lockAfter p o m = m.disk.locked)
    (hothers : ∀ q, q ≠ p → s.handle q = none) :
    (s.after p o m).SeenAs m := by
  refine ⟨?_, rfl, ?_⟩
  · rw [after, hlock]
  · cases hm : m.handle with
    | none =>
      refine Or.inl ⟨rfl, fun q => ?_⟩
      by_cases hq : q = p
      · rw [hq, after_handle_self, hm]
      · rw [after_handle_of_ne s o m hq, hothers q hq]
    | some w =>
      refine Or.inr ⟨p, w, rfl, (after_handle_self s p o m).trans hm, fun q hq => ?_⟩
      rw [after_handle_of_ne s o m hq, hothers q hq]

/-- Every process may try to open the log. -/
theorem exec_openLog (config : WalConfig) (s : Processes ι) (p : ι) (seed : ℕ) (fates : List Fate) :
    ∃ o s', exec config s p (.openLog seed) fates = some (o, s') := ⟨_, _, rfl⟩

/-- A process that finds the log open gets no handle, and leaves everything as it was. -/
theorem exec_of_locked (hl : s.disk.locked = true) (hd : s.disk.dirExists = true) (hp : s.handle p = none)
    (he : exec config s p op fates = some (o, s')) : s' = s ∧ ∀ r, o ≠ .ret r := by
  have hm : (s.seenBy p).handle = none := hp
  cases op with
  | openLog seed =>
    rw [exec, Machine.exec_openLog, Machine.execOpen] at he
    have hends : Ends (fun _ _ => False) (fun _ => OnDisk (· = s.disk)) (OnDisk (· = s.disk))
        (openSeeded config seed ⟨(s.seenBy p).disk, fates⟩) := openSeeded_of_locked hl hd seed _ rfl
    rcases hopen : openSeeded config seed ⟨(s.seenBy p).disk, fates⟩ with ⟨r, w⟩
    rw [hopen] at he hends
    cases r with
    | ret r => exact hends.elim
    | err e =>
      have hdisk : w.disk = s.disk := hends
      obtain ⟨rfl, rfl⟩ := Prod.mk.inj (Option.some.inj he)
      exact ⟨after_eq_self hdisk rfl rfl, by simp⟩
    | crashed =>
      -- what it lets go of is not the lock of the log
      have hdisk : w.disk = s.disk := hends
      obtain ⟨rfl, rfl⟩ := Prod.mk.inj (Option.some.inj he)
      refine ⟨after_eq_self ?_ hp.symm rfl, by simp⟩
      rw [lockAfter_of_waiting hp, ← hdisk]
      rfl
    | diverged => exact hends.elim
  | _ =>
    rw [exec, Machine.exec_none hm (by simp)] at he
    cases he

/-- The death of a process that was opening the log leaves it unlocked. -/
theorem unlocked_of_crashed (hh : m.handle = none) (he : m.exec config op fates = some (.crashed, m')) :
    m'.disk.locked = false := by
  cases op with
  | openLog seed =>
    rw [Machine.exec_openLog, Machine.execOpen] at he
    rcases hopen : openSeeded config seed ⟨m.disk, fates⟩ with ⟨r, w⟩
    rw [hopen] at he
    cases r with
    | crashed =>
      obtain ⟨-, rfl⟩ := Prod.mk.inj (Option.some.inj he)
      rfl
    | _ => simp at he
  | _ =>
    rw [Machine.exec_none hh (by simp)] at he
    cases he

/-- One call: the one caller makes it too, or it is refused. -/
theorem SeenAs.step (h : s.SeenAs m) (hm : Machine.Reaches config ok m₀ m)
    (hu : Upholds config (fun _ => True) (fun _ _ => True) (fun _ _ _ _ _ => True) m.disk m.handle)
    (hlegal : op.Legal) (hok : ok (s.seenBy p) op fates) (he : exec config s p op fates = some (o, s')) :
    ∃ m', Machine.Reaches config ok m₀ m' ∧ s'.SeenAs m' := by
  -- where the caller is the one who has the log open, or nobody has
  have hown : m.handle = s.handle p → (s.handle p = none → s.disk.locked = false) →
      (∀ q, q ≠ p → s.handle q = none) → ∃ m', Machine.Reaches config ok m₀ m' ∧ s'.SeenAs m' := by
    intro hh hfree hothers
    have hsame : s.seenBy p = m := by
      rw [seenBy, ← hh, ← h.disk, ← h.reported]
    rw [exec, hsame] at he
    rw [hsame] at hok
    rcases hrun : m.exec config op fates with _ | ⟨r, m'⟩
    · rw [hrun] at he
      cases he
    · rw [hrun] at he
      obtain ⟨rfl, rfl⟩ := Prod.mk.inj (Option.some.inj he)
      refine ⟨m', .step hm hlegal hok hrun, seenAs_after (lockAfter_eq ?_) hothers⟩
      rintro rfl hnone
      rw [hfree hnone, unlocked_of_crashed (hh.trans hnone) hrun]
  rw [h.disk] at hu
  rcases h.holder with ⟨hnone, hall⟩ | ⟨q, w, hw, hq, hothers⟩
  · rw [hnone] at hu
    cases hu with
    | rest hl => exact hown (hnone.trans (hall p).symm) (fun _ => hl) fun q _ => hall q
  · by_cases hpq : p = q
    · subst hpq
      exact hown (hw.trans hq.symm) (fun hnone => absurd (hnone.symm.trans hq) (by simp)) hothers
    · obtain ⟨hl, hd⟩ : s.disk.locked = true ∧ s.disk.dirExists = true := by
        rw [hw] at hu
        cases hu with
        | live _ hl hd => exact ⟨hl, hd⟩
        | stuck hl hd => exact ⟨hl, hd⟩
      obtain ⟨rfl, -⟩ := exec_of_locked hl hd (hothers p hpq) he
      exact ⟨m, hm, h⟩

/-- Whatever the interleaving, one caller leads the directory where the processes do. -/
theorem Reaches.seenAs (hl : s₀.disk.locked = false) (h₀ : ∀ p, s₀.handle p = none)
    (hs : Reaches config ok s₀ s) :
    ∃ m, Machine.Reaches config ok ⟨s₀.disk, none, s₀.reported⟩ m ∧ s.SeenAs m ∧
      Upholds config (fun _ => True) (fun _ _ => True) (fun _ _ _ _ _ => True) m.disk m.handle := by
  have hupheld : ∀ {m : Machine}, Machine.Reaches config ok ⟨s₀.disk, none, s₀.reported⟩ m →
      Upholds config (fun _ => True) (fun _ _ => True) (fun _ _ _ _ _ => True) m.disk m.handle :=
    fun hm => (Upheld.trivially config ok).run (.rest hl trivial) hm
  -- by induction on the run: the one caller follows, or waits
  induction hs with
  | start => exact ⟨_, .start, ⟨rfl, rfl, Or.inl ⟨rfl, h₀⟩⟩, hupheld .start⟩
  | step _ hlegal hok he ih =>
    obtain ⟨m, hm, hsm, hu⟩ := ih
    obtain ⟨m', hm', hsm'⟩ := hsm.step hm hu hlegal hok he
    exact ⟨m', hm', hsm', hupheld hm'⟩

/-- The process that has the log open has it locked, and is the only one. -/
theorem Reaches.holder (hl : s₀.disk.locked = false) (h₀ : ∀ p, s₀.handle p = none)
    (hs : Reaches config ok s₀ s) (hq : s.handle q ≠ none) :
    s.disk.locked = true ∧ s.disk.dirExists = true ∧ ∀ p, p ≠ q → s.handle p = none := by
  obtain ⟨m, -, hsm, hu⟩ := hs.seenAs hl h₀
  rcases hsm.holder with ⟨-, hall⟩ | ⟨r, w, hw, hr, hothers⟩
  · exact absurd (hall q) hq
  · obtain rfl : q = r := by_contra fun h => hq (hothers q h)
    rw [hw, hsm.disk] at hu
    cases hu with
    | live _ hlock hd => exact ⟨hlock, hd, hothers⟩
    | stuck hlock hd => exact ⟨hlock, hd, hothers⟩

end Processes

end

/-- The first process opens the log in an empty directory. -/
theorem Processes.reaches_opened : ∃ s : Processes ℕ,
    Processes.Reaches tightConfig (fun _ _ _ => True) (Processes.onDisk (Disk.fresh true fun _ => 0)) s ∧
      s.handle 0 ≠ none := by
  have hopens : ((Processes.exec tightConfig (Processes.onDisk (Disk.fresh true fun _ => 0)) 0
      (.openLog 1) []).map fun r => (r.2.handle 0).isSome) = some true := by decide +kernel
  obtain ⟨⟨o, s⟩, he, hsome⟩ := Option.map_eq_some_iff.mp hopens
  have hlegal : (Op.openLog 1).Legal := ⟨by decide, by decide⟩
  exact ⟨s, .step .start hlegal trivial he, Option.isSome_iff_ne_none.mp hsome⟩

section

variable [Crc32c] {ι : Type} [DecidableEq ι] {config : WalConfig}
  {ok : Machine → Op → List Fate → Prop} {s s' s₀ : Processes ι} {p q : ι} {op : Op}
  {fates : List Fate} {o : Outcome WalError Reply}

/-- While a process has the log open, every call of another one, whichever of its system calls
fail, gets no handle and changes nothing; if none fails, it is told that the log is locked. -/
theorem contender_refused (hl : s₀.disk.locked = false) (h₀ : ∀ p, s₀.handle p = none)
    (hs : Processes.Reaches config ok s₀ s) (hq : s.handle q ≠ none) (hp : p ≠ q)
    (he : Processes.exec config s p op fates = some (o, s')) :
    s' = s ∧ (∀ r, o ≠ .ret r) ∧
      (config.Valid → op.Legal → fates = [] → o = .err .locked) := by
  obtain ⟨hlock, hd, hothers⟩ := hs.holder hl h₀ hq
  obtain ⟨hsame, hret⟩ := Processes.exec_of_locked hlock hd (hothers p hp) he
  refine ⟨hsame, hret, fun hv hlegal hfates => ?_⟩
  subst hfates
  cases op with
  | openLog seed =>
    obtain ⟨w, hlocked⟩ := lockDirectory_locked hlock
    have hopen : openSeeded config seed ⟨s.disk, []⟩ = (.err .locked, w) := by
      have h1 : 1 ≤ seed := hlegal.1
      rw [openSeeded, if_neg (Nat.not_lt.mpr hv), if_neg (by simp [isNone]; omega),
        Prog.bind_of_err hlocked]
    rw [Processes.exec, Machine.exec_openLog, Machine.execOpen, show (s.seenBy p).disk = s.disk from rfl,
      hopen] at he
    exact (Prod.mk.inj (Option.some.inj he)).1.symm
  | _ =>
    have hnone : (s.seenBy p).handle = none := hothers p hp
    rw [Processes.exec, Machine.exec_none hnone (by simp)] at he
    cases he

end

theorem contender_refused_opened : ∃ (s s' : Processes ℕ) (o : Outcome WalError Reply),
    s.handle 0 ≠ none ∧ Processes.exec tightConfig s 1 (.openLog 1) [] = some (o, s') ∧
      s' = s ∧ (∀ r, o ≠ .ret r) ∧
      (tightConfig.Valid → (Op.openLog 1).Legal → ([] : List Fate) = [] → o = .err .locked) := by
  obtain ⟨s, hs, hopen⟩ := Processes.reaches_opened
  obtain ⟨o, s', he⟩ := Processes.exec_openLog tightConfig s 1 1 []
  exact ⟨s, s', o, hopen, he, contender_refused rfl (fun _ => rfl) hs hopen (by decide) he⟩

end OpenWal
