import OpenWal.Theory.CalmRuns
import OpenWal.Theory.FailingCalls

namespace OpenWal
open ByteSeq Posix CrashProg

namespace Machine

variable {m m' : Machine} {wal : Wal} {fates : List Fate}

def after (m : Machine) (s : Sys) (ls : List ℕ) : Machine :=
  ⟨s.world.disk, some s.wal, m.reported ++ (s.wal.observed ++ s.wal.durableLsn :: ls)⟩

/-- How a method of the handle may end. -/
theorem execOn_ends {α : Type} {prog : Prog Sys WalError α} {reply : α → Reply}
    {Q : α → Sys → Prop} {E : WalError → Sys → Prop} {C : Sys → Prop}
    {o : Outcome WalError Reply} (h : Ends Q E C (prog ⟨wal, ⟨m.disk, fates⟩⟩))
    (he : execOn m wal fates (reply <$> prog) = (o, m')) :
    (∃ a s, o = .ret (reply a) ∧ Q a s ∧ m' = m.after s (reportedBy (.ret (reply a)))) ∨
      (∃ e s, o = .err e ∧ E e s ∧ m' = m.after s []) ∨
      ∃ s, o = .crashed ∧ C s ∧ m' = (m.after s []).die := by
  have hmap : Ends (fun r s => ∃ a, r = reply a ∧ Q a s) E C ((reply <$> prog) ⟨wal, ⟨m.disk, fates⟩⟩) :=
    Ends.map (h.imp (fun a s hs => ⟨a, rfl, hs⟩) (fun _ _ hs => hs) fun _ hs => hs)
  unfold execOn at he
  rcases hr : (reply <$> prog) ⟨wal, ⟨m.disk, fates⟩⟩ with ⟨p, s⟩
  rw [hr] at hmap he
  cases p with
  | ret r =>
    obtain ⟨a, rfl, ha⟩ := hmap
    obtain ⟨rfl, rfl⟩ := Prod.mk.inj he
    exact Or.inl ⟨a, s, rfl, ha, rfl⟩
  | err e =>
    obtain ⟨rfl, rfl⟩ := Prod.mk.inj he
    exact Or.inr (Or.inl ⟨e, s, rfl, hmap, rfl⟩)
  | crashed =>
    obtain ⟨rfl, rfl⟩ := Prod.mk.inj he
    exact Or.inr (Or.inr ⟨s, rfl, hmap, rfl⟩)
  | diverged => exact hmap.elim

section Opened

variable [Crc32c]

/-- What any `open` that returns leaves. -/
theorem opened {config : WalConfig} {seed : ℕ} {rep : RecoveryReport} (hseed : seed ≤ u64Max)
    (h : m.exec config (.openLog seed) fates = some (.ret (.opened rep), m')) :
    config.Valid ∧ m'.disk.locked = true ∧ m'.disk.dirExists = true ∧ ∃ oldest sealed active ts f,
      m'.handle = some (handleOn config oldest sealed active [] []) ∧
      rep = reportOn oldest sealed active ts ∧
      LogOn config.segmentSize config.maxRecordSize m'.disk oldest sealed active f ∧
      CleanAt config.segmentSize f.data (headerSize + runSize active) := by
  have hdir := openSeeded_dirExists config seed ⟨m.disk, fates⟩ trivial
  rw [exec_openLog, execOpen, Option.some.injEq] at h
  rcases hopen : openSeeded config seed ⟨m.disk, fates⟩ with ⟨p, w⟩
  rw [hopen] at h hdir
  cases p with
  | ret r =>
    obtain ⟨wal, rep'⟩ := r
    obtain ⟨hrep, rfl⟩ := Prod.mk.inj h
    obtain rfl : rep' = rep := by simpa using hrep
    obtain ⟨hv, h1, d', hw, hopens⟩ := openSeeded_opens hseed (openSeeded_steady seed _ _ _ hopen)
    obtain rfl : w.disk = d' := congrArg Env.disk hw
    obtain ⟨oldest, sealed, active, ts, f, rfl, rfl, hlog, hclean, hlock, -⟩ := hopens.log hv h1 hseed
    exact ⟨hv, hlock, hdir, oldest, sealed, active, ts, f, rfl, rfl, hlog, hclean⟩
  | err e => simp at h
  | crashed => simp at h
  | diverged => simp at h

end Opened

section Fated

variable [Crc32c] {config : WalConfig} {ok : Machine → Op → List Fate → Prop} {m₀ : Machine} {op : Op}
  {calls : List (Op × List Fate)} {os : List (Outcome WalError Reply)}

theorem runFated_cons (h : runFated config m ((op, fates) :: calls) = some (os, m')) :
    ∃ o os' m₁, os = o :: os' ∧ exec config m op fates = some (o, m₁) ∧
      runFated config m₁ calls = some (os', m') := by
  rw [runFated] at h
  cases he : exec config m op fates with
  | none => simp [he] at h
  | some r =>
    cases hr : runFated config r.2 calls with
    | none => simp [he, hr] at h
    | some r' =>
      simp only [he, hr, Option.some.injEq, Prod.mk.injEq] at h
      exact ⟨r.1, r'.1, r.2, h.1.symm, rfl, by rw [hr, ← h.2]⟩

theorem runFated_append {more : List (Op × List Fate)}
    (h : runFated config m (calls ++ more) = some (os, m')) :
    ∃ os₁ os₂ m₁, os = os₁ ++ os₂ ∧ runFated config m calls = some (os₁, m₁) ∧
      runFated config m₁ more = some (os₂, m') := by
  induction calls generalizing m os with
  | nil => exact ⟨[], os, m, rfl, rfl, h⟩
  | cons c calls ih =>
    obtain ⟨o, os', m₀, rfl, he, hr⟩ := runFated_cons h
    obtain ⟨os₁, os₂, m₁, rfl, h₁, h₂⟩ := ih hr
    exact ⟨o :: os₁, os₂, m₁, rfl, by simp only [Machine.runFated, he, h₁], h₂⟩

/-- The last call of a run. -/
theorem runFated_concat (h : runFated config m (calls ++ [(op, fates)]) = some (os, m')) :
    ∃ o os' m₁, os = os' ++ [o] ∧ runFated config m calls = some (os', m₁) ∧
      exec config m₁ op fates = some (o, m') := by
  obtain ⟨os₁, os₂, m₁, rfl, h₁, h₂⟩ := runFated_append h
  obtain ⟨o, os', m₂, rfl, he, hr⟩ := runFated_cons h₂
  obtain ⟨rfl, rfl⟩ := Prod.mk.inj (Option.some.inj hr)
  exact ⟨o, os₁, m₁, rfl, h₁, he⟩

theorem Reaches.mono {ok' : Machine → Op → List Fate → Prop}
    (h : Reaches config ok m₀ m) (hok : ∀ {m op fates}, ok m op fates → ok' m op fates) :
    Reaches config ok' m₀ m := by
  induction h with
  | start => exact .start
  | step _ hlegal hcall he ih => exact ih.step hlegal (hok hcall) he

theorem Reaches.trans (h : Reaches config ok m₀ m) (h' : Reaches config ok m m') :
    Reaches config ok m₀ m' := by
  induction h' with
  | start => exact h
  | step _ hlegal hcall he ih => exact ih.step hlegal hcall he

theorem Reaches.runFated (hm : Reaches config ok m₀ m)
    (hok : ∀ c ∈ calls, c.1.Legal ∧ ∀ m, ok m c.1 c.2)
    (h : Machine.runFated config m calls = some (os, m')) : Reaches config ok m₀ m' := by
  induction calls generalizing m os with
  | nil =>
    obtain ⟨-, rfl⟩ := Prod.mk.inj (Option.some.inj h)
    exact hm
  | cons c calls ih =>
    obtain ⟨o, os', m₁, -, he, hr⟩ := runFated_cons h
    obtain ⟨hlegal, hc⟩ := hok c List.mem_cons_self
    exact ih (hm.step hlegal (hc m) he) (fun c hc => hok c (List.mem_cons_of_mem _ hc)) hr

end Fated

end Machine

theorem checkpoint_poisoned {wal : Wal} {w : World} (h : wal.poisoned = true) (upTo : ℕ) :
    checkpoint upTo ⟨wal, w⟩ = (.err .poisoned, ⟨wal, w⟩) := by
  rw [checkpoint, Prog.bind_of_ret (Prog.state_run _), if_pos h, Prog.raise_run]

variable [Crc32c]

theorem commit_poisoned {wal : Wal} {w : World} (h : wal.poisoned = true) :
    commit ⟨wal, w⟩ = (.err .poisoned, ⟨wal, w⟩) := by
  rw [commit, Prog.bind_of_ret (Prog.state_run _), if_pos h, Prog.raise_run]

theorem append_poisoned {wal : Wal} {w : World} (h : wal.poisoned = true) (p : Bytes) :
    append p ⟨wal, w⟩ = (.err .poisoned, ⟨wal, w⟩) := by
  rw [append, Prog.bind_of_ret (Prog.state_run _), if_pos h, Prog.raise_run]

/-- `rest` holds of the directory between processes, `live` of it and of the log of an
open handle, `mid` while a commit still has the records `rest` to store, and `stuck`
where a call failed that left the handle with a watermark. -/
structure Upheld (config : WalConfig) (ok : Machine → Op → List Fate → Prop) (rest : Disk → Prop)
    (stuck : ℕ → Disk → Prop) (live : ℕ → List (List Bytes) → List Bytes → File → Disk → Prop)
    (mid : ℕ → List (List Bytes) → List Bytes → List Bytes → File → Disk → Prop) : Prop where
  rest_of_stuck : ∀ {d n}, stuck n d → rest { d with locked := false }
  stuck_die : ∀ {d n}, stuck n d → stuck n { d with locked := false }
  stuck_of_live : ∀ {oldest sealed active f d}, Carries config d oldest sealed active f →
    live oldest sealed active f d → stuck (activeBase oldest sealed + active.length - 1) d
  /-- An `open` that does not return. -/
  fails : ∀ {m : Machine} {seed fates}, seed ≤ u64Max → rest m.disk → m.disk.locked = false →
    ok m (.openLog seed) fates →
    Ends (fun _ _ => True) (fun _ w => rest w.disk) (fun w => rest { w.disk with locked := false })
      (openSeeded config seed ⟨m.disk, fates⟩)
  /-- An `open` that does. -/
  opens : ∀ {m : Machine} {seed fates wal rep w oldest sealed active f}, seed ≤ u64Max → rest m.disk →
    m.disk.locked = false → ok m (.openLog seed) fates →
    openSeeded config seed ⟨m.disk, fates⟩ = (.ret (wal, rep), w) →
    Opens config m.disk seed wal rep w.disk → wal = handleOn config oldest sealed active [] [] →
    LogOn config.segmentSize config.maxRecordSize w.disk oldest sealed active f →
    CleanAt config.segmentSize f.data (headerSize + runSize active) →
    live oldest sealed active f w.disk
  begins : ∀ {m : Machine} {fates oldest sealed active observed staged f}, config.Valid →
    m.handle = some (handleOn config oldest sealed active observed staged) →
    Committing config m.disk oldest sealed active f staged → live oldest sealed active f m.disk →
    ok m .commit fates → staged ≠ [] → mid oldest sealed active staged f m.disk
  commits : ∀ oldest, CommitRule config oldest
    (fun sealed active _ rest f d => mid oldest sealed active rest f d)
    fun sealed active _ d => stuck (activeBase oldest sealed + active.length - 1) d
  ends : ∀ {oldest sealed active f d}, Carries config d oldest sealed active f →
    mid oldest sealed active [] f d → live oldest sealed active f d
  unlinks : ∀ {oldest xs ys active f d}, Carries config d oldest (xs ++ ys) active f →
    live oldest (xs ++ ys) active f d →
    stuck (activeBase oldest (xs ++ ys) + active.length - 1)
      (removeAll ((basesFrom oldest (xs ++ ys)).take xs.length) d)
  deletes : ∀ {oldest xs ys active f d}, Carries config d oldest (xs ++ ys) active f →
    live oldest (xs ++ ys) active f d → xs ≠ [] →
    live (activeBase oldest xs) ys active f
      (removeAll ((basesFrom oldest (xs ++ ys)).take xs.length) d).syncDir

/-- What an upheld invariant says of a directory and the handle that is open on it. -/
inductive Upholds (config : WalConfig) (rest : Disk → Prop) (stuck : ℕ → Disk → Prop)
    (live : ℕ → List (List Bytes) → List Bytes → File → Disk → Prop) : Disk → Option Wal → Prop
  | rest {d : Disk} : d.locked = false → rest d → Upholds config rest stuck live d none
  | live {d : Disk} {oldest : ℕ} {sealed : List (List Bytes)} {active : List Bytes} {observed : List ℕ}
      {staged : List Bytes} {f : File} : config.Valid → d.locked = true → d.dirExists = true →
      Committing config d oldest sealed active f staged →
      (∀ w ∈ observed, w ≤ activeBase oldest sealed + active.length - 1) →
      live oldest sealed active f d →
      Upholds config rest stuck live d (some (handleOn config oldest sealed active observed staged))
  | stuck {d : Disk} {wal : Wal} : d.locked = true → d.dirExists = true → wal.poisoned = true →
      (∀ w ∈ wal.observed, w ≤ wal.durableLsn) → stuck wal.durableLsn d →
      Upholds config rest stuck live d (some wal)

namespace Upheld

variable {config : WalConfig} {ok : Machine → Op → List Fate → Prop} {rest : Disk → Prop}
  {stuck : ℕ → Disk → Prop} {live : ℕ → List (List Bytes) → List Bytes → File → Disk → Prop}
  {mid : ℕ → List (List Bytes) → List Bytes → List Bytes → File → Disk → Prop}
  {m m' : Machine} {op : Op} {fates : List Fate} {o : Outcome WalError Reply}

def After (config : WalConfig) (rest : Disk → Prop) (stuck : ℕ → Disk → Prop)
    (live : ℕ → List (List Bytes) → List Bytes → File → Disk → Prop) (m m' : Machine) : Prop :=
  Upholds config rest stuck live m'.disk m'.handle ∧
    ∃ ls, m'.reported = m.reported ++ ls ∧ ∀ w ∈ ls, ∃ n, w ≤ n ∧ stuck n m'.disk

def Settled (config : WalConfig) (live : ℕ → List (List Bytes) → List Bytes → File → Disk → Prop)
    (d : Disk) (wal : Wal) : Prop :=
  ∃ oldest sealed active observed f, wal = handleOn config oldest sealed active observed [] ∧
    config.Valid ∧ d.locked = true ∧ d.dirExists = true ∧ Carries config d oldest sealed active f ∧
    (∀ w ∈ observed, w ≤ activeBase oldest sealed + active.length - 1) ∧
    live oldest sealed active f d

/-- No watermark the handle states is above one the directory keeps to. -/
structure Watermarked (stuck : ℕ → Disk → Prop) (s : Sys) : Prop where
  observed : ∀ w ∈ s.wal.observed, w ≤ s.wal.durableLsn
  stuck : stuck s.wal.durableLsn s.world.disk

omit [Crc32c] in
theorem Watermarked.states {s : Sys} (h : Watermarked stuck s) {ls : List ℕ}
    (hls : ∀ w ∈ ls, w ≤ s.wal.durableLsn) :
    ∀ w ∈ s.wal.observed ++ s.wal.durableLsn :: ls, w ≤ s.wal.durableLsn := by
  intro w hw
  rcases List.mem_append.mp hw with hw | hw
  · exact h.observed w hw
  · rcases List.mem_cons.mp hw with rfl | hw
    · exact le_rfl
    · exact hls w hw

theorem openLog (h : Upheld config ok rest stuck live mid) {seed : ℕ} (hseed : seed ≤ u64Max)
    (hh : m.handle = none) (hl : m.disk.locked = false) (hr : rest m.disk)
    (hok : ok m (.openLog seed) fates)
    (he : m.execOpen config seed fates = (o, m')) : After config rest stuck live m m' := by
  have hends := h.fails hseed hr hl hok
  have hlocked := openSeeded_unlocks config m.disk seed ⟨m.disk, fates⟩ rfl
  have hdir := openSeeded_dirExists config seed ⟨m.disk, fates⟩ trivial
  unfold Machine.execOpen at he
  rcases hopen : openSeeded config seed ⟨m.disk, fates⟩ with ⟨p, w⟩
  rw [hopen] at he hends hlocked hdir
  cases p with
  | ret r =>
    obtain ⟨wal, rep⟩ := r
    obtain ⟨rfl, rfl⟩ := Prod.mk.inj he
    have hcalm := openSeeded_steady seed _ _ _ hopen
    obtain ⟨hv, h1, d', hw, hopens⟩ := openSeeded_opens hseed hcalm
    obtain rfl : w.disk = d' := congrArg Env.disk hw
    obtain ⟨oldest, sealed, active, ts, f, rfl, rfl, hlog, hclean, hlock, -⟩ := hopens.log hv h1 hseed
    have hlive := h.opens hseed hr hl hok hopen hopens rfl hlog hclean
    refine ⟨.live hv hlock hdir ⟨hlog.carries, .nil_of_le hlog.next_le⟩ (by simp) hlive,
      _, rfl, fun w hw => ⟨_, (List.mem_singleton.mp hw).le, h.stuck_of_live hlog.carries hlive⟩⟩
  | err e =>
    obtain ⟨rfl, rfl⟩ := Prod.mk.inj he
    refine ⟨?_, [], by simp, by simp⟩
    simp only [hh]
    exact .rest (hlocked.trans hl) hends
  | crashed =>
    obtain ⟨rfl, rfl⟩ := Prod.mk.inj he
    exact ⟨.rest rfl hends, [], by simp [Machine.die], by simp⟩
  | diverged => exact hends.elim

/-- What a method of the handle ends in. -/
theorem execOn (h : Upheld config ok rest stuck live mid) {α : Type} {wal : Wal}
    {prog : Prog Sys WalError α} {reply : α → Reply}
    (he : m.execOn wal fates (reply <$> prog) = (o, m'))
    (hends : Ends
      (fun a s => (Upholds config rest stuck live s.world.disk (some s.wal) ∧ Watermarked stuck s) ∧
        ∀ w ∈ reportedBy (.ret (reply a)), w ≤ s.wal.durableLsn)
      (fun _ s => Upholds config rest stuck live s.world.disk (some s.wal) ∧ Watermarked stuck s)
      (Watermarked stuck) (prog ⟨wal, ⟨m.disk, fates⟩⟩)) : After config rest stuck live m m' := by
  obtain ⟨r, s, -, ⟨⟨hu, hw⟩, hr⟩, rfl⟩ | ⟨e, s, -, ⟨hu, hw⟩, rfl⟩ | ⟨s, -, hw, rfl⟩ :=
    Machine.execOn_ends hends he
  · exact ⟨hu, _, rfl, fun w hm => ⟨_, hw.states hr w hm, hw.stuck⟩⟩
  · exact ⟨hu, _, rfl, fun w hm => ⟨_, hw.states (by simp) w hm, hw.stuck⟩⟩
  · exact ⟨.rest rfl (h.rest_of_stuck hw.stuck), _, rfl,
      fun w hm => ⟨_, hw.states (by simp) w hm, h.stuck_die hw.stuck⟩⟩

section Live

variable {oldest : ℕ} {sealed : List (List Bytes)} {active staged : List Bytes} {observed : List ℕ}
  {f : File} {d : Disk}

theorem inHand (h : Upheld config ok rest stuck live mid) {w : World} (hv : config.Valid)
    (hl : w.disk.locked = true) (hd : w.disk.dirExists = true)
    (hc : Committing config w.disk oldest sealed active f staged)
    (hobs : ∀ w ∈ observed, w ≤ activeBase oldest sealed + active.length - 1)
    (hlive : live oldest sealed active f w.disk) :
    Upholds config rest stuck live w.disk
        (some (handleOn config oldest sealed active observed staged)) ∧
      Watermarked stuck ⟨handleOn config oldest sealed active observed staged, w⟩ :=
  ⟨.live hv hl hd hc hobs hlive, hobs, h.stuck_of_live hc.toCarries hlive⟩

theorem settled (h : Upheld config ok rest stuck live mid) {s : Sys}
    (hs : Settled config live s.world.disk s.wal) :
    Upholds config rest stuck live s.world.disk (some s.wal) ∧ Watermarked stuck s := by
  obtain ⟨wal, w⟩ := s
  obtain ⟨oldest, sealed, active, observed, f, rfl, hv, hl, hd, hc, hobs, hlive⟩ := hs
  exact h.inHand hv hl hd ⟨hc, .nil_of_le hc.next_le⟩ hobs hlive

theorem append_ends (h : Upheld config ok rest stuck live mid) {w : World} (hv : config.Valid)
    (hl : w.disk.locked = true) (hd : w.disk.dirExists = true)
    (hc : Committing config w.disk oldest sealed active f staged)
    (hobs : ∀ w ∈ observed, w ≤ activeBase oldest sealed + active.length - 1)
    (hlive : live oldest sealed active f w.disk) (p : Bytes) :
    Ends (fun _ s => Upholds config rest stuck live s.world.disk (some s.wal) ∧ Watermarked stuck s)
      (fun _ s => Upholds config rest stuck live s.world.disk (some s.wal) ∧ Watermarked stuck s)
      (Watermarked stuck) (append p ⟨handleOn config oldest sealed active observed staged, w⟩) := by
  by_cases hp : config.maxRecordSize < p.length
  · rw [append_tooLarge hp]
    exact h.inHand hv hl hd hc hobs hlive
  have hp := Nat.not_lt.mp hp
  by_cases hx : u64Max < activeBase oldest sealed + active.length + staged.length
  · rw [append_exhausted hp hx]
    exact h.inHand hv hl hd hc hobs hlive
  · have hx := Nat.not_lt.mp hx
    rw [append_staged hp hc.activeBase_pos hx]
    refine h.inHand hv hl hd ⟨hc.toCarries, Batch.append_iff.mpr ⟨hc.batch, ⟨?_, ?_⟩⟩⟩ hobs hlive
    · simpa using hp
    · simp only [List.length_singleton]
      omega

/-- The rule of a commit, with the lock and the watermarks. -/
theorem commitRule (h : Upheld config ok rest stuck live mid) (oldest : ℕ) :
    CommitRule config oldest
      (fun sealed active observed rest f d => (mid oldest sealed active rest f d ∧ d.locked = true ∧
        d.dirExists = true) ∧ ∀ w ∈ observed, w ≤ activeBase oldest sealed + active.length - 1)
      fun sealed active observed d => (stuck (activeBase oldest sealed + active.length - 1) d ∧
        d.locked = true ∧ d.dirExists = true) ∧
          ∀ w ∈ observed, w ≤ activeBase oldest sealed + active.length - 1 where
  cut {sealed active observed _ _ _} k hc hj hq := by
    have hcut := @CommitRule.cut _ _ _ _ _ (h.commits oldest) sealed active observed _ _ _ k hc hj.1.1 hq
    exact ⟨⟨hcut, hj.1.2⟩, hj.2⟩
  store {sealed active observed rest _ _} hc hj hq := by
    have hstore := @CommitRule.store _ _ _ _ _ (h.commits oldest) sealed active observed rest _ _ hc hj.1.1 hq
    refine ⟨⟨hstore, hj.1.2⟩, fun w hw => ?_⟩
    rw [List.length_append]
    rcases List.mem_append.mp hw with hw | hw
    · have := hj.2 w hw
      omega
    · rw [List.mem_singleton.mp hw]
      omega
  begun {sealed active observed _ _ _ _} hc hj hr ha hq hb := by
    have hbegun := @CommitRule.begun _ _ _ _ _ (h.commits oldest) sealed active observed _ _ _ _ hc hj.1.1 hr
      ha hq hb
    exact ⟨⟨hbegun, hb.1.locked.trans hj.1.2.1, hb.1.dirExists.trans hj.1.2.2⟩, hj.2⟩
  rolled {sealed active observed _ _ _ _ _} hc hj hr ha hq honly hf := by
    have hrolled := @CommitRule.rolled _ _ _ _ _ (h.commits oldest) sealed active observed _ _ _ _ _ hc
      hj.1.1 hr ha hq honly hf
    refine ⟨⟨hrolled, honly.locked.trans hj.1.2.1, honly.dirExists.trans hj.1.2.2⟩, fun w hw => ?_⟩
    rw [Carries.activeBase_roll, List.length_nil, Nat.add_zero]
    exact hj.2 w hw

theorem commit_ends (h : Upheld config ok rest stuck live mid) (hv : config.Valid)
    (hm : m.handle = some (handleOn config oldest sealed active observed staged))
    (hl : m.disk.locked = true) (hd : m.disk.dirExists = true)
    (hc : Committing config m.disk oldest sealed active f staged)
    (hobs : ∀ w ∈ observed, w ≤ activeBase oldest sealed + active.length - 1)
    (hlive : live oldest sealed active f m.disk) (hok : ok m .commit fates) :
    Ends
      (fun durable s => Settled config live s.world.disk s.wal ∧ durable = s.wal.durableLsn)
      (fun _ s => Upholds config rest stuck live s.world.disk (some s.wal) ∧ Watermarked stuck s)
      (Watermarked stuck)
      (commit ⟨handleOn config oldest sealed active observed staged, ⟨m.disk, fates⟩⟩) := by
  by_cases hs : staged = []
  · subst hs
    exact ⟨⟨oldest, sealed, active, observed, f, rfl, hv, hl, hd, hc.toCarries, hobs, hlive⟩, rfl⟩
  have hmid := h.begins hv hm hc hlive hok hs
  refine (commit_triple (h.commitRule oldest) hv hs fates hc ⟨⟨hmid, hl, hd⟩, hobs⟩).imp ?_ ?_ ?_
  · rintro durable s ⟨rfl, sealed', active', observed', f', hnext, hwal, hc', ⟨hj, hl', hd'⟩, hobs'⟩
    have hpos := hc.activeBase_pos
    have hdur : s.wal.durableLsn = activeBase oldest sealed + active.length - 1 + staged.length := by
      rw [hwal]
      simp only [handleOn, hnext]
      omega
    exact ⟨⟨oldest, sealed', active', observed', f', hwal, hv, hl', hd', hc', hobs', h.ends hc' hj⟩,
      hdur.symm⟩
  · rintro e ⟨wal, w⟩ ⟨-, sealed', active', observed', rfl, ⟨hstuck, hl', hd'⟩, hobs'⟩
    exact ⟨.stuck hl' hd' rfl hobs' hstuck, hobs', hstuck⟩
  · rintro ⟨wal, w⟩ ⟨sealed', active', observed', rfl, ⟨hstuck, -, -⟩, hobs'⟩
    exact ⟨hobs', hstuck⟩

theorem checkpoint_ends (h : Upheld config ok rest stuck live mid) {d : Disk} (hv : config.Valid)
    (hl : d.locked = true) (hd : d.dirExists = true)
    (hc : Committing config d oldest sealed active f staged)
    (hobs : ∀ w ∈ observed, w ≤ activeBase oldest sealed + active.length - 1)
    (hlive : live oldest sealed active f d) (upTo : ℕ) (fates : List Fate) :
    Ends (fun _ s => Upholds config rest stuck live s.world.disk (some s.wal) ∧ Watermarked stuck s)
      (fun _ s => Upholds config rest stuck live s.world.disk (some s.wal) ∧ Watermarked stuck s)
      (Watermarked stuck)
      (checkpoint upTo ⟨handleOn config oldest sealed active observed staged, ⟨d, fates⟩⟩) := by
  obtain ⟨xs, ys, rfl, -, -, hends⟩ := checkpoint_triple hc.toCarries observed staged upTo fates
  -- where a call fails, `k` segments are gone and the handle still names them
  have hsome : ∀ k ≤ xs.length, ∃ e, removeAll ((basesFrom oldest (xs ++ ys)).take k) d = e ∧
      e.locked = true ∧ e.dirExists = true ∧
      stuck (activeBase oldest (xs ++ ys) + active.length - 1) e := by
    intro k hk
    obtain ⟨h₁, h₂, -, -⟩ := removeAll_flags ((basesFrom oldest (xs ++ ys)).take k) d
    have hsplit : xs ++ ys = xs.take k ++ (xs.drop k ++ ys) := by
      rw [← List.append_assoc, List.take_append_drop]
    have hstuck := @h.unlinks oldest (xs.take k) _ active f d (hsplit ▸ hc.toCarries) (hsplit ▸ hlive)
    rw [← hsplit, List.length_take, Nat.min_eq_left hk] at hstuck
    exact ⟨_, rfl, h₁.trans hl, h₂.trans hd, hstuck⟩
  refine hends.imp ?_ ?_ ?_
  · rintro _ ⟨wal, w⟩ ⟨rfl, ⟨rfl, hdisk⟩ | ⟨hxs, hdisk⟩⟩
    · obtain rfl : w.disk = d := hdisk
      exact h.inHand hv hl hd hc hobs hlive
    · have hdisk : w.disk = _ := hdisk
      obtain ⟨h₁, h₂, -, -⟩ := removeAll_flags ((basesFrom oldest (xs ++ ys)).take xs.length) d
      have hc' := hc.toCarries.removeAll.congr (.syncDir _)
      have hnext := activeBase_append oldest xs ys
      refine h.inHand hv ?_ ?_ ⟨hdisk ▸ hc', hnext ▸ hc.batch⟩ (hnext ▸ hobs)
        (hdisk ▸ h.deletes hc.toCarries hlive hxs)
      · rw [hdisk]
        exact h₁.trans hl
      · rw [hdisk]
        exact h₂.trans hd
  · rintro e ⟨wal, w⟩ ⟨-, rfl, k, hk, hdisk⟩
    obtain ⟨e, he, hl', hd', hstuck⟩ := hsome k hk
    obtain rfl : w.disk = e := hdisk.trans he
    exact ⟨.stuck hl' hd' rfl hobs hstuck, hobs, hstuck⟩
  · rintro ⟨wal, w⟩ ⟨rfl, k, hk, hdisk⟩
    obtain ⟨e, he, -, -, hstuck⟩ := hsome k hk
    obtain rfl : w.disk = e := hdisk.trans he
    exact ⟨hobs, hstuck⟩

end Live

/-- An open handle has the lock, and a watermark the directory keeps to. -/
theorem of_handle (h : Upheld config ok rest stuck live mid) {d : Disk} {wal : Wal}
    (hu : Upholds config rest stuck live d (some wal)) :
    d.locked = true ∧ d.dirExists = true ∧ ∃ n, stuck n d := by
  cases hu with
  | live _ hl hd hc _ hlive => exact ⟨hl, hd, _, h.stuck_of_live hc.toCarries hlive⟩
  | stuck hl hd _ _ hstuck => exact ⟨hl, hd, _, hstuck⟩

theorem die (h : Upheld config ok rest stuck live mid) {wal : Wal}
    (hu : Upholds config rest stuck live m.disk (some wal)) : After config rest stuck live m m.die := by
  obtain ⟨-, -, n, hstuck⟩ := h.of_handle hu
  exact ⟨.rest rfl (h.rest_of_stuck hstuck), [], by simp [Machine.die], by simp⟩

/-- A second `open` finds the lock taken. -/
theorem openLog_again (h : Upheld config ok rest stuck live mid) {wal : Wal} {seed : ℕ}
    (hh : m.handle = some wal) (hu : Upholds config rest stuck live m.disk (some wal))
    (he : m.execOpen config seed fates = (o, m')) : After config rest stuck live m m' := by
  obtain ⟨hl, hd, -⟩ := h.of_handle hu
  have hends : Ends (fun _ _ => False) (fun _ => OnDisk (· = m.disk)) (OnDisk (· = m.disk))
      (openSeeded config seed ⟨m.disk, fates⟩) := openSeeded_of_locked hl hd seed _ rfl
  unfold Machine.execOpen at he
  rcases hopen : openSeeded config seed ⟨m.disk, fates⟩ with ⟨p, w⟩
  rw [hopen] at he hends
  cases p with
  | ret r => exact hends.elim
  | err e =>
    obtain ⟨rfl, rfl⟩ := Prod.mk.inj he
    have hw : w.disk = m.disk := hends
    exact ⟨by rw [hw, hh]; exact hu, [], by simp, by simp⟩
  | crashed =>
    obtain ⟨rfl, rfl⟩ := Prod.mk.inj he
    have hw : w.disk = m.disk := hends
    rw [hw]
    exact h.die hu
  | diverged => exact hends.elim

/-- A poisoned handle does nothing but say so. -/
theorem poisoned (h : Upheld config ok rest stuck live mid) {α : Type} {wal : Wal}
    {prog : Prog Sys WalError α} {reply : α → Reply}
    (hu : Upholds config rest stuck live m.disk (some wal)) (hp : wal.poisoned = true)
    (he : m.execOn wal fates (reply <$> prog) = (o, m'))
    (hprog : prog ⟨wal, ⟨m.disk, fates⟩⟩ = (.err .poisoned, ⟨wal, ⟨m.disk, fates⟩⟩)) :
    After config rest stuck live m m' := by
  refine h.execOn he ?_
  rw [hprog]
  cases hu with
  | live => exact absurd hp (by simp [handleOn])
  | stuck hl hd _ hobs hstuck => exact ⟨.stuck hl hd hp hobs hstuck, hobs, hstuck⟩

/-- What every call of a run keeps. -/
theorem step (h : Upheld config ok rest stuck live mid)
    (hu : Upholds config rest stuck live m.disk m.handle) (hlegal : op.Legal) (hok : ok m op fates)
    (he : m.exec config op fates = some (o, m')) : After config rest stuck live m m' := by
  rcases hh : m.handle with _ | wal
  · rw [hh] at hu
    cases op with
    | openLog seed =>
      obtain ⟨hl, hr⟩ : m.disk.locked = false ∧ rest m.disk := by
        cases hu with
        | rest hl hr => exact ⟨hl, hr⟩
      exact h.openLog hlegal.2 hh hl hr hok (Option.some.inj he)
    | _ => simp [Machine.exec_none hh] at he
  · rw [hh] at hu
    cases op with
    | openLog seed => exact h.openLog_again hh hu (Option.some.inj he)
    | append payload =>
      rw [Machine.exec_append hh, Option.some.injEq] at he
      -- a poisoned handle changes nothing, and no other one is stuck
      by_cases hp : wal.poisoned = true
      · exact h.poisoned hu hp he (append_poisoned hp payload)
      cases hu with
      | live hv hl hd hc hobs hlive =>
        exact h.execOn he ((h.append_ends hv hl hd hc hobs hlive payload).imp
          (fun _ _ hs => ⟨hs, by simp [reportedBy]⟩) (fun _ _ hs => hs) fun _ hs => hs)
      | stuck _ _ hp' => exact absurd hp' hp
    | commit =>
      rw [Machine.exec_commit hh, Option.some.injEq] at he
      by_cases hp : wal.poisoned = true
      · exact h.poisoned hu hp he (commit_poisoned hp)
      cases hu with
      | live hv hl hd hc hobs hlive =>
        exact h.execOn he ((h.commit_ends hv hh hl hd hc hobs hlive hok).imp
          (fun _ _ hs => ⟨h.settled hs.1, by simp [reportedBy, hs.2]⟩) (fun _ _ hs => hs) fun _ hs => hs)
      | stuck _ _ hp' => exact absurd hp' hp
    | checkpoint upTo =>
      rw [Machine.exec_checkpoint hh, Option.some.injEq] at he
      by_cases hp : wal.poisoned = true
      · exact h.poisoned hu hp he (checkpoint_poisoned hp upTo)
      cases hu with
      | live hv hl hd hc hobs hlive =>
        exact h.execOn he ((h.checkpoint_ends hv hl hd hc hobs hlive upTo fates).imp
          (fun _ _ hs => ⟨hs, by simp [reportedBy]⟩) (fun _ _ hs => hs) fun _ hs => hs)
      | stuck _ _ hp' => exact absurd hp' hp
    | replay start =>
      rw [Machine.exec_replay hh, Option.some.injEq] at he
      obtain ⟨rfl, rfl⟩ := Prod.mk.inj he
      exact ⟨by rwa [hh], [], by simp, by simp⟩
    | close =>
      rw [Machine.exec_close hh, Option.some.injEq] at he
      obtain ⟨rfl, rfl⟩ := Prod.mk.inj he
      exact h.die hu

/-- What a commit that returns leaves. -/
theorem committed (h : Upheld config ok rest stuck live mid) {durable : ℕ}
    (hu : Upholds config rest stuck live m.disk m.handle) (hok : ok m .commit fates)
    (he : m.exec config .commit fates = some (.ret (.committed durable), m')) :
    ∃ wal, m'.handle = some wal ∧ wal.durableLsn = durable ∧ Settled config live m'.disk wal := by
  rcases hh : m.handle with _ | wal
  · simp [Machine.exec_none hh] at he
  rw [hh] at hu
  rw [Machine.exec_commit hh, Option.some.injEq] at he
  cases hu with
  | live hv hl hd hc hobs hlive =>
    obtain ⟨n, s, ho, ⟨hs, hn⟩, rfl⟩ | ⟨e, s, ho, -⟩ | ⟨s, ho, -⟩ :=
      Machine.execOn_ends (h.commit_ends hv hh hl hd hc hobs hlive hok) he
    · obtain rfl : durable = n := by simpa using ho
      exact ⟨s.wal, rfl, hn.symm, hs⟩
    · simp at ho
    · simp at ho
  | stuck _ _ hp =>
    simp [Machine.execOn, Prog.map_of_err (commit_poisoned hp)] at he

/-- What a run keeps. -/
theorem run (h : Upheld config ok rest stuck live mid) {m₀ : Machine}
    (h₀ : Upholds config rest stuck live m₀.disk m₀.handle) (hm : Machine.Reaches config ok m₀ m) :
    Upholds config rest stuck live m.disk m.handle := by
  induction hm with
  | start => exact h₀
  | step _ hlegal hok he ih => exact (h.step ih hlegal hok he).1

/-- Whatever holds always. -/
theorem trivially (config : WalConfig) (ok : Machine → Op → List Fate → Prop) :
    Upheld config ok (fun _ => True) (fun _ _ => True) (fun _ _ _ _ _ => True)
      fun _ _ _ _ _ _ => True where
  rest_of_stuck _ := trivial
  stuck_die _ := trivial
  stuck_of_live _ _ := trivial
  fails {m seed fates} _ _ _ _ := (openSeeded_unlocks config m.disk seed ⟨m.disk, fates⟩ rfl).imp
    (fun _ _ _ => trivial) (fun _ _ _ => trivial) fun _ _ => trivial
  opens _ _ _ _ _ _ _ _ _ := trivial
  begins _ _ _ _ _ _ := trivial
  commits _ := ⟨fun _ _ _ _ => trivial, fun _ _ _ => trivial, fun _ _ _ _ _ _ => trivial,
    fun _ _ _ _ _ _ _ => trivial⟩
  ends _ _ := trivial
  unlinks _ _ := trivial
  deletes _ _ _ := trivial

end Upheld

end OpenWal
