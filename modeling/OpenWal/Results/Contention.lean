import OpenWal.Model.Contention
import OpenWal.Theory.KeptCalls

namespace OpenWal
open ByteSeq Posix CrashProg

namespace Contention

section

variable {ι : Type} [DecidableEq ι] {s s' s₀ : Contention ι} {m : Machine} {p q : ι} {ph : Phase}
  {d : Disk}
  {reported : List ℕ} {fates : List Fate} {seed : ℕ}

/-- At most one party has the lock, and nobody else has it. -/
structure Exclusive (s : Contention ι) : Prop where
  unique : ∀ p q, (s.phase p).locks = true → (s.phase q).locks = true → p = q
  locked : s.disk.locked = true ↔ ∃ p, (s.phase p).locks = true

/-- One caller does what the parties do. It has the handle of the party that has one; where nobody has
one, the lock is that of an `open` under way. -/
structure SeenAs (s : Contention ι) (m : Machine) : Prop where
  reported : m.reported = s.reported
  live : ∀ p, (s.phase p).wal ≠ none → m.handle = (s.phase p).wal ∧ m.disk = s.disk
  idle : (∀ p, (s.phase p).wal = none) → m.handle = none ∧ m.disk = { s.disk with locked := false }

theorem wal_of_not_locks (h : ph.locks = false) : ph.wal = none := by
  cases ph <;> first | rfl | cases h

theorem put_phase_self : (s.put p ph d reported).phase p = ph := Function.update_self ..

theorem put_phase_ne (h : q ≠ p) : (s.put p ph d reported).phase q = s.phase q :=
  Function.update_of_ne h ..

omit [DecidableEq ι] in
theorem Exclusive.others (h : s.Exclusive) (hp : (s.phase p).locks = true) (hq : q ≠ p) :
    (s.phase q).locks = false :=
  Bool.eq_false_iff.mpr fun hlocks => hq (h.unique q p hlocks hp)

omit [DecidableEq ι] in
theorem Exclusive.free (h : s.Exclusive) (hl : s.disk.locked = false) (q : ι) :
    (s.phase q).locks = false :=
  Bool.eq_false_iff.mpr fun hlocks => by simp [h.locked.mpr ⟨q, hlocks⟩] at hl

/-- A party without the lock moves on without it. -/
theorem Exclusive.put (h : s.Exclusive) (hp : (s.phase p).locks = false) (hph : ph.locks = false)
    (hd : d.locked = s.disk.locked) : (s.put p ph d reported).Exclusive := by
  have hsame : ∀ q, ((s.put p ph d reported).phase q).locks = (s.phase q).locks := by
    intro q
    by_cases hq : q = p
    · rw [hq, put_phase_self, hp, hph]
    · rw [put_phase_ne hq]
  refine ⟨fun q r hq hr => h.unique q r ((hsame q).symm.trans hq) ((hsame r).symm.trans hr), ?_⟩
  simp only [hsame]
  exact hd ▸ h.locked

/-- Where nobody else has the lock, it is up to `p`. -/
theorem exclusive_put (hothers : ∀ q, q ≠ p → (s.phase q).locks = false) (hd : d.locked = ph.locks) :
    (s.put p ph d reported).Exclusive := by
  have hself : ∀ q, ((s.put p ph d reported).phase q).locks = true → q = p := by
    intro q hq
    by_contra hne
    rw [put_phase_ne hne, hothers q hne] at hq
    cases hq
  refine ⟨fun q r hq hr => (hself q hq).trans (hself r hr).symm, ?_⟩
  have hdisk : (s.put p ph d reported).disk.locked = ph.locks := hd
  rw [hdisk]
  refine ⟨fun h => ⟨p, by rwa [put_phase_self]⟩, fun ⟨q, hq⟩ => ?_⟩
  rwa [hself q hq, put_phase_self] at hq

theorem SeenAs.put (h : s.SeenAs m) (hp : (s.phase p).wal = none) (hph : ph.wal = none)
    (hd : { d with locked := false } = { s.disk with locked := false })
    (hlive : ∀ q, (s.phase q).wal ≠ none → d = s.disk) : (s.put p ph d s.reported).SeenAs m := by
  have hsame : ∀ q, ((s.put p ph d s.reported).phase q).wal = (s.phase q).wal := by
    intro q
    by_cases hq : q = p
    · rw [hq, put_phase_self, hp, hph]
    · rw [put_phase_ne hq]
  refine ⟨h.reported, fun q hq => ?_, fun hq => ?_⟩
  · rw [hsame] at hq ⊢
    exact ⟨(h.live q hq).1, (h.live q hq).2.trans (hlive q hq).symm⟩
  · obtain ⟨hnone, hdisk⟩ := h.idle fun q => (hsame q).symm.trans (hq q)
    exact ⟨hnone, hdisk.trans hd.symm⟩

theorem seenAs_put (hothers : ∀ q, q ≠ p → (s.phase q).wal = none) (hr : m.reported = reported)
    (hh : m.handle = ph.wal) (hlive : ph.wal ≠ none → m.disk = d)
    (hidle : ph.wal = none → m.disk = { d with locked := false }) : (s.put p ph d reported).SeenAs m := by
  refine ⟨hr, fun q hq => ?_, fun hq => ?_⟩
  · by_cases hqp : q = p
    · rw [hqp, put_phase_self] at hq ⊢
      exact ⟨hh, hlive hq⟩
    · rw [put_phase_ne hqp] at hq
      exact absurd (hothers q hqp) hq
  · have hp := hq p
    rw [put_phase_self] at hp
    exact ⟨hh.trans hp, hidle hp⟩

def made (d : Disk) : Disk := { d with dirExists := true, dirDurable := d.dirExists && d.dirDurable }

theorem made_of_exists (h : d.dirExists = true) : made d = d := by
  cases d
  simp_all [made]

theorem pass_createDirAll (ph : Phase) (fates : List Fate) (h : (s.phase p).locks = false) :
    s.pass p ph (Prog.mapErr .io createDirAll) fates = s.put p ph (made s.disk) s.reported ∨
      s.pass p ph (Prog.mapErr .io createDirAll) fates =
        s.put p .outside (released (s.phase p) s.disk) s.reported := by
  rw [released, h]
  rcases fates with _ | ⟨_ | _ | _, fates⟩
  · exact Or.inl rfl
  · exact Or.inl rfl
  · exact Or.inr rfl
  · exact Or.inr rfl

theorem pass_openLockFile (ph : Phase) (fates : List Fate) (h : (s.phase p).locks = false) :
    s.pass p ph openLockFile fates = s.put p ph s.disk s.reported ∨
      s.pass p ph openLockFile fates = s.put p .outside (released (s.phase p) s.disk) s.reported := by
  rw [released, h]
  rcases fates with _ | ⟨_ | _ | _, fates⟩
  · exact Or.inl rfl
  · exact Or.inl rfl
  · exact Or.inr rfl
  · exact Or.inr rfl

/-- `flock` tests and sets in one. -/
theorem pass_flock (ph : Phase) (fates : List Fate) (h : (s.phase p).locks = false) :
    s.disk.locked = false ∧
        s.pass p ph flock fates = s.put p ph { s.disk with locked := true } s.reported ∨
      s.pass p ph flock fates = s.put p .outside (released (s.phase p) s.disk) s.reported := by
  rw [released, h]
  cases hl : s.disk.locked with
  | true =>
    right
    rw [pass, flock, Prog.bind_of_ret (Prog.state_run _), if_pos hl]
    rfl
  | false =>
    rw [pass, flock, Prog.bind_of_ret (Prog.state_run _), if_neg (by simp [hl])]
    rcases fates with _ | ⟨_ | _ | _, fates⟩
    · exact Or.inl ⟨rfl, rfl⟩
    · exact Or.inl ⟨rfl, rfl⟩
    · exact Or.inr rfl
    · exact Or.inr rfl

end

section

variable [Crc32c] {ι : Type} [DecidableEq ι] {config : WalConfig} {s s' s₀ : Contention ι}
  {m m' m₀ : Machine} {p q : ι} {a : Move} {ph : Phase} {d : Disk} {reported : List ℕ} {fates : List Fate}

/-- What a move can do. -/
inductive Taken (config : WalConfig) (s : Contention ι) (p : ι) (fates : List Fate) : Contention ι → Prop
  | refused : Taken config s p fates s
  | gone : Taken config s p fates (s.put p .outside (released (s.phase p) s.disk) s.reported)
  | enters {seed : ℕ} : s.phase p = .outside → config.Valid → (Op.openLog seed).Legal →
      Taken config s p fates (s.put p (.entered seed) (made s.disk) s.reported)
  | waits {seed : ℕ} : s.phase p = .entered seed →
      Taken config s p fates (s.put p (.waiting seed) s.disk s.reported)
  | locks {seed : ℕ} : s.phase p = .waiting seed → s.disk.locked = false →
      Taken config s p fates (s.put p (.recovering seed) { s.disk with locked := true } s.reported)
  | recovers {seed : ℕ} : s.phase p = .recovering seed →
      Taken config s p fates (s.recover config p seed fates)
  | uses {wal : Wal} {op : Op} {s' : Contention ι} : s.phase p = .live wal → op.Legal →
      (∀ seed, op ≠ .openLog seed) → s.use config p wal op fates = some s' → Taken config s p fates s'

theorem move_taken (hlegal : a.Legal) (h : move config s p a fates = some s') :
    Taken config s p fates s' := by
  unfold move at h
  split at h
  · exact Option.some.inj h ▸ .gone
  · rename_i seed hp
    have hfree : (s.phase p).locks = false := by rw [hp]; rfl
    split_ifs at h with hv hseed
    · exact Option.some.inj h ▸ .refused
    · exact Option.some.inj h ▸ .refused
    · rw [← Option.some.inj h]
      rcases pass_createDirAll (.entered seed) fates hfree with he | he
      · exact he ▸ .enters hp (Nat.not_lt.mp hv) hlegal
      · exact he ▸ .gone
  · rename_i seed hp
    have hfree : (s.phase p).locks = false := by rw [hp]; rfl
    rw [← Option.some.inj h]
    rcases pass_openLockFile (.waiting seed) fates hfree with he | he
    · exact he ▸ .waits hp
    · exact he ▸ .gone
  · rename_i seed hp
    have hfree : (s.phase p).locks = false := by rw [hp]; rfl
    rw [← Option.some.inj h]
    rcases pass_flock (.recovering seed) fates hfree with ⟨hl, he⟩ | he
    · exact he ▸ .locks hp hl
    · exact he ▸ .gone
  · rename_i seed hp
    exact Option.some.inj h ▸ .recovers hp
  · cases h
  · rename_i op wal hop hp
    exact .uses hp hlegal hop h
  · cases h

def Phase.Legal (config : WalConfig) : Phase → Prop
  | .entered seed | .waiting seed | .recovering seed => config.Valid ∧ (Op.openLog seed).Legal
  | _ => True

structure Ruled (config : WalConfig) (m₀ : Machine) (s : Contention ι) (m : Machine) : Prop
    extends Exclusive s, SeenAs s m where
  reaches : Machine.Reaches config (fun _ _ _ => True) m₀ m
  dir : ∀ p, s.phase p ≠ .outside → s.disk.dirExists = true
  legal : ∀ p, Phase.Legal config (s.phase p)

namespace Ruled

theorem upholds (hh₀ : m₀.handle = none) (hl₀ : m₀.disk.locked = false)
    (hm : Machine.Reaches config (fun _ _ _ => True) m₀ m) :
    Upholds config (fun _ => True) (fun _ _ => True) (fun _ _ _ _ _ => True) m.disk m.handle := by
  refine (Upheld.trivially config fun _ _ _ => True).run ?_ hm
  rw [hh₀]
  exact .rest hl₀ trivial

/-- An open handle of the one caller has the lock. -/
theorem locked_of_handle (hh₀ : m₀.handle = none) (hl₀ : m₀.disk.locked = false) {wal : Wal}
    (hm : Machine.Reaches config (fun _ _ _ => True) m₀ m) (hw : m.handle = some wal) :
    m.disk.locked = true ∧ m.disk.dirExists = true := by
  have hu := upholds hh₀ hl₀ hm
  rw [hw] at hu
  cases hu with
  | live _ hlock hd => exact ⟨hlock, hd⟩
  | stuck hlock hd => exact ⟨hlock, hd⟩

theorem unlocked_of_none (hh₀ : m₀.handle = none) (hl₀ : m₀.disk.locked = false)
    (hm : Machine.Reaches config (fun _ _ _ => True) m₀ m) (hw : m.handle = none) :
    m.disk.locked = false := by
  have hu := upholds hh₀ hl₀ hm
  rw [hw] at hu
  cases hu with
  | rest hl => exact hl

theorem dir_put (h : Ruled config m₀ s m) (hd : s.disk.dirExists = true → d.dirExists = true)
    (hp : ph ≠ .outside → d.dirExists = true) (q : ι) (hq : (s.put p ph d reported).phase q ≠ .outside) :
    d.dirExists = true := by
  by_cases hqp : q = p
  · rw [hqp, put_phase_self] at hq
    exact hp hq
  · rw [put_phase_ne hqp] at hq
    exact hd (h.dir q hq)

theorem legal_put (h : Ruled config m₀ s m) (hp : Phase.Legal config ph) (q : ι) :
    Phase.Legal config ((s.put p ph d reported).phase q) := by
  by_cases hqp : q = p
  · rwa [hqp, put_phase_self]
  · rw [put_phase_ne hqp]
    exact h.legal q

/-- A party that has no lock moves on, and the directory stays as it is. -/
theorem bystander (h : Ruled config m₀ s m) (hp : (s.phase p).locks = false) (hph : ph.locks = false)
    (hlegal : Phase.Legal config ph) (hdir : ph ≠ .outside → s.disk.dirExists = true) :
    Ruled config m₀ (s.put p ph s.disk s.reported) m where
  toExclusive := h.toExclusive.put hp hph rfl
  toSeenAs := h.toSeenAs.put (wal_of_not_locks hp) (wal_of_not_locks hph) rfl fun _ _ => rfl
  reaches := h.reaches
  dir := h.dir_put id hdir
  legal := h.legal_put hlegal

omit [DecidableEq ι] in
theorem idle_of_free (h : Ruled config m₀ s m) (hl : s.disk.locked = false) :
    m.handle = none ∧ m.disk = s.disk := by
  obtain ⟨hnone, hdisk⟩ := h.idle fun q => wal_of_not_locks (h.free hl q)
  refine ⟨hnone, hdisk.trans ?_⟩
  rw [← hl]

theorem gone (h : Ruled config m₀ s m) :
    ∃ m', Ruled config m₀ (s.put p .outside (released (s.phase p) s.disk) s.reported) m' := by
  by_cases hp : (s.phase p).locks = true
  · have hothers := fun q hq => h.others (q := q) hp hq
    have hrel : released (s.phase p) s.disk = { s.disk with locked := false } := if_pos hp
    rw [hrel]
    obtain ⟨m', hm', hr, hh, hd⟩ : ∃ m', Machine.Reaches config (fun _ _ _ => True) m₀ m' ∧
        m'.reported = s.reported ∧ m'.handle = none ∧ m'.disk = { s.disk with locked := false } := by
      rcases hph : (s.phase p).wal with _ | wal
      · have hnone : ∀ q, (s.phase q).wal = none := fun q => by
          by_cases hq : q = p
          · rw [hq, hph]
          · exact wal_of_not_locks (hothers q hq)
        exact ⟨m, h.reaches, h.reported, h.idle hnone⟩
      · obtain ⟨hh, hd⟩ := h.live p (by simp [hph])
        have hclose : m.exec config .close [] = some (.ret .closed, m.die) :=
          Machine.exec_close (hh.trans hph)
        have hlegal : Op.close.Legal := trivial
        exact ⟨m.die, .step h.reaches hlegal trivial hclose, h.reported, rfl, by rw [Machine.die, hd]⟩
    exact ⟨m', exclusive_put hothers rfl,
      seenAs_put (fun q hq => wal_of_not_locks (hothers q hq)) hr hh (fun hne => absurd rfl hne) fun _ => hd,
      hm', h.dir_put id fun hne => absurd rfl hne, h.legal_put trivial⟩
  · have hfree := Bool.eq_false_iff.mpr hp
    have hrel : released (s.phase p) s.disk = s.disk := if_neg hp
    rw [hrel]
    exact ⟨m, h.bystander hfree rfl trivial fun hne => absurd rfl hne⟩

/-- Where nobody has the lock, one caller makes the directory in an `open` that fails. -/
theorem enters (h : Ruled config m₀ s m) {seed : ℕ} (hp : s.phase p = .outside) (hv : config.Valid)
    (hseed : (Op.openLog seed).Legal) :
    ∃ m', Ruled config m₀ (s.put p (.entered seed) (made s.disk) s.reported) m' := by
  have hfree : (s.phase p).locks = false := by rw [hp]; rfl
  cases hl : s.disk.locked with
  | true =>
    obtain ⟨q, hq⟩ := h.locked.mp hl
    have hdir := h.dir q fun hout => by simp [hout, Phase.locks] at hq
    rw [made_of_exists hdir]
    exact ⟨m, h.bystander hfree rfl ⟨hv, hseed⟩ fun _ => hdir⟩
  | false =>
    obtain ⟨hh, hd⟩ := h.idle_of_free hl
    have hopen : m.exec config (.openLog seed) [.ok, .fail 0] =
        some (.err (.io .other), { m with disk := made m.disk }) := by
      have h1 : 1 ≤ seed := hseed.1
      rw [Machine.exec_openLog, Machine.execOpen, openSeeded, if_neg (Nat.not_lt.mpr hv),
        if_neg (by simp [isNone]; omega)]
      rfl
    have hnobody := fun q (_ : q ≠ p) => wal_of_not_locks (h.free hl q)
    refine ⟨{ m with disk := made m.disk }, h.toExclusive.put hfree rfl rfl,
      seenAs_put hnobody h.reported hh (fun hne => absurd rfl hne) (fun _ => ?_), .step h.reaches hseed trivial hopen,
      h.dir_put (fun _ => rfl) fun _ => rfl, h.legal_put ⟨hv, hseed⟩⟩
    rw [hd, ← hl]
    rfl

/-- One caller that takes the lock goes on as `p` does. -/
theorem openSeeded_of_lock (hv : config.Valid) {seed : ℕ} (hseed : (Op.openLog seed).Legal)
    (hl : d.locked = true) (hd : d.dirExists = true) (fates : List Fate) :
    openSeeded config seed ⟨{ d with locked := false }, .ok :: .ok :: .ok :: fates⟩ = (do
      let rec' ← Prog.onError unlock (recoverDirectory config seed)
      return (rec'.wal config, rec'.report)) ⟨d, fates⟩ := by
  have henter : lockDirectory ⟨{ d with locked := false }, .ok :: .ok :: .ok :: fates⟩ =
      (.ret (), ⟨d, fates⟩) := by
    obtain ⟨⟩ := d
    cases hl
    cases hd
    rfl
  have h1 : 1 ≤ seed := hseed.1
  rw [openSeeded, if_neg (Nat.not_lt.mpr hv), if_neg (by simp [isNone]; omega), Prog.seq_of_ret henter]

/-- One caller takes the lock and recovers the log. -/
theorem recovers (h : Ruled config m₀ s m) (hh₀ : m₀.handle = none) (hl₀ : m₀.disk.locked = false)
    {seed : ℕ} (hp : s.phase p = .recovering seed) : ∃ m', Ruled config m₀ (s.recover config p seed fates) m' := by
  have hlocks : (s.phase p).locks = true := by rw [hp]; rfl
  have hothers := fun q hq => h.others (q := q) hlocks hq
  have hnobody : ∀ q, q ≠ p → (s.phase q).wal = none := fun q hq => wal_of_not_locks (hothers q hq)
  have hlock := h.locked.mpr ⟨p, hlocks⟩
  have hdir := h.dir p (by simp [hp])
  obtain ⟨hv, hseed⟩ : config.Valid ∧ (Op.openLog seed).Legal := by
    have := h.legal p
    rwa [hp] at this
  obtain ⟨hh, hd⟩ := h.idle fun q => by
    by_cases hq : q = p
    · rw [hq, hp]
      rfl
    · exact hnobody q hq
  have hopen := openSeeded_of_lock hv hseed hlock hdir fates
  rw [← hd] at hopen
  have hkept : Ends (fun _ => OnDisk fun d => d.dirExists = true)
      (fun _ => OnDisk fun d => d.dirExists = true) (OnDisk fun d => d.dirExists = true) (recoverDirectory config seed ⟨s.disk, fates⟩) :=
    recoverDirectory_keeps dirExists_kept config seed _ hdir
  rw [recover]
  rcases hrec : recoverDirectory config seed ⟨s.disk, fates⟩ with ⟨r, w⟩
  rw [hrec] at hkept
  -- an error and a death leave the lock to others
  have hfailed : ∀ o, m.exec config (.openLog seed) (.ok :: .ok :: .ok :: fates) =
      some (o, { m with disk := { w.disk with locked := false } }) → w.disk.dirExists = true →
      ∃ m', Ruled config m₀ (s.put p .outside (released (.recovering seed) w.disk) s.reported) m' := by
    intro o he hdir'
    exact ⟨{ m with disk := { w.disk with locked := false } }, exclusive_put hothers rfl,
      seenAs_put hnobody h.reported hh (fun hne => absurd rfl hne) fun _ => rfl,
      .step h.reaches hseed trivial he, h.dir_put (fun _ => hdir') fun _ => hdir', h.legal_put trivial⟩
  cases r with
  | ret rec' =>
    rw [Prog.bind_of_ret (Prog.onError_of_ret hrec)] at hopen
    have he : m.exec config (.openLog seed) (.ok :: .ok :: .ok :: fates) = some (.ret (.opened rec'.report),
        ⟨w.disk, some (rec'.wal config), m.reported ++ [rec'.report.durableLsn]⟩) := by
      rw [Machine.exec_openLog, Machine.execOpen, hopen]
      rfl
    have hreaches := h.reaches.step hseed trivial he
    obtain ⟨hl, hd'⟩ := locked_of_handle hh₀ hl₀ hreaches rfl
    exact ⟨_, exclusive_put hothers hl, seenAs_put hnobody (by rw [h.reported]) rfl (fun _ => rfl)
      (fun hne => absurd hne (by simp [Phase.wal])), hreaches, h.dir_put (fun _ => hd') fun _ => hd',
      h.legal_put trivial⟩
  | err e =>
    rw [Prog.bind_of_err (Prog.onError_of_err hrec)] at hopen
    refine hfailed (.err e) ?_ hkept
    rw [Machine.exec_openLog, Machine.execOpen, hopen]
    rfl
  | crashed =>
    have hdies : (do
        let rec' ← Prog.onError unlock (recoverDirectory config seed)
        return (rec'.wal config, rec'.report)) ⟨s.disk, fates⟩ = (.crashed, w) := by
      rw [Prog.bind_run, Prog.andThen, Prog.onError, hrec]
    refine hfailed .crashed ?_ hkept
    rw [Machine.exec_openLog, Machine.execOpen, hopen, hdies]
    simp only [Machine.die, hh]
  | diverged => exact hkept.elim

/-- A call of the handle is one of the one caller. -/
theorem uses (h : Ruled config m₀ s m) (hh₀ : m₀.handle = none) (hl₀ : m₀.disk.locked = false) {wal : Wal}
    {op : Op} (hp : s.phase p = .live wal) (hlegal : op.Legal) (hop : ∀ seed, op ≠ .openLog seed)
    (he : s.use config p wal op fates = some s') : ∃ m', Ruled config m₀ s' m' := by
  have hlocks : (s.phase p).locks = true := by rw [hp]; rfl
  have hothers := fun q hq => h.others (q := q) hlocks hq
  have hnobody : ∀ q, q ≠ p → (s.phase q).wal = none := fun q hq => wal_of_not_locks (hothers q hq)
  have hdir := h.dir p (by simp [hp])
  obtain ⟨hh, hd⟩ := h.live p (by simp [hp, Phase.wal])
  rw [hp] at hh
  have hm : (⟨s.disk, some wal, s.reported⟩ : Machine) = m := by
    rw [← hd, ← h.reported]
    exact congrArg (fun x => (⟨m.disk, x, m.reported⟩ : Machine)) hh.symm
  rw [use, hm] at he
  rcases hexec : m.exec config op fates with _ | ⟨o, d, handle, reported⟩
  · simp [hexec] at he
  rw [hexec] at he
  have hreaches := h.reaches.step hlegal trivial hexec
  have hdir' : d.dirExists = true :=
    Machine.exec_keeps dirExists_kept (fun _ h => h) hh hop (by rwa [hd]) hexec
  cases handle with
  | some wal' =>
    obtain rfl := Option.some.inj he
    obtain ⟨hl, -⟩ := locked_of_handle hh₀ hl₀ hreaches rfl
    exact ⟨_, exclusive_put hothers hl, seenAs_put hnobody rfl rfl (fun _ => rfl)
      (fun hne => absurd hne (by simp [Phase.wal])), hreaches, h.dir_put (fun _ => hdir') fun _ => hdir',
      h.legal_put trivial⟩
  | none =>
    obtain rfl := Option.some.inj he
    have hl := unlocked_of_none hh₀ hl₀ hreaches rfl
    refine ⟨_, exclusive_put hothers hl, seenAs_put hnobody rfl rfl (fun hne => absurd rfl hne) (fun _ => ?_),
      hreaches, h.dir_put (fun _ => hdir') fun _ => hdir', h.legal_put trivial⟩
    exact congrArg (fun l => { d with locked := l }) hl

theorem step (h : Ruled config m₀ s m) (hh₀ : m₀.handle = none) (hl₀ : m₀.disk.locked = false)
    (ht : Taken config s p fates s') : ∃ m', Ruled config m₀ s' m' := by
  cases ht with
  | refused => exact ⟨m, h⟩
  | gone => exact h.gone
  | enters hp hv hseed => exact h.enters hp hv hseed
  | waits hp =>
    have hfree : (s.phase p).locks = false := by rw [hp]; rfl
    have hlegal := h.legal p
    rw [hp] at hlegal
    exact ⟨m, h.bystander hfree rfl hlegal fun _ => h.dir p (by simp [hp])⟩
  | locks hp hl =>
    have hlegal := h.legal p
    rw [hp] at hlegal
    have hdir := h.dir p (by simp [hp])
    have hfree := h.free hl
    refine ⟨m, exclusive_put (fun q _ => hfree q) rfl, ?_, h.reaches, h.dir_put id fun _ => hdir,
      h.legal_put hlegal⟩
    exact h.toSeenAs.put (wal_of_not_locks (hfree p)) rfl rfl fun q hq =>
      absurd (wal_of_not_locks (hfree q)) hq
  | recovers hp => exact h.recovers hh₀ hl₀ hp
  | uses hp hlegal hop he => exact h.uses hh₀ hl₀ hp hlegal hop he

end Ruled

/-- Whoever has no lock leaves the directory as it is while it is taken. -/
theorem Taken.disk (ht : Taken config s q fates s') (hfree : (s.phase q).locks = false)
    (hlock : s.disk.locked = true) (hdir : s.disk.dirExists = true) : s'.disk = s.disk := by
  cases ht with
  | refused => rfl
  | gone => exact if_neg (by simp [hfree])
  | enters => exact made_of_exists hdir
  | waits => rfl
  | locks _ hl => simp [hlock] at hl
  | recovers hr => simp [hr, Phase.locks] at hfree
  | uses hu => simp [hu, Phase.locks] at hfree

/-- The directory at some point of the move that a party with the lock makes next: as a death there
would leave it, its lock aside. -/
inductive Inside (config : WalConfig) (s : Contention ι) (p : ι) : Disk → Prop
  | before : Inside config s p s.disk
  | recovering {seed : ℕ} {fates : List Fate} {w : World} : s.phase p = .recovering seed →
      recoverDirectory config seed ⟨s.disk, fates⟩ = (.crashed, w) → Inside config s p w.disk
  | committing {wal : Wal} {fates : List Fate} {t : Sys} : s.phase p = .live wal →
      commit ⟨wal, ⟨s.disk, fates⟩⟩ = (.crashed, t) → Inside config s p t.world.disk
  | checkpointing {wal : Wal} {upTo : ℕ} {fates : List Fate} {t : Sys} : s.phase p = .live wal →
      checkpoint upTo ⟨wal, ⟨s.disk, fates⟩⟩ = (.crashed, t) → Inside config s p t.world.disk

omit [DecidableEq ι] in
theorem Inside.keeps {I : Disk → Prop} (h : Inside config s p d) (hI : KeptByCalls I) (hs : I s.disk) :
    I d := by
  cases h with
  | before => exact hs
  | @recovering seed fates w _ he =>
    have hends : Ends _ _ _ (recoverDirectory config seed ⟨s.disk, fates⟩) :=
      recoverDirectory_keeps hI config seed _ hs
    rw [he] at hends
    exact hends
  | @committing wal fates t _ he =>
    have hends : I (commit ⟨wal, ⟨s.disk, fates⟩⟩).2.world.disk := commit_leaves hI _ hs
    rwa [he] at hends
  | @checkpointing wal upTo fates t _ he =>
    have hends : I (checkpoint upTo ⟨wal, ⟨s.disk, fates⟩⟩).2.world.disk := checkpoint_leaves hI upTo _ hs
    rwa [he] at hends

theorem Reaches.run {moves : List (ι × Move × List Fate)} (hs : Reaches config s₀ s)
    (hlegal : ∀ x ∈ moves, x.2.1.Legal) (h : run config moves s = some s') : Reaches config s₀ s' := by
  induction moves generalizing s with
  | nil => exact Option.some.inj h ▸ hs
  | cons x moves ih =>
    obtain ⟨p, a, fates⟩ := x
    rw [Contention.run] at h
    rcases he : s.move config p a fates with _ | s''
    · simp [he] at h
    · rw [he] at h
      exact ih (.step hs (hlegal _ List.mem_cons_self) he) (fun y hy => hlegal y (List.mem_cons_of_mem _ hy)) h

theorem Reaches.ruled (hl : s₀.disk.locked = false) (h₀ : ∀ p, s₀.phase p = .outside)
    (hs : Reaches config s₀ s) : ∃ m, Ruled config ⟨s₀.disk, none, s₀.reported⟩ s m := by
  induction hs with
  | start =>
    have hout : ∀ q, (s₀.phase q).locks = false := fun q => by rw [h₀ q]; rfl
    refine ⟨_, ⟨fun p q hp => by simp [hout p] at hp, by simp [hl, hout]⟩,
      ⟨rfl, fun p hp => absurd (wal_of_not_locks (hout p)) hp, fun _ => ⟨rfl, ?_⟩⟩, .start,
      fun p hp => absurd (h₀ p) hp, fun p => by rw [h₀ p]; trivial⟩
    rw [← hl]
  | step _ hlegal he ih =>
    obtain ⟨m, hm⟩ := ih
    exact hm.step rfl hl (move_taken hlegal he)

end

end Contention

section

variable [Crc32c] {ι : Type} [DecidableEq ι] {config : WalConfig} {s s₀ : Contention ι}

/-- However the moves of the parties interleave, whichever of their system calls fail and wherever they
die, at most one of them has the lock, and nobody else moves anything in the directory meanwhile, at
whatever point of a move the one with the lock is; what is there is what one caller leads to. -/
theorem single_writer (hl : s₀.disk.locked = false) (h₀ : ∀ p, s₀.phase p = .outside)
    (hs : Contention.Reaches config s₀ s) :
    (∀ p q, (s.phase p).locks = true → (s.phase q).locks = true → p = q) ∧
      (s.disk.locked = true ↔ ∃ p, (s.phase p).locks = true) ∧
      (∀ p q a fates d s', (s.phase p).locks = true → q ≠ p → a.Legal → s.Inside config p d →
        Contention.move config { s with disk := d } q a fates = some s' → s'.disk = d) ∧
      ∃ m, Machine.Reaches config (fun _ _ _ => True) ⟨s₀.disk, none, s₀.reported⟩ m ∧ s.SeenAs m := by
  obtain ⟨m, h⟩ := hs.ruled hl h₀
  refine ⟨h.unique, h.locked, fun p q a fates d s' hp hq hlegal hd he => ?_, m, h.reaches, h.toSeenAs⟩
  have hdir := h.dir p fun hout => by simp [hout, Phase.locks] at hp
  have hkept := flags_kept fun l e => l = true ∧ e = true
  obtain ⟨hlock, hexists⟩ := hd.keeps hkept ⟨h.locked.mpr ⟨p, hp⟩, hdir⟩
  exact (Contention.move_taken hlegal he).disk (h.others hp hq) hlock hexists

end

/-- Party 0 takes the lock while party 1 waits for it, with another seed, and party 2 dies with the lock
file open. -/
theorem single_writer_race : ∃ s : Contention ℕ,
    Contention.Reaches tightConfig (Contention.onDisk (Disk.fresh true fun _ => 0)) s ∧
    (s.phase 0).locks = true ∧ (s.move tightConfig 1 .goOn []).isSome = true ∧
    (∀ p q, (s.phase p).locks = true → (s.phase q).locks = true → p = q) ∧
      (s.disk.locked = true ↔ ∃ p, (s.phase p).locks = true) ∧
      (∀ p q a fates d s', (s.phase p).locks = true → q ≠ p → a.Legal → s.Inside tightConfig p d →
        Contention.move tightConfig { s with disk := d } q a fates = some s' → s'.disk = d) ∧
      ∃ m, Machine.Reaches tightConfig (fun _ _ _ => True) ⟨Disk.fresh true fun _ => 0, none, []⟩ m ∧
        s.SeenAs m := by
  have hraces : ((Contention.run tightConfig [(0, .call (.openLog 1), []), (1, .call (.openLog 7), []),
      (2, .call (.openLog 1), []), (1, .goOn, []), (2, .goOn, []), (0, .goOn, []), (2, .die, []),
      (0, .goOn, []), (0, .goOn, [])] (Contention.onDisk (Disk.fresh true fun _ => 0))).map
        fun s : Contention ℕ => ((s.phase 0).locks, (s.move tightConfig 1 .goOn []).isSome)) =
      some (true, true) := by decide +kernel
  obtain ⟨s, hrun, hs⟩ := Option.map_eq_some_iff.mp hraces
  obtain ⟨h0, h1⟩ := Prod.mk.inj hs
  have hreaches := Contention.Reaches.start.run (by simp [Move.Legal, Op.Legal, u64Max]) hrun
  exact ⟨s, hreaches, h0, h1, single_writer rfl (fun _ => rfl) hreaches⟩

end OpenWal
