import OpenWal.Model.CrashMatrix
import OpenWal.Results.Allocation
import OpenWal.Results.Provenance
import OpenWal.Theory.CutNames

namespace OpenWal.CrashMatrix
open ByteSeq Posix CrashProg

def Written (c : Child) (l : ℕ) (p : Bytes) : Prop := c.seed ≤ l ∧ l ≤ c.last ∧ p = c.payload l

structure Reaching (c : Child) (floor oldest : ℕ) (ps : List Bytes) : Prop where
  seed_le : c.seed ≤ oldest
  floor_lt : floor < oldest + ps.length
  written : ∀ r ∈ numbered oldest ps, Written c r.1 r.2

variable {c : Child} {floor : ℕ}

theorem stable_reaching (c : Child) (floor : ℕ) : Stable (Written c) (Reaching c floor) where
  append {oldest ps qs} h hq := by
    refine ⟨h.seed_le, ?_, (stable_forall (Q := Written c)).append h.written hq⟩
    rw [List.length_append]
    exact h.floor_lt.trans_le (by omega)
  drop {oldest ps qs} h := by
    refine ⟨h.seed_le.trans (Nat.le_add_right _ _), ?_, (stable_forall (Q := Written c)).drop h.written⟩
    have hlt := h.floor_lt
    rwa [List.length_append, ← Nat.add_assoc] at hlt

section

variable [Crc32c] {config : WalConfig} {m m' : Machine} {op : OpenWal.Op} {fates : List Fate}
  {o : Outcome WalError Reply} {wal : Wal} {d d' d₀ : Disk} {oldest seed : ℕ} {sealed : List (List Bytes)}
  {active ps : List Bytes} {f : File} {s s' : Session} {t : Turn}

/-- A child whose records fit into segments, where no cut of a frame of theirs does harm. -/
structure Tame (config : WalConfig) (c : Child) : Prop where
  valid : config.Valid
  legal : (Op.openLog c.seed).Legal
  seed_le : c.seed ≤ c.last
  fits : ∀ l, c.seed ≤ l → l ≤ c.last → (c.payload l).length ≤ config.maxRecordSize
  cuts : ∀ l, c.seed ≤ l → l ≤ c.last → ∀ room, framedSize (c.payload l).length ≤ room →
    CutHarmless config.maxRecordSize l (c.payload l) room

theorem cutsHarmless_of_written (h : Tame config c) {e x : ℕ}
    (hps : ∀ r ∈ numbered e ps, Written c r.1 r.2) :
    CutsHarmless config.segmentSize config.maxRecordSize x e ps := by
  induction ps generalizing x e with
  | nil => trivial
  | cons p ps ih =>
    obtain ⟨hseed, hlast, hp⟩ := hps (e, p) List.mem_cons_self
    have hfits := h.valid.fits (h.fits e hseed hlast)
    have hcut := h.cuts e hseed hlast
    rw [← hp] at hfits hcut
    refine ⟨hcut _ ?_, ih fun r hr => hps r (List.mem_cons_of_mem _ hr)⟩
    split_ifs with hx
    · exact Nat.le_sub_of_add_le' hx
    · exact Nat.le_sub_of_add_le' hfits

/-- There is no process to die. -/
theorem die_of_none
    (hu : Upholds config (fun _ => True) (fun _ _ => True) (fun _ _ _ _ _ => True) m.disk m.handle)
    (hh : m.handle = none) : m.die = m := by
  rw [hh] at hu
  cases hu with
  | rest hl _ =>
    obtain ⟨d, handle, reported⟩ := m
    simp only [Machine.die] at hl hh ⊢
    rw [← hl, hh]

structure Kept (config : WalConfig) (c : Child) (floor : ℕ) (m : Machine) : Prop where
  holding : Holding config (Reaching c floor) m.disk m.handle
  staged : ∀ wal, m.handle = some wal → StagedMeet config (Written c) wal
  allocates : m.Allocates
  starts : c.checkpoints = false → StartsBelow c.seed m.disk

structure Asked (config : WalConfig) (c : Child) (m : Machine) (op : OpenWal.Op) (fates : List Fate) :
    Prop where
  legal : op.Legal
  opens : ∀ seed, op = .openLog seed →
    ZeroedWhole config.segmentSize m.disk (openSeeded config seed ⟨m.disk, fates⟩).2.disk
  offered : Offered (Written c) m op
  commits : op = .commit → ∀ wal, m.handle = some wal → wal.poisoned = false
  checkpoints : ∀ upTo, op = .checkpoint upTo → c.checkpoints = true

namespace Kept

theorem benign (htame : Tame config c) (h : Kept config c floor m)
    (ha : Asked config c m op fates) : Benign config m op fates := by
  cases op with
  | openLog seed => exact fun _ => ⟨h.allocates.disk.notCut, ha.opens seed rfl⟩
  | commit =>
    intro wal staged hw hst hb
    have hp := ha.commits rfl wal hw
    have hu := h.holding
    rw [hw] at hu
    cases hu with
    | stuck _ _ hpois => simp [hp] at hpois
    | live _ _ _ _ _ _ => exact cutsHarmless_of_written htame (h.staged _ hw hp staged hst hb)
  | _ => trivial

theorem step (htame : Tame config c) (h : Kept config c floor m) (ha : Asked config c m op fates)
    (he : m.exec config op fates = some (o, m')) : Kept config c floor m' where
  holding := by
    have hup := upheld_benign (Q := Written c) (fun m op fates => Benign config m op fates ∧
      ∀ wal, m.handle = some wal → StagedMeet config (Written c) wal) (stable_reaching c floor)
      (fun h => h.1) fun h hw => h.2 _ hw
    exact (hup.step h.holding ha.legal ⟨h.benign htame ha, h.staged⟩ he).1
  staged := stagedMeet_step h.holding.forget h.staged ha.legal ha.offered he
  allocates := allocates_step h.allocates ha.legal he
  starts hc := by
    refine startsBelow_step h.holding.forget (h.starts hc) (fun upTo hop => ?_) he
    have hdeletes := ha.checkpoints upTo hop
    simp [hc] at hdeletes

/-- The log goes beyond the watermark of an open handle. -/
theorem durable (h : Kept config c floor m) (hw : m.handle = some wal) (hp : wal.poisoned = false) :
    Kept config c wal.durableLsn m ∧ floor ≤ wal.durableLsn ∧ wal.durableLsn ≤ u64Max := by
  have hu := h.holding
  rw [hw] at hu
  cases hu with
  | stuck _ _ hpois => simp [hp] at hpois
  | live hv hlock hdir hc hobs ht =>
    rename_i oldest sealed active observed staged f
    have hpos := hc.activeBase_pos
    have hnext := next_eq oldest sealed active
    have hlt := ht.holds.floor_lt
    have hle := hc.next_le
    simp only [handleOn]
    refine ⟨⟨?_, h.staged, h.allocates, h.starts⟩, by omega, by omega⟩
    rw [hw]
    exact .live hv hlock hdir hc hobs ⟨ht.clean, ht.zero, ht.holds.seed_le, by omega, ht.holds.written⟩

theorem die (htame : Tame config c) (h : Kept config c floor m) : Kept config c floor m.die := by
  rcases hh : m.handle with _ | wal
  · rwa [die_of_none h.holding.forget hh]
  · have ha : Asked config c m .close [] := ⟨trivial, by simp, by simp [Offered], by simp, by simp⟩
    exact h.step htame ha (Machine.exec_close hh)

end Kept

def LiveAt (m : Machine) (next : ℕ) : Prop :=
  ∃ wal, m.handle = some wal ∧ wal.poisoned = false ∧ wal.lastLsn + 1 = next

section

variable {next lsn w : ℕ} {rep : RecoveryReport} {r : Reply} {payload : Bytes} {upTo : ℕ}
  (hu : Upholds config (fun _ => True) (fun _ _ => True) (fun _ _ _ _ _ => True) m.disk m.handle)

theorem opened_liveAt (hseed : seed ≤ u64Max)
    (he : m.exec config (.openLog seed) fates = some (.ret (.opened rep), m')) :
    LiveAt m' (rep.durableLsn + 1) := by
  obtain ⟨-, -, -, oldest, sealed, active, ts, f, hh, rfl, -⟩ := Machine.opened hseed he
  exact ⟨_, hh, rfl, rfl⟩

include hu

theorem append_liveAt (he : m.exec config (.append payload) fates = some (.ret (.appended lsn), m')) :
    LiveAt m' (lsn + 1) := by
  obtain ⟨wal, hw⟩ := Machine.handle_of_exec (by simp) he
  rw [Machine.exec_append hw, Option.some.injEq] at he
  have hends : Ends (fun a s => s.wal.poisoned = false ∧ s.wal.lastLsn = a)
      (fun _ _ => True) (fun _ => True) (append payload ⟨wal, ⟨m.disk, fates⟩⟩) := by
    rw [hw] at hu
    cases hu with
    | stuck _ _ hp =>
      rw [append_poisoned hp]
      trivial
    | live hv hlock hdir hc hobs h =>
      rename_i oldest sealed active observed staged f
      have hpos := hc.activeBase_pos
      by_cases hlen : config.maxRecordSize < payload.length
      · rw [append_tooLarge hlen]
        trivial
      by_cases hx : u64Max < activeBase oldest sealed + active.length + staged.length
      · rw [append_exhausted (Nat.not_lt.mp hlen) hx]
        trivial
      rw [append_staged (Nat.not_lt.mp hlen) hpos (Nat.not_lt.mp hx)]
      refine ⟨rfl, ?_⟩
      simp only [handleOn, List.length_append, List.length_singleton]
      omega
  obtain ⟨a, s, ho, ⟨hp, hlast⟩, rfl⟩ | ⟨e, s, ho, -⟩ | ⟨s, ho, -⟩ := Machine.execOn_ends hends he
  · obtain rfl : lsn = a := by simpa using ho
    exact ⟨_, rfl, hp, congrArg (· + 1) hlast⟩
  · simp at ho
  · simp at ho

theorem commit_liveAt (h : LiveAt m next)
    (he : m.exec config .commit fates = some (.ret (.committed w), m')) :
    LiveAt m' next ∧ w + 1 = next ∧
      ∃ wal, m'.handle = some wal ∧ wal.poisoned = false ∧ wal.durableLsn = w := by
  obtain ⟨wal, hw, hp, rfl⟩ := h
  rw [Machine.exec_commit hw, Option.some.injEq] at he
  have hends : Ends
      (fun a s => s.wal.poisoned = false ∧ s.wal.lastLsn = wal.lastLsn ∧ s.wal.durableLsn = a ∧
        a = wal.lastLsn)
      (fun _ _ => True) (fun _ => True) (commit ⟨wal, ⟨m.disk, fates⟩⟩) := by
    rw [hw] at hu
    cases hu with
    | stuck _ _ hpois => simp [hp] at hpois
    | live hv hlock hdir hc hobs h =>
      rename_i oldest sealed active observed staged f
      by_cases hs : staged = []
      · subst hs
        exact ⟨rfl, rfl, rfl, rfl⟩
      have hrule := (Upheld.trivially config fun _ _ _ => True).commits oldest
      refine (commit_triple hrule hv hs fates hc trivial).imp ?_ (fun _ _ _ => trivial) fun _ _ => trivial
      rintro a s ⟨rfl, sealed', active', observed', f', hnext, hwal, -⟩
      have hpos := hc.activeBase_pos
      rw [hwal]
      simp only [handleOn, hnext, List.length_nil]
      exact ⟨trivial, by omega, by omega, by omega⟩
  obtain ⟨a, s, ho, ⟨hp', hlast, hdurable, hall⟩, rfl⟩ | ⟨e, s, ho, -⟩ | ⟨s, ho, -⟩ :=
    Machine.execOn_ends hends he
  · obtain rfl : w = a := by simpa using ho
    exact ⟨⟨_, rfl, hp', congrArg (· + 1) hlast⟩, congrArg (· + 1) hall, _, rfl, hp', hdurable⟩
  · simp at ho
  · simp at ho

theorem checkpoint_liveAt (h : LiveAt m next)
    (he : m.exec config (.checkpoint upTo) fates = some (.ret r, m')) : LiveAt m' next := by
  obtain ⟨wal, hw, hp, rfl⟩ := h
  rw [Machine.exec_checkpoint hw, Option.some.injEq] at he
  have hends : Ends (fun _ s => s.wal.poisoned = false ∧ s.wal.lastLsn = wal.lastLsn)
      (fun _ _ => True) (fun _ => True) (checkpoint upTo ⟨wal, ⟨m.disk, fates⟩⟩) := by
    rw [hw] at hu
    cases hu with
    | stuck _ _ hpois => simp [hp] at hpois
    | live hv hlock hdir hc hobs h =>
      rename_i oldest sealed active observed staged f
      obtain ⟨xs, ys, rfl, -, -, hends⟩ := checkpoint_triple hc.toCarries observed staged upTo fates
      refine hends.imp ?_ (fun _ _ _ => trivial) fun _ _ => trivial
      rintro _ s ⟨hwal, -⟩
      rw [hwal]
      simp only [handleOn, activeBase_append]
      exact ⟨trivial, trivial⟩
  obtain ⟨a, s, -, ⟨hp', hlast⟩, rfl⟩ | ⟨e, s, ho, -⟩ | ⟨s, ho, -⟩ := Machine.execOn_ends hends he
  · exact ⟨_, rfl, hp', congrArg (· + 1) hlast⟩
  · simp at ho
  · simp at ho

end

/-- What was announced, and what was in the log before, is in the log; what was announced is no less
than what was in the log. -/
def Told (config : WalConfig) (c : Child) (floor : ℕ) (s : Session) : Prop :=
  ∃ reach, floor ≤ reach ∧ (∀ durable ∈ s.announced, max c.seed floor ≤ durable ∧ durable ≤ reach) ∧
    Kept config c reach s.machine

structure Going (config : WalConfig) (c : Child) (floor : ℕ) (s : Session) : Prop where
  told : Told config c floor s
  live : LiveAt s.machine s.nextLsn
  seed_le : c.seed ≤ s.nextLsn

section

variable {durable next : ℕ} {b : Bool}

theorem reclaim_keeps (htame : Tame config c) (h : Kept config c floor m) (hlive : LiveAt m next)
    (hd : durable ≤ u64Max) (he : reclaim config c m durable fates = some (o, m')) :
    Kept config c floor m' ∧ ∀ r, o = .ret r → LiveAt m' next := by
  rw [reclaim] at he
  split_ifs at he with hc
  · have ha : Asked config c m (.checkpoint durable) fates :=
      ⟨hd, by simp, by simp [Offered], by simp, fun _ _ => hc⟩
    refine ⟨h.step htame ha he, ?_⟩
    rintro r rfl
    exact checkpoint_liveAt h.holding.forget hlive he
  · obtain ⟨-, rfl⟩ := Prod.mk.inj (Option.some.inj he)
    exact ⟨h, fun _ _ => hlive⟩

theorem commit_keeps (htame : Tame config c) (h : Kept config c floor m) (hlive : LiveAt m next)
    (he : m.exec config .commit fates = some (o, m')) :
    Kept config c floor m' ∧ ∀ durable, o = .ret (.committed durable) →
      Kept config c durable m' ∧ floor ≤ durable ∧ durable + 1 = next ∧ durable ≤ u64Max ∧
        LiveAt m' next := by
  have ha : Asked config c m .commit fates := by
    refine ⟨trivial, by simp, by simp [Offered], fun _ wal hw => ?_, by simp⟩
    obtain ⟨wal', hw', hp, -⟩ := hlive
    obtain rfl := Option.some.inj (hw'.symm.trans hw)
    exact hp
  have hkept := h.step htame ha he
  refine ⟨hkept, ?_⟩
  rintro durable rfl
  obtain ⟨hlive', hnext, wal, hw, hp, rfl⟩ := commit_liveAt h.holding.forget hlive he
  obtain ⟨hdurable, hle, hu64⟩ := hkept.durable hw hp
  exact ⟨hdurable, hle, hnext, hu64, hlive'⟩

/-- The child commits records of its own only. -/
theorem commitBatch_keeps (htame : Tame config c) (h : Going config c floor s)
    (hseed : c.seed < s.nextLsn) (he : commitBatch config c s t = (s', b)) :
    Told config c floor s' ∧ (b = true → Going config c floor s') := by
  obtain ⟨reach, hreach, hall, hkept⟩ := h.told
  unfold commitBatch at he
  split at he
  · rename_i durable m hexec
    obtain ⟨-, hcommitted⟩ := commit_keeps htame hkept h.live hexec
    obtain ⟨hkept', hle, hnext, hu64, hlive⟩ := hcommitted durable rfl
    have hfloor := hreach.trans hle
    have hall' : ∀ d ∈ s.announced, max c.seed floor ≤ d ∧ d ≤ durable := fun d hd =>
      ⟨(hall d hd).1, (hall d hd).2.trans hle⟩
    split at he
    · rename_i r m' hre
      obtain ⟨hk, hl⟩ := reclaim_keeps htame hkept' hlive hu64 hre
      obtain ⟨rfl, -⟩ := Prod.mk.inj he
      have htold : ∀ d ∈ if t.announced then s.announced ++ [durable] else s.announced,
          max c.seed floor ≤ d ∧ d ≤ durable := by
        intro d hd
        split_ifs at hd
        · rcases List.mem_append.mp hd with hd | hd
          · exact hall' d hd
          · obtain rfl := List.mem_singleton.mp hd
            exact ⟨max_le (by omega) hfloor, le_rfl⟩
        · exact hall' d hd
      exact ⟨⟨_, hfloor, htold, hk⟩, fun _ => ⟨⟨_, hfloor, htold, hk⟩, hl r rfl, h.seed_le⟩⟩
    · rename_i o m' _ hre
      obtain ⟨rfl, rfl⟩ := Prod.mk.inj he
      exact ⟨⟨_, hfloor, hall', (reclaim_keeps htame hkept' hlive hu64 hre).1⟩, by simp⟩
    · obtain ⟨rfl, rfl⟩ := Prod.mk.inj he
      exact ⟨⟨_, hfloor, hall', hkept'⟩, by simp⟩
  · rename_i o m _ hexec
    obtain ⟨rfl, rfl⟩ := Prod.mk.inj he
    exact ⟨⟨reach, hreach, hall, (commit_keeps htame hkept h.live hexec).1⟩, by simp⟩
  · obtain ⟨rfl, rfl⟩ := Prod.mk.inj he
    exact ⟨h.told, by simp⟩

theorem turn_keeps (htame : Tame config c) (h : Going config c floor s)
    (he : turn config c s t = (s', b)) :
    Told config c floor s' ∧ (b = true → Going config c floor s') := by
  unfold turn at he
  split_ifs at he with hdone hfinishes
  · obtain ⟨rfl, rfl⟩ := Prod.mk.inj he
    exact ⟨(commitBatch_keeps htame h (htame.seed_le.trans_lt hdone) rfl).1, by simp⟩
  · obtain ⟨rfl, rfl⟩ := Prod.mk.inj he
    exact ⟨h.told, by simp⟩
  obtain ⟨reach, hreach, hall, hkept⟩ := h.told
  have ha : Asked config c s.machine (.append (c.payload s.nextLsn)) [] := by
    refine ⟨trivial, by simp, ?_, by simp, by simp⟩
    rintro wal _ hw ⟨⟩
    obtain ⟨wal', hw', -, hlast⟩ := h.live
    obtain rfl := Option.some.inj (hw'.symm.trans hw)
    rw [hlast]
    exact ⟨h.seed_le, Nat.not_lt.mp hdone, rfl⟩
  split at he
  · rename_i lsn m hexec
    have hk := hkept.step htame ha hexec
    by_cases hlsn : lsn = s.nextLsn
    · have hlive := append_liveAt hkept.holding.forget hexec
      rw [hlsn] at hlive
      have hgoing : ∀ sinceCommit, Going config c floor ⟨m, s.nextLsn + 1, sinceCommit, s.announced⟩ :=
        fun _ => ⟨⟨reach, hreach, hall, hk⟩, hlive, h.seed_le.trans (Nat.le_succ _)⟩
      rw [if_pos hlsn] at he
      dsimp only at he
      split at he
      · exact commitBatch_keeps htame (hgoing _) (Nat.lt_succ_of_le h.seed_le) he
      · obtain ⟨rfl, -⟩ := Prod.mk.inj he
        exact ⟨(hgoing _).told, fun _ => hgoing _⟩
    · rw [if_neg hlsn] at he
      obtain ⟨rfl, rfl⟩ := Prod.mk.inj he
      exact ⟨⟨reach, hreach, hall, hk⟩, by simp⟩
  · rename_i o m _ hexec
    obtain ⟨rfl, rfl⟩ := Prod.mk.inj he
    exact ⟨⟨reach, hreach, hall, hkept.step htame ha hexec⟩, by simp⟩
  · obtain ⟨rfl, rfl⟩ := Prod.mk.inj he
    exact ⟨h.told, by simp⟩

theorem turns_keep (htame : Tame config c) (ts : List Turn) (h : Going config c floor s) :
    Told config c floor (turns config c ts s) := by
  induction ts generalizing s with
  | nil => exact h.told
  | cons t ts ih =>
    rw [turns]
    split
    · rename_i s' hturn
      exact ih ((turn_keeps htame h hturn).2 rfl)
    · rename_i s' hturn
      exact (turn_keeps htame h hturn).1

end

omit [Crc32c] in
theorem onDisk_of_ends {α : Type} {I : Disk → Prop} {l : Bool} {r : Outcome WalError α × World}
    (h : Ends (fun _ => OnDisk I) (fun _ => OnDisk fun e => I e ∧ e.locked = l) (OnDisk I) r) :
    I r.2.disk := by
  obtain ⟨o, w⟩ := r
  cases o with
  | ret _ => exact h
  | err _ => exact h.1
  | crashed => exact h
  | diverged => exact h.elim

def ClearTail (config : WalConfig) (d : Disk) : Prop :=
  ∀ d₀ base f ps, Discards config (acquired d) d₀ → (basesOf d₀).getLast? = some base →
    d₀.file (filenameFor base) = some f →
    SegmentHolds config.segmentSize config.maxRecordSize f.data base ps →
    ZeroOn f.data (headerSize + runSize ps) config.segmentSize

theorem clearTail_of_tidy {P : ℕ → List Bytes → Prop} (hc : Carries config d oldest sealed active f)
    (h : Tidy config P oldest sealed active f d) : ClearTail config d := by
  intro d₀ base g ps hdis hlast hg hs
  have hacq : Carries config (acquired d) oldest sealed active f := hc.congr ⟨fun _ => rfl, rfl⟩
  obtain rfl := hdis.unique hacq.keeps
  obtain rfl : activeBase oldest sealed = base := by
    simpa using hacq.getLast?_bases.symm.trans hlast
  obtain rfl := Option.some.inj (hacq.file.symm.trans hg)
  obtain rfl := hacq.run.eq_of_stops (h.resting hc).tail.stops hs.run hs.stops
  exact h.zero

/-- Where nothing lies behind the records, no `open` has a tail to zero, however far it gets. -/
theorem ClearTail.zeroedWhole (h : ClearTail config d) (seed : ℕ) (fates : List Fate) :
    ZeroedWhole config.segmentSize d (openSeeded config seed ⟨d, fates⟩).2.disk := by
  -- a segment with a whole header is found
  have hfound : ∀ {d₀ b g}, Discards config (acquired d) d₀ → HeaderOk g.data b →
      d.file (filenameFor b) = some g → d₀.file (filenameFor b) = some g := fun hdis hh hg =>
    hdis.file_of_headerOk hg hh
  refine onDisk_of_ends (openSeeded_triple seed (fun d' e hs h => h.of_files fun n => hs.file n)
    (fun b f g _ hf hg i hi => ?_) ?_ ?_ ?_ ⟨d, fates⟩ rfl)
  · exact absurd (Option.some.inj (hf.symm.trans hg) ▸ rfl) hi
  · rintro - - d' ⟨base, f₀, hlast, hf₀, hinc, hs⟩ b f g hh hf hg i hi
    rw [hs.file] at hg
    by_cases hb : filenameFor b = filenameFor base
    · rw [hb, Disk.remove_file_self] at hg
      cases hg
    · rw [Disk.remove_file_ne d hb, hf] at hg
      exact absurd (Option.some.inj hg ▸ rfl) hi
  · intro _ _ d₀ d' hdis hnil _ _ b f g hh hf
    have hmem := mem_basesOf.mpr ⟨hh.le_u64Max, f, hfound hdis hh hf⟩
    simp [hnil] at hmem
  · rintro - - d₀ base f₀ ps d' hdis hlast hf₀ hs hz b f g hh hf hg i hi
    obtain ⟨⟨hdiff, -⟩, y, hy, -, g₀, hg₀, hdata⟩ := hz
    have hclear := h d₀ base f₀ ps hdis hlast hf₀ hs
    have hf' := hfound hdis hh hf
    by_cases hb : filenameFor b = filenameFor base
    · rw [hb] at hf' hg
      obtain rfl := Option.some.inj (hf'.symm.trans hf₀)
      obtain rfl := Option.some.inj (hg₀.symm.trans hg)
      -- zeros are written over zeros
      refine absurd ?_ hi
      rw [hdata, overwrite_getElem? _ (hs.run.le_file hs.header.le_length), zeros_length, zeros_getElem?]
      split_ifs with hin hlt
      · exact (hclear i hin.1 (by omega)).symm
      · omega
      · rfl
    · rw [hdiff.others _ hb, hf'] at hg
      exact absurd (Option.some.inj hg ▸ rfl) hi

theorem clearTail_of_none (hnil : basesOf d = []) : ClearTail config d := by
  intro d₀ base f ps hdis hlast
  have hnil' : basesOf (acquired d) = [] := hnil
  obtain rfl := hdis.unique (.nothing hnil')
  simp [hnil'] at hlast

/-- An `open` creates no segment but one at its seed. -/
theorem openSeeded_basesOf (h : ∀ b ∈ basesOf d, b = seed) (hseed : seed ≤ u64Max) (fates : List Fate) :
    ∀ b ∈ basesOf (openSeeded config seed ⟨d, fates⟩).2.disk, b = seed := by
  refine onDisk_of_ends (openSeeded_triple (I := fun e => ∀ b ∈ basesOf e, b = seed) seed
    (fun d' e hs h => ?_) h ?_ ?_ ?_ ⟨d, fates⟩ rfl)
  · have hsame : basesOf e = basesOf d' := basesOf_congr fun b _ => by rw [hs.file]
    exact fun b hmem => h b (hsame ▸ hmem)
  · rintro - - d' ⟨base, f, -, -, -, hs⟩ b hmem
    obtain ⟨hle, g, hg⟩ := mem_basesOf.mp hmem
    rw [hs.file] at hg
    refine h b (mem_basesOf.mpr ⟨hle, g, ?_⟩)
    by_cases hb : filenameFor b = filenameFor base
    · rw [hb, Disk.remove_file_self] at hg
      cases hg
    · rwa [Disk.remove_file_ne d hb] at hg
  · intro _ _ d₀ d' _ hnil hdiff _ b hmem
    obtain ⟨hle, g, hg⟩ := mem_basesOf.mp hmem
    by_contra hne
    rw [hdiff.others _ (filenameFor_ne hle hseed hne)] at hg
    simpa [hnil] using mem_basesOf.mpr ⟨hle, g, hg⟩
  · rintro - - d₀ base f ps d' hdis - hf - ⟨⟨hdiff, -⟩, -⟩ b hmem
    obtain ⟨hle, g, hg⟩ := mem_basesOf.mp hmem
    obtain ⟨g₀, hg₀⟩ : ∃ g₀, d₀.file (filenameFor b) = some g₀ := by
      by_cases hb : filenameFor b = filenameFor base
      · exact ⟨f, hb ▸ hf⟩
      · exact ⟨g, (hdiff.others _ hb).symm.trans hg⟩
    exact h b (mem_basesOf.mpr ⟨hle, g₀, hdis.file hg₀⟩)

/-- No record was ever committed, and there is no segment but the first one. -/
structure Fresh (config : WalConfig) (c : Child) (m : Machine) : Prop where
  holding : Holding config (fun oldest ps => ∀ r ∈ numbered oldest ps, Written c r.1 r.2) m.disk m.handle
  none : m.handle = none
  allocates : m.Allocates
  bases : ∀ b ∈ basesOf m.disk, b = c.seed

theorem Fresh.opens (h : Fresh config c m) (hseed : (Op.openLog c.seed).Legal)
    (hz : ZeroedWhole config.segmentSize m.disk (openSeeded config c.seed ⟨m.disk, fates⟩).2.disk)
    (he : m.exec config (.openLog c.seed) fates = some (o, m')) :
    (∀ rep, o = .ret (.opened rep) → Kept config c (c.seed - 1) m') ∧
      ((∀ rep, o ≠ .ret (.opened rep)) → Fresh config c m') := by
  have hup := upheld_benign (Q := Written c)
    (fun m op fates => Benign config m op fates ∧ op = .openLog c.seed) stable_forall (fun h => h.1)
    fun h _ => absurd h.2 (by simp)
  have hbenign : Benign config m (.openLog c.seed) fates := fun _ => ⟨h.allocates.disk.notCut, hz⟩
  have hu := (hup.step h.holding hseed ⟨hbenign, rfl⟩ he).1
  have hstaged := stagedMeet_step (Q := Written c) h.holding.forget (by simp [h.none]) hseed
    (by simp [Offered]) he
  have hallocates := allocates_step h.allocates hseed he
  have hends : ∀ b ∈ basesOf (openSeeded config c.seed ⟨m.disk, fates⟩).2.disk, b = c.seed :=
    openSeeded_basesOf h.bases hseed.2 fates
  have hexec := he
  rw [Machine.exec_openLog, Machine.execOpen, Option.some.injEq] at hexec
  rcases hopen : openSeeded config c.seed ⟨m.disk, fates⟩ with ⟨r, w⟩
  rw [hopen] at hexec hends
  cases r with
  | ret r =>
    obtain ⟨rfl, hm'⟩ := Prod.mk.inj hexec
    have hdisk : m'.disk = w.disk := hm' ▸ rfl
    obtain ⟨wal, hw, hp, -⟩ := opened_liveAt hseed.2 he
    rw [← hdisk] at hends
    refine ⟨fun rep _ => ?_, fun hne => absurd rfl (hne _)⟩
    have hu' := hu
    rw [hw] at hu'
    cases hu' with
    | stuck _ _ hpois => simp [hp] at hpois
    | live hv hlock hdir hc hobs ht =>
      rename_i oldest sealed active observed staged f
      obtain ⟨bases, hcons⟩ := basesFrom_eq_cons oldest sealed
      obtain rfl : oldest = c.seed := hends oldest (by simp [hc.bases, hcons])
      refine ⟨?_, hstaged, hallocates, fun _ => .of_carries hc.toCarries le_rfl⟩
      rw [hw]
      have hpos := hseed.1
      exact .live hv hlock hdir hc hobs ⟨ht.clean, ht.zero, le_rfl, by omega, ht.holds⟩
  | err e =>
    obtain ⟨rfl, rfl⟩ := Prod.mk.inj hexec
    exact ⟨by simp, fun _ => ⟨hu, h.none, hallocates, hends⟩⟩
  | crashed =>
    obtain ⟨rfl, rfl⟩ := Prod.mk.inj hexec
    exact ⟨by simp, fun _ => ⟨hu, rfl, hallocates, hends⟩⟩
  | diverged =>
    obtain ⟨rfl, rfl⟩ := Prod.mk.inj hexec
    exact ⟨by simp, fun _ => ⟨hu, h.none, hallocates, hends⟩⟩

/-- What the parent leaves: no handle is open, nothing is left to zero, and what is durable is found
again. -/
structure Closed (config : WalConfig) (c : Child) (durable : ℕ) (m : Machine) : Prop where
  kept : Kept config c durable m
  none : m.handle = none
  clear : ClearTail config m.disk
  again : ∀ seed rep m', (Op.openLog seed).Legal →
    m.exec config (.openLog seed) [] = some (.ret (.opened rep), m') → rep.durableLsn = durable

omit [Crc32c] in
/-- The records of the child, from any number on. -/
theorem expect_numbered {e : ℕ} (h : ∀ r ∈ numbered e ps, Written c r.1 r.2) :
    expect c e (numbered e ps) = some (e + ps.length) := by
  induction ps generalizing e with
  | nil => rfl
  | cons p ps ih =>
    obtain ⟨-, -, hp⟩ := h (e, p) List.mem_cons_self
    rw [numbered_cons, expect, if_pos ⟨rfl, hp⟩, ih fun r hr => h r (List.mem_cons_of_mem _ hr),
      List.length_cons, Nat.add_assoc, Nat.add_comm 1]

theorem refusesBelow_of_live (hh : m.handle = some (handleOn config oldest sealed active [] []))
    (h1 : 1 < oldest) : refusesBelow config m oldest = true := by
  have herr : readerFrom (handleOn config oldest sealed active [] []) m.disk (oldest - 1) =
      .error .contiguityViolation := readerFrom_below (by omega) (by omega)
  rw [refusesBelow, Machine.exec_replay hh, Machine.replayed, herr]

/-- A directory that a process left is opened, where no call fails. -/
theorem exec_open_of_rests {P : ℕ → List Bytes → Prop} (h : Rests config P m.disk) (hv : config.Valid)
    (hl : m.disk.locked = false) (hseed : (Op.openLog seed).Legal) :
    ZeroedWhole config.segmentSize m.disk (openSeeded config seed ⟨m.disk, []⟩).2.disk ∧
      ∃ rep m', m.exec config (.openLog seed) [] = some (.ret (.opened rep), m') := by
  obtain ⟨wal, rep, _, _, -, ⟨w, _, hopen, -⟩, -⟩ := h.recovers hv hl hseed
  obtain ⟨-, -, d', hw, hopens⟩ := openSeeded_opens hseed.2 hopen
  refine ⟨?_, rep, _, by rw [Machine.exec_openLog, Machine.execOpen, hopen]⟩
  rw [hopen, hw]
  exact hopens.zeroedWhole

variable {f₀ : ℕ} {rep : RecoveryReport}

/-- The assertions hold of what the parent finds in `m`, and it leaves that log. -/
structure Found (config : WalConfig) (c : Child) (f₀ seed : ℕ) (m : Machine) (durable : ℕ) (m' : Machine) :
    Prop where
  asserted : assertRecovers config c f₀ seed m = some (durable, m')
  floor_le : f₀ ≤ durable
  closed : Closed config c durable m'

/-- A log with a clean end is reported as it is. -/
theorem reported_of_logOn (hv : config.Valid) (hl : m.disk.locked = false)
    (hlog : LogOn config.segmentSize config.maxRecordSize m.disk oldest sealed active f)
    (hclean : CleanAt config.segmentSize f.data (headerSize + runSize active))
    (hseed : (Op.openLog seed).Legal)
    (he : m.exec config (.openLog seed) [] = some (.ret (.opened rep), m')) :
    rep = reportOn oldest sealed active .clean := by
  obtain ⟨d, hopen, -⟩ := openSeeded_of_logOn hv hseed.1 hl hlog (.clean hclean)
  rw [Machine.exec_openLog, Machine.execOpen, hopen] at he
  simpa using (congrArg (Option.map Prod.fst) he).symm

/-- The assertions hold of a log that is open. -/
theorem assertRecovers_of_opened (htame : Tame config c) (hseed : seed ≤ u64Max)
    (he : m.exec config (.openLog seed) [] = some (.ret (.opened rep), m')) (h : Kept config c floor m')
    (hfloor : f₀ ≤ floor) : Found config c f₀ seed m rep.durableLsn m'.die := by
  obtain ⟨-, -, -, oldest, sealed, active, ts, f, hh, rfl, hlog, -⟩ := Machine.opened hseed he
  obtain ⟨wal, hw⟩ : ∃ wal, wal = handleOn config oldest sealed active [] [] := ⟨_, rfl⟩
  have hu := h.holding
  rw [hh, ← hw] at hu
  cases hu with
  | stuck _ _ hpois => simp [hw, handleOn] at hpois
  | live hv hlock hdir hc hobs ht =>
    rename_i staged f'
    obtain ⟨rfl, rfl, rfl⟩ := (ht.resting hc.toCarries).logOn.unique hlog
    have hpos := hc.activeBase_pos
    have hnext := next_eq oldest sealed active
    have hlt := ht.holds.floor_lt
    have hfirst : c.checkpoints = false → oldest = c.seed := fun hcp =>
      ((h.starts hcp).oldest_le hc.toCarries).antisymm ht.holds.seed_le
    obtain ⟨r, hreader, hdrain⟩ := drain_of_logOn hlog
    have hreplay : m'.exec config (.replay 0) [] =
        some (.ret (.records (numbered oldest (sealed.flatten ++ active)) none), m') := by
      rw [Machine.exec_replay hh, Machine.replayed, hreader]
      simp only [hdrain]
    have hdead : SameFiles m'.disk m'.die.disk := ⟨fun _ => rfl, rfl⟩
    have hcarries := hc.toCarries.congr hdead
    have htidy := ht.congr hdead.file
    have hclean := cleanAt_of_zeroOn ht.zero le_rfl
    have hdurable : (reportOn oldest sealed active ts).durableLsn + 1 =
        oldest + (sealed.flatten ++ active).length := reportOn_durable hpos active ts
    refine ⟨?_, by omega, (h.durable hh rfl).1.die htame, rfl, clearTail_of_tidy hcarries htidy,
      fun _ _ _ hseed' he' => ?_⟩
    swap
    · rw [reported_of_logOn hv rfl (htidy.resting hcarries).logOn hclean hseed' he']
      rfl
    have hstart : (if c.checkpoints then oldest else c.seed) = oldest := by
      split_ifs with hcp
      · rfl
      · exact (hfirst (Bool.eq_false_iff.mpr hcp)).symm
    rw [assertRecovers, he]
    simp only [hreplay]
    refine if_pos ⟨by omega, ?_, ?_, fun h => refusesBelow_of_live hh h.2⟩
    · by_cases hcp : c.checkpoints
      · exact Or.inl hcp
      · have holdest := hfirst (Bool.eq_false_iff.mpr hcp)
        exact Or.inr ⟨holdest, by rw [hh, Option.map_some, ← holdest, handleOn]⟩
    · exact hstart.symm ▸ (expect_numbered ht.holds.written).trans (congrArg some hdurable.symm)

theorem Kept.parent (htame : Tame config c) (h : Kept config c floor m) (hh : m.handle = none)
    (hseed : (Op.openLog seed).Legal) (hfloor : f₀ ≤ floor) :
    ∃ rep m', m.exec config (.openLog seed) [] = some (.ret (.opened rep), m') ∧
      Found config c f₀ seed m rep.durableLsn m'.die := by
  have hu := h.holding
  rw [hh] at hu
  cases hu with
  | rest hl hr =>
    obtain ⟨hz, rep, m', he⟩ := exec_open_of_rests (hr h.allocates.disk.notCut) htame.valid hl hseed
    have ha : Asked config c m (.openLog seed) [] := by
      refine ⟨hseed, ?_, by simp [Offered], by simp, by simp⟩
      rintro _ ⟨⟩
      exact hz
    exact ⟨rep, m', he, assertRecovers_of_opened htame hseed.2 he (h.step htame ha he) hfloor⟩

theorem Fresh.parent (htame : Tame config c) (h : Fresh config c m) :
    ∃ durable m', Found config c (c.seed - 1) c.seed m durable m' := by
  have hu := h.holding
  rw [h.none] at hu
  cases hu with
  | rest hl hr =>
    obtain ⟨hz, rep, m', he⟩ := exec_open_of_rests (hr h.allocates.disk.notCut) htame.valid hl htame.legal
    exact ⟨_, _, assertRecovers_of_opened htame htame.legal.2 he ((h.opens htame.legal hz he).1 rep rfl)
      le_rfl⟩

/-- Reopening finds the same log, however often. -/
theorem Closed.reopens (htame : Tame config c) {durable : ℕ} (h : Closed config c durable m)
    (hfloor : f₀ ≤ durable) {seeds : List ℕ} (hseeds : ∀ seed ∈ seeds, (Op.openLog seed).Legal) :
    ∃ m', reopens config c f₀ durable seeds m = some m' ∧ Closed config c durable m' := by
  induction seeds generalizing m with
  | nil => exact ⟨m, rfl, h⟩
  | cons seed seeds ih =>
    have hseed := hseeds seed List.mem_cons_self
    obtain ⟨rep, m', he, hfound⟩ := h.kept.parent htame h.none hseed hfloor
    obtain rfl := h.again seed rep m' hseed he
    obtain ⟨m'', hmore, hclosed⟩ := ih hfound.closed fun s hs => hseeds s (List.mem_cons_of_mem _ hs)
    refine ⟨m'', ?_, hclosed⟩
    rw [CrashMatrix.reopens, hfound.asserted]
    simpa using hmore

/-- An open log of the child is not below its seed. -/
theorem Kept.seed_le {next : ℕ} (h : Kept config c floor m) (hlive : LiveAt m next) : c.seed ≤ next := by
  obtain ⟨wal, hw, hp, rfl⟩ := hlive
  have hu := h.holding
  rw [hw] at hu
  cases hu with
  | stuck _ _ hpois => simp [hp] at hpois
  | live hv hlock hdir hc hobs ht =>
    rename_i oldest sealed active observed staged f
    have hseed := ht.holds.seed_le
    have hle := le_activeBase oldest sealed
    simp only [handleOn]
    omega

theorem going_of_opened (hseed : seed ≤ u64Max) {rep : RecoveryReport}
    (he : m.exec config (.openLog seed) fates = some (.ret (.opened rep), m'))
    (h : Kept config c floor m') : Going config c floor ⟨m', rep.durableLsn + 1, 0, []⟩ :=
  have hlive := opened_liveAt hseed he
  ⟨⟨floor, le_rfl, by simp, h⟩, hlive, h.seed_le hlive⟩

/-- A child that goes on with a log. -/
theorem Closed.child (htame : Tame config c) (h : Closed config c floor m) (fates : List Fate)
    (ts : List Turn) : Told config c floor (child config c m fates ts) := by
  have hseed := htame.legal
  have ha : Asked config c m (.openLog c.seed) fates := by
    refine ⟨hseed, ?_, by simp [Offered], by simp, by simp⟩
    rintro _ ⟨⟩
    exact h.clear.zeroedWhole _ _
  unfold CrashMatrix.child
  split
  · rename_i rep m' he
    exact turns_keep htame ts (going_of_opened hseed.2 he (h.kept.step htame ha he))
  · rename_i o m' _ he
    exact ⟨floor, le_rfl, by simp, h.kept.step htame ha he⟩
  · exact ⟨floor, le_rfl, by simp, h.kept⟩

/-- The first child. -/
theorem Fresh.child (htame : Tame config c) (h : Fresh config c m)
    (hclear : ClearTail config m.disk) (fates : List Fate) (ts : List Turn) :
    Told config c (c.seed - 1) (child config c m fates ts) ∨
      (child config c m fates ts).announced = [] ∧ Fresh config c (child config c m fates ts).machine := by
  have hseed := htame.legal
  have hz := hclear.zeroedWhole c.seed fates
  unfold CrashMatrix.child
  split
  · rename_i rep m' he
    exact Or.inl (turns_keep htame ts (going_of_opened hseed.2 he ((h.opens hseed hz he).1 rep rfl)))
  · rename_i o m' hne he
    exact Or.inr ⟨rfl, (h.opens hseed hz he).2 fun rep ho => hne rep ho⟩
  · exact Or.inr ⟨rfl, h⟩

omit [Crc32c] in
theorem getLastD_le {ls : List ℕ} {reach : ℕ} (h : ∀ l ∈ ls, l ≤ reach) : ls.getLastD 0 ≤ reach := by
  rcases List.eq_nil_or_concat ls with rfl | ⟨ls, l, rfl⟩
  · exact Nat.zero_le _
  · rw [List.concat_eq_append, List.getLastD_concat]
    exact h l (by simp)

def Cycle.Legal (k : Cycle) : Prop :=
  (Op.openLog k.seed).Legal ∧ ∀ seed ∈ k.again, (Op.openLog seed).Legal

/-- No assertion fails, but one of a child that ended without a line. -/
def Holds (v : Verdict) (cycles : List Cycle) : Prop :=
  v = .passed ∨ v = .silent ∧ ∃ k ∈ cycles, k.steady = true

variable {told : ℕ} {k : Cycle} {ks : List Cycle}

theorem holds_of_found {durable : ℕ} (htame : Tame config c) (hk : k.Legal)
    (hfound : Found config c (max floor ((child config c m k.opens k.turns).announced.getLastD 0)) k.seed
      (child config c m k.opens k.turns).machine.die durable m')
    (htold : told ≤ (child config c m k.opens k.turns).announced.getLastD 0 ∨
      (child config c m k.opens k.turns).announced = [])
    (hks : ∀ m'', Closed config c durable m'' → Holds (matrix config c
      (max told ((child config c m k.opens k.turns).announced.getLastD 0)) durable m'' ks) ks) :
    Holds (matrix config c told floor m (k :: ks)) (k :: ks) := by
  rw [matrix]
  split_ifs with hwaits hnone
  · exact Or.inr ⟨rfl, k, List.mem_cons_self, hwaits.1⟩
  · exact absurd hwaits.2 (Nat.not_lt.mpr (htold.resolve_right hnone))
  · obtain ⟨m'', hagain, hclosed⟩ := hfound.closed.reopens htame hfound.floor_le hk.2
    simp only [hfound.asserted, hagain]
    refine (hks m'' hclosed).imp_right fun ⟨hsilent, k', hk', hsteady⟩ => ?_
    exact ⟨hsilent, k', List.mem_cons_of_mem _ hk', hsteady⟩

/-- The parent finds what the child leaves. -/
theorem Told.parent (htame : Tame config c) (h : Told config c floor s) (hseed : (Op.openLog seed).Legal) :
    ∃ durable m', Found config c (max floor (s.announced.getLastD 0)) seed s.machine.die durable m' := by
  obtain ⟨reach, hreach, hall, hkept⟩ := h
  have hlast := getLastD_le fun l hl => (hall l hl).2
  obtain ⟨rep, m', -, hfound⟩ := (hkept.die htame).parent htame rfl hseed (max_le hreach hlast)
  exact ⟨_, _, hfound⟩

/-- What the child announces is no less than what was announced before. -/
theorem Told.le (h : Told config c floor s) (htold : told ≤ max c.seed floor) :
    told ≤ s.announced.getLastD 0 ∨ s.announced = [] := by
  obtain ⟨reach, -, hall, -⟩ := h
  rcases List.eq_nil_or_concat s.announced with hnil | ⟨ls, l, hls⟩
  · exact Or.inr hnil
  · left
    rw [hls, List.concat_eq_append, List.getLastD_concat]
    exact htold.trans (hall l (by simp [hls])).1

theorem Told.holds (htame : Tame config c) (h : Told config c floor (child config c m k.opens k.turns))
    (htold : told ≤ max c.seed floor) (hk : k.Legal)
    (hks : ∀ told' durable m'', told' ≤ max c.seed durable → Closed config c durable m'' →
      Holds (matrix config c told' durable m'' ks) ks) :
    Holds (matrix config c told floor m (k :: ks)) (k :: ks) := by
  obtain ⟨durable, m', hfound⟩ := h.parent htame hk.1
  have hle := hfound.floor_le
  exact holds_of_found htame hk hfound (h.le htold) fun m'' hclosed => hks _ _ _ (by omega) hclosed

theorem matrix_of_closed (htame : Tame config c) (h : Closed config c floor m)
    (htold : told ≤ max c.seed floor) (hks : ∀ k ∈ ks, k.Legal) :
    Holds (matrix config c told floor m ks) ks := by
  induction ks generalizing told floor m with
  | nil => exact Or.inl rfl
  | cons k ks ih =>
    have hchild := h.child htame k.opens k.turns
    exact hchild.holds htame htold (hks k List.mem_cons_self) fun _ _ _ htold' hclosed =>
      ih hclosed htold' fun k' hk' => hks k' (List.mem_cons_of_mem _ hk')

/-- The first child may have left no log, and its parent is then to open one with the same seed. -/
theorem matrix_of_fresh (htame : Tame config c) (h : Fresh config c m) (hclear : ClearTail config m.disk)
    (hks : ∀ k' ∈ k :: ks, k'.Legal) (hfirst : k.steady = true ∨ k.seed = c.seed) :
    Holds (matrix config c c.seed (c.seed - 1) m (k :: ks)) (k :: ks) := by
  have hk := hks k List.mem_cons_self
  have hmore : ∀ told' durable m'', told' ≤ max c.seed durable → Closed config c durable m'' →
      Holds (matrix config c told' durable m'' ks) ks := fun _ _ _ htold' hclosed =>
    matrix_of_closed htame hclosed htold' fun k' hk' => hks k' (List.mem_cons_of_mem _ hk')
  rcases h.child htame hclear k.opens k.turns with htold | ⟨hnone, hfresh⟩
  · exact htold.holds htame (Nat.le_max_left _ _) hk hmore
  · by_cases hsteady : k.steady = true
    · have hpos := htame.legal.1
      refine Or.inr ⟨?_, k, List.mem_cons_self, hsteady⟩
      rw [matrix, hnone]
      exact (if_pos ⟨hsteady, hpos⟩).trans (if_pos rfl)
    · have hdead := die_of_none hfresh.holding.forget hfresh.none
      obtain ⟨durable, m', hfound⟩ := hfresh.parent htame
      have hparent : Found config c (max (c.seed - 1) ((child config c m k.opens k.turns).announced.getLastD 0))
          k.seed (child config c m k.opens k.turns).machine.die durable m' := by
        rw [hfirst.resolve_left hsteady, hnone, hdead]
        simpa using hfound
      refine holds_of_found htame hk hparent (Or.inr hnone) fun m'' hclosed => hmore _ _ _ ?_ hclosed
      rw [hnone]
      simp

end

section

variable {config : WalConfig} {c : Child}

/-- Where no end of the first digits leads to four digits, the child is tame: its numbers go up to
50000 from one that ends in four zeros. -/
theorem tame_of_digits (n high : ℕ) (hv : config.Valid) (hseed : (Op.openLog c.seed).Legal)
    (hle : c.seed ≤ c.last) (hdigits : c.digits = n + 4) (hfits : n + 8 ≤ config.maxRecordSize)
    (hlast : c.last < 10 ^ (n + 4) ∧ c.last ≤ u64Max) (hlo : high * 10 ^ 4 ≤ c.seed)
    (hhi : c.last ≤ high * 10 ^ 4 + 50000) (hcheck : ∀ h < 6, ∀ i < n + 5,
      ¬ IsDigitWord (((digitName n (high + h)).drop i).foldl Castagnoli.update 0)) : Tame config c := by
  have hname : ∀ l, l ≤ c.last → c.payload l = digitName (n + 4) l := fun l hl => by
    rw [Child.payload, hdigits, paddedName_eq (hl.trans_lt hlast.1)]
  have hlen : ∀ l, l ≤ c.last → (c.payload l).length = n + 8 := fun l hl => by
    rw [hname l hl, digitName_length]
    omega
  refine ⟨hv, hseed, hle, fun l _ hl => (hlen l hl).trans_le hfits, fun l hl hl' room hroom => ?_⟩
  rw [hlen l hl'] at hroom
  rw [hname l hl']
  obtain ⟨r, rfl⟩ := Nat.exists_eq_add_of_le (hlo.trans hl)
  have hdiv : (high * 10 ^ 4 + r) / 10 ^ 4 = high + r / 10 ^ 4 := by omega
  have hlt : high * 10 ^ 4 + r < 2 ^ 64 := Nat.lt_of_le_of_lt (hl'.trans hlast.2) (by decide)
  refine cutHarmless_digitName hlt config.maxRecordSize_lt hfits hroom ?_
  rw [hdiv]
  exact hcheck _ (by omega)

end

theorem Tested.tame {config : WalConfig} {c : Child} (h : Tested config c) : Tame config c := by
  cases h with
  | appending | checkpointing =>
    exact tame_of_digits 4 0 (by decide) ⟨by decide, by decide⟩ (by decide) rfl (by decide) (by decide)
      (by decide) (by decide) (by decide +kernel)
  | seeded =>
    exact tame_of_digits 16 700000 (by decide) ⟨by decide, by decide⟩ (by decide) rfl (by decide)
      (by decide) (by decide) (by decide) (by decide +kernel)

/-- The first child dies with three bytes of the header of the first segment stored, the second one
within a record, and the last one in the deletion of the first segment. -/
def threeCycles : List Cycle :=
  [⟨List.replicate 6 .ok ++ [.crash 3], [], false, 1, []⟩,
    ⟨[], List.replicate 8 ⟨[], [], true, true⟩ ++ [⟨[.crash 10], [], true, true⟩], true, 9, [2, 3]⟩,
    ⟨[], List.replicate 15 ⟨[], [], true, true⟩ ++ [⟨[], [.ok, .crash 0], true, true⟩], true, 5, []⟩]

end OpenWal.CrashMatrix
