import OpenWal.Theory.Coverage

namespace OpenWal
open ByteSeq Posix CrashProg

section

variable [Crc32c]

def SealedWith (b : ℕ) (P : Option File → Prop) (d : Disk) : Prop :=
  Sealed b d ∧ P (d.file (filenameFor b))

variable {config : WalConfig} {d d' : Disk} {b : ℕ} {P : Option File → Prop} {oldest : ℕ}
  {sealed : List (List Bytes)} {active staged : List Bytes} {f : File} {observed : List ℕ}

theorem SealedWith.ofFiles : OfFiles (SealedWith b P) := by
  rintro d d' hd ⟨⟨b', f, hlt, hf, hh⟩, hP⟩
  exact ⟨⟨b', f, hlt, (hd.file _).trans hf, hh⟩, by rwa [hd.file]⟩

theorem SealedWith.dropped (h : SealedWith b P d) (hd : Dropped config d d') : SealedWith b P d' := by
  refine ⟨h.1.dropped hd, ?_⟩
  obtain ⟨base, f, hb, -, -, hs⟩ := hd
  have hlt := h.1.lt_highest hb
  have hbase := (mem_basesOf.mp (List.mem_of_getLast? hb)).1
  rw [hs.file, Disk.remove_file_ne _ (filenameFor_ne h.1.le_u64Max hbase hlt.ne)]
  exact h.2

/-- What changes of the highest segment is behind its header. -/
theorem SealedWith.rewritten (h : SealedWith b P d) {base : ℕ} {f : File} {x : ℕ}
    (hb : (basesOf d).getLast? = some base) (hf : d.file (filenameFor base) = some f)
    (hx : headerSize ≤ x) (hr : RewrittenFrom (filenameFor base) x f d d') : SealedWith b P d' := by
  have hlt := h.1.lt_highest hb
  have hbase := (mem_basesOf.mp (List.mem_of_getLast? hb)).1
  obtain ⟨⟨b', g, hlt', hg, hh⟩, hP⟩ := h
  obtain ⟨hd, f', hf', hs⟩ := hr
  refine ⟨?_, by rwa [hd.others _ (filenameFor_ne (hlt.le.trans hbase) hbase hlt.ne)]⟩
  by_cases hne : b' = base
  · subst hne
    obtain rfl := Option.some.inj (hf.symm.trans hg)
    exact ⟨b', f', hlt', hf', hh.congr (hs.data.mono le_rfl hx)⟩
  · exact ⟨b', g, hlt', (hd.others _ (filenameFor_ne hh.le_u64Max hbase hne)).trans hg, hh⟩

theorem openSeeded_sealedWith (h : SealedWith b P d) (seed : ℕ) :
    Triple (OnDisk (· = d)) (openSeeded config seed) (fun _ => OnDisk (SealedWith b P))
      (fun _ => OnDisk (SealedWith b P)) (OnDisk (SealedWith b P)) := by
  have hacq : SealedWith b P (acquired d) := SealedWith.ofFiles _ _ ⟨fun _ => rfl, rfl⟩ h
  have hdis : ∀ d₀, Discards config (acquired d) d₀ → SealedWith b P d₀ := by
    intro d₀ hd
    rcases hd.dropped with rfl | hd
    · exact hacq
    · exact hacq.dropped hd
  refine (openSeeded_triple seed SealedWith.ofFiles h (fun _ _ d' hd => h.dropped hd) ?_ ?_).conseq
    (fun _ hw => hw) (fun _ _ hw => hw) (fun _ _ hw => hw.1) fun _ hw => hw
  · rintro - - d₀ d' hd hnil - -
    obtain ⟨⟨b', f, -, hf, hh⟩, -⟩ := hdis d₀ hd
    have hmem := mem_basesOf.mpr ⟨hh.le_u64Max, f, hf⟩
    simp [hnil] at hmem
  · rintro - - d₀ base f ps d' hd hb hf - hz
    exact (hdis d₀ hd).rewritten hb hf (Nat.le_add_right _ _) hz.1

theorem SealedWith.setActive {f' : File} (h : SealedWith b P d)
    (hc : Carries config d oldest sealed active f)
    (hd : ∀ m, m ≠ filenameFor (activeBase oldest sealed) → d'.file m = d.file m)
    (hf : d'.file (filenameFor (activeBase oldest sealed)) = some f')
    (hs : AgreeOn f.data f'.data 0 headerSize) : SealedWith b P d' := by
  have hlt := h.1.lt_highest hc.getLast?_bases
  refine ⟨⟨activeBase oldest sealed, f', hlt, hf, hc.header.congr hs⟩, ?_⟩
  rw [hd _ (hc.name_ne h.1.le_u64Max hlt)]
  exact h.2

theorem SealedWith.next (h : SealedWith b P d)
    (hc : Committing config d oldest sealed active f staged) (hr : staged ≠ []) (ha : active ≠ [])
    (hd : DiffersAt (filenameFor (activeBase oldest sealed + active.length)) d d') :
    SealedWith b P d' := by
  have hlt := h.1.lt_highest hc.getLast?_bases
  have hsame := hc.below_next hr ha hd
  refine ⟨⟨activeBase oldest sealed, f, hlt, (hsame _ le_rfl hc.activeBase_le).trans hc.file, hc.header⟩, ?_⟩
  rw [hsame b hlt.le h.1.le_u64Max]
  exact h.2

theorem commitRule_sealedWith (config : WalConfig) (b : ℕ) (P : Option File → Prop) (oldest : ℕ) :
    CommitRule config oldest (fun _ _ _ _ _ => SealedWith b P) fun _ _ _ => SealedWith b P where
  cut k hc hj _ := by
    have hlen := hc.le_length
    exact hj.setActive hc.toCarries (fun _ hm => Disk.put_file_ne _ _ hm) (Disk.put_file_self _ _ _)
      ((SameBefore.write _ hlen le_rfl).data.mono le_rfl (Nat.le_add_right _ _))
  store hc hj _ := by
    have hlen := hc.le_length
    exact hj.setActive hc.toCarries (fun _ hm => Disk.put_file_ne _ _ hm) (Disk.put_file_self _ _ _)
      ((SameBefore.write _ hlen le_rfl).data.mono le_rfl (Nat.le_add_right _ _))
  begun hc hj hr ha _ hb := hj.next hc hr ha hb.1.toDiffersAt
  rolled hc hj hr ha _ honly _ :=
    SealedWith.ofFiles _ _ (.syncDir _) (hj.next hc hr ha honly.toDiffersAt)

/-- Deleting segments may take the file itself. -/
theorem SealedWith.removeAll {xs ys : List (List Bytes)} (h : SealedWith b P d) (hP : P none)
    (hc : Carries config d oldest (xs ++ ys) active f) :
    SealedWith b P (removeAll ((basesFrom oldest (xs ++ ys)).take xs.length) d) := by
  have hlt := h.1.lt_highest hc.getLast?_bases
  have hc' := hc.removeAll
  rw [activeBase_append] at hlt
  refine ⟨⟨_, f, hlt, hc'.file, hc'.header⟩, ?_⟩
  by_cases hb : b ∈ (basesFrom oldest (xs ++ ys)).take xs.length
  · rwa [removeAll_file_mem hb]
  · rw [removeAll_file]
    · exact h.2
    · intro c hcm
      have hcb := mem_basesOf.mp (hc.bases ▸ List.mem_of_mem_take hcm)
      exact filenameFor_ne h.1.le_u64Max hcb.1 fun heq => hb (heq ▸ hcm)

variable {m m' : Machine} {op : Op} {fates : List Fate} {o : Outcome WalError Reply} {wal : Wal}

/-- An append changes no file. -/
theorem append_sameDisk (wal : Wal) (d : Disk) (fates : List Fate) (p : Bytes) :
    Ends (fun _ s => s.world.disk = d) (fun _ s => s.world.disk = d) (fun s => s.world.disk = d)
      (append p ⟨wal, ⟨d, fates⟩⟩) := by
  rw [append, Prog.bind_of_ret (Prog.state_run _)]
  split_ifs
  · rfl
  · rfl
  · cases checkedNext wal.lastLsn with
    | none => rfl
    | some lsn => rfl

theorem open_sealedWith (h : SealedWith b P m.disk) {seed : ℕ}
    (he : m.execOpen config seed fates = (o, m')) : SealedWith b P m'.disk := by
  have hends : Ends (fun _ => OnDisk (SealedWith b P)) (fun _ => OnDisk (SealedWith b P))
      (OnDisk (SealedWith b P)) (openSeeded config seed ⟨m.disk, fates⟩) :=
    openSeeded_sealedWith h seed _ rfl
  unfold Machine.execOpen at he
  rcases hopen : openSeeded config seed ⟨m.disk, fates⟩ with ⟨p, w⟩
  rw [hopen] at he hends
  cases p with
  | ret r =>
    obtain ⟨-, rfl⟩ := Prod.mk.inj he
    exact hends
  | err e =>
    obtain ⟨-, rfl⟩ := Prod.mk.inj he
    exact hends
  | crashed =>
    obtain ⟨-, rfl⟩ := Prod.mk.inj he
    exact SealedWith.ofFiles _ _ ⟨fun _ => rfl, rfl⟩ hends
  | diverged => exact hends.elim

theorem method_sealedWith {α : Type} {prog : Prog Sys WalError α} {reply : α → Reply}
    (he : m.execOn wal fates (reply <$> prog) = (o, m'))
    (h : Ends (fun _ s => SealedWith b P s.world.disk) (fun _ s => SealedWith b P s.world.disk)
      (fun s => SealedWith b P s.world.disk) (prog ⟨wal, ⟨m.disk, fates⟩⟩)) : SealedWith b P m'.disk := by
  obtain ⟨a, s, -, hs, rfl⟩ | ⟨e, s, -, hs, rfl⟩ | ⟨s, -, hs, rfl⟩ := Machine.execOn_ends h he
  · exact hs
  · exact hs
  · exact SealedWith.ofFiles _ _ ⟨fun _ => rfl, rfl⟩ hs

theorem commit_sealedWith
    (hu : Upholds config (fun _ => True) (fun _ _ => True) (fun _ _ _ _ _ => True) m.disk (some wal))
    (h : SealedWith b P m.disk) (fates : List Fate) :
    Ends (fun _ s => SealedWith b P s.world.disk) (fun _ s => SealedWith b P s.world.disk)
      (fun s => SealedWith b P s.world.disk) (commit ⟨wal, ⟨m.disk, fates⟩⟩) := by
  cases hu with
  | @live oldest sealed active observed staged f hv _ _ hc =>
    by_cases hs : staged = []
    · subst hs
      exact h
    · refine (commit_triple (commitRule_sealedWith config b P oldest) hv hs fates hc h).imp ?_ ?_ ?_
      · rintro _ s ⟨-, _, _, _, _, -, -, -, hs⟩
        exact hs
      · rintro _ s ⟨-, _, _, _, -, hs⟩
        exact hs
      · rintro s ⟨_, _, _, -, hs⟩
        exact hs
  | stuck _ _ hp =>
    rw [commit_poisoned hp]
    exact h

/-- Wherever a checkpoint stops, the segments that it unlinked are the lowest ones. -/
theorem checkpoint_sealedWith
    (hu : Upholds config (fun _ => True) (fun _ _ => True) (fun _ _ _ _ _ => True) m.disk (some wal))
    (h : SealedWith b P m.disk) (hP : P none) (upTo : ℕ) (fates : List Fate) :
    Ends (fun _ s => SealedWith b P s.world.disk) (fun _ s => SealedWith b P s.world.disk)
      (fun s => SealedWith b P s.world.disk) (checkpoint upTo ⟨wal, ⟨m.disk, fates⟩⟩) := by
  cases hu with
  | @live oldest sealed active observed staged f hv _ _ hc =>
    obtain ⟨xs, ys, rfl, -, -, hends⟩ := checkpoint_triple hc.toCarries observed staged upTo fates
    have hsome : ∀ k ≤ xs.length, SealedWith b P
        (removeAll ((basesFrom oldest (xs ++ ys)).take k) m.disk) := by
      intro k hk
      have hsplit : xs ++ ys = xs.take k ++ (xs.drop k ++ ys) := by
        rw [← List.append_assoc, List.take_append_drop]
      have hk' := h.removeAll hP (hsplit ▸ hc.toCarries)
      rwa [← hsplit, List.length_take, Nat.min_eq_left hk] at hk'
    refine hends.imp ?_ ?_ ?_
    · rintro _ s ⟨-, ⟨-, hs⟩ | ⟨-, hs⟩⟩
      · rwa [hs]
      · rw [hs]
        exact SealedWith.ofFiles _ _ (.syncDir _) (hsome _ le_rfl)
    · rintro _ s ⟨-, -, k, hk, hs⟩
      rw [hs]
      exact hsome k hk
    · rintro s ⟨-, k, hk, hs⟩
      rw [hs]
      exact hsome k hk
  | stuck _ _ hp =>
    rw [checkpoint_poisoned hp]
    exact h

/-- Any call keeps a sealed segment as it is; a checkpoint may delete it. -/
theorem sealedWith_step
    (hu : Upholds config (fun _ => True) (fun _ _ => True) (fun _ _ _ _ _ => True) m.disk m.handle)
    (h : SealedWith b P m.disk) (hP : (∃ upTo, op = .checkpoint upTo) → P none)
    (he : m.exec config op fates = some (o, m')) : SealedWith b P m'.disk := by
  rcases hh : m.handle with _ | wal
  · cases op with
    | openLog seed => exact open_sealedWith h (Option.some.inj he)
    | _ => simp [Machine.exec_none hh] at he
  rw [hh] at hu
  cases op with
  | openLog seed => exact open_sealedWith h (Option.some.inj he)
  | append payload =>
    rw [Machine.exec_append hh, Option.some.injEq] at he
    exact method_sealedWith he ((append_sameDisk wal m.disk fates payload).imp (fun _ s hs => hs ▸ h)
      (fun _ s hs => hs ▸ h) fun s hs => hs ▸ h)
  | commit =>
    rw [Machine.exec_commit hh, Option.some.injEq] at he
    exact method_sealedWith he (commit_sealedWith hu h fates)
  | checkpoint upTo =>
    rw [Machine.exec_checkpoint hh, Option.some.injEq] at he
    exact method_sealedWith he (checkpoint_sealedWith hu h (hP ⟨upTo, rfl⟩) upTo fates)
  | replay start =>
    rw [Machine.exec_replay hh, Option.some.injEq] at he
    obtain ⟨-, rfl⟩ := Prod.mk.inj he
    exact h
  | close =>
    rw [Machine.exec_close hh, Option.some.injEq] at he
    obtain ⟨-, rfl⟩ := Prod.mk.inj he
    exact SealedWith.ofFiles _ _ ⟨fun _ => rfl, rfl⟩ h

end

/-- A record is committed, the process dies in the roll for the next one, another opens
the log and commits a third. -/
def cutRoll : List (Op × List Fate) :=
  [(.openLog 1, []), (.append (zeros 20), []), (.commit, []), (.append (zeros 20), []),
    (.commit, [.ok, .crash 0])]

end OpenWal
