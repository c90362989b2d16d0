import OpenWal.Theory.Commit
import OpenWal.Theory.FailingCalls
import OpenWal.Theory.FailingRuns

namespace OpenWal
open ByteSeq Posix CrashProg

variable {I : Disk → Prop}

def SysOnDisk (I : Disk → Prop) (s : Sys) : Prop := I s.world.disk

theorem flags_kept (P : Bool → Bool → Prop) : KeptByCalls fun d => P d.locked d.dirExists where
  create _ _ h := h
  modify n g d h := by rwa [(OnlyAt.modify n g d).locked, (OnlyAt.modify n g d).dirExists]
  remove n d h := by
    unfold Disk.remove
    split <;> exact h
  syncDir _ h := h
  tick _ _ h := h

theorem dirExists_kept : KeptByCalls fun d => d.dirExists = true := flags_kept fun _ e => e = true

theorem orPoison_leaves {α : Type} {m : Prog World WalError α} (h : Keeps (OnDisk I) m) :
    Leaves (SysOnDisk I) (orPoison m) :=
  Leaves.onError (I := SysOnDisk I) (Leaves.zoom h.leaves (fun _ hs => hs) fun _ _ _ ht => ht) fun _ hs => hs

theorem setWal_leaves (f : Wal → Wal) : Leaves (SysOnDisk I) (setWal f) :=
  Leaves.update fun _ hs => hs

theorem unlinkSegments_keepsAll (h : KeptByCalls I) (bases : List ℕ) :
    Keeps (OnDisk I) (unlinkSegments bases) := by
  induction bases with
  | nil => exact Keeps.ret _
  | cons base bases ih =>
    have hremove : Keeps (OnDisk I) (removeFile (filenameFor base)) := removeFile_keeps (h.remove _)
    rw [unlinkSegments]
    apply Triple.bind (Q := fun _ => OnDisk I)
    · refine hremove.attempt.conseq (fun _ h => h) ?_ (fun _ _ h => h.elim) fun _ h => h
      rintro r w (⟨_, -, h⟩ | ⟨_, -, h⟩) <;> exact h
    intro r
    split
    · exact ih
    · exact ih
    · exact Keeps.seq (f := unlinkSegments bases) (Keeps.raise _) ih

theorem checkpoint_leaves (h : KeptByCalls I) (upTo : ℕ) :
    Leaves (SysOnDisk I) (checkpoint upTo) := by
  apply Leaves.state_bind
  intro s _
  refine Leaves.cond (fun _ => Leaves.raise _) fun _ => Leaves.cond (fun _ => Leaves.ret _) fun _ => ?_
  apply Leaves.seq (orPoison_leaves (unlinkSegments_keepsAll h _))
  exact Leaves.seq (orPoison_leaves (fsyncDirectory_keepsAll h.syncDir)) (setWal_leaves _)

variable [Crc32c]

theorem append_leaves (payload : Bytes) : Leaves (SysOnDisk I) (append payload) := by
  apply Leaves.state_bind
  intro s _
  refine Leaves.cond (fun _ => Leaves.raise _) fun _ => Leaves.cond (fun _ => Leaves.raise _) fun _ => ?_
  split
  · exact Leaves.raise _
  · exact Leaves.seq (setWal_leaves _) (Leaves.ret _)

theorem commitStep_leaves (h : KeptByCalls I) (pos : ℕ) :
    Leaves (SysOnDisk I) (commitStep pos) := by
  have hwrite : ∀ scan last, Leaves (SysOnDisk I) (writePrefix pos scan last) := by
    intro scan last
    apply Leaves.state_bind
    intro s _
    apply Leaves.seq (orPoison_leaves (Keeps.mapErr (writeAllAt_keeps (fun _ _ => h.modify _ _ _) _)))
    exact Leaves.seq (orPoison_leaves (Keeps.mapErr (syncData_keeps (h.modify _ _)))) (setWal_leaves _)
  have hroll : ∀ base, Leaves (SysOnDisk I) (roll base) := by
    intro base
    apply Leaves.state_bind
    intro s _
    apply Leaves.bind (orPoison_leaves (create_keepsAll h _ _))
    intro new
    exact Leaves.seq (orPoison_leaves (fsyncDirectory_keepsAll h.syncDir)) (setWal_leaves _)
  intro s hs
  rcases hscan : scanPrefix s.wal.staging pos (s.wal.segmentSize - s.wal.writeOffset) pos lsnNone with
    ⟨scan, last⟩
  rw [commitStep_eq hscan]
  refine Leaves.seq ?_ (Leaves.seq ?_ (Leaves.ret _)) s hs
  · exact Leaves.cond (fun _ => hwrite _ _) fun _ => Leaves.ret _
  · exact Leaves.cond (fun _ => hroll _) fun _ => Leaves.ret _

theorem commit_leaves (h : KeptByCalls I) : Leaves (SysOnDisk I) commit := by
  have hloop : ∀ fuel pos, Leaves (SysOnDisk I) (commitLoop fuel pos) := by
    intro fuel
    induction fuel with
    | zero => exact fun _ => Leaves.diverge
    | succ fuel ih =>
      intro pos
      apply Leaves.state_bind
      intro s _
      exact Leaves.cond (fun _ => Leaves.bind (commitStep_leaves h pos) ih) fun _ => Leaves.ret _
  apply Leaves.state_bind
  intro s _
  refine Leaves.cond (fun _ => Leaves.raise _) fun _ => Leaves.cond (fun _ => Leaves.ret _) fun _ => ?_
  exact Leaves.seq (hloop _ _) (Leaves.seq (setWal_leaves _) (Leaves.state_bind fun _ _ => Leaves.ret _))

/-- What every call on the disk keeps, whatever the lock, a call of the handle keeps too. -/
theorem Machine.exec_keeps {config : WalConfig} {m m' : Machine} {wal : Wal} {op : Op} {fates : List Fate}
    {o : Outcome WalError Reply} (h : KeptByCalls I) (hfree : ∀ d, I d → I { d with locked := false })
    (hw : m.handle = some wal) (hop : ∀ seed, op ≠ .openLog seed) (hm : I m.disk)
    (he : m.exec config op fates = some (o, m')) : I m'.disk := by
  have hon : ∀ {α : Type} {prog : Prog Sys WalError α} {reply : α → Reply}, Leaves (SysOnDisk I) prog →
      m.execOn wal fates (reply <$> prog) = (o, m') → I m'.disk := by
    intro α prog reply hprog he
    have hs : I ((reply <$> prog) ⟨wal, ⟨m.disk, fates⟩⟩).2.world.disk :=
      hprog.bind (fun _ => Leaves.ret _) ⟨wal, ⟨m.disk, fates⟩⟩ hm
    rw [Machine.execOn] at he
    rcases hr : (reply <$> prog) ⟨wal, ⟨m.disk, fates⟩⟩ with ⟨r, s⟩
    rw [hr] at he hs
    cases r with
    | crashed =>
      obtain ⟨-, rfl⟩ := Prod.mk.inj he
      exact hfree _ hs
    | _ =>
      obtain ⟨-, rfl⟩ := Prod.mk.inj he
      exact hs
  cases op with
  | openLog seed => exact absurd rfl (hop seed)
  | append payload =>
    rw [Machine.exec_append hw, Option.some.injEq] at he
    exact hon (append_leaves payload) he
  | commit =>
    rw [Machine.exec_commit hw, Option.some.injEq] at he
    exact hon (commit_leaves h) he
  | checkpoint upTo =>
    rw [Machine.exec_checkpoint hw, Option.some.injEq] at he
    exact hon (checkpoint_leaves h upTo) he
  | replay start =>
    rw [Machine.exec_replay hw, Option.some.injEq] at he
    obtain ⟨-, rfl⟩ := Prod.mk.inj he
    exact hm
  | close =>
    rw [Machine.exec_close hw, Option.some.injEq] at he
    obtain ⟨-, rfl⟩ := Prod.mk.inj he
    exact hfree _ hm

end OpenWal
