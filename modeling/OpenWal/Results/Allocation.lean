import OpenWal.Results.CrashRuns

namespace OpenWal
open ByteSeq Posix CrashProg

def Formed (data : Bytes) : Prop := data = [] ∨ headerSize ≤ data.length

structure Allocated (d : Disk) : Prop where
  fallocates : d.fallocates = true
  formed : ∀ n f, d.file n = some f → Formed f.data

variable {d : Disk} {n : FileName} {data : Bytes} {off : ℕ}

theorem Formed.write (h : Formed data) (b : Bytes) (ho : headerSize ≤ off) :
    Formed (overwrite data off b) := by
  by_cases hb : b = []
  · rwa [overwrite, if_pos hb]
  · refine Or.inr ?_
    simp only [overwrite, hb, if_false, List.length_append, List.length_take, zeros_length]
    omega

namespace Allocated

theorem fresh (clock : ℕ → ℕ) : Allocated (Machine.fresh true clock).disk :=
  ⟨rfl, fun n f hf => by simp [Machine.fresh] at hf⟩

theorem notCut (h : Allocated d) (b : ℕ) : NotCut b d := fun _ hg => h.formed _ _ hg

theorem ofFiles (h : Allocated d) {d' : Disk} (hf : d'.fallocates = d.fallocates)
    (hs : ∀ n, d'.file n = d.file n) : Allocated d' :=
  ⟨hf.trans h.fallocates, fun n f hn => h.formed n f ((hs n).symm.trans hn)⟩

theorem modify (h : Allocated d) {g : File → File}
    (hg : ∀ f, d.file n = some f → Formed f.data → Formed (g f).data) : Allocated (d.modify n g) := by
  constructor
  · rw [Disk.modify]
    split <;> exact h.fallocates
  · intro m f hf
    by_cases hm : m = n
    · subst hm
      rw [Disk.modify_file_self] at hf
      obtain ⟨f₀, hf₀, rfl⟩ := Option.map_eq_some_iff.mp hf
      exact hg f₀ hf₀ (h.formed _ _ hf₀)
    · rw [Disk.modify_file_ne _ _ hm] at hf
      exact h.formed _ _ hf

theorem write (h : Allocated d) (b : Bytes) (ho : headerSize ≤ off) :
    Allocated (d.modify n (File.write off b)) :=
  h.modify fun _ _ hf => hf.write b ho

theorem sync (h : Allocated d) : Allocated (d.modify n File.sync) := h.modify fun _ _ hf => hf

theorem create (h : Allocated d) : Allocated (d.create n) := by
  refine ⟨h.fallocates, fun m f hf => ?_⟩
  by_cases hm : m = n
  · rw [hm, Disk.create_file_self, Option.some.injEq] at hf
    exact Or.inl (hf ▸ rfl)
  · rw [Disk.create_file_ne _ hm] at hf
    exact h.formed _ _ hf

theorem remove (h : Allocated d) : Allocated (d.remove n) := by
  constructor
  · rw [Disk.remove]
    split <;> exact h.fallocates
  · intro m f hf
    by_cases hm : m = n
    · rw [hm, Disk.remove_file_self] at hf
      cases hf
    · rw [Disk.remove_file_ne _ hm] at hf
      exact h.formed _ _ hf

/-- A file whose header is inside it only grows. -/
theorem modify_pastHeader (h : Allocated d) (hp : PastHeader n d) {g : File → File}
    (hg : ∀ f, f.data.length ≤ (g f).data.length) :
    Allocated (d.modify n g) ∧ PastHeader n (d.modify n g) :=
  ⟨h.modify fun f hf _ => Or.inr ((hp f hf).trans (hg f)), hp.modify hg⟩

end Allocated

theorem fsyncDirectory_allocated : Keeps (OnDisk Allocated) fsyncDirectory :=
  fsyncDirectory_keepsAll fun _ h => h.ofFiles rfl fun _ => rfl

section

variable [Crc32c] {config : WalConfig} {seed : ℕ}

/-- The file is laid out before its header is written. -/
theorem create_allocated (base : ℕ) {ss : ℕ} (hss : headerSize ≤ ss) :
    Keeps (OnDisk Allocated) (create base ss) := by
  apply Triple.mapErr
  apply Triple.seq (Q := fun _ => OnDisk Allocated) (createNew_keeps fun _ h => h.create)
  apply Triple.seq (Q := fun _ => OnDisk fun d => Allocated d ∧ PastHeader (filenameFor base) d)
  · intro w h
    have hlen : ∀ f : File, headerSize ≤ (f.allocate ss).data.length := by
      intro f
      simp only [File.allocate_data, List.length_append, zeros_length]
      omega
    rw [preallocate, Prog.bind_of_ret (Prog.state_run w), if_pos (Allocated.fallocates h)]
    refine syscall_onDisk (P := Allocated) (fun d h => ?_) (fun _ _ h => h) (fun _ _ h => h) w h
    refine ⟨h.modify fun f _ _ => Or.inr (hlen f), fun f hf => ?_⟩
    rw [Disk.modify_file_self] at hf
    obtain ⟨f₀, -, rfl⟩ := Option.map_eq_some_iff.mp hf
    exact hlen f₀
  · have hrest : Keeps (OnDisk fun d => Allocated d ∧ PastHeader (filenameFor base) d) (do
        let createdUnixNanos ← readClock
        writeAllAt (filenameFor base) (encodeHeader base createdUnixNanos) 0
        syncDataFully (filenameFor base)
        return filenameFor base) := by
      apply Keeps.bind (readClock_onlyAt _ fun _ _ h => ⟨h.1.ofFiles rfl fun _ => rfl, h.2⟩)
      intro created
      refine Keeps.seq (writeAllAt_keeps (fun b d h => ?_) _)
        (Keeps.seq (syncData_keeps fun d h => ?_) (Keeps.ret _))
      · exact h.1.modify_pastHeader h.2 fun f => le_overwrite_length _ _ _
      · exact h.1.modify_pastHeader h.2 fun f => le_rfl
    exact hrest.conseq (fun _ h => h) (fun _ _ h => h.1) (fun _ _ h => h.1) fun _ h => h.1

theorem recoverSegments_allocated (prevMax : Option ℕ) (base : ℕ) (bases : List ℕ) :
    Keeps (OnDisk Allocated) (recoverSegments config prevMax base bases) := by
  have hflag : Keeps (OnDisk fun d => d.fallocates = true) (recoverSegments config prevMax base bases) := by
    refine recoverSegments_keeps config (fun n g d h => ?_) _ _ _
    rw [Disk.modify]
    split <;> exact h
  rintro ⟨d, fates⟩ h
  have hformed : Triple (OnDisk (· = d)) (recoverSegments config prevMax base bases)
      (fun _ => OnDisk fun e => ∀ n f, e.file n = some f → Formed f.data)
      (fun _ => OnDisk fun e => ∀ n f, e.file n = some f → Formed f.data)
      (OnDisk fun e => ∀ n f, e.file n = some f → Formed f.data) := by
    refine recoverSegments_triple config (Allocated.formed h) fun f ps e hf hs hz n g hg => ?_
    obtain ⟨⟨hdiff, f', hf', hsame⟩, -⟩ := hz
    by_cases hn : n = filenameFor (bases.getLastD base)
    · subst hn
      obtain rfl := Option.some.inj (hf'.symm.trans hg)
      exact Or.inr ((Nat.le_add_right _ _).trans hsame.length)
    · exact Allocated.formed h n g ((hdiff.others n hn).symm.trans hg)
  exact ((hflag.both hformed) ⟨d, fates⟩ ⟨Allocated.fallocates h, rfl⟩).imp (fun _ _ h => ⟨h.1, h.2⟩)
    (fun _ _ h => ⟨h.1, h.2⟩) fun _ h => ⟨h.1, h.2⟩

theorem openSeeded_allocated (seed : ℕ) : Keeps (OnDisk Allocated) (openSeeded config seed) := by
  have hlock : ∀ {d : Disk} {b : Bool}, Allocated d → Allocated { d with locked := b } :=
    fun h => h.ofFiles rfl fun _ => rfl
  unfold openSeeded
  refine Triple.cond (fun _ => Keeps.raise _) fun hv => Triple.cond (fun _ => Keeps.raise _) fun _ => ?_
  have hss : headerSize ≤ config.segmentSize := by
    unfold headerSize
    omega
  apply Triple.seq
  · apply Keeps.seq (Keeps.mapErr (Keeps.syscall (fun _ h => h.ofFiles rfl fun _ => rfl) fun _ _ h => h))
    apply Keeps.seq (Keeps.syscall (fun _ h => h) fun _ _ h => h)
    apply Keeps.bind Keeps.state
    intro w
    exact Triple.cond (fun _ => Keeps.raise _) fun _ => Keeps.syscall (fun _ h => hlock h) fun _ _ h => h
  refine Triple.bind (Q := fun _ => OnDisk Allocated) (Triple.onError ?_) fun _ => Keeps.ret _
  have hrec : Keeps (OnDisk Allocated) (recoverDirectory config seed) := by
    apply Keeps.bind (Keeps.bind (Keeps.mapErr (readDir_keeps Allocated)) fun _ => Keeps.ret _)
    intro bases
    apply Keeps.bind (discardIncompleteHighest_keeps config (fun _ _ h => h.remove)
      (fun _ h => h.ofFiles rfl fun _ => rfl) bases)
    intro bases
    cases bases with
    | nil =>
      exact Keeps.bind (create_allocated _ hss) fun _ => Keeps.seq fsyncDirectory_allocated (Keeps.ret _)
    | cons base rest => exact Keeps.bind (recoverSegments_allocated _ _ _) fun _ => Keeps.ret _
  exact hrec.conseq (fun _ h => h) (fun _ _ h => h) (fun _ _ h => hlock h) fun _ h => h

structure Writing (s : Sys) : Prop where
  allocated : Allocated s.world.disk
  offset : headerSize ≤ s.wal.writeOffset
  size : headerSize ≤ s.wal.segmentSize

omit [Crc32c] in
theorem orPoison_writing {α : Type} {m : Prog World WalError α} (h : Keeps (OnDisk Allocated) m) :
    Leaves Writing (orPoison m) :=
  Leaves.onError (Leaves.zoom h.leaves (fun _ hs => hs.allocated) fun _ _ hs ht => ⟨ht, hs.offset, hs.size⟩)
    fun _ hs => ⟨hs.allocated, hs.offset, hs.size⟩

omit [Crc32c] in
theorem setWal_writing {f : Wal → Wal}
    (ho : ∀ w, headerSize ≤ w.writeOffset → headerSize ≤ (f w).writeOffset)
    (hs : ∀ w, (f w).segmentSize = w.segmentSize) : Leaves Writing (setWal f) :=
  Leaves.update fun s h => ⟨h.allocated, ho _ h.offset, (hs s.wal).symm ▸ h.size⟩

omit [Crc32c] in
theorem writePrefix_writing (pos scan last : ℕ) : Leaves Writing (writePrefix pos scan last) := by
  apply Leaves.state_bind
  intro s hs
  apply Leaves.seq (orPoison_writing (Keeps.mapErr (writeAllAt_keeps (fun _ _ h => h.write _ hs.offset) _)))
  apply Leaves.seq (orPoison_writing (Keeps.mapErr (syncData_keeps fun _ h => h.sync)))
  exact setWal_writing (fun _ h => h.trans (Nat.le_add_right _ _)) fun _ => rfl

theorem roll_writing (newBase : ℕ) : Leaves Writing (roll newBase) := by
  apply Leaves.state_bind
  intro s hs
  apply Leaves.bind (orPoison_writing (create_allocated newBase hs.size))
  intro new
  apply Leaves.seq (orPoison_writing fsyncDirectory_allocated)
  exact setWal_writing (fun _ _ => le_rfl) fun _ => rfl

theorem commitStep_writing (pos : ℕ) : Leaves Writing (commitStep pos) := by
  intro s hs
  rcases hscan : scanPrefix s.wal.staging pos (s.wal.segmentSize - s.wal.writeOffset) pos lsnNone with
    ⟨scan, last⟩
  rw [commitStep_eq hscan]
  refine Leaves.seq ?_ (Leaves.seq ?_ (Leaves.ret _)) s hs
  · exact Leaves.cond (fun _ => writePrefix_writing _ _ _) fun _ => Leaves.ret _
  · exact Leaves.cond (fun _ => roll_writing _) fun _ => Leaves.ret _

theorem commitLoop_writing (fuel pos : ℕ) : Leaves Writing (commitLoop fuel pos) := by
  induction fuel generalizing pos with
  | zero => exact Leaves.diverge
  | succ fuel ih =>
    apply Leaves.state_bind
    intro s _
    exact Leaves.cond (fun _ => Leaves.bind (commitStep_writing pos) fun pos => ih pos) fun _ => Leaves.ret _

theorem commit_writing : Leaves Writing commit := by
  apply Leaves.state_bind
  intro s _
  refine Leaves.cond (fun _ => Leaves.raise _) fun _ => Leaves.cond (fun _ => Leaves.ret _) fun _ => ?_
  apply Leaves.seq (commitLoop_writing _ _)
  refine Leaves.seq ?_ (Leaves.state_bind fun _ _ => Leaves.ret _)
  exact setWal_writing (fun _ h => h) fun _ => rfl

theorem append_writing (payload : Bytes) : Leaves Writing (append payload) := by
  apply Leaves.state_bind
  intro s _
  refine Leaves.cond (fun _ => Leaves.raise _) fun _ => Leaves.cond (fun _ => Leaves.raise _) fun _ => ?_
  split
  · exact Leaves.raise _
  · refine Leaves.seq ?_ (Leaves.ret _)
    exact setWal_writing (fun _ h => h) fun _ => rfl

omit [Crc32c] in
theorem unlinkSegments_allocated (bases : List ℕ) : Keeps (OnDisk Allocated) (unlinkSegments bases) := by
  induction bases with
  | nil => exact Keeps.ret _
  | cons base bases ih =>
    have hremove : Keeps (OnDisk Allocated) (removeFile (filenameFor base)) :=
      removeFile_keeps fun _ h => h.remove
    rw [unlinkSegments]
    apply Triple.bind (Q := fun _ => OnDisk Allocated)
    · refine hremove.attempt.conseq (fun _ h => h) ?_ (fun _ _ h => h.elim) fun _ h => h
      rintro r w (⟨_, -, h⟩ | ⟨_, -, h⟩) <;> exact h
    intro r
    split
    · exact ih
    · exact ih
    · exact Keeps.seq (f := unlinkSegments bases) (Keeps.raise _) ih

omit [Crc32c] in
theorem checkpoint_writing (upTo : ℕ) : Leaves Writing (checkpoint upTo) := by
  apply Leaves.state_bind
  intro s _
  refine Leaves.cond (fun _ => Leaves.raise _) fun _ => Leaves.cond (fun _ => Leaves.ret _) fun _ => ?_
  apply Leaves.seq (orPoison_writing (unlinkSegments_allocated _))
  apply Leaves.seq (orPoison_writing fsyncDirectory_allocated)
  exact setWal_writing (fun _ h => h) fun _ => rfl

variable {m₀ m m' : Machine} {op : Op} {fates : List Fate} {o : Outcome WalError Reply} {wal : Wal}
  {ok : Machine → Op → List Fate → Prop}

structure Machine.Allocates (m : Machine) : Prop where
  disk : Allocated m.disk
  handle : ∀ wal, m.handle = some wal → Writing ⟨wal, ⟨m.disk, []⟩⟩

omit [Crc32c] in
theorem Machine.Allocates.die (h : m.Allocates) : m.die.Allocates :=
  ⟨h.disk.ofFiles rfl fun _ => rfl, fun _ hw => by simp [Machine.die] at hw⟩

omit [Crc32c] in
theorem execOn_allocates {α : Type} {prog : Prog Sys WalError α} {reply : α → Reply}
    (hprog : Leaves Writing prog) (h : Writing ⟨wal, ⟨m.disk, fates⟩⟩)
    (he : m.execOn wal fates (reply <$> prog) = (o, m')) : m'.Allocates := by
  have hs : Writing ((reply <$> prog) ⟨wal, ⟨m.disk, fates⟩⟩).2 :=
    hprog.bind (fun _ => Leaves.ret _) _ h
  rw [Machine.execOn] at he
  rcases hr : (reply <$> prog) ⟨wal, ⟨m.disk, fates⟩⟩ with ⟨r, s⟩
  rw [hr] at he hs
  have hlive : ∀ ls, (Machine.reporting ls ⟨s.world.disk, some s.wal, m.reported⟩).Allocates := by
    refine fun ls => ⟨hs.allocated, fun w hw => ?_⟩
    obtain rfl := Option.some.inj hw
    exact ⟨hs.allocated, hs.offset, hs.size⟩
  cases r with
  | crashed =>
    obtain ⟨-, rfl⟩ := Prod.mk.inj he
    exact (hlive _).die
  | _ =>
    obtain ⟨-, rfl⟩ := Prod.mk.inj he
    exact hlive _

theorem execOpen_allocates (hseed : seed ≤ u64Max) (h : m.Allocates)
    (he : m.execOpen config seed fates = (o, m')) : m'.Allocates := by
  have hends : Ends (fun _ => OnDisk Allocated) (fun _ => OnDisk Allocated) (OnDisk Allocated)
      (openSeeded config seed ⟨m.disk, fates⟩) := openSeeded_allocated seed _ h.disk
  unfold Machine.execOpen at he
  rcases hopen : openSeeded config seed ⟨m.disk, fates⟩ with ⟨r, w⟩
  rw [hopen] at he hends
  cases r with
  | ret r =>
    obtain ⟨wal, rep⟩ := r
    obtain ⟨-, rfl⟩ := Prod.mk.inj he
    refine ⟨hends, fun w hw => ?_⟩
    obtain rfl := Option.some.inj hw
    obtain ⟨hv, h1, d', -, hopens⟩ := openSeeded_opens hseed (openSeeded_steady seed _ _ _ hopen)
    obtain ⟨_, _, _, _, _, rfl, -⟩ := hopens.log hv h1 hseed
    exact ⟨hends, Nat.le_add_right _ _, (Nat.le_add_right _ _).trans hv.room⟩
  | err e =>
    obtain ⟨-, rfl⟩ := Prod.mk.inj he
    exact ⟨hends, fun w hw => ⟨hends, (h.handle w hw).offset, (h.handle w hw).size⟩⟩
  | crashed =>
    obtain ⟨-, rfl⟩ := Prod.mk.inj he
    exact ⟨Allocated.ofFiles hends rfl fun _ => rfl, fun _ hw => by simp [Machine.die] at hw⟩
  | diverged => exact hends.elim

/-- Every call keeps files that have their headers inside them. -/
theorem allocates_step (h : m.Allocates) (hlegal : op.Legal) (he : m.exec config op fates = some (o, m')) :
    m'.Allocates := by
  rcases hh : m.handle with _ | wal
  · cases op with
    | openLog seed => exact execOpen_allocates hlegal.2 h (Option.some.inj he)
    | _ => simp [Machine.exec_none hh] at he
  have hw : Writing ⟨wal, ⟨m.disk, fates⟩⟩ := ⟨h.disk, (h.handle _ hh).offset, (h.handle _ hh).size⟩
  cases op with
  | openLog seed => exact execOpen_allocates hlegal.2 h (Option.some.inj he)
  | append payload =>
    rw [Machine.exec_append hh, Option.some.injEq] at he
    exact execOn_allocates (append_writing payload) hw he
  | commit =>
    rw [Machine.exec_commit hh, Option.some.injEq] at he
    exact execOn_allocates commit_writing hw he
  | checkpoint upTo =>
    rw [Machine.exec_checkpoint hh, Option.some.injEq] at he
    exact execOn_allocates (checkpoint_writing upTo) hw he
  | replay start =>
    rw [Machine.exec_replay hh, Option.some.injEq] at he
    obtain ⟨-, rfl⟩ := Prod.mk.inj he
    exact h
  | close =>
    rw [Machine.exec_close hh, Option.some.injEq] at he
    obtain ⟨-, rfl⟩ := Prod.mk.inj he
    exact h.die

theorem allocates_reaches (h : m₀.Allocates) (hm : Machine.Reaches config ok m₀ m) : m.Allocates := by
  induction hm with
  | start => exact h
  | step _ hlegal _ he ih => exact allocates_step ih hlegal he

/-- What a run asks of a call there: an `open` zeroes a torn tail to its end if at all, and no cut
of the frames of a commit does harm. -/
def BenignAllocated (config : WalConfig) (m : Machine) (op : Op) (fates : List Fate) : Prop :=
  match op with
  | .openLog seed => m.disk.locked = false →
      ZeroedWhole config.segmentSize m.disk (openSeeded config seed ⟨m.disk, fates⟩).2.disk
  | .commit => Benign config m .commit fates
  | _ => True

theorem BenignAllocated.benign (h : BenignAllocated config m op fates) (ha : m.Allocates) :
    Benign config m op fates := by
  cases op with
  | openLog seed => exact fun hl => ⟨ha.disk.notCut, h hl⟩
  | commit => exact h
  | _ => trivial

theorem reaches_benign (h : m₀.Allocates) (hm : Machine.Reaches config (BenignAllocated config) m₀ m) :
    Machine.Reaches config (Benign config) m₀ m := by
  induction hm with
  | start => exact .start
  | step hr hlegal hok he ih => exact ih.step hlegal (hok.benign (allocates_reaches h hr)) he

/-- Where segments are allocated, no creation that is interrupted is in the way of the next `open`:
one that meets no failing call recovers a log without gaps. -/
theorem allocated_run_recovers (hv : config.Valid) (hh : m₀.handle = none) (hl : m₀.disk.locked = false)
    (hb : basesOf m₀.disk = []) (ha : Allocated m₀.disk)
    (hm : Machine.Reaches config (BenignAllocated config) m₀ m) (hnone : m.handle = none)
    (hseed : (Op.openLog seed).Legal) :
    ∃ wal rep ps, Recovers config m.disk seed wal rep (numbered rep.oldestLsn ps) ∧
      rep.durableLsn + 1 = rep.oldestLsn + ps.length := by
  have hstart : m₀.Allocates := ⟨ha, fun wal hw => by simp [hh] at hw⟩
  have hu := holding_reaches hh hl hb (reaches_benign hstart hm)
  rw [hnone] at hu
  cases hu with
  | rest hl' h =>
    have hcut := (allocates_reaches hstart hm).disk.notCut
    obtain ⟨wal, rep, oldest, ps, -, hrec, rfl, hd, -⟩ := (h hcut).recovers hv hl' hseed
    exact ⟨wal, rep, ps, hrec, hd⟩

end

/-- The process dies with three bytes of the header of the first segment stored. -/
theorem allocated_run_recovers_cut : ∃ m,
    Machine.Reaches tightConfig (BenignAllocated tightConfig) (Machine.fresh true fun _ => 0) m ∧
    m.handle = none ∧ m.disk.entries.entries.length = 1 ∧ ∃ wal rep ps,
      Recovers tightConfig m.disk 1 wal rep (numbered rep.oldestLsn ps) ∧
        rep.durableLsn + 1 = rep.oldestLsn + ps.length := by
  have hseed : (Op.openLog 1).Legal := ⟨le_rfl, by decide⟩
  have hrun : ((Machine.fresh true fun _ => 0).exec tightConfig (.openLog 1)
      (List.replicate 6 .ok ++ [.crash 3])).map
      (fun r => (r.2.handle.isNone, r.2.disk.entries.entries.length)) = some (true, 1) := by decide +kernel
  obtain ⟨⟨o, m⟩, he, hres⟩ := Option.map_eq_some_iff.mp hrun
  obtain ⟨hnone, hfiles⟩ := Prod.mk.inj hres
  have hm : Machine.Reaches tightConfig (BenignAllocated tightConfig) (Machine.fresh true fun _ => 0) m :=
    Machine.Reaches.start.step hseed (fun _ b f g _ hf => by simp [Machine.fresh] at hf) he
  have hnone := Option.isNone_iff_eq_none.mp hnone
  have hstart := Allocated.fresh fun _ => 0
  exact ⟨m, hm, hnone, hfiles,
    allocated_run_recovers (by decide) rfl rfl (by decide) hstart hm hnone hseed⟩

end OpenWal
