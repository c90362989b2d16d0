import OpenWal.Theory.FailingCommit

namespace OpenWal
open ByteSeq Posix CrashProg

variable {config : WalConfig} {d : Disk} {n : FileName} {f : File}

structure KeptByCalls (I : Disk → Prop) : Prop where
  create : ∀ n d, I d → I (d.create n)
  modify : ∀ n g d, I d → I (d.modify n g)
  remove : ∀ n d, I d → I (d.remove n)
  syncDir : ∀ d, I d → I d.syncDir
  tick : ∀ d k, I d → I { d with clockReads := k }

theorem zeroToEof_keepsAll {I : Disk → Prop} (h : ∀ g d, I d → I (d.modify n g)) (x ss : ℕ) :
    Keeps (OnDisk I) (zeroToEof n x ss) :=
  Keeps.seq (Keeps.mapErr (writeZeros_keeps fun _ _ d _ => h _ d))
    (Keeps.mapErr (syncData_keeps (h _)))

section

variable [Crc32c] {I : Disk → Prop}

theorem create_keepsAll (h : KeptByCalls I) (base ss : ℕ) : Keeps (OnDisk I) (create base ss) := by
  apply Keeps.mapErr
  apply Keeps.seq (createNew_keeps (h.create _))
  apply Keeps.seq (preallocate_keeps ss (h.modify _))
  apply Keeps.bind (readClock_onlyAt _ fun d k => h.tick d k)
  intro created
  apply Keeps.seq (writeAllAt_keeps (fun b => h.modify _ _) _)
  exact Keeps.seq (syncData_keeps (h.modify _ _)) (Keeps.ret _)

omit [Crc32c] in
theorem fsyncDirectory_keepsAll (h : ∀ d, I d → I d.syncDir) : Keeps (OnDisk I) fsyncDirectory :=
  Keeps.mapErr (Keeps.syscall h fun _ _ hd => hd)

variable (config) in
theorem recoverOne_keeps (h : ∀ n g d, I d → I (d.modify n g)) (prevMax : Option ℕ) (base : ℕ)
    (isActive : Bool) : Keeps (OnDisk I) (recoverOne config prevMax base isActive) := by
  apply Keeps.bind (Keeps.mapErr (openFile_keeps I _))
  intro file
  by_cases hlen : headerSize ≤ file.length
  · rw [readHeader_of_le hlen]
    simp only
    cases hd : decodeHeader (file.take headerSize) with
    | error e => exact Keeps.raise _
    | ok parsed =>
      simp only
      refine Triple.cond (fun _ => Keeps.raise _) fun hb => Triple.cond (fun _ => Keeps.raise _) fun _ => ?_
      obtain rfl := not_not.mp hb
      obtain ⟨ps, hs⟩ := HeaderOk.exists_holds (f := ⟨file, fun _ => false⟩) ⟨hlen, hd⟩
        config.segmentSize config.maxRecordSize
      have hss := config.segmentSize_lt
      by_cases hc : CleanAt config.segmentSize file (headerSize + runSize ps)
      · rw [recoverSegment_of_cleanAt _ isActive hs.run hs.header.le_u64Max hc]
        exact Keeps.ret _
      by_cases ht : isActive = true ∧ TornAt config.segmentSize config.maxRecordSize file
          (headerSize + runSize ps) (parsed + ps.length)
      · rw [ht.1, recoverSegment_of_tornAt _ hs.run hs.header.le_u64Max hss hs.stops ht.2]
        exact Keeps.seq (zeroToEof_keepsAll (h _) _ _) (Keeps.ret _)
      · rw [recoverSegment_of_fatal _ isActive hs.run hs.header.le_u64Max hss hs.stops hc
          fun ha h => ht ⟨ha, h⟩]
        exact Keeps.raise _
  · rw [readHeader_of_lt (Nat.not_le.mp hlen)]
    exact Keeps.raise _

variable (config) in
theorem recoverSegments_keeps (h : ∀ n g d, I d → I (d.modify n g)) (prevMax : Option ℕ) (base : ℕ)
    (bases : List ℕ) : Keeps (OnDisk I) (recoverSegments config prevMax base bases) := by
  induction bases generalizing base prevMax with
  | nil => exact recoverOne_keeps config h _ _ _
  | cons next bases ih =>
    rw [recoverSegments]
    exact Keeps.bind (recoverOne_keeps config h _ _ _) fun seg =>
      Triple.cond (fun _ => Keeps.raise _) fun _ => ih _ _

variable (config) in
theorem discardIncompleteHighest_keeps (hr : ∀ n d, I d → I (d.remove n))
    (hs : ∀ d, I d → I d.syncDir) (bases : List ℕ) :
    Keeps (OnDisk I) (discardIncompleteHighest bases config) := by
  unfold discardIncompleteHighest
  split
  · exact Keeps.ret _
  · apply Keeps.bind (Keeps.mapErr (openFile_keeps I _))
    intro file
    split
    · exact Keeps.raise _
    · exact Keeps.ret _
    · exact Keeps.seq (Keeps.mapErr (removeFile_keeps (hr _)))
        (Keeps.seq (fsyncDirectory_keepsAll hs) (Keeps.ret _))

theorem recoverDirectory_keeps (h : KeptByCalls I) (config : WalConfig) (seed : ℕ) :
    Keeps (OnDisk I) (recoverDirectory config seed) := by
  apply Keeps.bind
  · exact Keeps.bind (Keeps.mapErr (readDir_keeps I)) fun _ => Keeps.ret _
  intro bases
  apply Keeps.bind (discardIncompleteHighest_keeps config h.remove h.syncDir bases)
  intro bases
  cases bases with
  | nil =>
    exact Keeps.bind (create_keepsAll h _ _) fun _ =>
      Keeps.seq (fsyncDirectory_keepsAll h.syncDir) (Keeps.ret _)
  | cons base rest =>
    exact Keeps.bind (recoverSegments_keeps config h.modify _ _ _) fun _ => Keeps.ret _

/-- An open that fails gives the lock back. -/
theorem openSeeded_unlocks (config : WalConfig) (d : Disk) (seed : ℕ) :
    Triple (OnDisk (· = d)) (openSeeded config seed) (fun _ _ => True)
      (fun _ => OnDisk fun e => e.locked = d.locked) (fun _ => True) :=
  (openSeeded_triple (I := fun _ => True) seed (fun _ _ _ _ => trivial) trivial
    (fun _ _ _ _ => trivial) (fun _ _ _ _ _ _ _ _ => trivial)
    (fun _ _ _ _ _ _ _ _ _ _ _ _ => trivial)).conseq (fun _ h => h) (fun _ _ _ => trivial)
      (fun _ _ h => h.2) fun _ _ => trivial

theorem openSeeded_dirExists (config : WalConfig) (seed : ℕ) :
    Triple (fun _ => True) (openSeeded config seed) (fun _ => OnDisk fun d => d.dirExists = true)
      (fun _ _ => True) (fun _ => True) := by
  unfold openSeeded
  refine Triple.cond (fun _ => Triple.raise _ fun _ _ => trivial) fun _ =>
    Triple.cond (fun _ => Triple.raise _ fun _ _ => trivial) fun _ => ?_
  apply Triple.seq (Q := fun _ => OnDisk fun d => d.dirExists = true)
  · intro w _
    refine (lockDirectory_triple w.disk w rfl).imp (fun _ w' h => ?_) (fun _ _ _ => trivial)
      fun _ _ => trivial
    rw [OnDisk, h.1]
    rfl
  have hkept : KeptByCalls fun d => d.dirExists = true := by
    refine ⟨fun n d h => h, fun n g d h => ?_, fun n d h => ?_, fun d h => h, fun d k h => h⟩
    · rw [(OnlyAt.modify n g d).dirExists, h]
    · unfold Disk.remove
      split <;> exact h
  refine Triple.bind (Triple.onError ?_) fun rec' => Triple.ret _ fun _ h => h
  exact (recoverDirectory_keeps hkept config seed).conseq (fun _ h => h) (fun _ _ h => h)
    (fun _ _ _ => trivial) fun _ _ => trivial

/-- A second `open` of a directory changes nothing. -/
theorem openSeeded_of_locked (hl : d.locked = true) (hd : d.dirExists = true) (seed : ℕ) :
    Triple (OnDisk (· = d)) (openSeeded config seed) (fun _ _ => False) (fun _ => OnDisk (· = d))
      (OnDisk (· = d)) := by
  have hsame : ∀ w : World, w.disk = d → w.disk = d := fun _ h => h
  have hdir : { d with dirExists := true, dirDurable := d.dirExists && d.dirDurable } = d := by
    cases d
    simp_all
  unfold openSeeded
  refine Triple.cond (fun _ => Triple.raise _ hsame) fun _ => Triple.cond (fun _ => Triple.raise _ hsame)
    fun _ => ?_
  apply Triple.seq (Q := fun _ _ => False)
  · apply Triple.seq (Q := fun _ => OnDisk (· = d))
    · apply Keeps.mapErr
      refine Keeps.syscall (I := fun e => e = d) ?_ fun _ _ h => h
      rintro _ rfl
      exact hdir
    apply Triple.seq (Q := fun _ => OnDisk (· = d))
    · exact Keeps.syscall (I := fun e => e = d) (fun _ h => h) fun _ _ h => h
    intro w hw
    rw [flock, Prog.bind_of_ret (Prog.state_run w), if_pos (by rw [show w.disk = d from hw, hl])]
    exact hw
  · exact fun w h => h.elim

omit [Crc32c] in
/-- The segments go in order, as many as there are calls that succeed. -/
theorem unlinkSegments_triple (bases : List ℕ) (hs : bases.Pairwise (· < ·))
    (hf : ∀ b ∈ bases, b ≤ u64Max ∧ ∃ f, d.file (filenameFor b) = some f) :
    Triple (OnDisk (· = d)) (unlinkSegments bases) (fun _ => OnDisk (· = removeAll bases d))
      (fun e w => e.IsIo ∧ ∃ k ≤ bases.length, w.disk = removeAll (bases.take k) d)
      (OnDisk fun d' => ∃ k ≤ bases.length, d' = removeAll (bases.take k) d) := by
  induction bases generalizing d with
  | nil => exact Triple.ret _ fun w h => h
  | cons base bases ih =>
    obtain ⟨hlt, hs⟩ := List.pairwise_cons.mp hs
    obtain ⟨hle, f, hbf⟩ := hf base List.mem_cons_self
    have hnone : ∀ w : World, w.disk = d →
        ∃ k ≤ (base :: bases).length, w.disk = removeAll ((base :: bases).take k) d :=
      fun w hw => ⟨0, Nat.zero_le _, hw⟩
    rw [unlinkSegments]
    apply Triple.bind
    · exact (removeFile_triple hbf).attempt.conseq (fun _ h => h) (fun _ _ h => h)
        (fun _ _ h => h.elim) hnone
    intro r
    have hrest := ih (d := d.remove (filenameFor base)) hs fun b hb => by
      obtain ⟨hb', g, hg⟩ := hf b (List.mem_cons_of_mem _ hb)
      exact ⟨hb', g, by rw [Disk.remove_file_ne d (filenameFor_ne hb' hle (hlt b hb).ne'), hg]⟩
    rintro w (⟨_, rfl, hw⟩ | ⟨e, rfl, rfl, hw⟩)
    · refine (hrest w hw).imp (fun _ _ h => h) ?_ ?_
      · rintro e w' ⟨he, k, hk, hw'⟩
        exact ⟨he, k + 1, Nat.succ_le_succ hk, hw'⟩
      · rintro w' ⟨k, hk, hw'⟩
        exact ⟨k + 1, Nat.succ_le_succ hk, hw'⟩
    · exact ⟨trivial, hnone w hw⟩

omit [Crc32c] in
/-- A sync that fails leaves all of the segments unlinked. -/
theorem fsyncUnlinked_triple (wal : Wal) (bases : List ℕ) :
    Triple (InSys wal (· = removeAll bases d)) (orPoison fsyncDirectory)
      (fun _ => InSys wal (· = (removeAll bases d).syncDir))
      (fun e s => e.IsIo ∧
        InSys wal.poison (fun d' => ∃ k ≤ bases.length, d' = removeAll (bases.take k) d) s)
      (InSys wal fun d' => ∃ k ≤ bases.length, d' = removeAll (bases.take k) d) := by
  have hall : removeAll bases d = removeAll (bases.take bases.length) d := by
    rw [List.take_length]
  refine orPoison_triple wal ((fsyncDirectory_triple _).conseq (fun _ h => h) (fun _ _ h => h) ?_ ?_)
  · exact fun e w hw => ⟨hw.1, bases.length, le_rfl, hw.2.trans hall⟩
  · exact fun w hw => ⟨bases.length, le_rfl, (show w.disk = _ from hw).trans hall⟩

variable {oldest : ℕ} {sealed xs ys : List (List Bytes)} {active : List Bytes}

/-- A log some of whose oldest segments are unlinked. -/
theorem Carries.removeAll (h : Carries config d oldest (xs ++ ys) active f) :
    Carries config (removeAll ((basesFrom oldest (xs ++ ys)).take xs.length) d) (activeBase oldest xs)
      ys active f :=
  h.drop (fun _ hb => removeAll_file_mem hb) fun _ hn => removeAll_file hn

/-- What a checkpoint ends in, whatever its calls come to. -/
theorem checkpoint_triple (h : Carries config d oldest sealed active f) (observed : List ℕ)
    (staged : List Bytes) (upTo : ℕ) (fates : List Fate) :
    ∃ xs ys, sealed = xs ++ ys ∧ (xs = [] ∨ activeBase oldest xs - 1 ≤ upTo) ∧
      deletablePrefixLen (basesFrom oldest sealed) upTo = xs.length ∧
      Ends
        (fun _ s => s.wal = handleOn config (activeBase oldest xs) ys active observed staged ∧
          (xs = [] ∧ s.world.disk = d ∨ xs ≠ [] ∧
            s.world.disk = (OpenWal.removeAll ((basesFrom oldest sealed).take xs.length) d).syncDir))
        (fun e s => e.IsIo ∧ s.wal = (handleOn config oldest sealed active observed staged).poison ∧
          ∃ k ≤ xs.length, s.world.disk = OpenWal.removeAll ((basesFrom oldest sealed).take k) d)
        (fun s => s.wal = handleOn config oldest sealed active observed staged ∧
          ∃ k ≤ xs.length, s.world.disk = OpenWal.removeAll ((basesFrom oldest sealed).take k) d)
        (checkpoint upTo ⟨handleOn config oldest sealed active observed staged, ⟨d, fates⟩⟩) := by
  obtain ⟨xs, ys, rfl, hn, hx, -⟩ := deletablePrefixLen_basesFrom oldest upTo sealed
  refine ⟨xs, ys, rfl, hx, hn, ?_⟩
  have hdel : deletablePrefixLen
      (handleOn config oldest (xs ++ ys) active observed staged).segments upTo = xs.length := hn
  rw [checkpoint, Prog.bind_of_ret (Prog.state_run _), if_neg (by simp [handleOn])]
  by_cases hxs : xs = []
  · subst hxs
    simp only [hdel, List.length_nil, if_true]
    exact ⟨rfl, Or.inl ⟨trivial, rfl⟩⟩
  have hpos : xs.length ≠ 0 := fun h0 => hxs (List.length_eq_zero_iff.mp h0)
  set bases := (basesFrom oldest (xs ++ ys)).take xs.length with hbases
  set wal := handleOn config oldest (xs ++ ys) active observed staged with hwal
  have hsort := basesFrom_sorted oldest h.ne_nil
  have hunlink := unlinkSegments_triple (d := d) bases (hsort.sublist (List.take_sublist _ _)) fun b hb =>
    mem_basesOf.mp (h.bases ▸ List.mem_of_mem_take hb)
  simp only [hdel, hpos, if_false]
  have hsome : ∀ k, ∃ j ≤ xs.length, OpenWal.removeAll (bases.take k) d =
      OpenWal.removeAll ((basesFrom oldest (xs ++ ys)).take j) d := fun k =>
    ⟨min k xs.length, Nat.min_le_right _ _, by rw [hbases, List.take_take]⟩
  have hfirst : Triple (InSys wal (· = d)) (orPoison (unlinkSegments bases))
      (fun _ => InSys wal (· = OpenWal.removeAll bases d))
      (fun e s => e.IsIo ∧ InSys wal.poison (fun d' => ∃ k ≤ bases.length,
        d' = OpenWal.removeAll (bases.take k) d) s)
      (InSys wal fun d' => ∃ k ≤ bases.length, d' = OpenWal.removeAll (bases.take k) d) :=
    orPoison_triple wal hunlink
  refine (hfirst.seq ((fsyncUnlinked_triple wal bases).seq (Triple.update _ ?_))).conseq
    (fun _ h => h) (fun _ _ h => h) ?_ ?_ _ ⟨rfl, rfl⟩
  · rintro s ⟨hs, hd⟩
    refine ⟨?_, Or.inr ⟨hxs, hd⟩⟩
    obtain ⟨r, hr⟩ := basesFrom_eq_cons (activeBase oldest xs) ys
    simp only [hs, hwal, handleOn, basesFrom_drop, activeBase_append, hr, List.headD_cons]
  · rintro e s ⟨he, hs, k, -, hd⟩
    obtain ⟨j, hj, h'⟩ := hsome k
    exact ⟨he, hs, j, hj, hd.trans h'⟩
  · rintro s ⟨hs, k, -, hd⟩
    obtain ⟨j, hj, h'⟩ := hsome k
    exact ⟨hs, j, hj, hd.trans h'⟩

end

end OpenWal
