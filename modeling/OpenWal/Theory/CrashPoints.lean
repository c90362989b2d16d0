import OpenWal.Theory.CrashStates
import OpenWal.Theory.FailingCommit

namespace OpenWal
open ByteSeq Posix CrashProg

def Sys.withFates (fates : List Fate) (s : Sys) : Sys := ⟨s.wal, s.world.withFates fates⟩

theorem Sys.withFates_replaces : Replaces Sys.withFates := fun _ _ _ => rfl

variable {s t u : Sys} {v : World} {wal : Wal} {d : Disk} {f : File} {fates : List Fate}

theorem orPoison_paced {α : Type} {m : Prog World WalError α} (h : Paced Env.withFates m) :
    Paced Sys.withFates (orPoison m) :=
  (h.zoom Sys.withFates_replaces (fun _ _ => rfl) fun _ _ _ _ => rfl).onError

theorem orPoison_dies {α : Type} {m : Prog World WalError α} (h : Dies Env.withFates m s.world v) :
    Dies Sys.withFates (orPoison m) s ⟨s.wal, v⟩ := by
  apply Dies.onError
  exact h.zoom (fun _ _ => rfl) fun _ => rfl

theorem setWal_paced (g : Wal → Wal) : Paced Sys.withFates (setWal g) :=
  Paced.update Sys.withFates_replaces fun _ _ => rfl

theorem writePrefix_paced (pos scan last : ℕ) : Paced Sys.withFates (writePrefix pos scan last) := by
  refine Paced.state_bind (fun _ _ => rfl) fun s => ?_
  apply Paced.seq
  · exact orPoison_paced (writeAllAt_paced _ _ _).mapErr
  apply Paced.seq
  · exact orPoison_paced (syncData_paced _).mapErr
  · exact setWal_paced _

/-- The process dies after `k` bytes of the write. -/
theorem writePrefix_dies (wal : Wal) (fates : List Fate) (hf : d.file wal.active = some f)
    (pos scan last k : ℕ) :
    Dies Sys.withFates (writePrefix pos scan last) ⟨wal, ⟨d, fates⟩⟩
      ⟨wal, ⟨d.put wal.active (f.write wal.writeOffset ((slice wal.staging pos scan).take k)), []⟩⟩ := by
  refine Dies.state_bind (fun _ _ => rfl) (Dies.left (orPoison_dies ?_) _)
  have hdies := Dies.syscall (Disk.modify wal.active (File.write wal.writeOffset
      (slice wal.staging pos scan))) (fun k => Disk.modify wal.active (File.write wal.writeOffset
      ((slice wal.staging pos scan).take k))) IoError.other k (⟨d, fates⟩ : World)
  rw [Disk.modify_of_file hf] at hdies
  exact hdies.mapErr

variable [Crc32c]

theorem roll_paced (newBase : ℕ) : Paced Sys.withFates (roll newBase) := by
  refine Paced.state_bind (fun _ _ => rfl) fun s => ?_
  apply Paced.bind (orPoison_paced (create_paced _ _))
  intro name
  exact (orPoison_paced fsyncDirectory_paced).seq (setWal_paced _)

/-- The process dies in the sync of the directory, with the new segment created. -/
theorem roll_dies (wal : Wal) (fates : List Fate) {newBase : ℕ} (h : d.file (filenameFor newBase) = none)
    (hss : headerSize ≤ wal.segmentSize) :
    ∃ created d', SetTo d (filenameFor newBase) (freshSegment newBase wal.segmentSize created) d' ∧
      Dies Sys.withFates (roll newBase) ⟨wal, ⟨d, fates⟩⟩ ⟨wal, ⟨d', []⟩⟩ := by
  obtain ⟨created, d', hc, hset⟩ := create_calm h hss
  refine ⟨created, d', hset, Dies.state_bind (fun _ _ => rfl) ?_⟩
  have hcreated : orPoison _ ⟨wal, _⟩ = _ := orPoison_of_ret hc
  refine Dies.right (orPoison_paced (create_paced _ _)) hcreated (Dies.left ?_ _)
  apply orPoison_dies
  exact (Dies.syscall Disk.syncDir (fun _ d => d) IoError.other 0 (⟨d', []⟩ : World)).mapErr

theorem commitStep_paced (pos : ℕ) : Paced Sys.withFates (commitStep pos) := by
  intro s n t hrun
  rcases hscan : scanPrefix s.wal.staging pos (s.wal.segmentSize - s.wal.writeOffset) pos lsnNone with
    ⟨scan, last⟩
  have hturn : Paced Sys.withFates (do
      (if pos < scan then writePrefix pos scan last else pure ())
      (if scan < s.wal.staging.length then roll (peek (s.wal.staging.drop scan)).1 else pure ())
      return scan : Prog Sys WalError ℕ) := by
    apply Paced.seq
    · split
      · exact writePrefix_paced _ _ _
      · exact Paced.ret Sys.withFates_replaces _
    apply Paced.seq
    · split
      · exact roll_paced _
      · exact Paced.ret Sys.withFates_replaces _
    · exact Paced.ret Sys.withFates_replaces _
  have heq := fun fates => commitStep_eq (s := s.withFates fates) hscan
  obtain ⟨ht, k, hk⟩ := hturn s n t ((heq []).symm.trans hrun)
  exact ⟨ht, k, fun fates => (heq _).trans (hk fates)⟩

theorem commitStep_dies {pos scan last : ℕ}
    (h : scanPrefix s.wal.staging pos (s.wal.segmentSize - s.wal.writeOffset) pos lsnNone = (scan, last))
    (hdies : Dies Sys.withFates (do
      (if pos < scan then writePrefix pos scan last else pure ())
      (if scan < s.wal.staging.length then roll (peek (s.wal.staging.drop scan)).1 else pure ())
      return scan : Prog Sys WalError ℕ) s t) : Dies Sys.withFates (commitStep pos) s t := by
  obtain ⟨fates, hdies⟩ := hdies
  exact ⟨fates, (commitStep_eq (s := s.withFates fates) h).trans hdies⟩

theorem commitLoop_dies {fuel pos : ℕ} (h : pos < s.wal.staging.length)
    (hdies : Dies Sys.withFates (commitStep pos >>= commitLoop fuel) s t) :
    Dies Sys.withFates (commitLoop (fuel + 1) pos) s t := by
  rw [commitLoop]
  refine Dies.state_bind (fun _ _ => rfl) ?_
  rw [if_pos h]
  exact hdies

namespace Committing

variable {config : WalConfig} {d₁ d₂ : Disk} {oldest : ℕ} {sealed : List (List Bytes)}
  {active rest qs more : List Bytes}

/-- The log once the records `qs` are stored. -/
theorem stored (hc : Committing config d oldest sealed active f (qs ++ more))
    (hfit : headerSize + runSize active + runSize qs ≤ config.segmentSize)
    (hset : SetTo d (filenameFor (activeBase oldest sealed))
      (OpenWal.stored (headerSize + runSize active) (activeBase oldest sealed + active.length) qs f) d₁) :
    Committing config d₁ oldest sealed (active ++ qs)
      (OpenWal.stored (headerSize + runSize active) (activeBase oldest sealed + active.length) qs f)
      more := by
  obtain ⟨hqs, hmore⟩ := Batch.append_iff.mp hc.batch
  refine ⟨(hc.toCarries.store hqs hfit).of_file fun m => ?_, ?_⟩
  · by_cases hm : m = filenameFor (activeBase oldest sealed)
    · rw [hm, hset.self, Disk.put_file_self]
    · rw [hset.others m hm, Disk.put_file_ne _ _ hm]
  · rwa [List.length_append, ← Nat.add_assoc]

/-- The log once the active segment is sealed. -/
theorem rolled (hc : Committing config d oldest sealed active f rest) (hr : rest ≠ []) (ha : active ≠ [])
    (hss : headerSize ≤ config.segmentSize) {created : ℕ}
    (hset : SetTo d (filenameFor (activeBase oldest sealed + active.length))
      (freshSegment (activeBase oldest sealed + active.length) config.segmentSize created) d₁) :
    Committing config d₁ oldest (sealed ++ [active]) []
      (freshSegment (activeBase oldest sealed + active.length) config.segmentSize created) rest := by
  refine ⟨hc.toCarries.roll ha (hc.next_le_u64Max hr) hss ⟨hset.others, hset.unlinked⟩ hset.self, ?_⟩
  rw [Carries.activeBase_roll, List.length_nil, Nat.add_zero]
  exact hc.batch

end Committing

section Turns

variable {config : WalConfig} {oldest : ℕ} {sealed : List (List Bytes)} {active rest : List Bytes}
  {observed : List ℕ} {staging done : Bytes} {last : ℕ}
  (hc : Committing config d oldest sealed active f rest)
  (hst : staging = done ++ encodeRun (activeBase oldest sealed + active.length) rest)

include hc hst

theorem scanPrefix_turn : scanPrefix staging done.length (roomIn config active) done.length lsnNone =
    (done.length + runSize (fit (roomIn config active) rest),
      if fit (roomIn config active) rest = [] then lsnNone
      else activeBase oldest sealed + active.length + (fit (roomIn config active) rest).length - 1) := by
  have hscan := scanPrefix_encodeRun done.length (roomIn config active) lsnNone hst le_rfl (by omega)
    (fun p hp => (hc.batch.small p hp).trans_lt config.maxRecordSize_lt) hc.batch.last
  rwa [Nat.sub_self, Nat.sub_zero] at hscan

/-- The process dies in the write of the records that fit. -/
theorem commitStep_dies_cut (hq : fit (roomIn config active) rest ≠ []) (k : ℕ) :
    Dies Sys.withFates (commitStep done.length)
      ⟨batchOn config oldest sealed active observed staging last, ⟨d, fates⟩⟩
      ⟨batchOn config oldest sealed active observed staging last,
        ⟨d.put (filenameFor (activeBase oldest sealed)) (f.write (headerSize + runSize active)
          ((encodeRun (activeBase oldest sealed + active.length)
            (fit (roomIn config active) rest)).take k)), []⟩⟩ := by
  set e := activeBase oldest sealed + active.length
  set qs := fit (roomIn config active) rest
  have hpos : 0 < runSize qs := Nat.pos_of_ne_zero (runSize_eq_zero.not.mpr hq)
  have hslice : slice staging done.length (done.length + runSize qs) = encodeRun e qs := by
    rw [hst, ← fit_append_overflow (roomIn config active) rest, encodeRun_append]
    exact slice_middle rfl (by rw [encodeRun_length])
  refine commitStep_dies (scanPrefix_turn hc hst) ?_
  rw [if_pos (Nat.lt_add_of_pos_right hpos)]
  apply Dies.left
  have hdies := writePrefix_dies (batchOn config oldest sealed active observed staging last) fates
    hc.file done.length (done.length + runSize qs)
    (if qs = [] then lsnNone else e + qs.length - 1) k
  simp only [batchOn, handleOn, hslice] at hdies ⊢
  exact hdies

/-- The records that fit are stored, and the process dies with the segment of the next one
created. -/
theorem commitStep_dies_created (hv : config.Valid) (hmore : overflow (roomIn config active) rest ≠ []) :
    ∃ d₁ created d', SetTo d (filenameFor (activeBase oldest sealed))
        (stored (headerSize + runSize active) (activeBase oldest sealed + active.length)
          (fit (roomIn config active) rest) f) d₁ ∧
      SetTo d₁ (filenameFor (activeBase oldest sealed + active.length +
          (fit (roomIn config active) rest).length))
        (freshSegment (activeBase oldest sealed + active.length +
          (fit (roomIn config active) rest).length) config.segmentSize created) d' ∧
      ∃ wal, Dies Sys.withFates (commitStep done.length)
        ⟨batchOn config oldest sealed active observed staging last, ⟨d, fates⟩⟩ ⟨wal, ⟨d', []⟩⟩ := by
  set e := activeBase oldest sealed + active.length with he
  set qs := fit (roomIn config active) rest with hqs
  set more := overflow (roomIn config active) rest with hm
  have hsplit : qs ++ more = rest := fit_append_overflow _ _
  have hrest : rest ≠ [] := by
    rintro rfl
    exact hmore (List.append_eq_nil_iff.mp hsplit).2
  have hss : headerSize ≤ config.segmentSize := (Nat.le_add_right _ _).trans hv.room
  have hst' : staging = done ++ (encodeRun e qs ++ encodeRun (e + qs.length) more) := by
    rw [hst, ← hsplit, encodeRun_append]
  obtain ⟨hle, hne⟩ : e + qs.length ≤ u64Max ∧ active ++ qs ≠ [] :=
    overflow_starts_segment hv hrest hc.batch hmore
  have hlt : activeBase oldest sealed < e + qs.length := by
    have := List.length_pos_iff.mpr hne
    rw [List.length_append] at this
    omega
  obtain ⟨d₁, hwrite, hset⟩ := storePrefix_calm config observed last hc.file hst'
  have hfree : d₁.file (filenameFor (e + qs.length)) = none := by
    rw [hset.others _ (filenameFor_ne hle hc.activeBase_le hlt.ne'), hc.free hle hlt]
  obtain ⟨created, d', hset', hroll⟩ := roll_dies
    (batchOn config oldest sealed (active ++ qs) (observed ++ told e qs) staging last) [] hfree hss
  refine ⟨d₁, created, d', hset, hset',
    batchOn config oldest sealed (active ++ qs) (observed ++ told e qs) staging last,
    commitStep_dies (scanPrefix_turn hc hst) ?_⟩
  -- the record at the cursor names the segment to come
  have hpeek : (peek (staging.drop (done.length + runSize qs))).1 = e + qs.length := by
    obtain ⟨q, qs', hq⟩ := List.exists_cons_of_ne_nil hmore
    have hb := (Batch.append_iff.mp (hsplit.symm ▸ hc.batch)).2
    rw [hq] at hb hst'
    rw [hst', ← List.drop_drop, List.drop_left, ← encodeRun_length e qs, List.drop_left,
      encodeRun_cons, peek_encodeFrame _ hb.lsn_le (hb.head_le.trans_lt config.maxRecordSize_lt)]
  have hlen : done.length + runSize qs < staging.length := by
    have := runSize_eq_zero.not.mpr hmore
    rw [hst', List.length_append, List.length_append, encodeRun_length, encodeRun_length]
    omega
  refine Dies.right ?_ hwrite (Dies.left ?_ _)
  · split
    · exact writePrefix_paced _ _ _
    · exact Paced.ret Sys.withFates_replaces _
  · change Dies _ (if done.length + runSize qs < staging.length then
      roll (peek (staging.drop (done.length + runSize qs))).1 else pure ()) _ _
    rw [if_pos hlen, hpeek]
    exact hroll

end Turns

end OpenWal
