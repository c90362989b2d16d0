import OpenWal.Theory.Commit
import OpenWal.Theory.Replay

namespace OpenWal
open ByteSeq Posix CrashProg

section

variable [Crc32c]

variable {config : WalConfig} {oldest : ℕ} {sealed : List (List Bytes)} {active staged : List Bytes}
  {observed : List ℕ} {d : Disk} {f : File} {w : World} {n : FileName}

theorem append_tooLarge {p : Bytes} (h : config.maxRecordSize < p.length) :
    append p ⟨handleOn config oldest sealed active observed staged, w⟩ =
      (.err .recordTooLarge, ⟨handleOn config oldest sealed active observed staged, w⟩) := by
  have hlen : p.length > (handleOn config oldest sealed active observed staged).maxRecordSize := h
  rw [append, Prog.bind_of_ret (Prog.state_run _), if_neg (by simp [handleOn]), if_pos hlen]
  rfl

theorem append_exhausted {p : Bytes} (hp : p.length ≤ config.maxRecordSize)
    (h : u64Max < activeBase oldest sealed + active.length + staged.length) :
    append p ⟨handleOn config oldest sealed active observed staged, w⟩ =
      (.err .lsnExhausted, ⟨handleOn config oldest sealed active observed staged, w⟩) := by
  have hnext : checkedNext (handleOn config oldest sealed active observed staged).lastLsn = none :=
    checkedNext_of_le (by simp only [handleOn]; omega)
  have hlen : ¬ p.length > (handleOn config oldest sealed active observed staged).maxRecordSize :=
    Nat.not_lt.mpr hp
  rw [append, Prog.bind_of_ret (Prog.state_run _), if_neg (by simp [handleOn]), if_neg hlen, hnext]
  rfl

theorem append_staged {p : Bytes} (hp : p.length ≤ config.maxRecordSize)
    (hpos : 1 ≤ activeBase oldest sealed)
    (h : activeBase oldest sealed + active.length + staged.length ≤ u64Max) :
    append p ⟨handleOn config oldest sealed active observed staged, w⟩ =
      (.ret (activeBase oldest sealed + active.length + staged.length),
        ⟨handleOn config oldest sealed active observed (staged ++ [p]), w⟩) := by
  have hnext : checkedNext (handleOn config oldest sealed active observed staged).lastLsn =
      some (activeBase oldest sealed + active.length + staged.length) :=
    checkedNext_eq_some.mpr (by simp only [handleOn]; omega)
  have hlen : ¬ p.length > (handleOn config oldest sealed active observed staged).maxRecordSize :=
    Nat.not_lt.mpr hp
  rw [append, Prog.bind_of_ret (Prog.state_run _), if_neg (by simp [handleOn]), if_neg hlen, hnext]
  have hlast : activeBase oldest sealed + active.length + staged.length =
      activeBase oldest sealed + active.length - 1 + (staged ++ [p]).length := by
    rw [List.length_append, List.length_singleton]
    omega
  simp only [setWal, encodeInto_eq]
  rw [Prog.seq_of_ret (Prog.update_run _ _), Prog.pure_run]
  simp only [handleOn, ← hlast, encodeRun_append, encodeRun_cons, encodeRun_nil, List.append_nil]

omit [Crc32c] in
/-- The deletable segments are those followed by one that starts at `upTo + 1` or below. -/
theorem deletablePrefixLen_basesFrom (oldest upTo : ℕ) (sealed : List (List Bytes)) :
    ∃ xs ys, sealed = xs ++ ys ∧ deletablePrefixLen (basesFrom oldest sealed) upTo = xs.length ∧
      (xs = [] ∨ activeBase oldest xs - 1 ≤ upTo) ∧
      ∀ ps rest, ys = ps :: rest → upTo < activeBase oldest xs + ps.length - 1 := by
  induction sealed generalizing oldest with
  | nil => exact ⟨[], [], rfl, rfl, Or.inl rfl, by simp⟩
  | cons ps rest ih =>
    obtain ⟨bases, hb⟩ := basesFrom_eq_cons (oldest + ps.length) rest
    have htail : (basesFrom oldest (ps :: rest)).tail = (oldest + ps.length) :: bases := by
      rw [basesFrom, List.tail_cons, hb]
    by_cases hle : oldest + ps.length - 1 ≤ upTo
    · obtain ⟨xs, ys, rfl, hn, hx, hy⟩ := ih (oldest + ps.length)
      refine ⟨ps :: xs, ys, rfl, ?_, Or.inr ?_, by rwa [activeBase_cons]⟩
      · rw [deletablePrefixLen, partitionPoint, hb, List.tail_cons] at hn
        rw [deletablePrefixLen, partitionPoint, htail, List.takeWhile_cons_of_pos (by simpa using hle),
          List.length_cons, hn, List.length_cons]
      · rw [activeBase_cons]
        rcases hx with rfl | hx
        · exact hle
        · exact hx
    · refine ⟨[], ps :: rest, rfl, ?_, Or.inl rfl, ?_⟩
      · rw [deletablePrefixLen, partitionPoint, htail,
          List.takeWhile_cons_of_neg (by simpa using hle), List.length_nil, List.length_nil]
      · intro qs rest' he
        obtain ⟨rfl, -⟩ := List.cons.inj he
        exact Nat.not_le.mp hle

def removeAll : List ℕ → Disk → Disk
  | [], d => d
  | base :: bases, d => removeAll bases (d.remove (filenameFor base))

omit [Crc32c] in
theorem removeAll_file {bases : List ℕ} (h : ∀ b ∈ bases, n ≠ filenameFor b) :
    (removeAll bases d).file n = d.file n := by
  induction bases generalizing d with
  | nil => rfl
  | cons b bases ih =>
    rw [removeAll, ih fun c hc => h c (List.mem_cons_of_mem _ hc),
      Disk.remove_file_ne d (h b List.mem_cons_self)]

omit [Crc32c] in
theorem removeAll_none {bases : List ℕ} (h : d.file n = none) : (removeAll bases d).file n = none := by
  induction bases generalizing d with
  | nil => exact h
  | cons b bases ih =>
    apply ih
    by_cases hn : n = filenameFor b
    · rw [hn, Disk.remove_file_self]
    · rw [Disk.remove_file_ne d hn, h]

omit [Crc32c] in
theorem remove_subset {m : FileName} (h : (d.remove n).file m = some f) : d.file m = some f := by
  by_cases hm : m = n
  · rw [hm, Disk.remove_file_self] at h
    simp at h
  · rwa [Disk.remove_file_ne _ hm] at h

omit [Crc32c] in
theorem removeAll_subset {bases : List ℕ} (h : (removeAll bases d).file n = some f) :
    d.file n = some f := by
  induction bases generalizing d with
  | nil => exact h
  | cons base bases ih => exact remove_subset (ih h)

omit [Crc32c] in
theorem removeAll_file_mem {bases : List ℕ} {b : ℕ} (h : b ∈ bases) :
    (removeAll bases d).file (filenameFor b) = none := by
  induction bases generalizing d with
  | nil => simp at h
  | cons c bases ih =>
    rcases List.mem_cons.mp h with rfl | h
    · rw [removeAll, removeAll_none (d.remove_file_self _)]
    · exact ih h

omit [Crc32c] in
theorem remove_flags (n : FileName) (d : Disk) : (d.remove n).dirExists = d.dirExists ∧
    (d.remove n).dirDurable = d.dirDurable ∧ (d.remove n).nameDurable = d.nameDurable := by
  unfold Disk.remove
  split <;> exact ⟨rfl, rfl, rfl⟩

omit [Crc32c] in
theorem removeAll_flags (bases : List ℕ) (d : Disk) : (removeAll bases d).locked = d.locked ∧
    (removeAll bases d).dirExists = d.dirExists ∧ (removeAll bases d).dirDurable = d.dirDurable ∧
    (removeAll bases d).nameDurable = d.nameDurable := by
  induction bases generalizing d with
  | nil => exact ⟨rfl, rfl, rfl, rfl⟩
  | cons b bases ih =>
    obtain ⟨h₁, h₂, h₃, h₄⟩ := ih (d.remove (filenameFor b))
    obtain ⟨h₂', h₃', h₄'⟩ := remove_flags (filenameFor b) d
    exact ⟨h₁.trans (d.remove_locked _), h₂.trans h₂', h₃.trans h₃', h₄.trans h₄'⟩

omit [Crc32c] in
/-- A segment that is missing is passed over. -/
theorem unlinkSegments_calm (bases : List ℕ) (d : Disk) :
    unlinkSegments bases ⟨d, []⟩ = (.ret (), ⟨removeAll bases d, []⟩) := by
  induction bases generalizing d with
  | nil => rfl
  | cons base bases ih =>
    rw [unlinkSegments, removeAll]
    cases hf : d.file (filenameFor base) with
    | some f =>
      have ha : Prog.attempt (removeFile (filenameFor base)) ⟨d, []⟩ =
          ((.ret (.ok ()), ⟨d.remove (filenameFor base), []⟩) :
            Outcome WalError (Except IoError Unit) × World) := by
        rw [Prog.attempt, removeFile_calm hf]
      rw [Prog.bind_of_ret ha]
      exact ih _
    | none =>
      have ha : Prog.attempt (removeFile (filenameFor base)) ⟨d, []⟩ =
          ((.ret (.error .notFound), ⟨d, []⟩) : Outcome WalError (Except IoError Unit) × World) := by
        rw [Prog.attempt, removeFile, Prog.bind_of_ret (Prog.state_run _), hf]
        rfl
      rw [Prog.bind_of_ret ha, Disk.remove_of_none hf]
      exact ih _

omit [Crc32c] in
/-- What a checkpoint does to any handle that can be used, whatever its directory holds. -/
theorem checkpoint_run {wal : Wal} (hp : wal.poisoned = false) (upTo : ℕ) (d : Disk) :
    checkpoint upTo ⟨wal, ⟨d, []⟩⟩ =
      (.ret (), if deletablePrefixLen wal.segments upTo = 0 then ⟨wal, ⟨d, []⟩⟩ else
        ⟨{ wal with
            segments := wal.segments.drop (deletablePrefixLen wal.segments upTo)
            oldestLsn := (wal.segments.drop (deletablePrefixLen wal.segments upTo)).headD lsnNone },
          ⟨(removeAll (wal.segments.take (deletablePrefixLen wal.segments upTo)) d).syncDir, []⟩⟩) := by
  rw [checkpoint, Prog.bind_of_ret (Prog.state_run _), if_neg (by simp [hp])]
  by_cases hn : deletablePrefixLen wal.segments upTo = 0
  · simp only [hn, if_true]
    rfl
  · simp only [hn, if_false]
    refine (Prog.seq_of_ret (orPoison_of_ret (unlinkSegments_calm _ d))).trans ?_
    rw [fsyncDirectory, Prog.seq_of_ret (orPoison_of_ret (Prog.mapErr_of_ret (fsyncDir_calm _)))]
    rfl

variable (config oldest) in
/-- The handle of a log whose oldest segments are gone. -/
theorem handleOn_drop (xs ys : List (List Bytes)) (active staged : List Bytes) (observed : List ℕ) :
    handleOn config (activeBase oldest xs) ys active observed staged =
      { handleOn config oldest (xs ++ ys) active observed staged with
        segments := (basesFrom oldest (xs ++ ys)).drop xs.length
        oldestLsn := ((basesFrom oldest (xs ++ ys)).drop xs.length).headD lsnNone } := by
  obtain ⟨r, hr⟩ := basesFrom_eq_cons (activeBase oldest xs) ys
  simp only [handleOn, basesFrom_drop, activeBase_append, hr, List.headD_cons]

omit [Crc32c] in
/-- The directory of a log whose oldest segments are gone. -/
theorem basesOf_drop {xs ys : List (List Bytes)} {d' : Disk} (hne : ∀ ps ∈ xs ++ ys, ps ≠ [])
    (hbases : basesOf d = basesFrom oldest (xs ++ ys))
    (hnone : ∀ b ∈ (basesFrom oldest (xs ++ ys)).take xs.length, d'.file (filenameFor b) = none)
    (hrest : ∀ n, (∀ b ∈ (basesFrom oldest (xs ++ ys)).take xs.length, n ≠ filenameFor b) →
      d'.file n = d.file n) :
    basesOf d' = basesFrom (activeBase oldest xs) ys ∧
      ∀ b ≤ u64Max, activeBase oldest xs ≤ b → d'.file (filenameFor b) = d.file (filenameFor b) := by
  have hsplit := List.take_append_drop xs.length (basesFrom oldest (xs ++ ys))
  rw [basesFrom_drop] at hsplit
  have hsort := basesFrom_sorted oldest hne
  rw [← hsplit] at hsort
  obtain ⟨-, hsy, hlt⟩ := List.pairwise_append.mp hsort
  have hmem : ∀ {b}, b ∈ basesOf d ↔ b ∈ (basesFrom oldest (xs ++ ys)).take xs.length ∨
      b ∈ basesFrom (activeBase oldest xs) ys := by
    intro b
    rw [hbases, ← List.mem_append, hsplit]
  have hfirst : activeBase oldest xs ∈ basesFrom (activeBase oldest xs) ys := by
    obtain ⟨r, hr⟩ := basesFrom_eq_cons (activeBase oldest xs) ys
    rw [hr]
    exact List.mem_cons_self
  have hkeep : ∀ b ≤ u64Max, activeBase oldest xs ≤ b →
      d'.file (filenameFor b) = d.file (filenameFor b) := by
    intro b hb hle
    refine hrest _ fun c hc => filenameFor_ne hb (mem_basesOf.mp (hmem.mpr (Or.inl hc))).1 ?_
    have := hlt c hc _ hfirst
    omega
  -- a segment is there exactly where it was and was not deleted
  refine ⟨basesOf_eq hsy fun b => ?_, hkeep⟩
  constructor
  · intro hb
    obtain ⟨hle, g, hg⟩ := mem_basesOf.mp (hmem.mpr (Or.inr hb))
    exact ⟨hle, g, by rw [hkeep b hle (mem_basesFrom_le hb).1, hg]⟩
  · rintro ⟨hle, g, hg⟩
    by_cases hb : b ∈ (basesFrom oldest (xs ++ ys)).take xs.length
    · rw [hnone b hb] at hg
      simp at hg
    · have hd := hrest (filenameFor b) fun c hc =>
        filenameFor_ne hle (mem_basesOf.mp (hmem.mpr (Or.inl hc))).1 fun hbc => hb (hbc ▸ hc)
      exact (hmem.mp (mem_basesOf.mpr ⟨hle, g, hd ▸ hg⟩)).resolve_left hb

/-- What is left of a log whose oldest segments are gone. -/
theorem StoredLog.drop {safe : Prop} {xs ys : List (List Bytes)} {d' : Disk}
    (h : StoredLog config safe d oldest (xs ++ ys) active f)
    (hnone : ∀ b ∈ (basesFrom oldest (xs ++ ys)).take xs.length, d'.file (filenameFor b) = none)
    (hrest : ∀ n, (∀ b ∈ (basesFrom oldest (xs ++ ys)).take xs.length, n ≠ filenameFor b) →
      d'.file n = d.file n) :
    StoredLog config safe d' (activeBase oldest xs) ys active f := by
  obtain ⟨hbases, hkeep⟩ := basesOf_drop h.chain.ne_nil h.bases hnone hrest
  have hfile := h.file
  have hwritten := h.written
  rw [activeBase_append] at hfile hwritten
  refine ⟨hbases, ?_, ?_, hwritten⟩
  · exact StoredFrom.congr (ChainFrom.append_iff.mp h.chain).2 fun b hb _ hle => hkeep b hle hb
  · rw [hkeep _ hwritten.header.le_u64Max (le_activeBase _ _), hfile]

/-- A checkpoint deletes whole segments, none of which holds a record above `upTo`. -/
theorem checkpoint_calm {safe : Prop} (observed : List ℕ) (staged : List Bytes) (upTo : ℕ)
    (h : StoredLog config safe d oldest sealed active f) :
    ∃ xs ys d', sealed = xs ++ ys ∧ (xs = [] ∨ activeBase oldest xs - 1 ≤ upTo) ∧
      checkpoint upTo ⟨handleOn config oldest sealed active observed staged, ⟨d, []⟩⟩ =
        (.ret (), ⟨handleOn config (activeBase oldest xs) ys active observed staged, ⟨d', []⟩⟩) ∧
      StoredLog config safe d' (activeBase oldest xs) ys active f ∧ d'.locked = d.locked := by
  obtain ⟨xs, ys, rfl, hn, hx, -⟩ := deletablePrefixLen_basesFrom oldest upTo sealed
  have hdel : deletablePrefixLen
      (handleOn config oldest (xs ++ ys) active observed staged).segments upTo = xs.length := hn
  have hrun := checkpoint_run
    (show (handleOn config oldest (xs ++ ys) active observed staged).poisoned = false from rfl)
    upTo d
  rw [hdel] at hrun
  by_cases hxs : xs = []
  · subst hxs
    exact ⟨[], ys, d, rfl, hx, hrun, h, rfl⟩
  · rw [if_neg fun h0 => hxs (List.length_eq_zero_iff.mp h0)] at hrun
    refine ⟨xs, ys, (removeAll ((basesFrom oldest (xs ++ ys)).take xs.length) d).syncDir, rfl, hx,
      hrun.trans ?_, h.drop (fun _ hb => removeAll_file_mem hb) fun _ hn => removeAll_file hn,
      (removeAll_flags _ d).1⟩
    rw [handleOn_drop config oldest xs ys active staged observed]
    rfl

end

end OpenWal
