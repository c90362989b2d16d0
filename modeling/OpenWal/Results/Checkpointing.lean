import OpenWal.Theory.FailingRuns

namespace OpenWal
open ByteSeq Posix CrashProg

theorem partitionPoint_add {p q : ℕ → Bool} (h : ∀ x, p x → q x) (bases : List ℕ) :
    partitionPoint p bases + partitionPoint q (bases.drop (partitionPoint p bases)) =
      partitionPoint q bases := by
  induction bases with
  | nil => rfl
  | cons b bases ih =>
    simp only [partitionPoint] at ih ⊢
    by_cases hb : p b
    · rw [List.takeWhile_cons_of_pos hb, List.takeWhile_cons_of_pos (h b hb), List.length_cons,
        List.length_cons, List.drop_succ_cons]
      omega
    · rw [List.takeWhile_cons_of_neg hb, List.length_nil, List.drop_zero, Nat.zero_add]

theorem partitionPoint_drop {p q : ℕ → Bool} (h : ∀ x, q x → p x) (bases : List ℕ) :
    partitionPoint q (bases.drop (partitionPoint p bases)) = 0 := by
  induction bases with
  | nil => rfl
  | cons b bases ih =>
    simp only [partitionPoint] at ih ⊢
    by_cases hb : p b
    · rw [List.takeWhile_cons_of_pos hb, List.length_cons, List.drop_succ_cons]
      exact ih
    · rw [List.takeWhile_cons_of_neg hb, List.length_nil, List.drop_zero,
        List.takeWhile_cons_of_neg fun hq => hb (h b hq), List.length_nil]

theorem deletablePrefixLen_max (bases : List ℕ) (a b : ℕ) :
    deletablePrefixLen bases (max a b) = deletablePrefixLen bases a +
      deletablePrefixLen (bases.drop (deletablePrefixLen bases a)) b := by
  simp only [deletablePrefixLen, List.tail_drop, ← List.drop_tail]
  rcases Nat.le_total a b with hab | hba
  · rw [Nat.max_eq_right hab, partitionPoint_add]
    intro x hx
    simp only [decide_eq_true_eq] at hx ⊢
    exact hx.trans hab
  · rw [Nat.max_eq_left hba, partitionPoint_drop, Nat.add_zero]
    intro x hx
    simp only [decide_eq_true_eq] at hx ⊢
    exact hx.trans hba

theorem removeAll_append (bases more : List ℕ) (d : Disk) :
    removeAll (bases ++ more) d = removeAll more (removeAll bases d) := by
  induction bases generalizing d with
  | nil => rfl
  | cons b bases ih => exact ih _

theorem remove_syncDir (n : FileName) (d : Disk) :
    (d.syncDir.remove n).syncDir = (d.remove n).syncDir := by
  have hlookup : d.syncDir.entries.lookup n = d.entries.lookup n := rfl
  unfold Disk.remove
  rw [hlookup]
  cases d.entries.lookup n with
  | none => simp [Disk.syncDir]
  | some f => simp [Disk.syncDir]

/-- A sync of the directory among unlinks makes no difference to one after them. -/
theorem removeAll_syncDir (bases : List ℕ) {d d' : Disk} (h : d.syncDir = d'.syncDir) :
    (removeAll bases d).syncDir = (removeAll bases d').syncDir := by
  induction bases generalizing d d' with
  | nil => exact h
  | cons b bases ih =>
    apply ih
    rw [← remove_syncDir, h, remove_syncDir]

theorem syncDir_syncDir (d : Disk) : d.syncDir.syncDir = d.syncDir := by
  simp [Disk.syncDir]

theorem checkpoint_checkpoint {wal : Wal} (hp : wal.poisoned = false) (a b : ℕ) (d : Disk) :
    (do checkpoint a; checkpoint b) ⟨wal, ⟨d, []⟩⟩ = checkpoint (max a b) ⟨wal, ⟨d, []⟩⟩ := by
  have hmax := deletablePrefixLen_max wal.segments a b
  set n := deletablePrefixLen wal.segments a with hn
  set k := deletablePrefixLen (wal.segments.drop n) b with hk
  refine (Prog.seq_of_ret (checkpoint_run hp a d)).trans ?_
  rw [checkpoint_run hp (max a b), hmax, ← hn]
  by_cases hn0 : n = 0
  · rw [if_pos hn0, checkpoint_run hp b]
    simp only [hn0, List.drop_zero] at hk
    rw [hn0, Nat.zero_add, hk]
  · rw [if_neg hn0, if_neg (by omega), checkpoint_run (by exact hp) b]
    simp only [← hk]
    by_cases hk0 : k = 0
    · simp only [hk0, if_true, Nat.add_zero]
    · simp only [hk0, if_false, List.drop_drop, List.take_add, removeAll_append]
      rw [removeAll_syncDir _ (syncDir_syncDir _)]

section

variable [Crc32c]

/-- The segment based at `b` holds record `l`: there is one for it, and no later segment
starts at `l` or below. -/
def Wal.HoldsRecord (wal : Wal) (d : Disk) (b l : ℕ) : Prop :=
  (∃ f ps, d.file (filenameFor b) = some f ∧
    Run wal.segmentSize wal.maxRecordSize f.data headerSize b ps ∧ b ≤ l ∧ l < b + ps.length) ∧
  ∀ b' ∈ wal.segments, b < b' → l < b'

variable {config : WalConfig} {d : Disk} {oldest upTo : ℕ} {sealed xs ys : List (List Bytes)}
  {active ps staged : List Bytes} {observed : List ℕ} {f : File}

theorem Carries.holdsRecord_iff (h : Carries config d oldest (xs ++ ps :: ys) active f) {l : ℕ} :
    (handleOn config oldest (xs ++ ps :: ys) active observed staged).HoldsRecord d
        (activeBase oldest xs) l ↔
      activeBase oldest xs ≤ l ∧ l < activeBase oldest xs + ps.length := by
  obtain ⟨hne, g, hg, -, hrun⟩ := (ChainFrom.append_iff.mp h.chain).2.1
  have hlen := List.length_pos_iff.mpr hne
  obtain ⟨r, hr⟩ := basesFrom_eq_cons (activeBase oldest xs + ps.length) ys
  constructor
  · rintro ⟨⟨_, _, -, -, hle, -⟩, hlast⟩
    refine ⟨hle, hlast _ (mem_basesFrom_append.mpr (Or.inr ?_)) (by omega)⟩
    rw [basesFrom, hr]
    exact List.mem_cons_of_mem _ List.mem_cons_self
  · rintro ⟨hle, hlt⟩
    refine ⟨⟨g, ps, hg, hrun, hle, hlt⟩, fun b' hb' hlt' => ?_⟩
    rcases mem_basesFrom_append.mp hb' with hb' | hb'
    · have := (mem_basesFrom_le hb').2
      omega
    · rcases List.mem_cons.mp hb' with rfl | hb'
      · omega
      · have := (mem_basesFrom_le hb').1
        omega

/-- The sealed segments without a record above `upTo` are the deletable ones. -/
theorem Carries.deleted_iff (h : Carries config d oldest (xs ++ ys) active f)
    (hx : xs = [] ∨ activeBase oldest xs - 1 ≤ upTo)
    (hy : ∀ ps rest, ys = ps :: rest → upTo < activeBase oldest xs + ps.length - 1) {b : ℕ}
    (hb : b ∈ basesFrom oldest (xs ++ ys)) :
    b < activeBase oldest xs ↔ filenameFor b ≠ filenameFor (activeBase oldest (xs ++ ys)) ∧
      ∀ l, (handleOn config oldest (xs ++ ys) active observed staged).HoldsRecord d b l → l ≤ upTo := by
  rcases mem_basesFrom_cases hb with rfl | ⟨us, ps, vs, hsplit, rfl⟩
  · have := le_activeBase (activeBase oldest xs) ys
    rw [← activeBase_append] at this
    simp only [ne_eq, not_true_eq_false, false_and, iff_false, Nat.not_lt]
    exact this
  have hc := h
  rw [hsplit] at hc
  have hlen := List.length_pos_iff.mpr (hc.ne_nil ps (by simp))
  have hnext : activeBase oldest us + ps.length ≤ activeBase oldest (us ++ ps :: vs) := by
    rw [activeBase_append, activeBase_cons]
    exact le_activeBase _ _
  have hname := h.name_ne (b := activeBase oldest us) (by have := hc.activeBase_le; omega)
    (by rw [hsplit]; omega)
  simp only [ne_eq, hname, not_false_eq_true, true_and]
  have hrecords : (∀ l, (handleOn config oldest (xs ++ ys) active observed staged).HoldsRecord d
      (activeBase oldest us) l → l ≤ upTo) ↔ activeBase oldest us + ps.length - 1 ≤ upTo := by
    rw [hsplit]
    constructor
    · intro hl
      exact hl _ (hc.holdsRecord_iff.mpr ⟨by omega, by omega⟩)
    · intro hle l hl
      have := hc.holdsRecord_iff.mp hl
      omega
  rw [hrecords]
  rcases List.append_eq_append_iff.mp hsplit with ⟨zs, rfl, rfl⟩ | ⟨zs, rfl, hzs⟩
  · -- it comes after the segments deleted
    rw [activeBase_append]
    cases zs with
    | nil =>
      have := hy ps vs rfl
      rw [activeBase_nil]
      omega
    | cons qs zs =>
      have := hy qs (zs ++ ps :: vs) rfl
      have := le_activeBase (activeBase oldest xs + qs.length) zs
      rw [activeBase_cons]
      omega
  · rw [activeBase_append] at hx hy ⊢
    cases zs with
    | nil =>
      have := hy ps vs hzs.symm
      rw [activeBase_nil] at this ⊢
      omega
    | cons qs zs =>
      -- it is among them
      obtain ⟨rfl, -⟩ := List.cons.inj hzs
      have := hx.resolve_left (by simp)
      have := le_activeBase (activeBase oldest us + ps.length) zs
      rw [activeBase_cons] at *
      omega

def checkpointed (bases : List ℕ) (n : ℕ) (d : Disk) : Disk :=
  if n = 0 then d else (removeAll (bases.take n) d).syncDir

omit [Crc32c] in
theorem checkpointed_file (bases : List ℕ) (n : ℕ) (d : Disk) (m : FileName) :
    (checkpointed bases n d).file m = (removeAll (bases.take n) d).file m := by
  unfold checkpointed
  split_ifs with hn
  · rw [hn, List.take_zero]
    rfl
  · rfl

theorem Carries.checkpoint (h : Carries config d oldest sealed active f) (observed : List ℕ)
    (staged : List Bytes) (upTo : ℕ) :
    ∃ xs ys, sealed = xs ++ ys ∧ (xs = [] ∨ activeBase oldest xs - 1 ≤ upTo) ∧
      (∀ ps rest, ys = ps :: rest → upTo < activeBase oldest xs + ps.length - 1) ∧
      checkpoint upTo ⟨handleOn config oldest sealed active observed staged, ⟨d, []⟩⟩ =
        (.ret (), ⟨handleOn config (activeBase oldest xs) ys active observed staged,
          ⟨checkpointed (basesFrom oldest sealed) xs.length d, []⟩⟩) := by
  obtain ⟨xs, ys, rfl, hn, hx, hy⟩ := deletablePrefixLen_basesFrom oldest upTo sealed
  refine ⟨xs, ys, rfl, hx, hy, ?_⟩
  have hdel : deletablePrefixLen
      (handleOn config oldest (xs ++ ys) active observed staged).segments upTo = xs.length := hn
  rw [checkpoint_run rfl, hdel, checkpointed]
  by_cases hxs : xs.length = 0
  · rw [if_pos hxs, if_pos hxs, List.length_eq_zero_iff.mp hxs]
    rfl
  · rw [if_neg hxs, if_neg hxs, handleOn_drop]
    rfl

omit [Crc32c] in
/-- The bases of the remaining segments are those from the first of them on. -/
theorem mem_basesFrom_iff_le {b : ℕ} (hb : b ∈ basesFrom oldest (xs ++ ys)) :
    b ∈ basesFrom (activeBase oldest xs) ys ↔ activeBase oldest xs ≤ b := by
  constructor
  · exact fun h => (mem_basesFrom_le h).1
  · intro hle
    rcases mem_basesFrom_append.mp hb with h | h
    · obtain ⟨r, hr⟩ := basesFrom_eq_cons (activeBase oldest xs) ys
      rw [hr, Nat.le_antisymm (mem_basesFrom_le h).2 hle]
      exact List.mem_cons_self
    · exact h

theorem Carries.checkpointed (h : Carries config d oldest (xs ++ ys) active f) :
    Carries config (checkpointed (basesFrom oldest (xs ++ ys)) xs.length d) (activeBase oldest xs)
      ys active f := by
  unfold OpenWal.checkpointed
  split_ifs with hx
  · obtain rfl := List.length_eq_zero_iff.mp hx
    exact h
  · exact h.removeAll.congr (.syncDir _)

theorem Carries.checkpointed_file_eq_none (h : Carries config d oldest (xs ++ ys) active f) {b : ℕ}
    (hb : b ∈ basesFrom oldest (xs ++ ys)) :
    (OpenWal.checkpointed (basesFrom oldest (xs ++ ys)) xs.length d).file (filenameFor b) = none ↔
      b < activeBase oldest xs := by
  have hle := (mem_basesFrom_le hb).2.trans h.activeBase_le
  rw [← Nat.not_le, ← mem_basesFrom_iff_le hb, ← h.checkpointed.bases, mem_basesOf,
    Option.eq_none_iff_forall_ne_some]
  simp [hle]

variable {ok : Machine → Op → List Fate → Prop} {m₀ m : Machine} {wal : Wal}

/-- Whatever happened before, a checkpoint that meets no failure deletes those sealed segments
all of whose records are at `upTo` or below, and a second one the rest of what the higher of
the two bounds allows. -/
theorem checkpoint_is_exact (hh : m₀.handle = none) (hl : m₀.disk.locked = false)
    (hm : Machine.Reaches config ok m₀ m) (hw : m.handle = some wal) (hp : wal.poisoned = false)
    (upTo : ℕ) :
    ∃ segments d', checkpoint upTo ⟨wal, ⟨m.disk, []⟩⟩ =
        (.ret (), ⟨{ wal with segments := segments, oldestLsn := segments.headD lsnNone }, ⟨d', []⟩⟩) ∧
      segments ≠ [] ∧ basesOf m.disk = wal.segments ∧ basesOf d' = segments ∧
      (∀ b ∈ wal.segments, d'.file (filenameFor b) = none ↔
        filenameFor b ≠ wal.active ∧ ∀ l, wal.HoldsRecord m.disk b l → l ≤ upTo) ∧
      (∀ n, (∃ b ∈ wal.segments, n = filenameFor b ∧ d'.file n = none) ∨ d'.file n = m.disk.file n) ∧
      ∀ upTo', (do checkpoint upTo; checkpoint upTo') ⟨wal, ⟨m.disk, []⟩⟩ =
        checkpoint (max upTo upTo') ⟨wal, ⟨m.disk, []⟩⟩ := by
  have hu := (Upheld.trivially config ok).run (hh ▸ .rest hl trivial) hm
  rw [hw] at hu
  cases hu with
  | stuck _ _ hpois => simp [hp] at hpois
  | live hv hlock hdir hc hobs hlive =>
    rename_i oldest sealed active observed staged f
    obtain ⟨xs, ys, rfl, hx, hy, hrun⟩ := hc.toCarries.checkpoint observed staged upTo
    refine ⟨basesFrom (activeBase oldest xs) ys, _, hrun.trans ?_, ?_, hc.bases,
      hc.toCarries.checkpointed.bases, fun b hb => ?_, fun n => ?_,
      fun upTo' => checkpoint_checkpoint rfl upTo upTo' m.disk⟩
    · rw [handleOn_drop, basesFrom_drop]
    · obtain ⟨r, hr⟩ := basesFrom_eq_cons (activeBase oldest xs) ys
      simp [hr]
    · exact (hc.toCarries.checkpointed_file_eq_none hb).trans (hc.toCarries.deleted_iff hx hy hb)
    · rw [checkpointed_file]
      by_cases hn : ∃ b ∈ (basesFrom oldest (xs ++ ys)).take xs.length, n = filenameFor b
      · obtain ⟨b, hb, rfl⟩ := hn
        exact Or.inl ⟨b, List.mem_of_mem_take hb, rfl, removeAll_file_mem hb⟩
      · exact Or.inr (removeAll_file fun b hb hne => hn ⟨b, hb, hne⟩)

end

/-- Four records in two segments, and one staged. -/
theorem checkpoint_is_exact_staged : ∃ m wal, Machine.Reaches tightConfig (fun _ _ _ => True)
      (Machine.fresh true fun _ => 0) m ∧ m.handle = some wal ∧ wal.segments = [1, 4] ∧
    ∃ segments d', checkpoint 3 ⟨wal, ⟨m.disk, []⟩⟩ =
        (.ret (), ⟨{ wal with segments := segments, oldestLsn := segments.headD lsnNone }, ⟨d', []⟩⟩) ∧
      ∀ b ∈ wal.segments, d'.file (filenameFor b) = none ↔
        filenameFor b ≠ wal.active ∧ ∀ l, wal.HoldsRecord m.disk b l → l ≤ 3 := by
  have hrun : ((Machine.fresh true fun _ => 0).runFated tightConfig
      [(.openLog 1, []), (.append [7], []), (.append [8], []), (.append [9], []), (.append [10], []),
        (.commit, []), (.append [11], [])]).map
        (fun r => r.2.handle.map fun wal => (wal.segments, wal.poisoned)) =
      some (some ([1, 4], false)) := by decide +kernel
  obtain ⟨⟨os, m⟩, hrun, hres⟩ := Option.map_eq_some_iff.mp hrun
  obtain ⟨wal, hh, hwal⟩ := Option.map_eq_some_iff.mp hres
  obtain ⟨hsegs, hp⟩ := Prod.mk.inj hwal
  have hm : Machine.Reaches tightConfig (fun _ _ _ => True) (Machine.fresh true fun _ => 0) m :=
    Machine.Reaches.start.runFated (by simp [Op.Legal]; decide) hrun
  obtain ⟨segments, d', hc, -, -, -, hdel, -⟩ := checkpoint_is_exact rfl rfl hm hh hp 3
  exact ⟨m, wal, hm, hh, hsegs, segments, d', hc, hdel⟩

end OpenWal
