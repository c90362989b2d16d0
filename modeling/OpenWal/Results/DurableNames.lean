import OpenWal.Theory.FailingRuns

namespace OpenWal
open ByteSeq Posix CrashProg

/-- Every segment file's name is durable. -/
def Named (d : Disk) : Prop := ∀ b ∈ basesOf d, d.nameDurable (filenameFor b) = true

instance (d : Disk) : Decidable (Named d) := inferInstanceAs (Decidable (∀ b ∈ basesOf d, _))

def DirNamed (d : Disk) : Prop := d.dirExists = true ∧ d.dirDurable = true

variable {d d' : Disk}

/-- A directory sync enters every name. -/
theorem syncDir_named (d : Disk) : Named d.syncDir := by
  intro b hb
  obtain ⟨-, f, hf⟩ := mem_basesOf.mp hb
  exact Option.isSome_of_eq_some hf

theorem Named.of_files (h : Named d) (hn : d'.nameDurable = d.nameDurable)
    (hf : ∀ n f, d'.file n = some f → ∃ g, d.file n = some g) : Named d' := by
  intro b hb
  obtain ⟨hle, f, hfile⟩ := mem_basesOf.mp hb
  rw [hn]
  exact h b (mem_basesOf.mpr ⟨hle, hf _ f hfile⟩)

theorem Named.modify (n : FileName) (g : File → File) (h : Named d) : Named (d.modify n g) := by
  refine h.of_files ?_ fun m f hf => ?_
  · unfold Disk.modify
    split <;> rfl
  · by_cases hm : m = n
    · subst hm
      rw [Disk.modify_file_self] at hf
      obtain ⟨g', hg', -⟩ := Option.map_eq_some_iff.mp hf
      exact ⟨g', hg'⟩
    · exact ⟨f, (Disk.modify_file_ne _ _ hm).symm.trans hf⟩

theorem dirNamed_kept : KeptByCalls DirNamed where
  create _ _ h := h
  modify n g d h := by
    have honly := OnlyAt.modify n g d
    exact ⟨honly.dirExists.trans h.1, honly.dirDurable.trans h.2⟩
  remove n d h := by
    obtain ⟨he, hd, -⟩ := remove_flags n d
    exact ⟨he.trans h.1, hd.trans h.2⟩
  syncDir _ h := h
  tick _ _ h := h

section

variable [Crc32c] {config : WalConfig}

/-- The highest-base file is one that `open` unlinks, and syncs the directory after. -/
def FindsIncomplete (config : WalConfig) (d : Disk) : Prop :=
  ∃ base f, (basesOf d).getLast? = some base ∧ d.file (filenameFor base) = some f ∧
    isIncompleteCreate f.data base config = .ok true

/-- What an `open` finds under durable names, or enters itself. -/
def FoundDurable (config : WalConfig) (d : Disk) : Prop :=
  DirNamed d ∧ (Named d ∨ FindsIncomplete config d)

omit [Crc32c] in
theorem fsyncDirectory_named :
    Triple (fun _ => True) fsyncDirectory (fun _ => OnDisk Named) (fun _ _ => True) fun _ => True :=
  Triple.mapErr (Triple.conseq (syscall_onDisk (P := fun _ => True) (Q := Named) (E := fun _ => True)
    (C := fun _ => True) (fun d _ => syncDir_named d) (fun _ _ h => h) fun _ _ h => h)
    (fun _ h => h) (fun _ _ h => h) (fun _ _ h => h) fun _ h => h)

theorem recoverFound_named (h : Named d) (config : WalConfig) (seed : ℕ) :
    Triple (OnDisk (· = d)) (recoverFound config seed (basesOf d)) (fun _ => OnDisk Named)
      (fun _ _ => True) (fun _ => True) := by
  cases basesOf d with
  | nil =>
    have hcreate : Triple (OnDisk (· = d)) (create seed config.segmentSize) (fun _ _ => True)
        (fun _ _ => True) fun _ => True :=
      (create_keepsAll (I := fun _ => True) ⟨fun _ _ h => h, fun _ _ _ h => h, fun _ _ h => h,
        fun _ h => h, fun _ _ h => h⟩ seed config.segmentSize).pre fun _ _ => trivial
    exact hcreate.bind fun name => fsyncDirectory_named.seq (Triple.ret _ fun _ hw => hw)
  | cons base rest =>
    have hkeep : Keeps (OnDisk Named) (recoverSegments config none base rest) :=
      recoverSegments_keeps config (fun n g _ hd => hd.modify n g) none base rest
    refine Triple.bind (hkeep.conseq ?_ (fun _ _ hw => hw) (fun _ _ _ => trivial) fun _ _ => trivial)
      fun seg => Triple.ret _ fun _ hw => hw
    rintro w rfl
    exact h

/-- An `open` that discards the highest segment syncs the directory behind it. -/
theorem Discards.named {d₀ : Disk} (h : Discards config d d₀) (hd : Named d ∨ FindsIncomplete config d) :
    Named d₀ := by
  cases h with
  | nothing hb => simp [Named, hb]
  | keep hb hf hh =>
    rcases hd with hd | ⟨base, f, hb', hf', hi⟩
    · exact hd
    · obtain rfl := Option.some.inj (hb.symm.trans hb')
      obtain rfl := Option.some.inj (hf.symm.trans hf')
      rw [isIncompleteCreate_of_headerOk config hh] at hi
      simp at hi
  | drop => exact syncDir_named _

theorem openSeeded_durable (hd : FoundDurable config d) (seed : ℕ) {fates : List Fate}
    {r : Wal × RecoveryReport} {w : World} (h : openSeeded config seed ⟨d, fates⟩ = (.ret r, w)) :
    DirNamed w.disk ∧ Named w.disk := by
  obtain ⟨⟨hexists, hdurable⟩, hnamed⟩ := hd
  have hcalm := openSeeded_steady seed _ _ _ h
  obtain ⟨-, -, -, rec', hrec⟩ := openSeeded_eq_ret_recovered hcalm
  obtain ⟨d₀, hdis, hfound, -⟩ := recoverDirectory_eq_ret hrec
  have hacq : DirNamed (acquired d) := ⟨rfl, by simp [acquired, hexists, hdurable]⟩
  have hdir := recoverDirectory_keeps dirNamed_kept config seed ⟨acquired d, []⟩ hacq
  have hends := recoverFound_named (hdis.named (d := acquired d) hnamed) config seed ⟨d₀, []⟩ rfl
  rw [hrec] at hdir
  rw [hfound] at hends
  exact ⟨hdir, hends⟩

def OpensDurable (config : WalConfig) (m : Machine) (op : Op) (_ : List Fate) : Prop :=
  ∀ seed, op = .openLog seed → m.disk.locked = false → FoundDurable config m.disk

omit [Crc32c] in
theorem Named.put {n : FileName} {f : File} (hd : Named d) (hn : d.file n = some f) (g : File) :
    Named (d.put n g) := by
  refine hd.of_files rfl fun m h hm => ?_
  by_cases hmn : m = n
  · exact ⟨f, hmn ▸ hn⟩
  · exact ⟨h, (Disk.put_file_ne _ _ hmn).symm.trans hm⟩

theorem upheld_durable (config : WalConfig) : Upheld config (OpensDurable config) (fun _ => True)
    (fun _ _ => True) (fun _ _ _ _ d => DirNamed d ∧ Named d)
    fun _ _ _ _ _ d => DirNamed d ∧ Named d where
  rest_of_stuck _ := trivial
  stuck_die _ := trivial
  stuck_of_live _ _ := trivial
  fails _ _ _ _ := (openSeeded_unlocks config _ _ _ rfl).imp (fun _ _ _ => trivial)
    (fun _ _ _ => trivial) fun _ _ => trivial
  opens _ _ hl hok hopen _ _ _ _ := openSeeded_durable (hok _ rfl hl) _ hopen
  begins _ _ _ h _ _ := h
  commits oldest := {
    cut := fun _ _ _ _ => trivial
    store := fun hc hj _ => ⟨hj.1, hj.2.put hc.file _⟩
    begun := fun _ _ _ _ _ _ => trivial
    rolled := fun _ hj _ _ _ honly _ =>
      ⟨⟨honly.dirExists.trans hj.1.1, honly.dirDurable.trans hj.1.2⟩, syncDir_named _⟩ }
  ends _ h := h
  unlinks _ _ := trivial
  deletes {oldest xs ys active f d} _ h _ := by
    obtain ⟨-, he, hd, -⟩ := removeAll_flags ((basesFrom oldest (xs ++ ys)).take xs.length) d
    exact ⟨⟨he.trans h.1.1, hd.trans h.1.2⟩, syncDir_named _⟩

/-- In a run whose opens find durable names, a commit that returns leaves every segment
file that holds a record up to the watermark under a durable name, in a directory that
has one. -/
theorem committed_under_durable_names {m₀ m m' : Machine} {fates : List Fate} {w : ℕ}
    (hh : m₀.handle = none) (hl : m₀.disk.locked = false)
    (hm : Machine.Reaches config (OpensDurable config) m₀ m)
    (he : m.exec config .commit fates = some (.ret (.committed w), m')) :
    m'.disk.dirDurable = true ∧
      ∀ b ∈ basesOf m'.disk, b ≤ w → m'.disk.nameDurable (filenameFor b) = true := by
  have hstart : Upholds config (fun _ => True) (fun _ _ => True)
      (fun _ _ _ _ d => DirNamed d ∧ Named d) m₀.disk m₀.handle := by
    rw [hh]
    exact .rest hl trivial
  have hu := (upheld_durable config).run hstart hm
  obtain ⟨wal, -, -, oldest, sealed, active, observed, f, -, -, -, -, -, -, hdir, hnamed⟩ :=
    (upheld_durable config).committed hu (fun _ h => by simp at h) he
  exact ⟨hdir.2, fun b hb _ => hnamed b hb⟩

end

/-- The process dies before the sync of the directory it created; the next one commits. -/
theorem unsyncedName_committed : ∃ m m',
    Machine.Reaches tightConfig (fun _ _ _ => True) (Machine.fresh true fun _ => 0) m ∧
    m.exec tightConfig .commit [] = some (.ret (.committed 1), m') ∧
    m'.disk.dirDurable = false ∧ 1 ∈ basesOf m'.disk ∧
    m'.disk.nameDurable (filenameFor 1) = false := by
  have hrun : ((Machine.fresh true fun _ => 0).runFated tightConfig
      ([(.openLog 1, List.replicate 8 .ok ++ [.crash 0]), (.openLog 1, []), (.append [1], [])] ++
        [(.commit, [])])).map (fun r => (r.1.getLast?, r.2.disk.dirDurable,
          decide (1 ∈ basesOf r.2.disk), r.2.disk.nameDurable (filenameFor 1))) =
      some (some (.ret (.committed 1)), false, true, false) := by decide +kernel
  obtain ⟨⟨os, m'⟩, hrun, hres⟩ := Option.map_eq_some_iff.mp hrun
  obtain ⟨o, os', m, rfl, hpre, hcommit⟩ := Machine.runFated_concat hrun
  simp only [List.getLast?_concat, Prod.mk.injEq, Option.some.injEq, decide_eq_true_eq] at hres
  obtain ⟨rfl, hdir, hmem, hname⟩ := hres
  exact ⟨m, m', Machine.Reaches.start.runFated (by simp [Op.Legal]; decide) hpre, hcommit, hdir, hmem,
    hname⟩

/-- In a directory under a durable name, one process commits a record, and the next adopts it and
commits another. -/
theorem committed_under_durable_names_reopened : ∃ m m',
    Machine.Reaches tightConfig (OpensDurable tightConfig) (Machine.onDisk (Disk.holding [])) m ∧
    m.exec tightConfig .commit [] = some (.ret (.committed 2), m') ∧
    m'.disk.dirDurable = true ∧
      ∀ b ∈ basesOf m'.disk, b ≤ 2 → m'.disk.nameDurable (filenameFor b) = true := by
  have hrun : ((Machine.onDisk (Disk.holding [])).runFated tightConfig
      ([(.openLog 1, []), (.append [1], []), (.commit, []), (.close, [])] ++
        ([(.openLog 1, []), (.append [2], [])] ++ [(.commit, [])]))).map (fun r => r.1.getLast?) =
      some (some (.ret (.committed 2))) := by decide +kernel
  have hfound : ((Machine.onDisk (Disk.holding [])).runFated tightConfig
      [(.openLog 1, []), (.append [1], []), (.commit, []), (.close, [])]).map
      (fun r => (r.2.disk.dirExists, r.2.disk.dirDurable, decide (Named r.2.disk))) =
      some (true, true, true) := by decide +kernel
  obtain ⟨⟨os, m'⟩, hrun, hres⟩ := Option.map_eq_some_iff.mp hrun
  obtain ⟨os₁, os₂, m₁, rfl, hfirst, hsecond⟩ := Machine.runFated_append hrun
  obtain ⟨o, os', m, rfl, hpre, hcommit⟩ := Machine.runFated_concat hsecond
  rw [← List.append_assoc, List.getLast?_concat, Option.some.injEq] at hres
  subst hres
  rw [hfirst] at hfound
  simp only [Option.map_some, Option.some.injEq, Prod.mk.injEq, decide_eq_true_eq] at hfound
  obtain ⟨hexists, hdurable, hnamed⟩ := hfound
  have hlegal : (Op.openLog 1).Legal := ⟨le_rfl, by decide⟩
  obtain ⟨o₀, os₀, m₀, -, hopen₀, hrest₀⟩ := Machine.runFated_cons hfirst
  have hm₀ : Machine.Reaches tightConfig (OpensDurable tightConfig) (Machine.onDisk (Disk.holding [])) m₀ :=
    .step .start hlegal (fun _ _ _ => ⟨⟨rfl, rfl⟩, Or.inl (by decide)⟩) hopen₀
  have hm₁ := hm₀.runFated (by simp [Op.Legal, OpensDurable]) hrest₀
  obtain ⟨o₂, os₂, m₂, -, hopen, hrest⟩ := Machine.runFated_cons hpre
  have hm₂ := hm₁.step hlegal (fun _ _ _ => ⟨⟨hexists, hdurable⟩, Or.inl hnamed⟩) hopen
  have hm := hm₂.runFated (by simp [Op.Legal, OpensDurable]) hrest
  exact ⟨m, m', hm, hcommit, committed_under_durable_names rfl rfl hm hcommit⟩

end OpenWal
