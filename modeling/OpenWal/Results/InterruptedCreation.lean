import OpenWal.Theory.CrashStates

namespace OpenWal
open ByteSeq Posix CrashProg

/-- The first write of zeros is cut after one to 63 bytes. -/
def CutShort (d : Disk) (fates : List Fate) : Prop :=
  d.fallocates = false ∧ ∃ k rest, 1 ≤ k ∧ k < headerSize ∧
    (fates = .ok :: .fail k :: rest ∨ fates = .ok :: .crash k :: rest)

section

variable {d : Disk} {n : FileName} {base ss : ℕ}

def PastHeader (n : FileName) (d : Disk) : Prop :=
  ∀ g, d.file n = some g → headerSize ≤ g.data.length

theorem PastHeader.modify {g : File → File} (hg : ∀ f, f.data.length ≤ (g f).data.length)
    (h : PastHeader n d) : PastHeader n (d.modify n g) := by
  intro f hf
  rw [Disk.modify_file_self] at hf
  obtain ⟨f₀, hf₀, rfl⟩ := Option.map_eq_some_iff.mp hf
  exact (h f₀ hf₀).trans (hg f₀)

theorem PastHeader.write (off : ℕ) (b : Bytes) (h : PastHeader n d) :
    PastHeader n (d.modify n (File.write off b)) :=
  h.modify fun f => le_overwrite_length f.data off b

theorem PastHeader.notCut (h : PastHeader (filenameFor base) d) : NotCut base d :=
  fun g hg => Or.inr (h g hg)

theorem notCut_of_data {g : File} (hg : d.file (filenameFor base) = some g)
    (h : g.data = [] ∨ headerSize ≤ g.data.length) : NotCut base d := by
  intro g' hg'
  exact Option.some.inj (hg.symm.trans hg') ▸ h

def Empty (n : FileName) (d : Disk) : Prop := ∃ g, d.file n = some g ∧ g.data = []

theorem Empty.notCut (h : Empty (filenameFor base) d) : NotCut base d := by
  obtain ⟨g, hg, hnil⟩ := h
  exact notCut_of_data hg (Or.inl hnil)

/-- What a first write of zeros leaves. -/
theorem Empty.zeros (h : Empty n d) (k : ℕ) :
    ∃ g, (d.modify n (File.write 0 (ByteSeq.zeros k))).file n = some g ∧ g.data.length = k := by
  obtain ⟨g, hg, hnil⟩ := h
  refine ⟨_, by rw [Disk.modify_file_self, hg, Option.map_some], ?_⟩
  rw [File.write_data, hnil, overwrite_length _ (Nat.zero_le _), zeros_length]
  simp

def NextWhole (w : World) : Prop :=
  ∀ k rest, w.fates = .fail k :: rest ∨ w.fates = .crash k :: rest → k = 0 ∨ headerSize ≤ k

theorem writeZeros_notCut (hss : headerSize ≤ ss) :
    Triple (fun w => Empty (filenameFor base) w.disk ∧ NextWhole w) (writeZeros (filenameFor base) 0 ss)
      (fun _ => OnDisk (PastHeader (filenameFor base))) (fun _ => OnDisk (NotCut base))
      (OnDisk (NotCut base)) := by
  have hpos : 0 < ss := by
    unfold headerSize at hss
    omega
  -- the first write takes at least the header, so only its own cut can end inside it
  have hchunk : headerSize ≤ min (64 * 1024) (ss - 0) := by
    unfold headerSize at *
    omega
  rw [writeZeros, if_pos hpos]
  apply Triple.seq (Q := fun _ => OnDisk (PastHeader (filenameFor base)))
  · rintro ⟨d, fates⟩ ⟨hempty, hwhole⟩
    have hfull := hempty.zeros (min (64 * 1024) (ss - 0))
    have hpart : ∀ k, k = 0 ∨ headerSize ≤ k → NotCut base (d.modify (filenameFor base)
        (File.write 0 ((ByteSeq.zeros (min (64 * 1024) (ss - 0))).take k))) := by
      intro k hk
      have htake : (ByteSeq.zeros (min (64 * 1024) (ss - 0))).take k =
          ByteSeq.zeros (min k (min (64 * 1024) (ss - 0))) := by
        rw [ByteSeq.zeros, List.take_replicate, ByteSeq.zeros]
      obtain ⟨g, hg, hlen⟩ := hempty.zeros (min k (min (64 * 1024) (ss - 0)))
      rw [htake]
      refine notCut_of_data hg (hk.imp (fun h0 => ?_) fun hle => by omega)
      rw [h0, Nat.zero_min] at hlen
      exact List.length_eq_zero_iff.mp hlen
    have hdone : PastHeader (filenameFor base) (d.modify (filenameFor base)
        (File.write 0 (ByteSeq.zeros (min (64 * 1024) (ss - 0))))) := by
      obtain ⟨g, hg, hlen⟩ := hfull
      intro g' hg'
      obtain rfl := Option.some.inj (hg.symm.trans hg')
      omega
    rcases fates with _ | ⟨_ | k | k, rest⟩
    · exact hdone
    · exact hdone
    · exact hpart k (hwhole k rest (Or.inl rfl))
    · exact hpart k (hwhole k rest (Or.inr rfl))
  · refine (writeZeros_keeps fun off b d _ h => h.write off b).conseq (fun _ h => h) (fun _ _ h => h) ?_ ?_
    · exact fun _ w h => PastHeader.notCut h
    · exact fun w h => PastHeader.notCut h

theorem preallocate_notCut (hss : headerSize ≤ ss) :
    Triple (fun w => Empty (filenameFor base) w.disk ∧ (w.disk.fallocates = false → NextWhole w))
      (preallocate (filenameFor base) ss)
      (fun _ => OnDisk (PastHeader (filenameFor base))) (fun _ => OnDisk (NotCut base))
      (OnDisk (NotCut base)) := by
  rintro w ⟨hempty, hwhole⟩
  rw [preallocate, Prog.bind_of_ret (Prog.state_run w)]
  by_cases hf : w.disk.fallocates = true
  · rw [if_pos hf]
    refine syscall_onDisk (P := Empty (filenameFor base)) ?_ (fun _ _ h => h.notCut) (fun _ _ h => h.notCut)
      w hempty
    rintro d' ⟨g, hg, hnil⟩ g' hg'
    rw [Disk.modify_file_self, hg, Option.map_some] at hg'
    obtain rfl := Option.some.inj hg'
    rw [File.allocate_data, hnil]
    simpa using hss
  · rw [if_neg hf]
    exact writeZeros_notCut hss w ⟨hempty, hwhole (by simpa using hf)⟩

theorem create_notCut [Crc32c] (hnone : d.file (filenameFor base) = none) (hss : headerSize ≤ ss) :
    Triple (fun w => w.disk = d ∧ ¬ CutShort d w.fates) (create base ss)
      (fun _ => OnDisk (NotCut base)) (fun _ => OnDisk (NotCut base)) (OnDisk (NotCut base)) := by
  have hno : NotCut base d := fun g hg => by simp [hnone] at hg
  apply Triple.mapErr
  apply Triple.seq (Q := fun _ w => Empty (filenameFor base) w.disk ∧
    (w.disk.fallocates = false → NextWhole w))
  · rintro ⟨d', fates⟩ ⟨rfl, hcut⟩
    have hempty : Empty (filenameFor base) (d'.create (filenameFor base)) :=
      ⟨_, Disk.create_file_self _ _, rfl⟩
    rw [createNew, Prog.bind_of_ret (Prog.state_run _), hnone]
    rcases fates with _ | ⟨_ | k | k, fs⟩
    · exact ⟨hempty, fun _ k rest h => by simp at h⟩
    · refine ⟨hempty, fun hf k rest h => ?_⟩
      by_contra hk
      obtain ⟨h0, h64⟩ := not_or.mp hk
      refine hcut ⟨hf, k, rest, Nat.pos_of_ne_zero h0, Nat.not_le.mp h64, ?_⟩
      exact h.imp (fun h => by rw [show fs = _ from h]) fun h => by rw [show fs = _ from h]
    · exact hno
    · exact hno
  apply Triple.seq (Q := fun _ => OnDisk (PastHeader (filenameFor base)))
  · exact preallocate_notCut hss
  apply Triple.conseq (P := OnDisk (PastHeader (filenameFor base)))
    (Q := fun _ => OnDisk (PastHeader (filenameFor base)))
    (E := fun _ => OnDisk (PastHeader (filenameFor base)))
    (C := OnDisk (PastHeader (filenameFor base)))
  · apply Keeps.bind (readClock_onlyAt _ fun _ _ h => h)
    intro created
    apply Keeps.seq (writeAllAt_keeps (fun b d' h => h.write 0 b) _)
    exact Keeps.seq (syncData_keeps fun d' h => h.modify fun _ => le_rfl) (Keeps.ret _)
  · exact fun _ h => h
  · exact fun _ _ h => PastHeader.notCut h
  · exact fun _ _ h => PastHeader.notCut h
  · exact fun _ h => PastHeader.notCut h

/-- What a creation leaves of its file is cut inside the header where the zeros are. -/
theorem notCut_create_iff [Crc32c] (hnone : d.file (filenameFor base) = none) (hss : headerSize ≤ ss)
    (fates : List Fate) : NotCut base (create base ss ⟨d, fates⟩).2.disk ↔ ¬ CutShort d fates := by
  constructor
  · rintro hcut ⟨hf, k, rest, h1, h64, hfates⟩
    have hpos : 0 < ss := by
      unfold headerSize at *
      omega
    have hempty : Empty (filenameFor base) (d.create (filenameFor base)) :=
      ⟨_, Disk.create_file_self _ _, rfl⟩
    have htake : (ByteSeq.zeros (min (64 * 1024) (ss - 0))).take k = ByteSeq.zeros k := by
      rw [ByteSeq.zeros, List.take_replicate, ByteSeq.zeros]
      congr 1
      unfold headerSize at *
      omega
    have hnew : ∀ fs, createNew (filenameFor base) ⟨d, .ok :: fs⟩ =
        (.ret (), ⟨d.create (filenameFor base), fs⟩) := by
      intro fs
      rw [createNew, Prog.bind_of_ret (Prog.state_run _), hnone]
      rfl
    have hfill : ∀ fs, preallocate (filenameFor base) ss ⟨d.create (filenameFor base), fs⟩ =
        (writeAllAt (filenameFor base) (ByteSeq.zeros (min (64 * 1024) (ss - 0))) 0 >>= fun _ =>
          writeZeros (filenameFor base) (0 + min (64 * 1024) (ss - 0)) ss)
            ⟨d.create (filenameFor base), fs⟩ := by
      intro fs
      rw [preallocate, Prog.bind_of_ret (Prog.state_run _), if_neg (by simp [hf]), writeZeros, if_pos hpos]
    -- the creation ends in this write, so its disk is known outright
    have hdisk : (create base ss ⟨d, fates⟩).2.disk =
        (d.create (filenameFor base)).modify (filenameFor base) (File.write 0 (ByteSeq.zeros k)) := by
      rw [← htake, create]
      rcases hfates with rfl | rfl <;>
        simp only [Prog.mapErr, Prog.bind_run, Prog.andThen, hnew, hfill, writeAllAt, syscall]
    obtain ⟨g, hg, hlen⟩ := hempty.zeros k
    rw [← hdisk] at hg
    rcases hcut g hg with hnil | hle
    · rw [hnil, List.length_nil] at hlen
      omega
    · omega
  · intro hcut
    have h : Ends (fun _ => OnDisk (NotCut base)) (fun _ => OnDisk (NotCut base)) (OnDisk (NotCut base))
        (create base ss ⟨d, fates⟩) := create_notCut hnone hss _ ⟨rfl, hcut⟩
    rcases hr : create base ss ⟨d, fates⟩ with ⟨o, w⟩
    rw [hr] at h
    cases o with
    | ret _ => exact h
    | err _ => exact h
    | crashed => exact h
    | diverged => exact h.elim

end

section

variable [Crc32c]

/-- What the next process finds where the creation of the segment `base` was interrupted. -/
def leftBy (base ss : ℕ) (d : Disk) (fates : List Fate) : Disk :=
  (unlock (create base ss ⟨d, fates⟩).2).disk

/-- Every `open` recovers the records `rs` and goes on from the number `next`, in the segments
`bases` or in a new one behind them. -/
def GoesOn (config : WalConfig) (d : Disk) (bases : List ℕ) (next : ℕ) (rs : List (ℕ × Bytes)) : Prop :=
  ∀ seed, (Op.openLog seed).Legal → ∃ wal rep, Recovers config d seed wal rep rs ∧
    rep.durableLsn + 1 = next ∧ (wal.segments = bases ∨ wal.segments = bases ++ [next])

def StartsEmpty (config : WalConfig) (d : Disk) (base : ℕ) : Prop :=
  ∀ seed, (Op.openLog seed).Legal → ∃ wal rep, Recovers config d seed wal rep [] ∧
    (wal.segments = [base] ∧ rep.durableLsn + 1 = base ∨
      wal.segments = [seed] ∧ rep.durableLsn + 1 = seed)

variable {config : WalConfig} {d : Disk} {oldest base next : ℕ} {sealed : List (List Bytes)}
  {active : List Bytes} {f : File}

theorem leftBy_begun {ss : ℕ} (hnone : d.file (filenameFor base) = none) (hss : headerSize ≤ ss)
    (fates : List Fate) :
    (∀ m, m ≠ filenameFor base → (leftBy base ss d fates).file m = d.file m) ∧
      BegunFile base ss (leftBy base ss d fates) ∧ (leftBy base ss d fates).locked = false := by
  have h : Begun base ss d (create base ss ⟨d, fates⟩).2.disk := by
    have hends := create_triple hnone hss ⟨d, fates⟩ rfl
    rcases hr : create base ss ⟨d, fates⟩ with ⟨o, w⟩
    rw [hr] at hends
    cases o with
    | ret name =>
      obtain ⟨-, honly, created, hf⟩ := hends
      exact Created.begun ⟨honly, created, hf⟩
    | err e => exact hends.2
    | crashed => exact hends
    | diverged => exact hends.elim
  exact ⟨h.1.others, h.2, rfl⟩

/-- A log survives the creation of its next segment. -/
theorem leftBy_goesOn_iff (hv : config.Valid) (h : Carries config d oldest sealed active f)
    (hne : active ≠ []) (hnext : next = activeBase oldest sealed + active.length) (hle : next ≤ u64Max)
    (fates : List Fate) :
    GoesOn config (leftBy next config.segmentSize d fates) (basesFrom oldest sealed) next
        (numbered oldest (sealed.flatten ++ active)) ↔
      ¬ CutShort d fates ∧ TailsAllow config d oldest sealed active f next
        (leftBy next config.segmentSize d fates) := by
  have hss : headerSize ≤ config.segmentSize := (Nat.le_add_right _ _).trans hv.room
  have hnone : d.file (filenameFor next) = none := hnext ▸ h.next_free hne (hnext ▸ hle)
  obtain ⟨hothers, hbegun, hl⟩ := leftBy_begun hnone hss fates
  rw [← notCut_create_iff hnone hss]
  have hcut : NotCut next (create next config.segmentSize ⟨d, fates⟩).2.disk ↔
      NotCut next (leftBy next config.segmentSize d fates) := Iff.rfl
  have hpos := h.activeBase_pos
  rw [hcut]
  constructor
  · intro hgo
    obtain ⟨wal, rep, hrec, -⟩ := hgo 1 ⟨le_rfl, by decide⟩
    exact ⟨notCut_of_recovers h hne hnext hle hothers (by decide) hrec,
      tailsAllow_of_recovers h hne hnext hle hothers hbegun hv (by decide) hrec⟩
  · rintro ⟨hcut, ht⟩ seed ⟨h1, -⟩
    obtain ⟨ts, hrec | hrec⟩ := ht.recovers h hne hnext hle hothers hbegun hcut hv h1 hl
    · refine ⟨_, _, hrec, ?_, Or.inl rfl⟩
      simp only [reportOn]
      omega
    · refine ⟨_, _, hrec, ?_, Or.inr ?_⟩
      · simp only [reportOn, Carries.activeBase_roll, List.length_nil]
        omega
      · simp only [handleOn]
        rw [basesFrom_append_singleton, hnext]

omit [Crc32c] in
theorem basesOf_first {d' : Disk} {g : File} (hb : basesOf d = []) (hle : base ≤ u64Max)
    (hothers : ∀ m, m ≠ filenameFor base → d'.file m = d.file m)
    (hg : d'.file (filenameFor base) = some g) : basesOf d' = [base] := by
  apply basesOf_eq (List.pairwise_singleton _ _)
  intro b
  rw [List.mem_singleton]
  constructor
  · rintro rfl
    exact ⟨hle, g, hg⟩
  · rintro ⟨hbu, g', hg'⟩
    by_contra hne
    have hm := mem_basesOf.mpr ⟨hbu, g', (hothers _ (filenameFor_ne hbu hle hne)).symm.trans hg'⟩
    simp [hb] at hm

/-- An empty directory survives the creation of its first segment. -/
theorem leftBy_startsEmpty_iff (hv : config.Valid) (hb : basesOf d = []) (h1 : 1 ≤ base)
    (hle : base ≤ u64Max) (fates : List Fate) :
    StartsEmpty config (leftBy base config.segmentSize d fates) base ↔ ¬ CutShort d fates := by
  have hss : headerSize ≤ config.segmentSize := (Nat.le_add_right _ _).trans hv.room
  have hnone : d.file (filenameFor base) = none := by
    cases hf : d.file (filenameFor base) with
    | none => rfl
    | some f =>
      have hm := mem_basesOf.mpr ⟨hle, f, hf⟩
      simp [hb] at hm
  obtain ⟨hothers, hbegun, hl⟩ := leftBy_begun hnone hss fates
  rw [← notCut_create_iff hnone hss]
  have hcut : NotCut base (create base config.segmentSize ⟨d, fates⟩).2.disk ↔
      NotCut base (leftBy base config.segmentSize d fates) := Iff.rfl
  rw [hcut]
  set left := leftBy base config.segmentSize d fates
  have hlast : ∀ g, left.file (filenameFor base) = some g → (basesOf left).getLast? = some base :=
    fun g hg => by rw [basesOf_first hb hle hothers hg, List.getLast?_singleton]
  constructor
  · intro hgo g hg
    obtain ⟨wal, rep, hrec, -⟩ := hgo 1 ⟨le_rfl, by decide⟩
    by_contra hcut
    obtain ⟨hne, hlt⟩ := not_or.mp hcut
    refine not_recovers_of_refused (by decide) (hlast g hg) hg (fun hh => hlt hh.le_length) ?_ hrec
    rintro (hnil | ⟨hle', -⟩)
    · exact hne hnil
    · exact hlt hle'
  · rintro hcut seed ⟨hs1, hs⟩
    -- without any segment `open` begins where the seed says
    have hseed : ∀ {d₀ : Disk}, Discards config (acquired left) d₀ → basesOf d₀ = [] →
        ∃ wal rep, Recovers config left seed wal rep [] ∧
          (wal.segments = [base] ∧ rep.durableLsn + 1 = base ∨
            wal.segments = [seed] ∧ rep.durableLsn + 1 = seed) := by
      intro d₀ hdis hnil
      refine ⟨_, _, recovers_of_none hv hs1 hs hl hdis hnil, Or.inr ⟨rfl, ?_⟩⟩
      simp only [reportOn, activeBase_nil, List.length_nil]
      omega
    cases hg : left.file (filenameFor base) with
    | none =>
      have hnil : basesOf (acquired left) = [] := by
        rw [basesOf_acquired, ← hb]
        apply basesOf_congr
        intro b _
        by_cases hbb : filenameFor b = filenameFor base
        · rw [hbb, hg, hnone]
        · rw [hothers _ hbb]
      exact hseed (.nothing hnil) hnil
    | some g =>
      -- a whole header means that the file was whole before it was written
      by_cases hh : HeaderOk g.data base
      · have hzero := (hbegun g hg).zeroOn
        rw [(hbegun g hg).length_of_headerOk hss hh] at hzero
        have hclean : CleanAt config.segmentSize g.data (headerSize + runSize []) :=
          Or.inr (hzero.mono le_rfl hv.room)
        have hlog : LogOn config.segmentSize config.maxRecordSize (acquired left) base [] [] g :=
          ⟨basesOf_first hb hle hothers hg, trivial, hg, hh, trivial, hclean.stops⟩
        refine ⟨_, _, recovers_of_logOn hv hs1 hl (.keep (hlast g hg) hg hh) hlog (.clean hclean),
          Or.inl ⟨rfl, ?_⟩⟩
        simp only [reportOn, activeBase_nil, List.length_nil]
        omega
      · have hi : Incomplete config.segmentSize config.maxRecordSize g.data base :=
          (hcut g hg).imp id fun hl => ⟨hl, hh, fun lsn p => (hbegun g hg).not_frameAt⟩
        have hlast' : (basesOf (acquired left)).getLast? = some base := hlast g hg
        refine hseed (.drop hlast' hg hi) ?_
        rw [basesOf_remove_highest hlast', basesOf_acquired, basesOf_first hb hle hothers hg]
        rfl

/-- Wherever the creation of a segment is interrupted, every later `open` keeps all records and
goes on from the same number: exactly where no zeros end inside the header and the segments the
directory already holds end well. -/
theorem interrupted_creation_recovers (hv : config.Valid) (fates : List Fate) :
    (∀ d oldest sealed active f next, Carries config d oldest sealed active f → active ≠ [] →
      next = activeBase oldest sealed + active.length → next ≤ u64Max →
        (GoesOn config (leftBy next config.segmentSize d fates) (basesFrom oldest sealed) next
            (numbered oldest (sealed.flatten ++ active)) ↔
          ¬ CutShort d fates ∧ TailsAllow config d oldest sealed active f next
            (leftBy next config.segmentSize d fates))) ∧
      ∀ d base, basesOf d = [] → (Op.openLog base).Legal →
        (StartsEmpty config (leftBy base config.segmentSize d fates) base ↔ ¬ CutShort d fates) :=
  ⟨fun _ _ _ _ _ _ h hne hnext hle => leftBy_goesOn_iff hv h hne hnext hle fates,
    fun _ _ hb hlegal => leftBy_startsEmpty_iff hv hb hlegal.1 hlegal.2 fates⟩

end

def noFallocate : Disk := { Disk.holding [] with fallocates := false }

/-- The process dies when ten of the zeros are stored, and the directory is refused. -/
theorem cutZeros_refused : ¬ StartsEmpty tightConfig (leftBy 1 136 noFallocate [.ok, .crash 10]) 1 := by
  intro h
  obtain ⟨wal, rep, ⟨w, -, hopen, -⟩, -⟩ := h 1 ⟨le_rfl, by decide⟩
  have hreport : reportOf tightConfig 1 (leftBy 1 136 noFallocate [.ok, .crash 10]) = none := by
    decide +kernel
  rw [reportOf, hopen] at hreport
  simp at hreport

def oneRecordSegment : Bytes := encodeHeader 1 0 ++ (encodeFrame 1 [] ++ zeros 48)

theorem oneRecordSegment_carries : Carries tightConfig (.holding [(filenameFor 1, oneRecordSegment)]) 1 []
    [[]] ⟨oneRecordSegment, fun _ => false⟩ where
  bases := by decide +kernel
  chain := trivial
  file := AList.lookup_insert _
  header := headerOk_encodeHeader _ le_rfl (by decide)
  run := ⟨(by decide +kernel : scanAt 136 45 oneRecordSegment 64 = .record 1 [] 24), trivial⟩

/-- The process dies in the header's write of segment 2, or in the zeros of a first segment. -/
theorem interrupted_creation_recovers_torn :
    (GoesOn tightConfig (leftBy 2 136 (.holding [(filenameFor 1, oneRecordSegment)]) [.ok, .ok, .crash 7])
        [1] 2 [(1, [])] ↔
      ¬ CutShort (.holding [(filenameFor 1, oneRecordSegment)]) [.ok, .ok, .crash 7] ∧
        TailsAllow tightConfig (.holding [(filenameFor 1, oneRecordSegment)]) 1 [] [[]]
          ⟨oneRecordSegment, fun _ => false⟩ 2
          (leftBy 2 136 (.holding [(filenameFor 1, oneRecordSegment)]) [.ok, .ok, .crash 7])) ∧
      (StartsEmpty tightConfig (leftBy 1 136 noFallocate [.ok, .crash 10]) 1 ↔
        ¬ CutShort noFallocate [.ok, .crash 10]) :=
  ⟨(interrupted_creation_recovers (by decide) _).1 _ _ _ _ _ _ oneRecordSegment_carries (by decide) rfl
      (by decide),
    (interrupted_creation_recovers (by decide) _).2 _ _ (by decide +kernel) ⟨le_rfl, by decide⟩⟩

end OpenWal
