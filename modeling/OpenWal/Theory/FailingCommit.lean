import OpenWal.Theory.Carried

namespace OpenWal
open ByteSeq Posix CrashProg

def WalError.IsIo : WalError → Prop
  | .io _ => True
  | .fsyncFailed => True
  | _ => False

abbrev InSys (wal : Wal) (P : Disk → Prop) : Sys → Prop := fun s => s.wal = wal ∧ P s.world.disk

def Wal.poison (wal : Wal) : Wal := { wal with poisoned := true }

theorem orPoison_triple {α : Type} {m : Prog World WalError α} {P : Disk → Prop}
    {Q : α → Disk → Prop} {E C : Disk → Prop} (wal : Wal)
    (h : Triple (OnDisk P) m (fun a => OnDisk (Q a)) (fun e w => e.IsIo ∧ E w.disk) (OnDisk C)) :
    Triple (InSys wal P) (orPoison m) (fun a => InSys wal (Q a))
      (fun e s => e.IsIo ∧ InSys wal.poison E s) (InSys wal C) := by
  apply Triple.onError
  apply Triple.zoom
  rintro s ⟨rfl, hs⟩
  exact (h s.world hs).imp (fun a w hw => ⟨rfl, hw⟩) (fun e w hw => ⟨hw.1, rfl, hw.2⟩) fun w hw => ⟨rfl, hw⟩

/-- A method starts by looking at its handle. -/
theorem ofHandle_triple {α : Type} {wal : Wal} {P : Disk → Prop} {m : Sys → Prog Sys WalError α}
    {Q : α → Sys → Prop} {E : WalError → Sys → Prop} {C : Sys → Prop}
    (h : ∀ s, s.wal = wal → Triple (InSys wal P) (m s) Q E C) :
    Triple (InSys wal P) (Prog.state >>= m) Q E C := by
  rintro s ⟨hwal, hs⟩
  rw [Prog.bind_of_ret (Prog.state_run s)]
  exact h s hwal s ⟨hwal, hs⟩

variable {d : Disk} {f : File} {n : FileName}

theorem writeAllAt_triple (hf : d.file n = some f) (b : Bytes) (off : ℕ) :
    Triple (OnDisk (· = d)) (writeAllAt n b off) (fun _ => OnDisk (· = d.put n (f.write off b)))
      (fun _ => OnDisk fun d' => ∃ k, d' = d.put n (f.write off (b.take k)))
      (OnDisk fun d' => ∃ k, d' = d.put n (f.write off (b.take k))) := by
  refine syscall_onDisk ?_ ?_ ?_
  · rintro _ rfl
    exact Disk.modify_of_file hf _
  · rintro _ k rfl
    exact ⟨k, Disk.modify_of_file hf _⟩
  · rintro _ k rfl
    exact ⟨k, Disk.modify_of_file hf _⟩

theorem syncData_triple (hf : d.file n = some f) :
    Triple (OnDisk (· = d)) (syncData n) (fun _ => OnDisk (· = d.put n f.sync))
      (fun _ => OnDisk (· = d)) (OnDisk (· = d)) := by
  refine syscall_onDisk ?_ (fun _ _ h => h) fun _ _ h => h
  rintro _ rfl
  exact Disk.modify_of_file hf _

/-- A write that does not return stored some prefix; one that was not synced stored
all of it, which is a prefix too. -/
theorem writePrefix_triple (wal : Wal) (hf : d.file wal.active = some f) (pos scan last : ℕ) :
    Triple (InSys wal (· = d)) (writePrefix pos scan last)
      (fun _ => InSys { wal with
        writeOffset := wal.writeOffset + (scan - pos)
        durableLsn := last
        observed := wal.observed ++ [last] }
        (· = d.put wal.active (f.write wal.writeOffset (slice wal.staging pos scan)).sync))
      (fun e s => e.IsIo ∧ InSys wal.poison (fun d' => ∃ k,
        d' = d.put wal.active (f.write wal.writeOffset ((slice wal.staging pos scan).take k))) s)
      (InSys wal fun d' => ∃ k,
        d' = d.put wal.active (f.write wal.writeOffset ((slice wal.staging pos scan).take k))) := by
  set b := slice wal.staging pos scan with hb
  apply ofHandle_triple
  intro s hs
  simp only [hs, ← hb]
  apply Triple.seq (Q := fun _ => InSys wal (· = d.put wal.active (f.write wal.writeOffset b)))
  · apply orPoison_triple
    apply Triple.mapErr
    exact (writeAllAt_triple hf b wal.writeOffset).conseq (fun _ h => h) (fun _ _ h => h)
      (fun _ _ h => ⟨trivial, h⟩) fun _ h => h
  apply Triple.seq (Q := fun _ => InSys wal (· = d.put wal.active (f.write wal.writeOffset b).sync))
  · apply orPoison_triple
    apply Triple.mapErr
    have hall : d.put wal.active (f.write wal.writeOffset b) =
        d.put wal.active (f.write wal.writeOffset (b.take b.length)) := by rw [List.take_length]
    refine (syncData_triple (Disk.put_file_self _ _ _)).conseq (fun _ h => h) ?_ ?_ ?_
    · rintro _ w hw
      exact hw.trans (Disk.put_put _ _ _ _)
    · rintro _ w hw
      exact ⟨trivial, b.length, hw.trans hall⟩
    · rintro w hw
      exact ⟨b.length, hw.trans hall⟩
  · apply Triple.update
    rintro s ⟨rfl, hd⟩
    exact ⟨rfl, hd⟩

variable [Crc32c]

omit [Crc32c] in
theorem fsyncDirectory_triple (d : Disk) :
    Triple (OnDisk (· = d)) fsyncDirectory (fun _ => OnDisk (· = d.syncDir))
      (fun e w => e.IsIo ∧ w.disk = d) (OnDisk (· = d)) := by
  apply Triple.mapErr
  refine Triple.conseq (syscall_onDisk (P := (· = d)) (Q := (· = d.syncDir)) (E := (· = d)) (C := (· = d))
    ?_ (fun _ _ h => h) fun _ _ h => h) (fun _ h => h) (fun _ _ h => h) (fun _ _ h => ⟨trivial, h⟩)
    fun _ h => h
  rintro _ rfl
  rfl

/-- `d'` is `d` with the new segment `base`, all of whose calls succeeded but for the
sync of the directory. -/
def Created (base ss : ℕ) (d d' : Disk) : Prop :=
  OnlyAt (filenameFor base) d d' ∧
    ∃ created, d'.file (filenameFor base) = some (freshSegment base ss created)

theorem Created.begun {base ss : ℕ} {d' : Disk} (h : Created base ss d d') :
    Begun base ss d d' := by
  obtain ⟨honly, created, hf⟩ := h
  exact ⟨honly, begunFile_of_file hf (freshSegment_begunData base created)⟩

theorem roll_triple (wal : Wal) {newBase : ℕ} (hnone : d.file (filenameFor newBase) = none)
    (hss : headerSize ≤ wal.segmentSize) :
    Triple (InSys wal (· = d)) (roll newBase)
      (fun _ => InSys { wal with
        active := filenameFor newBase
        writeOffset := headerSize
        segments := wal.segments ++ [newBase] }
        fun d' => ∃ d₁, Created newBase wal.segmentSize d d₁ ∧ d' = d₁.syncDir)
      (fun e s => e.IsIo ∧ InSys wal.poison (Begun newBase wal.segmentSize d) s)
      (InSys wal (Begun newBase wal.segmentSize d)) := by
  apply ofHandle_triple
  intro s hs
  simp only [hs]
  apply Triple.bind (Q := fun name s => name = filenameFor newBase ∧
    InSys wal (Created newBase wal.segmentSize d) s)
  · refine (orPoison_triple wal (P := (· = d)) (Q := fun name d' => name = filenameFor newBase ∧
      Created newBase wal.segmentSize d d') (E := Begun newBase wal.segmentSize d)
      (C := Begun newBase wal.segmentSize d) ?_).post fun name s hs => ⟨hs.2.1, hs.1, hs.2.2⟩
    refine (create_triple hnone hss).conseq (fun _ h => h) (fun name w h => ⟨h.1, h.2⟩) ?_ fun _ h => h
    rintro e w ⟨⟨e', rfl⟩, h⟩
    exact ⟨trivial, h⟩
  intro name
  apply Triple.of_fact (p := name = filenameFor newBase) (fun s hs => hs.1)
  rintro rfl
  apply Triple.seq (Q := fun _ => InSys wal fun d' => ∃ d₁, Created newBase wal.segmentSize d d₁ ∧
    d' = d₁.syncDir)
  · have hsync : Triple (InSys wal (Created newBase wal.segmentSize d)) (orPoison fsyncDirectory)
        (fun _ => InSys wal fun d' => ∃ d₁, Created newBase wal.segmentSize d d₁ ∧ d' = d₁.syncDir)
        (fun e s => e.IsIo ∧ InSys wal.poison (Begun newBase wal.segmentSize d) s)
        (InSys wal (Begun newBase wal.segmentSize d)) := by
      apply orPoison_triple
      intro w hw
      -- a failed sync leaves the whole new segment, which is begun too
      have hbegun : ∀ w', OnDisk (· = w.disk) w' → OnDisk (Begun newBase wal.segmentSize d) w' := by
        intro w' h
        rw [OnDisk, show w'.disk = w.disk from h]
        exact hw.begun
      exact (fsyncDirectory_triple w.disk w rfl).imp (fun _ w' h => ⟨w.disk, hw, h⟩)
        (fun _ w' h => ⟨h.1, hbegun w' h.2⟩) hbegun
    exact hsync.pre fun s hs => hs.2
  · apply Triple.update
    rintro s ⟨rfl, hd⟩
    exact ⟨rfl, hd⟩

abbrev roomIn (config : WalConfig) (active : List Bytes) : ℕ :=
  config.segmentSize - (headerSize + runSize active)

/-- The log within a commit, with the records `rest` still to store. -/
structure Committing (config : WalConfig) (d : Disk) (oldest : ℕ) (sealed : List (List Bytes))
    (active : List Bytes) (f : File) (rest : List Bytes) : Prop
    extends Carries config d oldest sealed active f where
  batch : Batch config.maxRecordSize (activeBase oldest sealed + active.length) rest

theorem Committing.next_le_u64Max {config : WalConfig} {oldest : ℕ} {sealed : List (List Bytes)}
    {active rest : List Bytes} (h : Committing config d oldest sealed active f rest) (hr : rest ≠ []) :
    activeBase oldest sealed + active.length ≤ u64Max := by
  obtain ⟨q, qs, rfl⟩ := List.exists_cons_of_ne_nil hr
  exact h.batch.lsn_le

/-- What happens to the next segment happens to none of these. -/
theorem Committing.below_next {config : WalConfig} {oldest : ℕ} {sealed : List (List Bytes)}
    {active rest : List Bytes} {d' : Disk} (h : Committing config d oldest sealed active f rest)
    (hr : rest ≠ []) (ha : active ≠ [])
    (hd : DiffersAt (filenameFor (activeBase oldest sealed + active.length)) d d') :
    ∀ b ≤ activeBase oldest sealed, b ≤ u64Max → d'.file (filenameFor b) = d.file (filenameFor b) := by
  intro b hle hb
  have hlt := List.length_pos_iff.mpr ha
  exact hd.others _ (filenameFor_ne hb (h.next_le_u64Max hr) (by omega))

/-- `J` holds of every state between the turns of a commit, with `X` of what it leaves
where one of its calls is the last. -/
structure CommitRule (config : WalConfig) (oldest : ℕ)
    (J : List (List Bytes) → List Bytes → List ℕ → List Bytes → File → Disk → Prop)
    (X : List (List Bytes) → List Bytes → List ℕ → Disk → Prop) : Prop where
  /-- Some prefix of the records that fit was written, and not synced. -/
  cut : ∀ {sealed active observed rest f d} (k : ℕ),
    Committing config d oldest sealed active f rest → J sealed active observed rest f d →
    fit (roomIn config active) rest ≠ [] →
    X sealed active observed (d.put (filenameFor (activeBase oldest sealed))
      (f.write (headerSize + runSize active)
        ((encodeRun (activeBase oldest sealed + active.length)
          (fit (roomIn config active) rest)).take k)))
  store : ∀ {sealed active observed rest f d},
    Committing config d oldest sealed active f rest → J sealed active observed rest f d →
    fit (roomIn config active) rest ≠ [] →
    J sealed (active ++ fit (roomIn config active) rest)
      (observed ++ [activeBase oldest sealed + active.length +
        (fit (roomIn config active) rest).length - 1])
      (overflow (roomIn config active) rest)
      (f.write (headerSize + runSize active) (encodeRun (activeBase oldest sealed + active.length)
        (fit (roomIn config active) rest))).sync
      (d.put (filenameFor (activeBase oldest sealed)) (f.write (headerSize + runSize active)
        (encodeRun (activeBase oldest sealed + active.length)
          (fit (roomIn config active) rest))).sync)
  begun : ∀ {sealed active observed rest f d d'},
    Committing config d oldest sealed active f rest → J sealed active observed rest f d →
    rest ≠ [] → active ≠ [] → fit (roomIn config active) rest = [] →
    Begun (activeBase oldest sealed + active.length) config.segmentSize d d' →
    X sealed active observed d'
  rolled : ∀ {sealed active observed rest f d d' created},
    Committing config d oldest sealed active f rest → J sealed active observed rest f d →
    rest ≠ [] → active ≠ [] → fit (roomIn config active) rest = [] →
    OnlyAt (filenameFor (activeBase oldest sealed + active.length)) d d' →
    d'.file (filenameFor (activeBase oldest sealed + active.length)) =
      some (freshSegment (activeBase oldest sealed + active.length) config.segmentSize created) →
    J (sealed ++ [active]) [] observed rest
      (freshSegment (activeBase oldest sealed + active.length) config.segmentSize created) d'.syncDir

section Rule

variable {config : WalConfig} {oldest : ℕ} {sealed : List (List Bytes)} {active rest qs : List Bytes}
  {observed : List ℕ} {staging done tail : Bytes} {last : ℕ}
  {J : List (List Bytes) → List Bytes → List ℕ → List Bytes → File → Disk → Prop}
  {X : List (List Bytes) → List Bytes → List ℕ → Disk → Prop}

variable (config oldest staging last J) in
def Turning (sealed : List (List Bytes)) (active : List Bytes) (observed : List ℕ)
    (rest : List Bytes) (s : Sys) : Prop :=
  s.wal = batchOn config oldest sealed active observed staging last ∧
    ∃ f, Committing config s.world.disk oldest sealed active f rest ∧
      J sealed active observed rest f s.world.disk

variable (config oldest staging last X) in
def Failed (e : WalError) (s : Sys) : Prop :=
  e.IsIo ∧ ∃ sealed active observed,
    s.wal = (batchOn config oldest sealed active observed staging last).poison ∧
      X sealed active observed s.world.disk

variable (config oldest staging last X) in
def Died (s : Sys) : Prop :=
  ∃ sealed active observed, s.wal = batchOn config oldest sealed active observed staging last ∧
    X sealed active observed s.world.disk

theorem storePrefix_triple (h : CommitRule config oldest J X)
    (hq : fit (roomIn config active) rest = qs)
    (hst : staging = done ++ (encodeRun (activeBase oldest sealed + active.length) qs ++ tail)) :
    Triple (Turning config oldest staging last J sealed active observed rest)
      (if done.length < done.length + runSize qs then
        writePrefix done.length (done.length + runSize qs)
          (if qs = [] then lsnNone else activeBase oldest sealed + active.length + qs.length - 1)
        else pure ())
      (fun _ => Turning config oldest staging last J sealed (active ++ qs)
        (observed ++ told (activeBase oldest sealed + active.length) qs)
        (overflow (roomIn config active) rest))
      (Failed config oldest staging last X) (Died config oldest staging last X) := by
  rintro s ⟨hwal, f, hc, hj⟩
  have hsplit := fit_append_overflow (roomIn config active) rest
  -- where nothing fits, nothing is written and no watermark told
  by_cases hnil : qs = []
  · rw [hq, hnil, List.nil_append] at hsplit
    rw [hnil, runSize_nil, Nat.add_zero, if_neg (lt_irrefl _), told, if_pos rfl, List.append_nil,
      List.append_nil, hsplit]
    exact ⟨hwal, f, hc, hj⟩
  have hpos : 0 < runSize qs := Nat.pos_of_ne_zero (runSize_eq_zero.not.mpr hnil)
  have hslice : slice staging done.length (done.length + runSize qs) =
      encodeRun (activeBase oldest sealed + active.length) qs := by
    rw [hst]
    exact slice_middle rfl (by rw [encodeRun_length])
  have hroom : headerSize + runSize active + runSize qs ≤ config.segmentSize := by
    have hle := runSize_fit_le (roomIn config active) rest
    rw [hq] at hle
    simp only [roomIn] at hle
    omega
  rw [← hq] at hnil
  have hcut := fun k => h.cut k hc hj hnil
  have hstore := h.store hc hj hnil
  rw [hq] at hnil hcut hstore
  have hw := writePrefix_triple s.wal (d := s.world.disk) (f := f) (by rw [hwal]; exact hc.file) done.length
    (done.length + runSize qs) (activeBase oldest sealed + active.length + qs.length - 1) s ⟨rfl, rfl⟩
  simp only [hwal] at hw
  rw [if_pos (by omega), if_neg hnil, told, if_neg hnil]
  have hcarries := hc.toCarries.store (hq ▸ (Batch.append_iff.mp (hsplit.symm ▸ hc.batch)).1) hroom
  rw [stored, if_neg hnil] at hcarries
  refine hw.imp ?_ ?_ ?_
  · rintro _ s' ⟨hwal', hd'⟩
    simp only [batchOn, handleOn, hslice, Nat.add_sub_cancel_left] at hwal' hd'
    refine ⟨?_, _, ⟨hd' ▸ hcarries, ?_⟩, hd' ▸ hstore⟩
    · rw [hwal', batchOn, handleOn, runSize_append, List.length_append, Nat.add_assoc headerSize,
        Nat.add_assoc (activeBase _ _)]
    · rw [List.length_append, ← Nat.add_assoc, ← hq]
      exact (Batch.append_iff.mp (hsplit.symm ▸ hc.batch)).2
  · rintro e s' ⟨he, hwal', k, hd'⟩
    simp only [batchOn, handleOn, hslice] at hd'
    exact ⟨he, sealed, active, observed, hwal', hd' ▸ hcut k⟩
  · rintro s' ⟨hwal', k, hd'⟩
    simp only [batchOn, handleOn, hslice] at hd'
    exact ⟨sealed, active, observed, hwal', hd' ▸ hcut k⟩

variable (rest observed last) in
theorem rollRest_triple (h : CommitRule config oldest J X) (hv : config.Valid)
    (hfit : fit (roomIn config active) rest = []) (hnew : rest ≠ [] → active ≠ [])
    (hst : staging = done ++ encodeRun (activeBase oldest sealed + active.length) rest) :
    Triple (Turning config oldest staging last J sealed active observed rest)
      (if done.length < staging.length then roll (peek (staging.drop done.length)).1 else pure ())
      (fun _ s => (rest = [] ∧ Turning config oldest staging last J sealed active observed [] s) ∨
        (rest ≠ [] ∧ Turning config oldest staging last J (sealed ++ [active]) [] observed rest s))
      (Failed config oldest staging last X) (Died config oldest staging last X) := by
  rintro s ⟨hwal, f, hc, hj⟩
  by_cases hnil : rest = []
  · subst hnil
    rw [hst, encodeRun_nil, List.append_nil, if_neg (lt_irrefl _)]
    exact Or.inl ⟨rfl, by rwa [hst, encodeRun_nil, List.append_nil] at hwal, f, hc, hj⟩
  have hne := hnew hnil
  have hle := hc.next_le_u64Max hnil
  obtain ⟨q, qs, rfl⟩ := List.exists_cons_of_ne_nil hnil
  have hss : headerSize ≤ config.segmentSize := (Nat.le_add_right _ _).trans hv.room
  -- the record at the cursor names the segment to come
  have hpeek : (peek (staging.drop done.length)).1 = activeBase oldest sealed + active.length := by
    rw [hst, List.drop_left, encodeRun_cons,
      peek_encodeFrame _ hle (hc.batch.head_le.trans_lt config.maxRecordSize_lt)]
  rw [if_pos (lt_staging_length hnil hst), hpeek]
  have hr := roll_triple s.wal (d := s.world.disk) (hc.next_free hne hle) (by rw [hwal]; exact hss) s
    ⟨rfl, rfl⟩
  simp only [hwal] at hr
  refine hr.imp ?_ ?_ ?_
  · rintro _ s' ⟨hwal', d₁, ⟨honly, created, hf₁⟩, hd'⟩
    have hcarries := (hc.toCarries.roll hne hle hss honly.toDiffersAt hf₁).congr (.syncDir d₁)
    refine Or.inr ⟨hnil, ?_, _, ⟨hd' ▸ hcarries, ?_⟩, hd' ▸ h.rolled hc hj hnil hne hfit honly hf₁⟩
    · rw [hwal', batchOn, handleOn]
      simp only [batchOn, handleOn, basesFrom_append_singleton, Carries.activeBase_roll,
        List.length_nil, runSize_nil, Nat.add_zero]
    · rw [Carries.activeBase_roll, List.length_nil, Nat.add_zero]
      exact hc.batch
  · rintro e s' ⟨he, hwal', hd'⟩
    exact ⟨he, sealed, active, observed, hwal', h.begun hc hj hnil hne hfit hd'⟩
  · rintro s' ⟨hwal', hd'⟩
    exact ⟨sealed, active, observed, hwal', h.begun hc hj hnil hne hfit hd'⟩

def turnsLeft (active rest : List Bytes) : ℕ :=
  if rest = [] then 1 else rest.length + if active = [] then 1 else 2

omit [Crc32c] in
/-- An empty segment takes at least one record, so only the first turn may store none. -/
theorem turnsLeft_rolled {more : List Bytes} {fuel : ℕ} (hsplit : qs ++ more = rest) (hrest : rest ≠ [])
    (hmore : more ≠ []) (hne : active ++ qs ≠ []) (hfuel : turnsLeft active rest ≤ fuel + 1) :
    turnsLeft [] more ≤ fuel := by
  have hlen := congrArg List.length hsplit
  rw [List.length_append] at hlen
  rw [turnsLeft, if_neg hmore, if_pos rfl]
  rw [turnsLeft, if_neg hrest] at hfuel
  split_ifs at hfuel with hact
  · have := List.length_pos_iff.mpr hne
    rw [hact, List.nil_append] at this
    omega
  · omega

/-- Some state between two turns, at position `pos` of the batch, `k` records of which
are still to store. -/
def AtTurn (config : WalConfig) (oldest : ℕ) (staging : Bytes) (last : ℕ)
    (J : List (List Bytes) → List Bytes → List ℕ → List Bytes → File → Disk → Prop)
    (next fuel pos : ℕ) (s : Sys) : Prop :=
  ∃ done sealed active observed rest, pos = done.length ∧
    staging = done ++ encodeRun (activeBase oldest sealed + active.length) rest ∧
    activeBase oldest sealed + active.length + rest.length = next ∧ turnsLeft active rest ≤ fuel ∧
    Turning config oldest staging last J sealed active observed rest s

theorem commitStep_triple (h : CommitRule config oldest J X) (hv : config.Valid) (hrest : rest ≠ [])
    {fuel : ℕ} (hfuel : turnsLeft active rest ≤ fuel + 1)
    (hst : staging = done ++ encodeRun (activeBase oldest sealed + active.length) rest) :
    Triple (Turning config oldest staging last J sealed active observed rest) (commitStep done.length)
      (AtTurn config oldest staging last J (activeBase oldest sealed + active.length + rest.length) fuel)
      (Failed config oldest staging last X) (Died config oldest staging last X) := by
  intro s hs
  obtain ⟨hwal, f, hc, -⟩ := id hs
  set e := activeBase oldest sealed + active.length with he
  set qs := fit (roomIn config active) rest with hq
  set more := overflow (roomIn config active) rest with hm
  have hsplit : qs ++ more = rest := fit_append_overflow _ _
  have hst' : staging = done ++ (encodeRun e qs ++ encodeRun (e + qs.length) more) := by
    rw [hst, ← hsplit, encodeRun_append]
  have hscan := scanPrefix_encodeRun done.length (roomIn config active) lsnNone hst le_rfl (by omega)
    (fun p hp => (hc.batch.small p hp).trans_lt config.maxRecordSize_lt) hc.batch.last
  rw [Nat.sub_self, Nat.sub_zero, ← hq] at hscan
  have hscan' : scanPrefix s.wal.staging done.length (s.wal.segmentSize - s.wal.writeOffset) done.length
      lsnNone = (done.length + runSize qs, if qs = [] then lsnNone else e + qs.length - 1) := by
    rw [hwal]
    exact hscan
  have hstaging : s.wal.staging = staging := by rw [hwal]; rfl
  rw [commitStep_eq hscan', hstaging]
  have hnew : more ≠ [] → active ++ qs ≠ [] := fun hmore =>
    (overflow_starts_segment hv hrest hc.batch hmore).2
  have hroom : roomIn config (active ++ qs) = roomIn config active - runSize qs := by
    simp only [roomIn, runSize_append]
    omega
  have hbase : activeBase oldest sealed + (active ++ qs).length = e + qs.length := by
    rw [List.length_append, he, Nat.add_assoc]
  have hlen : (done ++ encodeRun e qs).length = done.length + runSize qs := by
    rw [List.length_append, encodeRun_length]
  have hcount := congrArg List.length hsplit
  rw [List.length_append] at hcount
  have hroll := rollRest_triple more (observed ++ told e qs) last h hv
    (by rw [hroom, hq, hm]; exact fit_overflow _ _) hnew
    (show staging = (done ++ encodeRun e qs) ++ encodeRun _ more by
      rw [hbase, List.append_assoc, hst'])
  rw [hlen] at hroll
  refine (storePrefix_triple h hq.symm hst').seq (hroll.seq (Triple.ret _ ?_)) s hs
  rintro s' (⟨hmore, hturn⟩ | ⟨hmore, hturn⟩)
  · have hend : staging.length = done.length + runSize qs := by
      rw [hst', List.length_append, List.length_append, encodeRun_length, hmore]
      simp
    rw [hmore, List.length_nil] at hcount
    refine ⟨staging, sealed, active ++ qs, _, [], hend.symm, by simp, ?_, ?_, hturn⟩
    · rw [hbase, List.length_nil]
      omega
    · rw [turnsLeft, if_pos rfl]
      rw [turnsLeft, if_neg hrest] at hfuel
      have := List.length_pos_iff.mpr hrest
      split_ifs at hfuel <;> omega
  · refine ⟨done ++ encodeRun e qs, sealed ++ [active ++ qs], [], _, more, hlen.symm, ?_, ?_, ?_, hturn⟩
    · rw [Carries.activeBase_roll, hbase, List.length_nil, Nat.add_zero, List.append_assoc, hst']
    · rw [Carries.activeBase_roll, hbase, List.length_nil]
      omega
    · exact turnsLeft_rolled hsplit hrest hmore (hnew hmore) hfuel

variable (staging last) in
/-- From any turn on, the loop ends with every record stored, or with one of its calls. -/
theorem commitLoop_triple (h : CommitRule config oldest J X) (hv : config.Valid) (next fuel pos : ℕ) :
    Triple (AtTurn config oldest staging last J next fuel pos) (commitLoop fuel pos)
      (fun _ s => ∃ sealed active observed, activeBase oldest sealed + active.length = next ∧
        Turning config oldest staging last J sealed active observed [] s)
      (Failed config oldest staging last X) (Died config oldest staging last X) := by
  induction fuel generalizing pos with
  | zero =>
    rintro s ⟨done, sealed, active, observed, rest, -, -, -, hfuel, -⟩
    unfold turnsLeft at hfuel
    split_ifs at hfuel <;> omega
  | succ fuel ih =>
    rintro s ⟨done, sealed, active, observed, rest, rfl, hst, rfl, hfuel, hturn⟩
    have hstaging : s.wal.staging = staging := by rw [hturn.1]; rfl
    by_cases hrest : rest = []
    · subst hrest
      rw [commitLoop_done fuel (by rw [hstaging, hst]; simp)]
      exact ⟨sealed, active, observed, rfl, hturn⟩
    · have hlt : done.length < s.wal.staging.length := hstaging.symm ▸ lt_staging_length hrest hst
      rw [commitLoop, Prog.bind_of_ret (Prog.state_run _), if_pos hlt]
      exact ((commitStep_triple h hv hrest hfuel hst).bind fun pos => ih pos) s hturn

variable (observed) in
/-- The first turn of a commit of `staged`. -/
theorem AtTurn.start {staged : List Bytes} (hs : staged ≠ []) {d : Disk} {f : File} (fates : List Fate)
    (hc : Committing config d oldest sealed active f staged) (hj : J sealed active observed staged f d) :
    AtTurn config oldest (encodeRun (activeBase oldest sealed + active.length) staged)
      (activeBase oldest sealed + active.length - 1 + staged.length) J
      (activeBase oldest sealed + active.length + staged.length)
      (2 * (encodeRun (activeBase oldest sealed + active.length) staged).length + 2) 0
      ⟨handleOn config oldest sealed active observed staged, ⟨d, fates⟩⟩ := by
  refine ⟨[], sealed, active, observed, staged, rfl, rfl, rfl, ?_, rfl, f, hc, hj⟩
  have := le_runSize staged
  have := List.length_pos_iff.mpr hs
  rw [turnsLeft, if_neg hs, encodeRun_length]
  split_ifs <;> omega

/-- What a commit of `staged` ends in, whatever its calls come to. -/
theorem commit_triple (h : CommitRule config oldest J X) (hv : config.Valid) {staged : List Bytes}
    (hs : staged ≠ []) {d : Disk} {f : File} (fates : List Fate)
    (hc : Committing config d oldest sealed active f staged)
    (hj : J sealed active observed staged f d) :
    Ends
      (fun durable s => durable = activeBase oldest sealed + active.length - 1 + staged.length ∧
        ∃ sealed' active' observed' f',
          activeBase oldest sealed' + active'.length =
            activeBase oldest sealed + active.length + staged.length ∧
          s.wal = handleOn config oldest sealed' active' observed' [] ∧
          Carries config s.world.disk oldest sealed' active' f' ∧
          J sealed' active' observed' [] f' s.world.disk)
      (Failed config oldest (encodeRun (activeBase oldest sealed + active.length) staged)
        (activeBase oldest sealed + active.length - 1 + staged.length) X)
      (Died config oldest (encodeRun (activeBase oldest sealed + active.length) staged)
        (activeBase oldest sealed + active.length - 1 + staged.length) X)
      (commit ⟨handleOn config oldest sealed active observed staged, ⟨d, fates⟩⟩) := by
  have hpos := hc.activeBase_pos
  set e := activeBase oldest sealed + active.length with he
  have hne : (handleOn config oldest sealed active observed staged).staging ≠ [] :=
    encodeRun_eq_nil.not.mpr hs
  rw [commit, Prog.bind_of_ret (Prog.state_run _), if_neg (by simp [handleOn]), if_neg hne]
  have hloop := commitLoop_triple (encodeRun e staged) (e - 1 + staged.length) h hv (e + staged.length)
    (2 * (encodeRun e staged).length + 2) 0
  refine hloop.seq ?_ _ ?_
  · rintro s ⟨sealed', active', observed', hnext, hwal, f', hc', hj'⟩
    have hlast : e - 1 + staged.length = activeBase oldest sealed' + active'.length - 1 := by omega
    refine ⟨?_, sealed', active', observed', f', hnext, ?_, hc'.toCarries, hj'⟩
    · rw [hlast]
      simp [hwal, batchOn, handleOn]
    · simp [hwal, batchOn, handleOn, hlast]
  · exact AtTurn.start _ hs fates hc hj

end Rule

end OpenWal
