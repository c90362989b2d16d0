import OpenWal.Theory.OpenedLog
import OpenWal.Theory.Packing
import OpenWal.Theory.Written

namespace OpenWal
open ByteSeq Posix CrashProg

theorem orPoison_of_ret {α : Type} {m : Prog World WalError α} {wal : Wal} {w w' : World} {a : α}
    (h : m w = (.ret a, w')) : orPoison m ⟨wal, w⟩ = (.ret a, ⟨wal, w'⟩) :=
  Prog.onError_of_ret (Prog.zoom_run h)

variable {d : Disk} {f : File}

theorem writePrefix_calm (wal : Wal) (h : d.file wal.active = some f) (pos scan last : ℕ) :
    writePrefix pos scan last ⟨wal, ⟨d, []⟩⟩ =
      (.ret (), ⟨{ wal with
        writeOffset := wal.writeOffset + (scan - pos)
        durableLsn := last
        observed := wal.observed ++ [last] },
        ⟨d.put wal.active (f.write wal.writeOffset (slice wal.staging pos scan)).sync, []⟩⟩) := by
  set b := slice wal.staging pos scan
  have hwrite := writeAllAt_calm h b wal.writeOffset
  have hsync := syncData_calm (Disk.put_file_self wal.active (f.write wal.writeOffset b) d)
  rw [Disk.put_put] at hsync
  rw [writePrefix, Prog.bind_of_ret (Prog.state_run _),
    Prog.seq_of_ret (orPoison_of_ret (Prog.mapErr_of_ret hwrite)), syncDataFully,
    Prog.seq_of_ret (orPoison_of_ret (Prog.mapErr_of_ret hsync))]
  rfl

variable [Crc32c]

theorem roll_calm (wal : Wal) {newBase : ℕ} (h : d.file (filenameFor newBase) = none)
    (hss : headerSize ≤ wal.segmentSize) :
    ∃ created d', roll newBase ⟨wal, ⟨d, []⟩⟩ =
      (.ret (), ⟨{ wal with
        active := filenameFor newBase
        writeOffset := headerSize
        segments := wal.segments ++ [newBase] }, ⟨d', []⟩⟩) ∧
      SetTo d (filenameFor newBase) (freshSegment newBase wal.segmentSize created) d' := by
  obtain ⟨created, d', hc, hset⟩ := create_calm h hss
  refine ⟨created, d'.syncDir, ?_, hset.self, hset.others, hset.locked, ?_⟩
  · rw [roll, Prog.bind_of_ret (Prog.state_run _), Prog.bind_of_ret (orPoison_of_ret hc),
      fsyncDirectory,
      Prog.seq_of_ret (orPoison_of_ret (Prog.mapErr_of_ret (fsyncDir_calm d')))]
    rfl
  · rw [Disk.syncDir_unlinked, hset.unlinked]

/-- The handle within `commit`, where `staging` is the whole of the batch. -/
def batchOn (config : WalConfig) (oldest : ℕ) (sealed : List (List Bytes)) (active : List Bytes)
    (observed : List ℕ) (staging : Bytes) (last : ℕ) : Wal :=
  { handleOn config oldest sealed active observed [] with staging := staging, lastLsn := last }

def stored (x e : ℕ) (ps : List Bytes) (f : File) : File :=
  if ps = [] then f else (f.write x (encodeRun e ps)).sync

def told (e : ℕ) (ps : List Bytes) : List ℕ := if ps = [] then [] else [e + ps.length - 1]

/-- Records written behind others lie as if all were written at once. -/
theorem overwrite_encodeRun (data : Bytes) (x e : ℕ) (ps qs : List Bytes) :
    overwrite (overwrite data x (encodeRun e ps)) (x + runSize ps) (encodeRun (e + ps.length) qs) =
      overwrite data x (encodeRun e (ps ++ qs)) := by
  have h := overwrite_overwrite data x (encodeRun e ps) (encodeRun (e + ps.length) qs)
  rwa [encodeRun_length, ← encodeRun_append] at h

theorem stored_data (x e : ℕ) (ps : List Bytes) (f : File) :
    (stored x e ps f).data = overwrite f.data x (encodeRun e ps) := by
  unfold stored
  split_ifs with h
  · simp [h]
  · rfl

variable {config : WalConfig} {oldest : ℕ} {sealed : List (List Bytes)} {active ps : List Bytes}
  {observed : List ℕ} {staging done : Bytes} {last : ℕ}

/-- The first half of a turn: the records `qs` go to the active file. -/
theorem storePrefix_calm (config : WalConfig) (observed : List ℕ) (last : ℕ) {qs : List Bytes}
    {rest : Bytes}
    (hf : d.file (filenameFor (activeBase oldest sealed)) = some f)
    (hst : staging = done ++ (encodeRun (activeBase oldest sealed + active.length) qs ++ rest)) :
    ∃ d', (if done.length < done.length + runSize qs then
        writePrefix done.length (done.length + runSize qs)
          (if qs = [] then lsnNone else activeBase oldest sealed + active.length + qs.length - 1)
        else pure ()) ⟨batchOn config oldest sealed active observed staging last, ⟨d, []⟩⟩ =
      (.ret (), ⟨batchOn config oldest sealed (active ++ qs)
        (observed ++ told (activeBase oldest sealed + active.length) qs) staging last, ⟨d', []⟩⟩) ∧
      SetTo d (filenameFor (activeBase oldest sealed))
        (stored (headerSize + runSize active) (activeBase oldest sealed + active.length) qs f) d' := by
  by_cases hq : qs = []
  · subst hq
    refine ⟨d, ?_, hf, fun _ _ => rfl, rfl, rfl⟩
    simp [told]
  · have hpos : 0 < runSize qs := Nat.pos_of_ne_zero (runSize_eq_zero.not.mpr hq)
    have hslice : slice staging done.length (done.length + runSize qs) =
        encodeRun (activeBase oldest sealed + active.length) qs := by
      rw [hst]
      exact slice_middle rfl (by rw [encodeRun_length])
    rw [if_pos (by omega), if_neg hq, told, if_neg hq, stored, if_neg hq]
    refine ⟨_, ?_, setTo_put d _ _⟩
    have hw := writePrefix_calm (batchOn config oldest sealed active observed staging last) hf
      done.length (done.length + runSize qs)
      (activeBase oldest sealed + active.length + qs.length - 1)
    simp only [batchOn, handleOn, hslice, Nat.add_sub_cancel_left] at hw ⊢
    rw [hw, runSize_append, List.length_append, Nat.add_assoc headerSize, Nat.add_assoc (activeBase _ _)]

/-- A turn is a write, where there is something to write, and then a roll, where
something is left. -/
theorem commitStep_eq {pos scan last : ℕ} {s : Sys}
    (h : scanPrefix s.wal.staging pos (s.wal.segmentSize - s.wal.writeOffset) pos lsnNone =
      (scan, last)) :
    commitStep pos s = (do
      (if pos < scan then writePrefix pos scan last else pure ())
      (if scan < s.wal.staging.length then roll (peek (s.wal.staging.drop scan)).1 else pure ())
      return scan : Prog Sys WalError ℕ) s := by
  rw [commitStep, Prog.bind_of_ret (Prog.state_run _)]
  simp only [h]
  split_ifs <;> rfl

/-- The whole turn, with records left over or not. -/
theorem commitStep_calm (observed : List ℕ) (last : ℕ) {active' more : List Bytes}
    (hf : d.file (filenameFor (activeBase oldest sealed)) = some f)
    (hst : staging = done ++ encodeRun (activeBase oldest sealed + active.length) ps)
    (hb : Batch config.maxRecordSize (activeBase oldest sealed + active.length) ps)
    (hss : headerSize ≤ config.segmentSize)
    (hfit : fit (config.segmentSize - (headerSize + runSize active)) ps = active')
    (hover : overflow (config.segmentSize - (headerSize + runSize active)) ps = more)
    (hnone : more ≠ [] →
      d.file (filenameFor (activeBase oldest (sealed ++ [active ++ active']))) = none) :
    ∃ d₁, SetTo d (filenameFor (activeBase oldest sealed))
        (stored (headerSize + runSize active) (activeBase oldest sealed + active.length) active' f)
        d₁ ∧
      (more = [] ∧ commitStep done.length ⟨batchOn config oldest sealed active observed staging last,
          ⟨d, []⟩⟩ = (.ret staging.length, ⟨batchOn config oldest sealed (active ++ active')
          (observed ++ told (activeBase oldest sealed + active.length) active') staging last,
          ⟨d₁, []⟩⟩) ∨
        more ≠ [] ∧ ∃ created d₂, SetTo d₁
            (filenameFor (activeBase oldest (sealed ++ [active ++ active'])))
            (freshSegment (activeBase oldest (sealed ++ [active ++ active'])) config.segmentSize created)
            d₂ ∧
          commitStep done.length ⟨batchOn config oldest sealed active observed staging last, ⟨d, []⟩⟩ =
            (.ret (done ++ encodeRun (activeBase oldest sealed + active.length) active').length,
              ⟨batchOn config oldest (sealed ++ [active ++ active']) []
                (observed ++ told (activeBase oldest sealed + active.length) active') staging last,
                ⟨d₂, []⟩⟩)) := by
  set e := activeBase oldest sealed + active.length with he
  set room := config.segmentSize - (headerSize + runSize active) with hroom
  have hbase : activeBase oldest (sealed ++ [active ++ active']) = e + active'.length := by
    simp [activeBase, he, Nat.add_assoc]
  have hps : ps = active' ++ more := by rw [← hfit, ← hover, fit_append_overflow]
  have hst' : staging = done ++ (encodeRun e active' ++ encodeRun (e + active'.length) more) := by
    rw [hst, hps, encodeRun_append]
  -- the scan stops where the greedy prefix ends
  have hscan := scanPrefix_encodeRun done.length room lsnNone hst le_rfl (by omega)
    (fun p hp => (hb.small p hp).trans_lt config.maxRecordSize_lt) hb.last
  rw [Nat.sub_self, Nat.sub_zero, hfit] at hscan
  obtain ⟨d₁, hwrite, hset⟩ := storePrefix_calm config observed last hf hst'
  have hlen : staging.length = done.length + runSize active' + runSize more := by
    rw [hst', List.length_append, List.length_append, encodeRun_length, encodeRun_length]
    omega
  refine ⟨d₁, hset, ?_⟩
  by_cases ho : more = []
  · refine Or.inl ⟨ho, ?_⟩
    have hend : done.length + runSize active' = staging.length := by
      rw [hlen, ho]
      simp
    rw [commitStep_eq hscan, Prog.seq_of_ret hwrite, if_neg (by simp [batchOn, hend]), hend]
    rfl
  · have hopos : 0 < runSize more := Nat.pos_of_ne_zero (runSize_eq_zero.not.mpr ho)
    obtain ⟨q, qs, rfl⟩ := List.exists_cons_of_ne_nil ho
    have hbm := (Batch.append_iff.mp (hps ▸ hb)).2
    -- the base of the new segment is read from the first record that is left
    have hpeek : peek (staging.drop (done.length + runSize active')) =
        (e + active'.length, framedSize q.length) := by
      rw [hst', ← List.drop_drop, List.drop_left, ← encodeRun_length e active', List.drop_left,
        encodeRun_cons, peek_encodeFrame _ hbm.lsn_le (hbm.head_le.trans_lt config.maxRecordSize_lt)]
    rw [hbase] at hnone ⊢
    have hnew : d₁.file (filenameFor (e + active'.length)) = none := by
      rw [← hnone ho]
      apply hset.others
      intro hn
      have := hnone ho
      rw [hn, hf] at this
      simp at this
    obtain ⟨created, d₂, hroll, hset₂⟩ := roll_calm
      (batchOn config oldest sealed (active ++ active') (observed ++ told e active') staging last)
      hnew hss
    refine Or.inr ⟨ho, created, d₂, hset₂, ?_⟩
    rw [commitStep_eq hscan, Prog.seq_of_ret hwrite, if_pos (by simp [batchOn]; omega)]
    change (do roll (peek (staging.drop (done.length + runSize active'))).1; return _ :
      Prog Sys WalError ℕ) _ = _
    rw [hpeek, Prog.seq_of_ret hroll, List.length_append, encodeRun_length]
    simp only [Prog.pure_run, batchOn, handleOn, basesFrom_append_singleton, hbase,
      List.length_append, List.length_nil, runSize_nil, Nat.add_zero, he, Nat.add_assoc]

theorem commitLoop_done {s : Sys} (fuel : ℕ) {pos : ℕ} (h : s.wal.staging.length ≤ pos) :
    commitLoop (fuel + 1) pos s = (.ret (), s) := by
  rw [commitLoop, Prog.bind_of_ret (Prog.state_run _), if_neg (Nat.not_lt.mpr h)]
  rfl

theorem commitLoop_turn {s s' : Sys} (fuel : ℕ) {pos pos' : ℕ} (h : pos < s.wal.staging.length)
    (hs : commitStep pos s = (.ret pos', s')) :
    commitLoop (fuel + 1) pos s = commitLoop fuel pos' s' := by
  rw [commitLoop, Prog.bind_of_ret (Prog.state_run _), if_pos h, Prog.bind_of_ret hs]

variable {safe : Prop}

/-- A write of records that fit leaves a segment that holds them too. -/
theorem stored_written {base : ℕ}
    (h : Written config.segmentSize config.maxRecordSize f.data base active)
    (hb : Batch config.maxRecordSize (base + active.length) ps)
    (hfit : headerSize + runSize active + runSize ps ≤ config.segmentSize) :
    Written config.segmentSize config.maxRecordSize
      (stored (headerSize + runSize active) (base + active.length) ps f).data base (active ++ ps) := by
  have hw := h.write hb hfit (runSize ps)
  rwa [List.take_of_length_le (by rw [encodeRun_length]), Nat.min_self, ← runSize_append,
    ← stored_data] at hw

theorem stored_syncedOn {base : ℕ} (x e : ℕ)
    (h : Written config.segmentSize config.maxRecordSize (stored x e ps f).data base active)
    (hs : ps = [] → f.SyncedOn 0 config.segmentSize) :
    (stored x e ps f).SyncedOn 0 config.segmentSize := by
  have hlen := h.length
  unfold stored at hlen ⊢
  split_ifs at hlen ⊢ with hp
  · exact hs hp
  · exact File.sync_syncedOn 0 hlen.ge

omit [Crc32c] in
/-- Where something is left over, its first record starts a new segment, and the one
before it is not empty: an empty segment has room for any record. -/
theorem overflow_starts_segment {base : ℕ} (hv : config.Valid) (hps : ps ≠ [])
    (hb : Batch config.maxRecordSize (base + active.length) ps)
    (hm : overflow (config.segmentSize - (headerSize + runSize active)) ps ≠ []) :
    base + active.length + (fit (config.segmentSize - (headerSize + runSize active)) ps).length ≤
        u64Max ∧
      active ++ fit (config.segmentSize - (headerSize + runSize active)) ps ≠ [] := by
  set room := config.segmentSize - (headerSize + runSize active) with hroom
  rw [← fit_append_overflow room ps] at hb
  obtain ⟨q, qs, hq⟩ := List.exists_cons_of_ne_nil hm
  rw [hq] at hb
  refine ⟨(Batch.append_iff.mp hb).2.lsn_le, fun hnil => ?_⟩
  obtain ⟨rfl, hfit⟩ := List.append_eq_nil_iff.mp hnil
  obtain ⟨p, rest, rfl⟩ := List.exists_cons_of_ne_nil hps
  have hpm : p.length ≤ config.maxRecordSize := by
    rw [← hq, fit_append_overflow] at hb
    exact hb.head_le
  have hfits := hv.fits hpm
  refine fit_ne_nil rest ?_ hfit
  simp only [hroom, runSize_nil]
  omega

/-- What a turn that rolls leaves to the next one: the segment `next`, new and with no name above
it, and the records `more` that go there. -/
structure RolledTo (config : WalConfig) (d₁ : Disk) (next : ℕ) (more : List Bytes) (created : ℕ)
    (d₂ : Disk) : Prop where
  set : SetTo d₁ (filenameFor next) (freshSegment next config.segmentSize created) d₂
  le : next ≤ u64Max
  fresh : Written config.segmentSize config.maxRecordSize
    (freshSegment next config.segmentSize created).data next []
  batch : Batch config.maxRecordSize next more
  free : ∀ b ≤ u64Max, next < b → d₂.file (filenameFor b) = none

theorem lt_staging_length {e : ℕ} (hps : ps ≠ []) (hst : staging = done ++ encodeRun e ps) :
    done.length < staging.length := by
  have := runSize_eq_zero.not.mpr hps
  rw [hst, List.length_append, encodeRun_length]
  omega

/-- One turn of the loop: it is the last one, or it rolls. -/
theorem turn_calm (observed : List ℕ) (last : ℕ) {active' more : List Bytes} (hps : ps ≠ [])
    (hf : d.file (filenameFor (activeBase oldest sealed)) = some f)
    (hpos : 1 ≤ activeBase oldest sealed)
    (hst : staging = done ++ encodeRun (activeBase oldest sealed + active.length) ps)
    (hb : Batch config.maxRecordSize (activeBase oldest sealed + active.length) ps)
    (hv : config.Valid)
    (hfree : ∀ b ≤ u64Max, activeBase oldest sealed < b → d.file (filenameFor b) = none)
    (hfit : fit (config.segmentSize - (headerSize + runSize active)) ps = active')
    (hover : overflow (config.segmentSize - (headerSize + runSize active)) ps = more) :
    ∃ d₁, SetTo d (filenameFor (activeBase oldest sealed))
        (stored (headerSize + runSize active) (activeBase oldest sealed + active.length) active' f)
        d₁ ∧
      (more = [] ∧ commitStep done.length ⟨batchOn config oldest sealed active observed staging last,
          ⟨d, []⟩⟩ = (.ret staging.length, ⟨batchOn config oldest sealed (active ++ active')
          (observed ++ told (activeBase oldest sealed + active.length) active') staging last,
          ⟨d₁, []⟩⟩) ∨
        more ≠ [] ∧ active ++ active' ≠ [] ∧ ∃ created d₂,
          RolledTo config d₁ (activeBase oldest (sealed ++ [active ++ active'])) more created d₂ ∧
          commitStep done.length ⟨batchOn config oldest sealed active observed staging last, ⟨d, []⟩⟩ =
            (.ret (done ++ encodeRun (activeBase oldest sealed + active.length) active').length,
              ⟨batchOn config oldest (sealed ++ [active ++ active']) []
                (observed ++ told (activeBase oldest sealed + active.length) active') staging last,
                ⟨d₂, []⟩⟩)) := by
  set base := activeBase oldest sealed with hbase
  have hsplit := fit_append_overflow (config.segmentSize - (headerSize + runSize active)) ps
  have hss : headerSize ≤ config.segmentSize := (Nat.le_add_right _ _).trans hv.room
  have hbase' : activeBase oldest (sealed ++ [active ++ active']) =
      base + active.length + active'.length := by
    simp [activeBase, hbase, Nat.add_assoc]
  -- what is left over has a number, and the segment it does not fit in is not empty
  have hnew : more ≠ [] → base + active.length + active'.length ≤ u64Max ∧ active ++ active' ≠ [] ∧
      base < base + active.length + active'.length := by
    rw [← hover, ← hfit]
    intro hm
    obtain ⟨hle, hne⟩ := overflow_starts_segment hv hps hb hm
    have hlen := List.length_pos_iff.mpr hne
    rw [List.length_append] at hlen
    exact ⟨hle, hne, by omega⟩
  have hstep := commitStep_calm observed last hf hst hb hss hfit hover (by
    intro hm
    obtain ⟨hle, -, hlt⟩ := hnew hm
    rw [hbase']
    exact hfree _ hle hlt)
  obtain ⟨d₁, hset₁, ⟨hm, hstep⟩ | ⟨hm, created, d₂, hset₂, hstep⟩⟩ := hstep
  · exact ⟨d₁, hset₁, Or.inl ⟨hm, hstep⟩⟩
  · obtain ⟨hle, hne, hlt⟩ := hnew hm
    refine ⟨d₁, hset₁, Or.inr ⟨hm, hne, created, d₂, ⟨hset₂, ?_, ?_, ?_, ?_⟩, hstep⟩⟩
    · rwa [hbase']
    · rw [hbase']
      exact freshSegment_written (by omega) hle hss
    · rw [hfit, hover] at hsplit
      rw [hbase']
      exact (Batch.append_iff.mp (hsplit.symm ▸ hb)).2
    · rw [hbase'] at hset₂ ⊢
      intro b hb hlt'
      rw [hset₂.others _ (filenameFor_ne hb hle (by omega)),
        hset₁.others _ (filenameFor_ne hb (by omega) (by omega))]
      exact hfree b hb (by omega)

/-- Whatever is left after a roll goes into fresh segments, so the loop ends with
every record stored. -/
theorem commitLoop_calm (safe : Prop) (fuel : ℕ) (observed : List ℕ) (last : ℕ) (hps : ps ≠ [])
    (hf : d.file (filenameFor (activeBase oldest sealed)) = some f)
    (hw : Written config.segmentSize config.maxRecordSize f.data (activeBase oldest sealed) active)
    (hst : staging = done ++ encodeRun (activeBase oldest sealed + active.length) ps)
    (hb : Batch config.maxRecordSize (activeBase oldest sealed + active.length) ps)
    (hv : config.Valid)
    (hfree : ∀ b ≤ u64Max, activeBase oldest sealed < b → d.file (filenameFor b) = none)
    (hsync : safe → fit (config.segmentSize - (headerSize + runSize active)) ps = [] →
      f.SyncedOn 0 config.segmentSize)
    (hfuel : ps.length + (if active = [] then 1 else 2) ≤ fuel) :
    ∃ segs active' observed' f' d', commitLoop fuel done.length
        ⟨batchOn config oldest sealed active observed staging last, ⟨d, []⟩⟩ =
        (.ret (), ⟨batchOn config oldest (sealed ++ segs) active' observed' staging last, ⟨d', []⟩⟩) ∧
      segs.flatten ++ active' = active ++ ps ∧
      Extended config safe d (activeBase oldest sealed) segs active' f' d' ∧
      f'.SyncedOn 0 config.segmentSize := by
  induction fuel generalizing sealed active ps observed done d f with
  | zero =>
    have := List.length_pos_iff.mpr hps
    omega
  | succ fuel ih =>
    set base := activeBase oldest sealed with hbase
    set room := config.segmentSize - (headerSize + runSize active) with hroom
    have hfits := hw.fits
    have hsplit := fit_append_overflow room ps
    have hfitle := runSize_fit_le room ps
    have hba := (Batch.append_iff.mp (hsplit.symm ▸ hb)).1
    set a := fit room ps with ha
    set more := overflow room ps with hmore
    have hstored := stored_written hw hba (by omega)
    -- by induction on the turns that are left: a new segment is empty, so no second roll comes
    -- without a record stored
    obtain ⟨d₁, hset₁, ⟨hm, hturn⟩ | ⟨hm, hne, created, d₂, hroll, hturn⟩⟩ :=
      turn_calm observed last hps hf hw.header.pos hst hb hv hfree ha.symm hmore.symm
    · have hfuel' : 0 < fuel := by
        have := List.length_pos_iff.mpr hps
        split_ifs at hfuel <;> omega
      obtain ⟨fuel, rfl⟩ := Nat.exists_eq_succ_of_ne_zero hfuel'.ne'
      have haps : a = ps := fit_eq_of_overflow_eq_nil hm
      refine ⟨[], active ++ a, observed ++ told (base + active.length) a, _, d₁, ?_, by simp [haps],
        ⟨trivial, hset₁.self, hstored, ?_, hset₁.locked, hset₁.unlinked⟩, ?_⟩
      · rw [commitLoop_turn _ (lt_staging_length hps hst) hturn, List.append_nil]
        exact commitLoop_done fuel le_rfl
      · intro n hn
        exact hset₁.others n (hn base List.mem_cons_self)
      · exact stored_syncedOn _ _ hstored fun h => absurd (haps ▸ h) hps
    · have hbase' : activeBase oldest (sealed ++ [active ++ a]) = base + (active ++ a).length := by
        simp [activeBase, hbase, Nat.add_assoc]
      have hlen : more.length + 1 ≤ fuel := by
        have : a.length + more.length = ps.length := by rw [← List.length_append, hsplit]
        split_ifs at hfuel with hact
        · have : 0 < a.length := List.length_pos_iff.mpr (by simpa [hact] using hne)
          omega
        · omega
      have hst' : staging = done ++ encodeRun (base + active.length) a ++
          encodeRun (activeBase oldest (sealed ++ [active ++ a])) more := by
        rw [hst, List.append_assoc, hbase', List.length_append, ← Nat.add_assoc, ← encodeRun_append,
          hsplit]
      have hsync' : safe → fit (config.segmentSize - (headerSize + runSize [])) more = [] →
          (freshSegment (activeBase oldest (sealed ++ [active ++ a])) config.segmentSize
            created).SyncedOn 0 config.segmentSize := by
        intro _ _ i _ hi
        exact decide_eq_true hi
      obtain ⟨segs, active', observed', f', d', hloop, hflat, hext, hsf⟩ :=
        ih (observed ++ told (base + active.length) a) hm hroll.set.self hroll.fresh hst' hroll.batch
          hroll.free hsync' (by simpa using hlen)
      have hpos := List.length_pos_iff.mpr hne
      have hne₂ : filenameFor base ≠ filenameFor (base + (active ++ a).length) :=
        filenameFor_ne (by have := hroll.le; omega) (hbase' ▸ hroll.le) (by omega)
      rw [hbase'] at hext
      have hset₂ := hroll.set
      rw [hbase'] at hset₂
      have hsealed : StoredAt config.segmentSize config.maxRecordSize safe d₂ base (active ++ a) :=
        ⟨hne, _, (hset₂.others _ hne₂).trans hset₁.self, hstored,
          fun hs => stored_syncedOn _ _ hstored (hsync hs)⟩
      refine ⟨(active ++ a) :: segs, active', observed', f', d', ?_, ?_, ?_, hsf⟩
      · rw [List.append_assoc] at hloop
        exact (commitLoop_turn fuel (lt_staging_length hps hst) hturn).trans hloop
      · rw [List.flatten_cons, List.append_assoc, hflat, List.nil_append, List.append_assoc, hsplit]
      · exact hext.cons hsealed (fun n h₁ h₂ => (hset₂.others n h₂).trans (hset₁.others n h₁))
          (hset₂.locked.trans hset₁.locked) (hset₂.unlinked.trans hset₁.unlinked)

theorem commit_nothing (d : Disk) : commit
    ⟨handleOn config oldest sealed active observed [], ⟨d, []⟩⟩ =
      (.ret (activeBase oldest sealed + active.length - 1),
        ⟨handleOn config oldest sealed active observed [], ⟨d, []⟩⟩) := rfl

/-- `commit` is its loop, over the whole batch. -/
theorem commit_of_loop {staged active' : List Bytes} {sealed' : List (List Bytes)} {observed' : List ℕ}
    {d' : Disk} (hs : staged ≠ [])
    (hflat : activeBase oldest sealed' + active'.length =
      activeBase oldest sealed + active.length + staged.length)
    (hpos : 1 ≤ activeBase oldest sealed)
    (h : commitLoop (2 * (encodeRun (activeBase oldest sealed + active.length) staged).length + 2) 0
        ⟨batchOn config oldest sealed active observed
          (encodeRun (activeBase oldest sealed + active.length) staged)
          (activeBase oldest sealed + active.length - 1 + staged.length), ⟨d, []⟩⟩ =
      (.ret (), ⟨batchOn config oldest sealed' active' observed'
          (encodeRun (activeBase oldest sealed + active.length) staged)
          (activeBase oldest sealed + active.length - 1 + staged.length), ⟨d', []⟩⟩)) :
    commit ⟨handleOn config oldest sealed active observed staged, ⟨d, []⟩⟩ =
      (.ret (activeBase oldest sealed + active.length - 1 + staged.length),
        ⟨handleOn config oldest sealed' active' observed' [], ⟨d', []⟩⟩) := by
  have hne : (handleOn config oldest sealed active observed staged).staging ≠ [] :=
    encodeRun_eq_nil.not.mpr hs
  rw [commit, Prog.bind_of_ret (Prog.state_run _), if_neg (by simp [handleOn]), if_neg hne]
  refine (Prog.seq_of_ret h).trans ?_
  have hlast : activeBase oldest sealed + active.length - 1 + staged.length =
      activeBase oldest sealed' + active'.length - 1 := by omega
  rw [hlast]
  rfl

/-- A commit into a segment that holds nothing but its records stores the whole batch. -/
theorem commit_calm (safe : Prop) (observed : List ℕ) {staged : List Bytes} (hs : staged ≠ [])
    (hf : d.file (filenameFor (activeBase oldest sealed)) = some f)
    (hw : Written config.segmentSize config.maxRecordSize f.data (activeBase oldest sealed) active)
    (hfree : ∀ b ≤ u64Max, activeBase oldest sealed < b → d.file (filenameFor b) = none)
    (hv : config.Valid)
    (hb : Batch config.maxRecordSize (activeBase oldest sealed + active.length) staged)
    (hsync : safe → fit (config.segmentSize - (headerSize + runSize active)) staged = [] →
      f.SyncedOn 0 config.segmentSize) :
    ∃ segs active' observed' f' d',
      commit ⟨handleOn config oldest sealed active observed staged, ⟨d, []⟩⟩ =
        (.ret (activeBase oldest sealed + active.length - 1 + staged.length),
          ⟨handleOn config oldest (sealed ++ segs) active' observed' [], ⟨d', []⟩⟩) ∧
      segs.flatten ++ active' = active ++ staged ∧
      Extended config safe d (activeBase oldest sealed) segs active' f' d' ∧
      f'.SyncedOn 0 config.segmentSize := by
  set e := activeBase oldest sealed + active.length with he
  have hfuel : staged.length + (if active = [] then 1 else 2) ≤
      2 * (encodeRun e staged).length + 2 := by
    have := le_runSize staged
    rw [encodeRun_length]
    split_ifs <;> omega
  obtain ⟨segs, active', observed', f', d', hloop, hflat, hext, hsf⟩ :=
    commitLoop_calm safe _ observed (e - 1 + staged.length) hs hf hw (List.nil_append _).symm hb hv
      hfree hsync hfuel
  refine ⟨segs, active', observed', f', d', ?_, hflat, hext, hsf⟩
  have hlen := congrArg List.length hflat
  simp only [List.length_append] at hlen
  refine commit_of_loop hs ?_ hw.header.pos hloop
  simp only [activeBase, List.flatten_append, List.length_append] at *
  omega

/-- Into any other segment go the records that fit; what is left over goes into fresh ones. -/
theorem commit_adopted (observed : List ℕ) {staged : List Bytes} (hs : staged ≠ [])
    (hf : d.file (filenameFor (activeBase oldest sealed)) = some f)
    (hpos : 1 ≤ activeBase oldest sealed)
    (hfree : ∀ b ≤ u64Max, activeBase oldest sealed < b → d.file (filenameFor b) = none)
    (hv : config.Valid)
    (hb : Batch config.maxRecordSize (activeBase oldest sealed + active.length) staged)
    {active' more : List Bytes}
    (hfit : fit (config.segmentSize - (headerSize + runSize active)) staged = active')
    (hmore : overflow (config.segmentSize - (headerSize + runSize active)) staged = more) :
    ∃ d₁, SetTo d (filenameFor (activeBase oldest sealed))
        (stored (headerSize + runSize active) (activeBase oldest sealed + active.length) active' f)
        d₁ ∧
      (more = [] ∧ (∃ observed',
          commit ⟨handleOn config oldest sealed active observed staged, ⟨d, []⟩⟩ =
            (.ret (activeBase oldest sealed + active.length - 1 + staged.length),
              ⟨handleOn config oldest sealed (active ++ staged) observed' [], ⟨d₁, []⟩⟩)) ∨
        more ≠ [] ∧ active ++ active' ≠ [] ∧ ∃ segs last observed' g d',
          commit ⟨handleOn config oldest sealed active observed staged, ⟨d, []⟩⟩ =
            (.ret (activeBase oldest sealed + active.length - 1 + staged.length),
              ⟨handleOn config oldest (sealed ++ [active ++ active'] ++ segs) last observed' [],
                ⟨d', []⟩⟩) ∧
          segs.flatten ++ last = more ∧
          Extended config False d₁ (activeBase oldest (sealed ++ [active ++ active'])) segs last g d') := by
  set base := activeBase oldest sealed with hbase
  set e := base + active.length with he
  have hflat := fit_append_overflow (config.segmentSize - (headerSize + runSize active)) staged
  rw [hfit, hmore] at hflat
  have hlt := lt_staging_length hs (List.nil_append (encodeRun e staged)).symm
  -- only the first turn meets the adopted segment
  obtain ⟨d₁, hset₁, ⟨hm, hturn⟩ | ⟨hm, hne, created, d₂, hroll, hturn⟩⟩ :=
    turn_calm observed (e - 1 + staged.length) hs hf hpos (List.nil_append _).symm hb hv hfree hfit hmore
  · rw [hm, List.append_nil] at hflat
    rw [hflat] at hturn
    refine ⟨d₁, hset₁, Or.inl ⟨hm, observed ++ told e staged, ?_⟩⟩
    refine commit_of_loop hs (by rw [List.length_append]; omega) hpos ?_
    exact (commitLoop_turn _ hlt hturn).trans (commitLoop_done _ le_rfl)
  · refine ⟨d₁, hset₁, Or.inr ⟨hm, hne, ?_⟩⟩
    have hbase' : activeBase oldest (sealed ++ [active ++ active']) = e + active'.length := by
      simp [activeBase, he, hbase, Nat.add_assoc]
    have hlen := congrArg List.length hflat
    rw [List.length_append] at hlen
    have hst' : encodeRun e staged = ([] ++ encodeRun e active') ++
        encodeRun (activeBase oldest (sealed ++ [active ++ active'])) more := by
      rw [List.nil_append, hbase', ← encodeRun_append, hflat]
    obtain ⟨segs, last, observed', g, d', hloop, hflat', hext, -⟩ :=
      commitLoop_calm False (2 * (encodeRun e staged).length + 1) (observed ++ told e active')
        (e - 1 + staged.length) hm hroll.set.self hroll.fresh hst' hroll.batch hv hroll.free
        False.elim (by
          have := le_runSize staged
          rw [encodeRun_length]
          simp only [if_true]
          omega)
    refine ⟨segs, last, observed', g, d', ?_, hflat', hext.of_setTo hroll.set⟩
    have hlen' := congrArg List.length hflat'
    rw [List.length_append, List.nil_append] at hlen'
    refine commit_of_loop hs ?_ hpos ?_
    · simp only [activeBase, List.flatten_append, List.length_append, List.flatten_cons,
        List.flatten_nil, List.append_nil] at *
      omega
    · exact (commitLoop_turn _ hlt hturn).trans hloop

end OpenWal
