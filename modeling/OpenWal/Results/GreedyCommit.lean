import OpenWal.Theory.FailingRuns
import OpenWal.Theory.Growth

namespace OpenWal
open ByteSeq Posix CrashProg

def startsFrom : ℕ → List (List Bytes) → List ℕ
  | _, [] => []
  | e, ps :: rest => e :: startsFrom (e + ps.length) rest

def endOf : ℕ → List Bytes → List (List Bytes) → ℕ
  | x, ps, [] => x + runSize ps
  | _, _, qs :: rest => endOf headerSize qs rest

variable {base : ℕ} {segs chunks : List (List Bytes)} {active active' first : List Bytes}

theorem basesFrom_eq_startsFrom (base : ℕ) (segs : List (List Bytes)) (last : List Bytes) :
    basesFrom base segs = startsFrom base (segs ++ [last]) := by
  induction segs generalizing base with
  | nil => rfl
  | cons ps segs ih => rw [basesFrom, ih, List.cons_append, startsFrom]

theorem startsFrom_append (e : ℕ) (xs ys : List (List Bytes)) :
    startsFrom e (xs ++ ys) = startsFrom e xs ++ startsFrom (activeBase e xs) ys := by
  induction xs generalizing e with
  | nil => rfl
  | cons ps xs ih => rw [List.cons_append, startsFrom, startsFrom, ih, activeBase_cons, List.cons_append]

theorem basesFrom_append_startsFrom (oldest : ℕ) (sealed : List (List Bytes))
    (h : segs ++ [active'] = active :: chunks) :
    basesFrom oldest (sealed ++ segs) =
      basesFrom oldest sealed ++ startsFrom (activeBase oldest sealed + active.length) chunks := by
  rw [basesFrom_eq_startsFrom oldest _ active', List.append_assoc, h, ← List.singleton_append,
    ← List.append_assoc, startsFrom_append, ← basesFrom_eq_startsFrom, Carries.activeBase_roll]

/-- The new active segment is the last one. -/
theorem activeBase_of_chunks (h : segs ++ [active'] = active :: chunks) :
    (startsFrom (base + active.length) chunks).getLastD base = activeBase base segs := by
  induction chunks generalizing base active segs with
  | nil =>
    obtain ⟨rfl, -⟩ := List.append_eq_singleton_iff.mp h |>.resolve_right (by simp)
    rfl
  | cons qs chunks ih =>
    cases segs with
    | nil => simp at h
    | cons ps segs =>
      obtain ⟨hhead, htail⟩ := List.cons.inj h
      rw [startsFrom, List.getLastD_cons, ih htail, activeBase_cons, hhead]

theorem endOf_of_chunks (h : segs ++ [active'] = (active ++ first) :: chunks) :
    endOf (headerSize + runSize active) first chunks = headerSize + runSize active' := by
  induction chunks generalizing active first segs with
  | nil =>
    obtain ⟨rfl, h⟩ := List.append_eq_singleton_iff.mp h |>.resolve_right (by simp)
    rw [endOf, (List.cons.inj h).1, runSize_append, Nat.add_assoc]
  | cons qs chunks ih =>
    cases segs with
    | nil => simp at h
    | cons ps segs =>
      have := ih (show segs ++ [active'] = ([] ++ qs) :: chunks from (List.cons.inj h).2)
      rwa [runSize_nil, Nat.add_zero] at this

section

variable [Crc32c]

/-- What a commit of `first ++ chunks.flatten` leaves of the directory `d`: `first` in the active
segment from the write position on, each chunk in a new segment from the header on. -/
structure StoresPacked (wal : Wal) (d d' : Disk) (first : List Bytes) (chunks : List (List Bytes)) :
    Prop where
  active : ∃ f g, d.file wal.active = some f ∧ d'.file wal.active = some g ∧
    wal.writeOffset ≤ f.data.length ∧
    g.data = overwrite f.data wal.writeOffset (encodeRun (wal.durableLsn + 1) first) ∧
    AgreeOn g.data f.data 0 wal.writeOffset ∧
    (chunks ≠ [] → ∃ base p, wal.active = filenameFor base ∧
      FrameAt wal.segmentSize wal.maxRecordSize g.data headerSize base p)
  created : ChainFrom (fun b ps => ∃ g, d'.file (filenameFor b) = some g ∧
    SegmentBytes wal.segmentSize b ps g.data) (wal.durableLsn + 1 + first.length) chunks
  others : ∀ n, n ≠ wal.active →
    (∀ b ∈ startsFrom (wal.durableLsn + 1 + first.length) chunks, n ≠ filenameFor b) → d'.file n = d.file n

/-- Whatever becomes of the segment based at `base`, it holds more records behind `active`, and
those after it are new. -/
def FilledFrom (ss base : ℕ) (active : List Bytes) (data₀ : Bytes) (b : ℕ) (ps : List Bytes)
    (data : Bytes) : Prop :=
  (b = base ∧ ∃ first, ps = active ++ first ∧
    data = overwrite data₀ (headerSize + runSize active) (encodeRun (base + active.length) first)) ∨
  (base < b ∧ SegmentBytes ss b ps data)

theorem filledFrom_growsBy (config : WalConfig) (base : ℕ) (active : List Bytes) (data₀ : Bytes) :
    GrowsBy config base (FilledFrom config.segmentSize base active data₀) where
  fresh created hlt := Or.inr ⟨hlt, .fresh _ _ created⟩
  stores {b ps data} qs h := by
    rcases h with ⟨rfl, first, rfl, rfl⟩ | ⟨hlt, h⟩
    · refine Or.inl ⟨rfl, first ++ qs, by rw [List.append_assoc], ?_⟩
      rw [runSize_append, List.length_append, ← Nat.add_assoc, ← Nat.add_assoc]
      exact overwrite_encodeRun _ _ _ _ _
    · exact Or.inr ⟨hlt, h.store qs⟩

variable {config : WalConfig} {d d' : Disk} {oldest : ℕ} {sealed : List (List Bytes)} {staged : List Bytes}
  {observed observed' : List ℕ} {f f' : File}

theorem storesPacked_of_grown (hc : Carries config d oldest sealed active f)
    (hc' : Carries config d' oldest (sealed ++ segs) active' f')
    (hg : Grown (FilledFrom config.segmentSize (activeBase oldest sealed) active f.data) d d'
      (activeBase oldest sealed) segs active' f'.data)
    (hchunks : segs ++ [active'] = (active ++ first) :: chunks)
    (hfirst : chunks ≠ [] → active ++ first ≠ []) :
    StoresPacked (handleOn config oldest sealed active observed staged) d d' first chunks := by
  set base := activeBase oldest sealed with hbase
  have hpos := hc.activeBase_pos
  have hdurable : base + active.length - 1 + 1 = base + active.length := by omega
  have hfile := hc'.file
  rw [activeBase_append, ← hbase] at hfile
  -- every segment from the active one on, the last one included
  have hall : ChainFrom (fun b ps => ∃ g, d'.file (filenameFor b) = some g ∧
      FilledFrom config.segmentSize base active f.data b ps g.data) base ((active ++ first) :: chunks) := by
    rw [← hchunks]
    exact ChainFrom.append_iff.mpr ⟨hg.chain.imp fun b ps _ _ h => h.2, ⟨f', hfile, hg.active⟩, trivial⟩
  obtain ⟨⟨g, hgf, hfill⟩, hrest⟩ := hall
  obtain ⟨-, first', hfirst', hdata⟩ := hfill.resolve_right fun h => absurd h.1 (lt_irrefl _)
  obtain rfl : first = first' := List.append_cancel_left hfirst'
  refine ⟨⟨f, g, hc.file, hgf, hc.le_length, ?_, ?_, fun hch => ⟨base, ?_⟩⟩, ?_, fun n hn hnew => ?_⟩
  · simpa only [handleOn, ← hbase, hdurable] using hdata
  · rw [hdata]
    exact overwrite_agreeOn_before _ hc.le_length 0
  · obtain ⟨qs, rest, rfl⟩ := List.exists_cons_of_ne_nil hch
    obtain ⟨ps, segs, rfl⟩ := List.exists_cons_of_ne_nil (show segs ≠ [] by rintro rfl; simp at hchunks)
    obtain rfl : ps = active ++ first := (List.cons.inj hchunks).1
    obtain ⟨hne, g', hg', -, hrun⟩ := (ChainFrom.append_iff.mp hc'.chain).2.1
    obtain rfl : g = g' := Option.some.inj (hgf.symm.trans hg')
    obtain ⟨p, ps, hps⟩ := List.exists_cons_of_ne_nil hne
    rw [hps] at hrun
    exact ⟨p, rfl, hrun.1⟩
  · have hstart : base + (active ++ first).length = base + active.length - 1 + 1 + first.length := by
      rw [hdurable, List.length_append, Nat.add_assoc]
    rw [hstart] at hrest
    cases chunks with
    | nil => trivial
    | cons qs rest =>
      have hlen := List.length_pos_iff.mpr (hfirst (by simp))
      apply hrest.imp
      rintro b ps hb - ⟨g, hg, hp⟩
      refine ⟨g, hg, hp.elim (fun h => ?_) fun h => h.2⟩
      omega
  · have hnames := basesFrom_append_startsFrom base [] hchunks
    have hstart : activeBase base [] + (active ++ first).length =
        base + active.length - 1 + 1 + first.length := by
      rw [activeBase_nil, hdurable, List.length_append, Nat.add_assoc]
    rw [List.nil_append, hstart, basesFrom] at hnames
    apply hg.others
    rw [hnames, List.singleton_append]
    exact List.forall_mem_cons.mpr ⟨hn, hnew⟩

variable {ok : Machine → Op → List Fate → Prop} {m₀ m : Machine} {wal : Wal}

/-- Whatever happened before, a commit that meets no failure returns, and packs the staged
records greedily. -/
theorem commit_packs (hh : m₀.handle = none) (hl : m₀.disk.locked = false)
    (hm : Machine.Reaches config ok m₀ m) (hw : m.handle = some wal) (hp : wal.poisoned = false)
    (hs : wal.staging ≠ []) :
    ∃ first chunks observed d',
      wal.staging = encodeRun (wal.durableLsn + 1) (first ++ chunks.flatten) ∧
      wal.lastLsn = wal.durableLsn + (first ++ chunks.flatten).length ∧
      Packed wal.segmentSize wal.writeOffset first chunks ∧
      commit ⟨wal, ⟨m.disk, []⟩⟩ = (.ret wal.lastLsn, ⟨{ wal with
        segments := wal.segments ++ startsFrom (wal.durableLsn + 1 + first.length) chunks
        active := ((startsFrom (wal.durableLsn + 1 + first.length) chunks).map filenameFor).getLastD
          wal.active
        writeOffset := endOf wal.writeOffset first chunks
        durableLsn := wal.lastLsn
        staging := []
        observed := observed }, ⟨d', []⟩⟩) ∧
      StoresPacked wal m.disk d' first chunks := by
  have hu := (Upheld.trivially config ok).run (hh ▸ .rest hl trivial) hm
  rw [hw] at hu
  cases hu with
  | stuck hlock hdir hpois => simp [hp] at hpois
  | live hv hlock hdir hc hobs hlive =>
    rename_i oldest sealed active observed staged f
    have hstaged : staged ≠ [] := fun h => hs (by simp [h, handleOn])
    have hpos := hc.activeBase_pos
    have hx := hc.run.le_segment ((Nat.le_add_right _ _).trans hv.room)
    -- a segment has room for any record, so what does not fit is never the first one
    have hroom : ∀ p ∈ staged, headerSize + framedSize p.length ≤ config.segmentSize :=
      fun p hp => hv.fits (hc.batch.small p hp)
    have hc₀ : Committing config m.disk oldest (sealed ++ []) active f staged := by
      rwa [List.append_nil]
    have hg₀ : Grown (FilledFrom config.segmentSize (activeBase oldest sealed) active f.data) m.disk m.disk
        (activeBase oldest sealed) [] active f.data :=
      ⟨trivial, Or.inl ⟨rfl, [], by simp, by simp⟩, fun _ _ => rfl⟩
    obtain ⟨segs, active', observed', f', d', hrun, hpack, hc', hg⟩ :=
      commit_grows sealed hv (filledFrom_growsBy config (activeBase oldest sealed) active f.data) rfl observed
        hstaged hc₀ hg₀
    rw [List.append_nil] at hrun hpack
    -- what is stored are the chunks the greedy rule makes of the batch
    obtain ⟨first, chunks, hlog, rfl, hpacked⟩ := pack_packed sealed active hx hroom
    rw [hpack, List.append_assoc] at hlog
    have hchunks := List.append_cancel_left hlog
    have hfirst : chunks ≠ [] → active ++ first ≠ [] := by
      rintro hch hnil
      obtain ⟨rfl, rfl⟩ := List.append_eq_nil_iff.mp hnil
      obtain ⟨qs, rest, rfl⟩ := List.exists_cons_of_ne_nil hch
      obtain ⟨-, ⟨q, tail, rfl, hlt⟩, -⟩ := hpacked
      have := hroom q (by simp)
      rw [runSize_nil] at hlt
      omega
    have hdurable : activeBase oldest sealed + active.length - 1 + 1 =
        activeBase oldest sealed + active.length := by omega
    have hstart : activeBase oldest sealed + active.length - 1 + 1 + first.length =
        activeBase oldest sealed + (active ++ first).length := by
      rw [hdurable, List.length_append, Nat.add_assoc]
    refine ⟨first, chunks, observed', d', ?_, rfl, hpacked, hrun.trans ?_,
      storesPacked_of_grown hc.toCarries hc' hg hchunks hfirst⟩
    · simp only [handleOn, hdurable]
    · have hlast : activeBase oldest (sealed ++ segs) + active'.length - 1 =
          activeBase oldest sealed + active.length - 1 + (first ++ chunks.flatten).length := by
        have hlen := congrArg (fun l => l.flatten.length) hlog
        simp only [List.flatten_append, List.flatten_cons, List.flatten_nil, List.length_append,
          List.length_nil] at hlen
        simp only [activeBase, List.flatten_append, List.length_append] at hpos ⊢
        omega
      have hname : ((startsFrom (activeBase oldest sealed + (active ++ first).length) chunks).map
          filenameFor).getLastD (filenameFor (activeBase oldest sealed)) =
          filenameFor (activeBase oldest (sealed ++ segs)) := by
        rw [activeBase_append, ← activeBase_of_chunks hchunks, List.getLastD_map]
      simp only [handleOn, hstart, hlast, hname, endOf_of_chunks hchunks,
        basesFrom_append_startsFrom oldest sealed hchunks, encodeRun_nil, List.length_nil, Nat.add_zero]

end

/-- Four records, three of which fit. -/
theorem commit_packs_four : ∃ m wal, Machine.Reaches tightConfig (fun _ _ _ => True)
      (Machine.fresh true fun _ => 0) m ∧ m.handle = some wal ∧
    ∃ first chunks observed d',
      Packed wal.segmentSize wal.writeOffset first chunks ∧
      commit ⟨wal, ⟨m.disk, []⟩⟩ = (.ret wal.lastLsn, ⟨{ wal with
        segments := wal.segments ++ startsFrom (wal.durableLsn + 1 + first.length) chunks
        active := ((startsFrom (wal.durableLsn + 1 + first.length) chunks).map filenameFor).getLastD
          wal.active
        writeOffset := endOf wal.writeOffset first chunks
        durableLsn := wal.lastLsn
        staging := []
        observed := observed }, ⟨d', []⟩⟩) ∧
      StoresPacked wal m.disk d' first chunks := by
  have hrun : ((Machine.fresh true fun _ => 0).runFated tightConfig
      [(.openLog 1, []), (.append [7], []), (.append [8], []), (.append [9], []),
        (.append [10], [])]).map
        (fun r => r.2.handle.map fun wal => (wal.staging.length, wal.poisoned)) =
      some (some (96, false)) := by decide +kernel
  obtain ⟨⟨os, m⟩, hrun, hres⟩ := Option.map_eq_some_iff.mp hrun
  obtain ⟨wal, hh, hwal⟩ := Option.map_eq_some_iff.mp hres
  obtain ⟨hlen, hp⟩ := Prod.mk.inj hwal
  have hs : wal.staging ≠ [] := fun h => by simp [h] at hlen
  have hm : Machine.Reaches tightConfig (fun _ _ _ => True) (Machine.fresh true fun _ => 0) m :=
    Machine.Reaches.start.runFated (by simp [Op.Legal]; decide) hrun
  obtain ⟨first, chunks, observed, d', -, -, hpacked, hcommit, hd⟩ := commit_packs rfl rfl hm hh hp hs
  exact ⟨m, wal, hm, hh, first, chunks, observed, d', hpacked, hcommit, hd⟩

end OpenWal
