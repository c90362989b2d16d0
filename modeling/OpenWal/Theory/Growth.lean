import OpenWal.Theory.FailingCommit

namespace OpenWal
open ByteSeq Posix CrashProg

variable [Crc32c]

/-- What commits keep of the bytes of the segments from `base` on: `P` holds of a new segment
after it, and of one that holds more records. -/
structure GrowsBy (config : WalConfig) (base : ℕ) (P : ℕ → List Bytes → Bytes → Prop) : Prop where
  fresh : ∀ {b : ℕ} (created : ℕ), base < b → P b [] (freshSegment b config.segmentSize created).data
  stores : ∀ {b : ℕ} {ps : List Bytes} {data : Bytes} (qs : List Bytes), P b ps data →
    P b (ps ++ qs) (overwrite data (headerSize + runSize ps) (encodeRun (b + ps.length) qs))

structure Grown (P : ℕ → List Bytes → Bytes → Prop) (d₀ d : Disk) (base : ℕ)
    (segs : List (List Bytes)) (active : List Bytes) (data : Bytes) : Prop where
  chain : ChainFrom (fun b ps => ps ≠ [] ∧ ∃ g, d.file (filenameFor b) = some g ∧ P b ps g.data) base segs
  active : P (activeBase base segs) active data
  others : ∀ n, (∀ b ∈ basesFrom base segs, n ≠ filenameFor b) → d.file n = d₀.file n

variable {config : WalConfig} {P : ℕ → List Bytes → Bytes → Prop} {d₀ d d' : Disk} {base oldest : ℕ}
  {sealed sealed₀ segs : List (List Bytes)} {active rest staged : List Bytes} {f f' : File}
  {log : List (List Bytes) × List Bytes}

omit [Crc32c] in
theorem Grown.chain_congr (h : Grown P d₀ d base segs active f.data)
    (hle : activeBase base segs ≤ u64Max) {m : FileName}
    (hm : ∀ b ≤ u64Max, b < activeBase base segs → filenameFor b ≠ m)
    (hd : ∀ n, n ≠ m → d'.file n = d.file n) :
    ChainFrom (fun b ps => ps ≠ [] ∧ ∃ g, d'.file (filenameFor b) = some g ∧ P b ps g.data) base segs := by
  apply h.chain.imp
  rintro b ps _ hlast ⟨hne, g, hg, hp⟩
  have := List.length_pos_iff.mpr hne
  exact ⟨hne, g, (hd _ (hm b (by omega) (by omega))).trans hg, hp⟩

/-- The active segment takes records. -/
theorem Grown.store (h : Grown P d₀ d base segs active f.data) (hP : GrowsBy config base P)
    (hle : activeBase base segs ≤ u64Max) {qs : List Bytes}
    (hf : f'.data = overwrite f.data (headerSize + runSize active)
      (encodeRun (activeBase base segs + active.length) qs)) :
    Grown P d₀ (d.put (filenameFor (activeBase base segs)) f') base segs (active ++ qs) f'.data where
  chain := h.chain_congr hle (fun b hb hlt => filenameFor_ne hb hle hlt.ne)
    fun n hn => Disk.put_file_ne _ _ hn
  active := by
    rw [hf]
    exact hP.stores qs h.active
  others n hn := by
    rw [Disk.put_file_ne _ _ (hn _ (activeBase_mem_basesFrom base segs))]
    exact h.others n hn

/-- A new segment is appended to the log. -/
theorem Grown.roll (h : Grown P d₀ d base segs active f.data) (hP : GrowsBy config base P)
    (hf : d.file (filenameFor (activeBase base segs)) = some f) (ha : active ≠ []) (created : ℕ)
    (hle : activeBase base segs + active.length ≤ u64Max)
    (hd : DiffersAt (filenameFor (activeBase base segs + active.length)) d d') :
    Grown P d₀ d' base (segs ++ [active]) []
      (freshSegment (activeBase base segs + active.length) config.segmentSize created).data := by
  have hlt := List.length_pos_iff.mpr ha
  have hbase := le_activeBase base segs
  have hother : ∀ b ≤ u64Max, b < activeBase base segs + active.length →
      filenameFor b ≠ filenameFor (activeBase base segs + active.length) :=
    fun b hb hlt' => filenameFor_ne hb hle hlt'.ne
  have hnext : activeBase base (segs ++ [active]) = activeBase base segs + active.length :=
    Carries.activeBase_roll base segs active
  refine ⟨ChainFrom.append_iff.mpr ⟨?_, ⟨ha, f, ?_, h.active⟩, trivial⟩, ?_, fun n hn => ?_⟩
  · exact h.chain_congr (by omega) (fun b hb hlt' => hother b hb (by omega)) hd.others
  · exact (hd.others _ (hother _ (by omega) (by omega))).trans hf
  · rw [hnext]
    exact hP.fresh created (by omega)
  · rw [basesFrom_append_singleton] at hn
    rw [hd.others n (hn _ (by simp))]
    exact h.others n fun b hb => hn b (List.mem_append_left _ hb)

/-- What a turn of a commit keeps: `log` is the log the commit of `staged` began with, the last
segments of which are those from `base` on. -/
def Growing (config : WalConfig) (P : ℕ → List Bytes → Bytes → Prop) (d₀ : Disk) (base : ℕ)
    (sealed₀ : List (List Bytes)) (log : List (List Bytes) × List Bytes) (staged : List Bytes)
    (sealed : List (List Bytes)) (active rest : List Bytes) (f : File) (d : Disk) : Prop :=
  pack config.segmentSize log staged = pack config.segmentSize (sealed, active) rest ∧
    ∃ segs, sealed = sealed₀ ++ segs ∧ Grown P d₀ d base segs active f.data

variable (d₀ log staged) in
theorem growing_commitRule (hv : config.Valid) (hP : GrowsBy config base P)
    (hbase : activeBase oldest sealed₀ = base) :
    CommitRule config oldest
      (fun sealed active _ rest f d => Growing config P d₀ base sealed₀ log staged sealed active rest f d)
      fun _ _ _ _ => True where
  cut _ _ _ _ := trivial
  store {sealed active _ rest f d} hc hj _ := by
    obtain ⟨hpack, segs, rfl, hg⟩ := hj
    have hle := hc.activeBase_le
    rw [activeBase_append, hbase] at hle ⊢
    refine ⟨hpack.trans ?_, segs, rfl, hg.store hP hle rfl⟩
    exact (pack_fit _ active rest).symm
  begun _ _ _ _ _ _ := trivial
  rolled {sealed active _ rest f d d' created} hc hj hr ha hfit honly _ := by
    obtain ⟨hpack, segs, rfl, hg⟩ := hj
    have hle := hc.next_le_u64Max hr
    have hfile := hc.file
    rw [activeBase_append, hbase] at hle hfile honly ⊢
    obtain ⟨p, ps, rfl⟩ := List.exists_cons_of_ne_nil hr
    have hp := hv.fits hc.batch.head_le
    refine ⟨hpack.trans (pack_roll hp hfit).symm, segs ++ [active], by rw [List.append_assoc], ?_⟩
    have hroll := hg.roll hP hfile ha created hle honly.toDiffersAt
    exact ⟨hroll.chain, hroll.active, hroll.others⟩

variable (sealed₀) in
/-- A commit that meets no failure stores every record where `pack` puts it. -/
theorem commit_grows (hv : config.Valid) (hP : GrowsBy config base P)
    (hbase : activeBase oldest sealed₀ = base) (observed : List ℕ) (hs : staged ≠ [])
    (hc : Committing config d oldest (sealed₀ ++ segs) active f staged)
    (hg : Grown P d₀ d base segs active f.data) :
    ∃ segs' active' observed' f' d',
      commit ⟨handleOn config oldest (sealed₀ ++ segs) active observed staged, ⟨d, []⟩⟩ =
        (.ret (activeBase oldest (sealed₀ ++ segs) + active.length - 1 + staged.length),
          ⟨handleOn config oldest (sealed₀ ++ segs') active' observed' [], ⟨d', []⟩⟩) ∧
      pack config.segmentSize (sealed₀ ++ segs, active) staged = (sealed₀ ++ segs', active') ∧
      Carries config d' oldest (sealed₀ ++ segs') active' f' ∧
      Grown P d₀ d' base segs' active' f'.data := by
  have hrule := growing_commitRule d₀ staged (sealed₀ ++ segs, active) hv hP hbase
  have hends : Ends _ _ _
      (commit ⟨handleOn config oldest (sealed₀ ++ segs) active observed staged, ⟨d, []⟩⟩) :=
    commit_triple hrule hv hs [] hc ⟨rfl, segs, rfl, hg⟩
  obtain ⟨w, hrun⟩ : ∃ w, commit ⟨handleOn config oldest (sealed₀ ++ segs) active observed staged, ⟨d, []⟩⟩ =
      (.ret (activeBase oldest (sealed₀ ++ segs) + active.length - 1 + staged.length), w) ∧
      w.world.fates = [] := by
    obtain ⟨d₁, -, ⟨-, observed', h⟩ | ⟨-, -, ls, last, observed', g, d', h, -⟩⟩ :=
      commit_adopted observed hs hc.file hc.activeBase_pos (fun b hb => hc.free hb) hv hc.batch rfl rfl
    · exact ⟨_, h, rfl⟩
    · exact ⟨_, h, rfl⟩
  obtain ⟨hrun, hfates⟩ := hrun
  rw [hrun] at hends
  obtain ⟨-, sealed', active', observed', f', -, hwal, hc', hpack, segs', rfl, hg'⟩ := hends
  refine ⟨segs', active', observed', f', w.world.disk, ?_, hpack.trans rfl, hc', hg'⟩
  rw [hrun, ← hwal, ← hfates]

def SegmentBytes (ss base : ℕ) (ps : List Bytes) (data : Bytes) : Prop :=
  ∃ created, data = overwrite (encodeHeader base created ++ zeros (ss - headerSize)) headerSize
    (encodeRun base ps)

theorem SegmentBytes.fresh (ss base created : ℕ) :
    SegmentBytes ss base [] (freshSegment base ss created).data :=
  ⟨created, by rw [encodeRun_nil, overwrite_nil]; rfl⟩

theorem SegmentBytes.store {ss base : ℕ} {ps : List Bytes} {data : Bytes}
    (h : SegmentBytes ss base ps data) (qs : List Bytes) :
    SegmentBytes ss base (ps ++ qs)
      (overwrite data (headerSize + runSize ps) (encodeRun (base + ps.length) qs)) := by
  obtain ⟨created, rfl⟩ := h
  exact ⟨created, overwrite_encodeRun _ _ _ _ _⟩

theorem segmentBytes_growsBy (config : WalConfig) (base : ℕ) :
    GrowsBy config base (SegmentBytes config.segmentSize) where
  fresh created _ := .fresh _ _ created
  stores qs h := h.store qs

theorem SegmentBytes.written {ss mx b : ℕ} {ps : List Bytes} {data : Bytes} (h : SegmentBytes ss b ps data)
    (hh : HeaderOk data b) (hr : Run ss mx data headerSize b ps) (hss : headerSize ≤ ss) :
    Written ss mx data b ps := by
  obtain ⟨created, rfl⟩ := h
  have hle := hh.le_u64Max
  have hb : Batch mx b ps := ⟨hr.le_max, hr.lsn_le (hle.trans (Nat.le_succ _))⟩
  have hfits := hr.le_segment hss
  have hfresh : Written ss mx (freshSegment b ss created).data b [] := freshSegment_written hh.pos hle hss
  have hw := hfresh.write (show Batch mx (b + ([] : List Bytes).length) ps from hb) (by simpa using hfits)
    (runSize ps)
  rw [List.length_nil, runSize_nil, Nat.add_zero, Nat.add_zero, List.nil_append, Nat.zero_add,
    Nat.min_self, List.take_of_length_le (by rw [encodeRun_length])] at hw
  exact hw

omit [Crc32c] in
theorem Grown.congr {data : Bytes} (h : Grown P d₀ d base segs active data)
    (hd : ∀ n, d'.file n = d.file n) : Grown P d₀ d' base segs active data where
  chain := h.chain.imp fun _ _ _ _ ⟨hne, g, hg, hp⟩ => ⟨hne, g, (hd _).trans hg, hp⟩
  active := h.active
  others n hn := (hd n).trans (h.others n hn)

/-- A log whose segments hold what commits wrote, and nothing else. -/
theorem Carries.storedLog (h : Carries config d oldest sealed active f)
    (hg : Grown (SegmentBytes config.segmentSize) d₀ d oldest sealed active f.data)
    (hss : headerSize ≤ config.segmentSize) : StoredLog config False d oldest sealed active f := by
  refine ⟨h.bases, ?_, h.file, hg.active.written h.header h.run hss⟩
  refine (h.chain.and hg.chain).imp fun b ps _ _ ⟨⟨hne, g, hgf, hh, hr⟩, _, g', hgf', hb⟩ => ?_
  obtain rfl : g = g' := Option.some.inj (hgf.symm.trans hgf')
  exact ⟨hne, g, hgf, hb.written hh hr hss, False.elim⟩

end OpenWal
