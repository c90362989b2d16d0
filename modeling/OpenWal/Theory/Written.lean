import OpenWal.Theory.OpenedLog

namespace OpenWal
open ByteSeq Posix

/-- Records a log takes from number `e` on: none is too large, none is past `u64::MAX`. -/
structure Batch (mx e : ℕ) (ps : List Bytes) : Prop where
  small : ∀ p ∈ ps, p.length ≤ mx
  last : e + ps.length ≤ u64Max + 1

namespace Batch

variable {mx e : ℕ} {ps qs : List Bytes}

theorem append_iff : Batch mx e (ps ++ qs) ↔ Batch mx e ps ∧ Batch mx (e + ps.length) qs := by
  constructor
  · rintro ⟨hs, hl⟩
    rw [List.length_append] at hl
    exact ⟨⟨fun p hp => hs p (List.mem_append_left _ hp), by omega⟩,
      ⟨fun p hp => hs p (List.mem_append_right _ hp), by omega⟩⟩
  · rintro ⟨hp, hq⟩
    refine ⟨fun p h => ?_, ?_⟩
    · rcases List.mem_append.mp h with h | h
      · exact hp.small p h
      · exact hq.small p h
    · have := hq.last
      rw [List.length_append]
      omega

theorem tail {p : Bytes} (h : Batch mx e (p :: ps)) : Batch mx (e + 1) ps :=
  (append_iff.mp (List.singleton_append ▸ h : Batch mx e ([p] ++ ps))).2

theorem head_le {p : Bytes} (h : Batch mx e (p :: ps)) : p.length ≤ mx :=
  h.small p List.mem_cons_self

theorem lsn_le {p : Bytes} (h : Batch mx e (p :: ps)) : e ≤ u64Max := by
  have := h.last
  rw [List.length_cons] at this
  omega

theorem nil_of_le (h : e ≤ u64Max + 1) : Batch mx e [] := ⟨by simp, h⟩

end Batch

variable [Crc32c]

/-- The bytes of a batch say which records it holds. -/
theorem Batch.eq_of_encodeRun {mx e : ℕ} {ps qs : List Bytes} (hp : Batch mx e ps)
    (hq : Batch mx e qs) (hmx : mx < 2 ^ 32) (h : encodeRun e ps = encodeRun e qs) : ps = qs := by
  have hlen : runSize ps = runSize qs := by
    simpa using congrArg List.length h
  have hrun : ∀ {rs : List Bytes}, Batch mx e rs → encodeRun e ps = encodeRun e rs →
      Run (runSize ps) mx (encodeRun e ps) 0 e rs := by
    intro rs hb hrs
    have hsize : runSize ps = runSize rs := by simpa using congrArg List.length hrs
    refine run_of_slice_eq (by omega) hb.small hmx hb.last ?_
    rw [Nat.zero_add, ← hsize, slice, List.drop_zero, Nat.sub_zero,
      List.take_of_length_le (by rw [encodeRun_length]), hrs]
  rcases (hrun hp rfl).prefix_total (hrun hq h) with ⟨t, rfl⟩ | ⟨t, rfl⟩
  · rw [runSize_append] at hlen
    rw [runSize_eq_zero.mp (show runSize t = 0 by omega), List.append_nil]
  · rw [runSize_append] at hlen
    rw [runSize_eq_zero.mp (show runSize t = 0 by omega), List.append_nil]

/-- From `x` to the end of the segment the file holds the first `j` bytes of the
records `qs`, numbered from `e`, and then zeros. -/
structure LaidAt (ss : ℕ) (data : Bytes) (x e : ℕ) (qs : List Bytes) (j : ℕ) : Prop where
  fits : x + runSize qs ≤ ss
  le : j ≤ runSize qs
  bytes : slice data x (x + j) = (encodeRun e qs).take j
  rest : ZeroOn data (x + j) ss

variable {ss mx : ℕ} {data : Bytes} {x e j : ℕ} {p q : Bytes} {ps qs : List Bytes}

namespace LaidAt

theorem getElem?_of_lt (h : LaidAt ss data x e qs j) {i : ℕ} (hi : i < j) :
    data[x + i]? = (encodeRun e qs)[i]? := by
  have hb := congrArg (fun l : Bytes => l[i]?) h.bytes
  simpa only [slice_getElem?, Nat.add_sub_cancel_left, hi, if_true, List.getElem?_take] using hb

/-- Where all of the first record was stored. -/
theorem cons (h : LaidAt ss data x e (q :: qs) j) (hj : framedSize q.length ≤ j) :
    slice data x (x + framedSize q.length) = encodeFrame e q ∧
      LaidAt ss data (x + framedSize q.length) (e + 1) qs (j - framedSize q.length) := by
  have hfits := h.fits
  have hle := h.le
  rw [runSize_cons] at hfits hle
  have hlq : (encodeFrame e q).length = framedSize q.length := encodeFrame_length e q
  have hb := h.bytes
  rw [encodeRun_cons, ← slice_append_slice data (show x ≤ x + framedSize q.length by omega)
    (by omega), List.take_append, hlq, List.take_of_length_le (by omega)] at hb
  have hlen : (slice data x (x + j)).length = j := by
    rw [h.bytes, List.length_take, encodeRun_length, runSize_cons]
    omega
  rw [slice_length] at hlen
  obtain ⟨h1, h2⟩ := List.append_inj hb (by rw [slice_length, hlq]; omega)
  refine ⟨h1, by omega, by omega, ?_, ?_⟩
  · rw [← h2]
    congr 1
    omega
  · rw [show x + framedSize q.length + (j - framedSize q.length) = x + j by omega]
    exact h.rest

theorem frameAt_head (h : LaidAt ss data x e (q :: qs) j) (hb : Batch mx e (q :: qs))
    (hmx : mx < 2 ^ 32) (hj : framedSize q.length ≤ j) : FrameAt ss mx data x e q := by
  have := h.fits
  rw [runSize_cons] at this
  exact frameAt_of_slice_eq (by omega) hb.head_le hmx hb.lsn_le (h.cons hj).1

/-- Where the first record was cut short, a record that is there all the same is
an encoded one, and zeros follow it. -/
theorem frame_of_cut (h : LaidAt ss data x e (q :: qs) j) (hb : Batch mx e (q :: qs))
    (hmx : mx < 2 ^ 32) (hj : j < framedSize q.length) (hf : FrameAt ss mx data x e p) :
    slice data x (x + framedSize p.length) = encodeFrame e p ∧
      ZeroOn data (x + framedSize p.length) ss := by
  have hfits := h.fits
  rw [runSize_cons] at hfits
  have hlp := le_framedSize p.length
  have hsp := hf.le_segment
  have hv := hf.valid
  have hq := encodeFrame_validFrame (lt_two_pow_of_le_u64Max hb.lsn_le) (hb.head_le.trans_lt hmx)
  have hbytes : ∀ i < j, data[x + i]? = (encodeFrame e q)[i]? := by
    intro i hi
    rw [h.getElem?_of_lt hi, encodeRun_cons, List.getElem?_append_left (by rw [encodeFrame_length]; omega)]
  have hfile : ∀ i < framedSize p.length,
      (slice data x (x + framedSize p.length))[i]? = data[x + i]? := by
    intro i hi
    rw [slice_getElem?, if_pos (by omega)]
  -- the type byte is not zero, so it was stored, and the length field before it
  have h17 : 16 < j := by
    by_contra hn
    have hty := hv.recType
    rw [List.getD_eq_getElem?_getD, hfile _ (by simp only [recTypeOff]; omega),
      h.rest _ (by simp only [recTypeOff]; omega) (by simp only [recTypeOff]; omega)] at hty
    exact absurd hty (by decide)
  have hlenf : slice (slice data x (x + framedSize p.length)) lenOff (lenOff + 4) =
      slice (encodeFrame e q) lenOff (lenOff + 4) := by
    apply AgreeOn.slice_eq
    intro i hi hi'
    simp only [lenOff] at hi hi'
    rw [hfile i (by omega), hbytes i (by omega)]
  have hpq : p.length = q.length := by rw [← hv.lengthField, hlenf, hq.lengthField]
  -- what was stored of the reserved bytes and of the padding is zero, and so is the rest
  obtain ⟨hz, hzp⟩ := encodeFrame_zeroOn e q
  have hzero : ∀ i < framedSize p.length, (encodeFrame e q)[i]? = some 0 →
      (slice data x (x + framedSize p.length))[i]? = some 0 := by
    intro i hi hi0
    rw [hfile i hi]
    by_cases hij : i < j
    · rw [hbytes i hij, hi0]
    · exact h.rest _ (by omega) (by omega)
  refine ⟨hv.eq_encodeFrame (fun i hi hi' => hzero i (by omega) (hz i hi hi')) ?_,
    h.rest.mono (by rw [hpq]; omega) le_rfl⟩
  intro i hi hi'
  rw [hv.size] at hi'
  exact hzero i hi' (hzp i (by omega) (by rw [← hpq]; omega))

/-- A record that is found is an encoded one, and the same holds of what follows it. -/
theorem frame (h : LaidAt ss data x e qs j) (hb : Batch mx e qs) (hmx : mx < 2 ^ 32)
    (hf : FrameAt ss mx data x e p) :
    slice data x (x + framedSize p.length) = encodeFrame e p ∧ ∃ qs' j',
      LaidAt ss data (x + framedSize p.length) (e + 1) qs' j' ∧ Batch mx (e + 1) qs' := by
  have hlsn := hf.lsn_le
  have hle := hf.le_segment
  cases qs with
  | nil =>
    have hz : ZeroOn data x ss := h.rest.mono (by have := h.le; simp at this; omega) le_rfl
    have hroom := le_framedSize p.length
    exact absurd (Or.inr (hz.mono le_rfl (by omega))) hf.not_cleanAt
  | cons q qs =>
    by_cases hj : framedSize q.length ≤ j
    · obtain ⟨-, rfl⟩ := hf.unique (h.frameAt_head hb hmx hj)
      exact ⟨(h.cons hj).1, qs, _, (h.cons hj).2, hb.tail⟩
    · obtain ⟨hs, hz⟩ := h.frame_of_cut hb hmx (Nat.not_le.mp hj) hf
      exact ⟨hs, [], 0, ⟨by simpa using hle, le_rfl, by simp [slice_self], hz⟩,
        Batch.nil_of_le (by omega)⟩

theorem run (h : LaidAt ss data x e qs j) (hb : Batch mx e qs) (hmx : mx < 2 ^ 32)
    (hr : Run ss mx data x e ps) :
    slice data x (x + runSize ps) = encodeRun e ps ∧ ∃ qs' j',
      LaidAt ss data (x + runSize ps) (e + ps.length) qs' j' ∧ Batch mx (e + ps.length) qs' := by
  induction ps generalizing x e qs j with
  | nil => exact ⟨by simp [slice_self], qs, j, h, hb⟩
  | cons p ps ih =>
    obtain ⟨hs, qs₁, j₁, h₁, hb₁⟩ := h.frame hb hmx hr.1
    obtain ⟨hs', qs', j', h', hb'⟩ := ih h₁ hb₁ hr.2
    rw [Nat.add_assoc] at hs' h'
    rw [Nat.add_right_comm, Nat.add_assoc e] at h' hb'
    refine ⟨?_, qs', j', h', hb'⟩
    rw [encodeRun_cons, ← hs, ← hs', runSize_cons, slice_append_slice data (by omega) (by omega)]

/-- Where the records end, nothing of the batch was stored but zeros. -/
theorem zeroOn_of_cleanAt (h : LaidAt ss data x e qs j) (hb : Batch mx e qs) (hmx : mx < 2 ^ 32)
    (he : 1 ≤ e) (hc : CleanAt ss data x) : ZeroOn data x ss := by
  cases qs with
  | nil => exact h.rest.mono (by have := h.le; simp at this; omega) le_rfl
  | cons q qs =>
    have hfits := h.fits
    have hlq := le_framedSize q.length
    rw [runSize_cons] at hfits
    rcases hc with hc | hc
    · omega
    have hj : j < 20 := by
      by_contra hj
      have hq := encodeFrame_validFrame (lt_two_pow_of_le_u64Max hb.lsn_le) (hb.head_le.trans_lt hmx)
      have hlsn : slice (encodeFrame e q) lsnOff (lsnOff + 8) = zeros 8 := by
        have hz : ZeroOn (encodeFrame e q) 8 16 := by
          intro i hi hi'
          have hlt : i < (encodeFrame e q).length := by
            rw [encodeFrame_length]
            omega
          have hrun := h.getElem?_of_lt (show i < j by omega)
          rw [encodeRun_cons, List.getElem?_append_left hlt] at hrun
          rw [← hrun]
          exact hc _ (by omega) (by omega)
        exact hz.slice_eq
      have := hq.lsnField
      rw [hlsn, leNat_zeros] at this
      omega
    intro i hi hi'
    by_cases hlt : i < x + 20
    · exact hc i hi hlt
    · exact h.rest i (by omega) hi'

end LaidAt

structure Laid (ss mx : ℕ) (data : Bytes) (base : ℕ) (qs : List Bytes) (j : ℕ) : Prop where
  header : HeaderOk data base
  length : data.length = ss
  batch : Batch mx base qs
  laid : LaidAt ss data headerSize base qs j

def Written (ss mx : ℕ) (data : Bytes) (base : ℕ) (ps : List Bytes) : Prop :=
  Laid ss mx data base ps (runSize ps)

variable {base : ℕ}

namespace Written

theorem frames (h : Written ss mx data base ps) :
    slice data headerSize (headerSize + runSize ps) = encodeRun base ps := by
  rw [h.laid.bytes, List.take_of_length_le (by rw [encodeRun_length])]

theorem rest (h : Written ss mx data base ps) : ZeroOn data (headerSize + runSize ps) ss :=
  h.laid.rest

theorem fits (h : Written ss mx data base ps) : headerSize + runSize ps ≤ ss := h.laid.fits

theorem cleanAt (h : Written ss mx data base ps) : CleanAt ss data (headerSize + runSize ps) :=
  cleanAt_of_zeroOn h.rest le_rfl

theorem holds (h : Written ss mx data base ps) (hmx : mx < 2 ^ 32) :
    SegmentHolds ss mx data base ps :=
  ⟨h.header, run_of_slice_eq h.fits h.batch.small hmx h.batch.last h.frames, h.cleanAt.stops⟩

theorem mk' (hh : HeaderOk data base) (hl : data.length = ss) (hb : Batch mx base ps)
    (hfit : headerSize + runSize ps ≤ ss)
    (hs : slice data headerSize (headerSize + runSize ps) = encodeRun base ps)
    (hz : ZeroOn data (headerSize + runSize ps) ss) : Written ss mx data base ps :=
  ⟨hh, hl, hb, hfit, le_rfl, by rw [hs, List.take_of_length_le (by rw [encodeRun_length])], hz⟩

/-- After a write of the first `k` bytes of the next records. -/
theorem write (h : Written ss mx data base ps) (hb : Batch mx (base + ps.length) qs)
    (hfit : headerSize + runSize ps + runSize qs ≤ ss) (k : ℕ) :
    Laid ss mx (overwrite data (headerSize + runSize ps) ((encodeRun (base + ps.length) qs).take k))
      base (ps ++ qs) (runSize ps + min k (runSize qs)) := by
  set b := (encodeRun (base + ps.length) qs).take k with hb'
  have hbl : b.length = min k (runSize qs) := by rw [hb', List.length_take, encodeRun_length]
  have hlen := h.length
  have hx : headerSize + runSize ps ≤ data.length := by
    have := h.fits
    omega
  have hbefore := overwrite_agreeOn_before b hx 0
  refine ⟨h.header.congr (hbefore.symm.mono le_rfl (by omega)), ?_,
    Batch.append_iff.mpr ⟨h.batch, hb⟩, ?_, ?_, ?_, ?_⟩
  · rw [overwrite_length b hx]
    omega
  · rw [runSize_append]
    omega
  · rw [runSize_append]
    omega
  -- the frames in the file are the old ones and, behind them, what was written
  · have h1 : slice (overwrite data (headerSize + runSize ps) b) headerSize
        (headerSize + runSize ps) = encodeRun base ps := by
      rw [← h.frames]
      exact (hbefore.mono (Nat.zero_le _) le_rfl).slice_eq
    have h2 := overwrite_slice_self b hx
    rw [hbl] at h2
    rw [← Nat.add_assoc, ← slice_append_slice _ (show headerSize ≤ headerSize + runSize ps by omega)
      (by omega), h1, h2, encodeRun_append, List.take_append, encodeRun_length,
      List.take_of_length_le (by rw [encodeRun_length]; omega), Nat.add_sub_cancel_left]
    congr 1
    rw [hb']
    rcases Nat.le_total k (runSize qs) with hk | hk
    · rw [Nat.min_eq_left hk]
    · rw [Nat.min_eq_right hk, List.take_of_length_le (by rwa [encodeRun_length]),
        List.take_of_length_le (by rw [encodeRun_length])]
  · have hafter := overwrite_agreeOn_after b hx ss
    rw [hbl, Nat.add_assoc] at hafter
    exact (h.rest.mono (by omega) le_rfl).congr hafter.symm

end Written

/-- After recovery, a segment holds what the writer would have written for the
records accepted. -/
theorem Laid.written {f f' : File} {ts : TailState} (h : Laid ss mx f.data base qs j)
    (hmx : mx < 2 ^ 32) (hs : SegmentHolds ss mx f.data base ps)
    (ht : TailOk ss mx f base (headerSize + runSize ps) (base + ps.length) ts f') :
    Written ss mx f'.data base ps := by
  obtain ⟨hframes, qs', j', hlaid, hb⟩ := h.laid.run h.batch hmx hs.run
  have hfit := hlaid.fits
  have hbatch : Batch mx base ps :=
    ⟨hs.run.le_max, hs.run.lsn_le (hs.header.le_u64Max.trans (Nat.le_succ _))⟩
  have hbpos := hs.header.pos
  cases ht with
  | clean hc =>
    exact .mk' hs.header h.length hbatch (by omega) hframes
      (hlaid.zeroOn_of_cleanAt hb hmx (by omega) hc)
  | torn ht =>
    have hy : headerSize + runSize ps ≤ f.data.length := by
      have := h.length
      omega
    obtain ⟨ha, hz⟩ := zeroed_data ss hy
    refine .mk' (hs.header.congr (ha.symm.mono le_rfl (by omega))) ?_ hbatch (by omega) ?_ hz
    · rw [zeroed, File.sync_data, File.write_data, overwrite_length _ hy, zeros_length, h.length]
      omega
    · rw [← hframes]
      exact (ha.mono (Nat.zero_le _) le_rfl).slice_eq

theorem freshSegment_written {created : ℕ} (h1 : 1 ≤ base) (hb : base ≤ u64Max)
    (hss : headerSize ≤ ss) : Written ss mx (freshSegment base ss created).data base [] := by
  have hl := encodeHeader_length base created
  refine .mk' (headerOk_encodeHeader _ h1 hb) ?_ (Batch.nil_of_le (by omega)) (by simpa using hss)
    (by simp [slice_self]) ?_
  · rw [freshSegment, List.length_append, hl, zeros_length]
    omega
  · intro i hi hlt
    rw [runSize_nil, Nat.add_zero] at hi
    rw [freshSegment, List.getElem?_append_right (by omega), zeros_getElem?, if_pos (by omega)]

/-- A sealed segment with all of its records stored, and, where `safe` holds, synced. -/
def StoredAt (ss mx : ℕ) (safe : Prop) (d : Disk) (base : ℕ) (ps : List Bytes) : Prop :=
  ps ≠ [] ∧ ∃ f, d.file (filenameFor base) = some f ∧ Written ss mx f.data base ps ∧
    (safe → f.SyncedOn 0 ss)

abbrev StoredFrom (ss mx : ℕ) (safe : Prop) (d : Disk) : ℕ → List (List Bytes) → Prop :=
  ChainFrom (StoredAt ss mx safe d)

variable {safe : Prop} {d d' : Disk} {sealed : List (List Bytes)}

theorem StoredFrom.sealedFrom (h : StoredFrom ss mx safe d base sealed) (hmx : mx < 2 ^ 32) :
    SealedFrom ss mx d base sealed := by
  apply ChainFrom.imp h
  rintro b ps - - ⟨hne, f, hf, hw, -⟩
  exact ⟨hne, f, hf, hw.holds hmx, hw.cleanAt⟩

theorem StoredFrom.congr (h : StoredFrom ss mx safe d base sealed)
    (hd : ∀ b, base ≤ b → b < activeBase base sealed → b ≤ u64Max →
      d'.file (filenameFor b) = d.file (filenameFor b)) : StoredFrom ss mx safe d' base sealed := by
  apply ChainFrom.imp h
  rintro b ps hb hle ⟨hne, f, hf, hw, hs⟩
  have := List.length_pos_iff.mpr hne
  exact ⟨hne, f, by rw [hd b hb (by omega) hw.header.le_u64Max, hf], hw, hs⟩

/-- The directory holds exactly what the writer stored: sealed segments with the
payloads `sealed`, then the active file `f` with those of `active`. -/
structure StoredLog (config : WalConfig) (safe : Prop) (d : Disk) (oldest : ℕ)
    (sealed : List (List Bytes)) (active : List Bytes) (f : File) : Prop where
  bases : basesOf d = basesFrom oldest sealed
  chain : StoredFrom config.segmentSize config.maxRecordSize safe d oldest sealed
  file : d.file (filenameFor (activeBase oldest sealed)) = some f
  written : Written config.segmentSize config.maxRecordSize f.data (activeBase oldest sealed) active

structure Extended (config : WalConfig) (safe : Prop) (d : Disk) (base : ℕ)
    (sealed : List (List Bytes)) (active : List Bytes) (f : File) (d' : Disk) : Prop where
  chain : StoredFrom config.segmentSize config.maxRecordSize safe d' base sealed
  file : d'.file (filenameFor (activeBase base sealed)) = some f
  written : Written config.segmentSize config.maxRecordSize f.data (activeBase base sealed) active
  others : ∀ n, (∀ b ∈ basesFrom base sealed, n ≠ filenameFor b) → d'.file n = d.file n
  locked : d'.locked = d.locked
  unlinked : d'.unlinked = d.unlinked

variable {config : WalConfig} {oldest : ℕ} {active : List Bytes} {f : File}

theorem StoredLog.logOn (h : StoredLog config safe d oldest sealed active f) :
    LogOn config.segmentSize config.maxRecordSize d oldest sealed active f :=
  ⟨h.bases, h.chain.sealedFrom config.maxRecordSize_lt, h.file,
    h.written.holds config.maxRecordSize_lt⟩

theorem StoredLog.next_le (h : StoredLog config safe d oldest sealed active f) :
    activeBase oldest sealed + active.length ≤ u64Max + 1 := h.written.batch.last

theorem StoredLog.activeBase_pos (h : StoredLog config safe d oldest sealed active f) :
    1 ≤ activeBase oldest sealed := h.written.header.pos

theorem StoredLog.acquired (h : StoredLog config safe d oldest sealed active f) :
    StoredLog config safe (acquired d) oldest sealed active f :=
  ⟨h.bases, h.chain.congr fun _ _ _ _ => rfl, h.file, h.written⟩

/-- Replacing the active file by one the writer could have written. -/
theorem StoredLog.setActive {f' : File} {active' : List Bytes}
    (h : StoredLog config safe d oldest sealed active f)
    (hset : SetTo d (filenameFor (activeBase oldest sealed)) f' d')
    (hw : Written config.segmentSize config.maxRecordSize f'.data (activeBase oldest sealed) active') :
    StoredLog config safe d' oldest sealed active' f' := by
  refine ⟨(h.logOn.setActive hset (hw.holds config.maxRecordSize_lt)).bases, ?_, hset.self, hw⟩
  exact h.chain.congr fun b _ hlt hb =>
    hset.others _ (filenameFor_ne hb h.written.header.le_u64Max (by omega))

theorem storedLog_fresh {seed created : ℕ} (h1 : 1 ≤ seed) (hseed : seed ≤ u64Max)
    (hv : config.Valid) (hnone : basesOf d = [])
    (hset : SetTo d (filenameFor seed) (freshSegment seed config.segmentSize created) d') :
    StoredLog config safe d' seed [] [] (freshSegment seed config.segmentSize created) :=
  ⟨(logOn_fresh config.maxRecordSize h1 hseed hv.room hnone hset).bases, trivial, hset.self,
    freshSegment_written h1 hseed ((Nat.le_add_right _ _).trans hv.room)⟩

theorem StoredFrom.ne_nil (h : StoredFrom ss mx safe d base sealed) : ∀ ps ∈ sealed, ps ≠ [] :=
  ChainFrom.forall_mem h fun _ _ hs => hs.1

/-- A log is extended from its active segment on. -/
theorem StoredLog.extend {sealed' : List (List Bytes)} {active' : List Bytes} {f' : File}
    (h : StoredLog config safe d oldest sealed active f)
    (hx : Extended config safe d (activeBase oldest sealed) sealed' active' f' d') :
    StoredLog config safe d' oldest (sealed ++ sealed') active' f' := by
  have hbase : activeBase oldest (sealed ++ sealed') = activeBase (activeBase oldest sealed) sealed' :=
    activeBase_append _ _ _
  have hle : ∀ b ∈ basesFrom (activeBase oldest sealed) sealed', activeBase oldest sealed ≤ b ∧
      b ≤ u64Max := fun b hb =>
    ⟨(mem_basesFrom_le hb).1, (mem_basesFrom_le hb).2.trans hx.written.header.le_u64Max⟩
  have hold : ∀ b ≤ u64Max, b ∉ basesFrom (activeBase oldest sealed) sealed' →
      d'.file (filenameFor b) = d.file (filenameFor b) := fun b hb hn =>
    hx.others _ fun c hc => filenameFor_ne hb (hle c hc).2 fun hbc => hn (hbc ▸ hc)
  have hchain : StoredFrom config.segmentSize config.maxRecordSize safe d' oldest (sealed ++ sealed') := by
    refine ChainFrom.append_iff.mpr ⟨h.chain.congr fun b _ hlt hb => hold b hb fun hm => ?_, hx.chain⟩
    have := (hle b hm).1
    omega
  refine ⟨basesOf_eq (basesFrom_sorted _ hchain.ne_nil) fun b => ?_, hchain, by rw [hbase]; exact hx.file,
    by rw [hbase]; exact hx.written⟩
  rw [mem_basesFrom_append]
  by_cases hb : b ∈ basesFrom (activeBase oldest sealed) sealed'
  · simp only [hb, or_true, true_iff]
    refine ⟨(hle b hb).2, hx.chain.of_mem_basesFrom (R := fun b => ∃ f, d'.file (filenameFor b) = some f)
      (fun c ps hs => ?_) ⟨f', hx.file⟩ b hb⟩
    obtain ⟨-, g, hg, -⟩ := hs
    exact ⟨g, hg⟩
  · rw [← h.bases, mem_basesOf]
    simp only [hb, or_false]
    exact and_congr_right fun hle => by rw [hold b hle hb]

theorem Extended.trans {d'' : Disk} {sealed' : List (List Bytes)} {active' : List Bytes} {f' : File}
    (h : Extended config safe d base sealed active f d')
    (h' : Extended config safe d' (activeBase base sealed) sealed' active' f' d'') :
    Extended config safe d base (sealed ++ sealed') active' f' d'' := by
  refine ⟨ChainFrom.append_iff.mpr ⟨h.chain.congr fun b _ hlt hb => ?_, h'.chain⟩, ?_, ?_, ?_,
    h'.locked.trans h.locked, h'.unlinked.trans h.unlinked⟩
  · refine h'.others _ fun c hc => ?_
    have hle := mem_basesFrom_le hc
    exact filenameFor_ne hb (hle.2.trans h'.written.header.le_u64Max) (by omega)
  · rw [activeBase_append]
    exact h'.file
  · rw [activeBase_append]
    exact h'.written
  · intro n hn
    rw [h'.others n fun b hb => hn b (mem_basesFrom_append.mpr (Or.inr hb)),
      h.others n fun b hb => hn b (mem_basesFrom_append.mpr (Or.inl hb))]

theorem Extended.of_setTo {d₁ : Disk} {g : File} (hset : SetTo d (filenameFor base) g d₁)
    (h : Extended config safe d₁ base sealed active f d') :
    Extended config safe d base sealed active f d' := by
  refine ⟨h.chain, h.file, h.written, fun n hn => ?_, h.locked.trans hset.locked,
    h.unlinked.trans hset.unlinked⟩
  obtain ⟨rest, hr⟩ := basesFrom_eq_cons base sealed
  rw [h.others n hn, hset.others n (hn base (by rw [hr]; exact List.mem_cons_self))]

/-- A sealed segment in front of those that extend the log. -/
theorem Extended.cons {d₁ : Disk} (hs : StoredAt config.segmentSize config.maxRecordSize safe d₁ base ps)
    (h : Extended config safe d₁ (base + ps.length) sealed active f d')
    (hrest : ∀ n, n ≠ filenameFor base → n ≠ filenameFor (base + ps.length) →
      d₁.file n = d.file n)
    (hl : d₁.locked = d.locked) (hu : d₁.unlinked = d.unlinked) :
    Extended config safe d base (ps :: sealed) active f d' := by
  obtain ⟨hne, g, hg, hw, hsafe⟩ := hs
  have hpos := List.length_pos_iff.mpr hne
  have hbase : d'.file (filenameFor base) = d₁.file (filenameFor base) := by
    apply h.others
    intro b hb
    have hle := mem_basesFrom_le hb
    exact filenameFor_ne hw.header.le_u64Max (hle.2.trans h.written.header.le_u64Max) (by omega)
  refine ⟨⟨⟨hne, g, hbase.trans hg, hw, hsafe⟩, h.chain⟩, ?_, ?_, ?_, h.locked.trans hl,
    h.unlinked.trans hu⟩
  · rw [activeBase_cons]
    exact h.file
  · rw [activeBase_cons]
    exact h.written
  · intro n hn
    obtain ⟨rest, hr⟩ := basesFrom_eq_cons (base + ps.length) sealed
    rw [h.others n fun b hb => hn b (List.mem_cons_of_mem _ hb)]
    refine hrest n (hn base List.mem_cons_self) (hn _ ?_)
    rw [basesFrom, hr]
    simp

end OpenWal
