import OpenWal.Model.Differential
import OpenWal.Theory.Interrupted

namespace OpenWal
open ByteSeq Posix CrashProg Reference

def Reference.RScan.ofOutcome : ScanOutcome → RScan
  | .record lsn _ framedLen => .record lsn framedLen
  | .cleanEnd => .cleanEnd
  | .invalid => .invalid

theorem refPadding_eq (n : ℕ) : refPadding n = paddingForU64 n := by
  unfold refPadding paddingForU64 Reference.recHeader recordHeaderSize
  omega

theorem getRange_of_le {bytes : Bytes} {i j : ℕ} (hij : i ≤ j) (hj : j ≤ bytes.length) :
    getRange bytes i j = some (slice bytes i j) :=
  if_pos ⟨hij, hj⟩

theorem getRange_of_lt {bytes : Bytes} {i j : ℕ} (h : bytes.length < j) : getRange bytes i j = none :=
  if_neg fun hn => absurd hn.2 (Nat.not_le.mpr h)

section

variable [Crc32c] {bytes : Bytes} {x ss mx : ℕ}

theorem refReadRecordAt_eq_scanAt (bytes : Bytes) (x ss mx : ℕ) :
    refReadRecordAt bytes x ss mx = .ofOutcome (.ofDecoded (scanAt ss mx bytes x)) := by
  have h20 : Reference.recHeader = 20 := rfl
  have h20' : recordHeaderSize = 20 := rfl
  rw [refReadRecordAt, scanAt]
  by_cases hroom : ss - x < recordHeaderSize
  · rw [if_pos hroom, if_pos (by omega)]
    rfl
  rw [if_neg hroom, if_neg (by omega)]
  have hvis := visible_length ss bytes x
  obtain ⟨v, hv⟩ : ∃ v, v = visible ss bytes x := ⟨_, rfl⟩
  rw [← hv] at hvis ⊢
  by_cases hshort : bytes.length < x + 20
  · -- the header is cut off
    rw [h20, getRange_of_lt hshort, decode, if_pos (by omega)]
    rfl
  have hv20 : slice bytes x (x + 20) = v.take 20 := hv ▸ (visible_take (by omega)).symm
  rw [h20, getRange_of_le (by omega) (by omega), decode, if_neg (by omega), h20', hv20]
  simp only
  by_cases hz : (v.take 20).all (· == 0) = true
  · have htype : v.getD recTypeOff 0 = recTypeSentinel := by
      have h16 : v[16]? = some v[16] := List.getElem?_eq_getElem (by omega)
      have hmem : v[16] ∈ v.take 20 :=
        List.mem_of_getElem? (i := 16) (by rw [List.getElem?_take_of_lt (by omega), h16])
      have hzero : v[16] = 0 := by simpa using List.all_eq_true.mp hz _ hmem
      rw [List.getD_eq_getElem?_getD, recTypeOff, h16, hzero]
      rfl
    rw [if_pos hz, if_pos ⟨htype, hz⟩]
    rfl
  have hns : ¬ (v.getD recTypeOff 0 = recTypeSentinel ∧ (v.take 20).all (· == 0) = true) :=
    fun h => hz h.2
  rw [if_neg hz, if_neg hns, slice_take (show Reference.lenOff + 4 ≤ 20 by decide)]
  have hlen : leNat (slice v Reference.lenOff (Reference.lenOff + 4)) =
      leNat (slice v lenOff (lenOff + 4)) := rfl
  rw [hlen]
  obtain ⟨n, hn⟩ : ∃ n, n = leNat (slice v lenOff (lenOff + 4)) := ⟨_, rfl⟩
  rw [← hn]
  by_cases hmx : n > mx
  · rw [if_pos hmx, if_pos hmx]
    rfl
  rw [if_neg hmx, if_neg hmx, refPadding_eq]
  obtain ⟨k, hk⟩ : ∃ k, k = 20 + n + paddingForU64 n := ⟨_, rfl⟩
  rw [← hk]
  -- what is cut off by the segment, or by the end of the file, is not in view
  by_cases hroomk : k > ss - x
  · rw [if_pos hroomk, if_pos (by omega)]
    rfl
  rw [if_neg hroomk]
  by_cases hcut : bytes.length < x + k
  · rw [getRange_of_lt hcut, if_pos (by omega)]
    rfl
  have hvk : slice bytes x (x + k) = v.take k := hv ▸ (visible_take (by omega)).symm
  rw [getRange_of_le (by omega) (by omega), if_neg (by omega), hvk]
  -- the whole record is in view, and each field of it is read from the same bytes
  have hbody : slice (v.take k) Reference.lenOff k = slice v lenOff k := slice_take le_rfl
  have hstored : slice (v.take k) crcOff (crcOff + 4) = slice v 0 4 :=
    slice_take (show crcOff + 4 ≤ k by unfold crcOff; omega)
  have hlsn : slice (v.take k) Reference.lsnOff (Reference.lsnOff + 8) = slice v lsnOff (lsnOff + 8) :=
    slice_take (show Reference.lsnOff + 8 ≤ k by unfold Reference.lsnOff; omega)
  have htype : (v.take k).getD Reference.recTypeOff 0 = v.getD recTypeOff 0 :=
    getD_take (show 16 < k by omega)
  simp only [hbody, hstored, hlsn, htype]
  by_cases hcrc : (crc32c (slice v lenOff k)).toNat = leNat (slice v 0 4)
  · rw [if_neg (not_not.mpr hcrc), if_neg (not_not.mpr hcrc)]
    by_cases hfull : v.getD recTypeOff 0 = recTypeFull
    · have hfull' : v.getD recTypeOff 0 = Reference.recTypeFull := hfull
      rw [if_neg (not_not.mpr hfull), if_neg (not_not.mpr hfull')]
      rfl
    · have hfull' : v.getD recTypeOff 0 ≠ Reference.recTypeFull := hfull
      rw [if_pos hfull, if_pos hfull']
      rfl
  · rw [if_pos hcrc, if_pos hcrc]
    rfl

/-- Both parsers see the same at every offset. -/
theorem refReadRecordAt_eq (bytes : Bytes) (x ss mx : ℕ) (buf : Bytes) :
    refReadRecordAt bytes x ss mx = .ofOutcome (readRecordAt bytes x ss mx buf).1 := by
  rw [refReadRecordAt_eq_scanAt, (readRecordAt_spec bytes x ss mx buf).1]

theorem refForwardScanLoop_eq (ctx : RecoverCtx) (bytes : Bytes) (e p : ℕ) (buf : Bytes) {stop : ℕ}
    (hstop : stop + 8 ≤ u64Max) :
    refForwardScanLoop bytes e ctx.segmentSize ctx.maxRecordSize stop p =
      some (forwardScanLoop ctx bytes e stop p buf).1 := by
  fun_induction forwardScanLoop ctx bytes e stop p buf with
  | case1 p buf hp lsn n k buf' hr hle =>
    have hread := refReadRecordAt_eq bytes p ctx.segmentSize ctx.maxRecordSize buf
    rw [hr] at hread
    rw [refForwardScanLoop, if_pos hp, hread]
    exact if_pos hle
  | case2 p buf hp lsn n k buf' hr hlt ih =>
    have hread := refReadRecordAt_eq bytes p ctx.segmentSize ctx.maxRecordSize buf
    rw [hr] at hread
    rw [refForwardScanLoop, if_pos hp, hread, ← ih]
    exact (if_neg hlt).trans (if_pos (by omega))
  | case3 p buf hp out buf' hnr hr ih =>
    have hread := refReadRecordAt_eq bytes p ctx.segmentSize ctx.maxRecordSize buf
    rw [hr] at hread
    rw [refForwardScanLoop, if_pos hp, hread, ← ih]
    cases out with
    | record lsn n k => exact absurd rfl (hnr lsn n k)
    | cleanEnd => exact if_pos (by omega)
    | invalid => exact if_pos (by omega)
  | case4 p buf hp => rw [refForwardScanLoop, if_neg hp]

theorem refForwardScanFindsValid_eq (ctx : RecoverCtx) (bytes : Bytes) (e : ℕ) (buf : Bytes)
    (hx : x + ctx.maxRecordSize + 44 ≤ u64Max) :
    refForwardScanFindsValid bytes x e ctx.segmentSize ctx.maxRecordSize =
      some (forwardScanFindsValid ctx bytes x e buf).1 := by
  have hbound : refScanBound ctx.maxRecordSize = scanBound ctx.maxRecordSize := rfl
  have hlt := u64Max_lt
  have hstop : saturatingAdd (saturatingAdd x 8) (scanBound ctx.maxRecordSize) + 8 ≤ u64Max := by
    unfold scanBound
    rw [saturatingAdd_of_lt (a := x) (by omega), saturatingAdd_of_lt (by omega)]
    omega
  rw [refForwardScanFindsValid, forwardScanFindsValid, hbound]
  exact refForwardScanLoop_eq ctx bytes e _ buf hstop

/-- How the recovery of a segment comes to a class: the program that is left to run. -/
inductive ComesTo (ctx : RecoverCtx) (name : FileName) :
    SegClass → Prog World WalError SegmentRecovery → Prop
  | clean (x last : ℕ) : ComesTo ctx name (.clean last) (pure ⟨last, x, .clean⟩)
  | truncated (x last : ℕ) (hx : x < ctx.segmentSize) : ComesTo ctx name (.truncated x last) (do
      zeroToEof name x ctx.segmentSize
      return ⟨last, x, .truncatedAt ctx.baseLsn x⟩)
  | tornMidLog (x : ℕ) : ComesTo ctx name (.tornMidLog x) (Prog.raise (.tornMidLog ctx.baseLsn x))
  | corruption (x : ℕ) (detail : String) :
    ComesTo ctx name (.corruption x) (Prog.raise (.corruption ctx.baseLsn x detail))

theorem refClassifyBoundary_comesTo (ctx : RecoverCtx) (name : FileName) (bytes : Bytes)
    (e last : ℕ) (buf : Bytes) (hx : x + ctx.maxRecordSize + 44 ≤ u64Max) (hss : x < ctx.segmentSize) :
    ∃ c, refClassifyBoundary bytes ctx.isActive ctx.segmentSize ctx.maxRecordSize x e last = some c ∧
      ComesTo ctx name c (classify ctx name bytes x e last buf) := by
  rw [refClassifyBoundary, classify, refForwardScanFindsValid_eq ctx bytes e buf hx]
  by_cases ha : ctx.isActive = true
  · rw [if_neg (not_not.mpr ha), if_neg (not_not.mpr ha)]
    by_cases hf : (forwardScanFindsValid ctx bytes x e buf).1 = true
    · rw [if_pos hf, hf]
      exact ⟨_, rfl, .tornMidLog x⟩
    · rw [if_neg hf, Bool.eq_false_of_not_eq_true hf]
      exact ⟨_, rfl, .truncated x last hss⟩
  · rw [if_pos ha, if_pos ha]
    exact ⟨_, rfl, .corruption x _⟩

omit [Crc32c] in
/-- Past a `u64::MAX` record both ask whether zeros were cut short. -/
theorem refAtCapacity_comesTo (ctx : RecoverCtx) (name : FileName) (bytes : Bytes) (last : ℕ)
    (hx : x + 20 ≤ u64Max) (hss : x < ctx.segmentSize) :
    ComesTo ctx name (refAtCapacity bytes ctx.isActive x last .invalid)
      (atCapacityInvalid ctx name bytes x last) := by
  have hlt := u64Max_lt
  have h20 : Reference.recHeader = 20 := rfl
  have h20' : recordHeaderSize = 20 := rfl
  have hrest : (getRange bytes x bytes.length).getD [] = slice bytes x bytes.length := by
    by_cases hle : x ≤ bytes.length
    · rw [getRange_of_le hle le_rfl]
      rfl
    · have hempty : (slice bytes x bytes.length).length = 0 := by
        rw [slice_length]
        omega
      rw [List.length_eq_zero_iff.mp hempty, getRange, if_neg fun h => hle h.1]
      rfl
  have hlen := slice_length_of_le (i := x) (le_refl bytes.length)
  rw [refAtCapacity, hrest, atCapacityInvalid, h20, h20', saturatingAdd_of_lt (by omega)]
  simp only [hlen]
  by_cases hlong : x + 20 ≤ bytes.length ∨ ¬ ctx.isActive = true
  · have hno : ¬ (ctx.isActive && (decide (bytes.length - x < 20) &&
        (slice bytes x bytes.length).all (· == 0))) = true := by
      simp only [Bool.and_eq_true, decide_eq_true_eq]
      rintro ⟨ha, hshort, -⟩
      exact hlong.elim (fun h => by omega) fun h => h ha
    rw [if_pos hlong, if_neg hno]
    exact .corruption x _
  obtain ⟨hshort, ha⟩ := not_or.mp hlong
  rw [if_neg hlong, not_not.mp ha, decide_eq_true (show bytes.length - x < 20 by omega),
    Bool.true_and, Bool.true_and]
  by_cases hz : (slice bytes x bytes.length).all (· == 0) = true
  · have hany : ¬ (slice bytes x bytes.length).any (· != 0) = true := by
      simpa using hz
    rw [if_pos hz, if_neg hany]
    exact .truncated x last hss
  · have hany : (slice bytes x bytes.length).any (· != 0) = true := by
      simpa using hz
    rw [if_neg hz, if_pos hany]
    exact .corruption x _

theorem room_of_invalid {buf : Bytes} (h : (readRecordAt bytes x ss mx buf).1 = .invalid) :
    x + 20 ≤ ss := by
  by_contra hlt
  have hclean : (readRecordAt bytes x ss mx buf).1 = .cleanEnd :=
    readRecordAt_of_cleanAt (Or.inl (Nat.not_le.mp hlt)) buf
  rw [h] at hclean
  cases hclean

variable {isActive full : Bool} {e last : ℕ}

theorem referenceLoop_of_record {lsn k : ℕ} (h : refReadRecordAt bytes x ss mx = .record lsn k) :
    referenceLoop bytes isActive ss mx x e last full =
      if full then some (.corruption x)
      else if lsn ≠ e then refClassifyBoundary bytes isActive ss mx x e last
      else if x + k ≤ u64Max then
        if lsn = u64Max then referenceLoop bytes isActive ss mx (x + k) e lsn true
        else referenceLoop bytes isActive ss mx (x + k) (lsn + 1) lsn false
      else none := by
  rw [referenceLoop]
  split <;> rename_i h'
  · obtain ⟨rfl, rfl⟩ := RScan.record.inj (h.symm.trans h')
    rfl
  · cases h.symm.trans h'
  · cases h.symm.trans h'

theorem referenceLoop_of_cleanEnd (h : refReadRecordAt bytes x ss mx = .cleanEnd) :
    referenceLoop bytes isActive ss mx x e last full = some (.clean last) := by
  rw [referenceLoop]
  split <;> rename_i h'
  · cases h.symm.trans h'
  · exact ite_self _
  · cases h.symm.trans h'

theorem referenceLoop_of_invalid (h : refReadRecordAt bytes x ss mx = .invalid) :
    referenceLoop bytes isActive ss mx x e last full =
      if full then some (refAtCapacity bytes isActive x last .invalid)
      else refClassifyBoundary bytes isActive ss mx x e last := by
  rw [referenceLoop]
  split <;> rename_i h'
  · cases h.symm.trans h'
  · cases h.symm.trans h'
  · rfl

def expectedIf (full : Bool) (e : ℕ) : Option ℕ := if full then none else some e

omit [Crc32c] in
theorem expectedIf_eq_none (h : none = expectedIf full e) : full = true := by
  cases full
  · cases h
  · rfl

omit [Crc32c] in
theorem expectedIf_eq_some {want : ℕ} (h : some want = expectedIf full e) : full = false ∧ want = e := by
  cases full
  · exact ⟨rfl, Option.some.inj h⟩
  · cases h

/-- The two loops stay in step. -/
theorem referenceLoop_comesTo (ctx : RecoverCtx) (name : FileName) (bytes : Bytes)
    (hroom : ctx.segmentSize + ctx.maxRecordSize + 24 ≤ u64Max) (x : ℕ) (expected : Option ℕ)
    (last : ℕ) (buf : Bytes) : ∀ e full, expected = expectedIf full e →
      ∃ c, referenceLoop bytes ctx.isActive ctx.segmentSize ctx.maxRecordSize x e last full = some c ∧
        ComesTo ctx name c (recoverLoop ctx name bytes x expected last buf) := by
  have hread {o : ScanOutcome} {buf buf' : Bytes} {x : ℕ}
      (h : readRecordAt bytes x ctx.segmentSize ctx.maxRecordSize buf = (o, buf')) :
      refReadRecordAt bytes x ctx.segmentSize ctx.maxRecordSize = .ofOutcome o := by
    rw [refReadRecordAt_eq bytes x ctx.segmentSize ctx.maxRecordSize buf, h]
  fun_induction recoverLoop ctx name bytes x expected last buf with
  | case1 x last buf lsn n k buf' hr =>
    intro e full he
    rw [referenceLoop_of_record (hread hr), expectedIf_eq_none he]
    exact ⟨_, rfl, .corruption x _⟩
  | case2 x last buf lsn n k buf' hr want hne =>
    intro e full he
    obtain ⟨rfl, rfl⟩ := expectedIf_eq_some he
    have hb := readRecordAt_record_bounds hr
    rw [referenceLoop_of_record (hread hr), if_neg Bool.false_ne_true, if_pos hne]
    exact refClassifyBoundary_comesTo ctx name bytes want last buf' (by omega) (by omega)
  | case3 x last buf lsn n k buf' hr want heq ih =>
    intro e full he
    obtain ⟨rfl, rfl⟩ := expectedIf_eq_some he
    have hb := readRecordAt_record_bounds hr
    obtain ⟨p, -, -, hf⟩ := readRecordAt_eq_record (congrArg Prod.fst hr)
    rw [referenceLoop_of_record (hread hr), if_neg Bool.false_ne_true, if_neg heq,
      if_pos (show x + k ≤ u64Max by omega)]
    by_cases hmax : lsn = u64Max
    · rw [if_pos hmax]
      exact ih want true (checkedNext_of_le hmax.ge)
    · rw [if_neg hmax]
      exact ih (lsn + 1) false (if_pos (lt_of_le_of_ne hf.lsn_le hmax))
  | case4 x expected last buf buf' hr =>
    intro e full _
    rw [referenceLoop_of_cleanEnd (hread hr)]
    exact ⟨_, rfl, .clean x last⟩
  | case5 x last buf buf' hr =>
    intro e full he
    have hb := room_of_invalid (congrArg Prod.fst hr)
    rw [referenceLoop_of_invalid (hread hr), expectedIf_eq_none he]
    exact ⟨_, rfl, refAtCapacity_comesTo ctx name bytes last (by omega) (by omega)⟩
  | case6 x last buf buf' hr want =>
    intro e full he
    obtain ⟨rfl, rfl⟩ := expectedIf_eq_some he
    have hb := room_of_invalid (congrArg Prod.fst hr)
    rw [referenceLoop_of_invalid (hread hr), if_neg Bool.false_ne_true]
    exact refClassifyBoundary_comesTo ctx name bytes want last buf' (by omega) (by omega)

/-- The accessor answers `c`. Where a call of the zeroing fails it may answer `OtherErr`,
but then only in place of a truncation. -/
def Agrees (c : SegClass) (classified : Prog World WalError SegClass) (d : Disk) : Prop :=
  (∃ w, classified ⟨d, []⟩ = (.ret c, w)) ∧
    ∀ fates, Ends (fun c' _ => c' = c ∨ c' = .otherErr ∧ ∃ x last, c = .truncated x last)
      (fun _ _ => False) (fun _ => True) (classified ⟨d, fates⟩)

omit [Crc32c] in
/-- A failure of the zeroing is outside the classification. -/
theorem zeroToEof_errors (name : FileName) (x ss : ℕ) :
    Triple (fun _ => True) (zeroToEof name x ss) (fun _ _ => True)
      (fun e _ => SegClass.ofResult (.error e) = .otherErr) (fun _ => True) := by
  apply Triple.seq (Q := fun _ _ => True)
  · apply Triple.mapErr
    exact (writeZeros_keeps (I := fun _ => True) fun _ _ _ _ h => h).conseq (fun _ h => h)
      (fun _ _ h => h) (fun _ _ _ => rfl) fun _ h => h
  · apply Triple.mapErr
    exact (syncData_keeps (I := fun _ => True) fun _ h => h).conseq (fun _ h => h)
      (fun _ _ h => h) (fun _ _ _ => rfl) fun _ h => h

omit [Crc32c] in
theorem ComesTo.agrees {ctx : RecoverCtx} {name : FileName} {c : SegClass}
    {m : Prog World WalError SegmentRecovery} (h : ComesTo ctx name c m) {d : Disk} {f : File}
    (hf : d.file name = some f) :
    Agrees c (do let r ← Prog.attempt m; return SegClass.ofResult r) d := by
  cases h with
  | clean x last => exact ⟨⟨_, rfl⟩, fun _ => Or.inl rfl⟩
  | tornMidLog x => exact ⟨⟨_, rfl⟩, fun _ => Or.inl rfl⟩
  | corruption x detail => exact ⟨⟨_, rfl⟩, fun _ => Or.inl rfl⟩
  | truncated x last hx =>
    obtain ⟨rec, hrec⟩ : ∃ rec : SegmentRecovery, rec = ⟨last, x, .truncatedAt ctx.baseLsn x⟩ := ⟨_, rfl⟩
    rw [← hrec]
    have hclass : SegClass.ofResult (.ok rec) = .truncated x last := by
      rw [hrec]
      rfl
    have hzero : Triple (fun _ => True) (do zeroToEof name x ctx.segmentSize; return rec)
        (fun r _ => r = rec) (fun e _ => SegClass.ofResult (.error e) = .otherErr) (fun _ => True) :=
      Triple.seq (zeroToEof_errors name x ctx.segmentSize) (Triple.ret rec fun _ _ => rfl)
    refine ⟨⟨⟨d.put name (zeroed x ctx.segmentSize f), []⟩, ?_⟩, fun fates => ?_⟩
    · have hrun : Prog.attempt (do zeroToEof name x ctx.segmentSize; return rec) ⟨d, []⟩ =
          ((.ret (.ok rec), ⟨d.put name (zeroed x ctx.segmentSize f), []⟩) :
            Outcome WalError (Except WalError SegmentRecovery) × World) := by
        rw [Prog.attempt, Prog.seq_of_ret (zeroToEof_calm hf hx)]
        rfl
      rw [Prog.bind_of_ret hrun, hclass]
      rfl
    · refine Triple.bind (Triple.attempt hzero) (fun r => Triple.ret _ ?_) ⟨d, fates⟩ trivial
      rintro - (⟨a, rfl, ha⟩ | ⟨e, rfl, he⟩)
      · exact Or.inl (ha ▸ hclass)
      · exact Or.inr ⟨he, x, last, rfl⟩

/-- On any bytes, of any length and under any base, the reference parser answers without an
overflow, and the accessor agrees with it, where `open` would take the limits. -/
theorem referenceClassify_agrees {d : Disk} {name : FileName} {f : File} (hf : d.file name = some f)
    (baseLsn : ℕ) (isActive : Bool) (hvalid : mx + 91 ≤ ss) (hroom : ss + mx + 24 ≤ u64Max) :
    ∃ c, referenceClassify f.data baseLsn isActive ss mx = some c ∧
      Agrees c (recoverSegmentClassify name f.data baseLsn isActive ss mx) d := by
  obtain ⟨c, hc, hto⟩ := referenceLoop_comesTo ⟨max baseLsn 1, isActive, ss, mx⟩ name f.data hroom
    headerSize (some (max baseLsn 1)) (max baseLsn 1 - 1) [] (max baseLsn 1) false rfl
  refine ⟨c, hc, ?_⟩
  rw [recoverSegmentClassify, if_neg (Nat.not_lt.mpr hvalid)]
  exact hto.agrees hf

end

theorem referenceClassify_agrees_stub :
    ∃ c, referenceClassify [1, 2, 3] 0 true 136 45 = some c ∧
      Agrees c (recoverSegmentClassify (filenameFor 1) [1, 2, 3] 0 true 136 45)
        ((Disk.fresh true fun _ => 0).put (filenameFor 1) ⟨[1, 2, 3], fun _ => false⟩) :=
  referenceClassify_agrees (Disk.put_file_self (filenameFor 1) ⟨[1, 2, 3], fun _ => false⟩ _) 0 true
    (by decide) (by decide)

end OpenWal
