import OpenWal.Theory.Runs
import OpenWal.Model.Recovery

namespace OpenWal
open ByteSeq Posix CrashProg

def expectedOf (e : ℕ) : Option ℕ := if e ≤ u64Max then some e else none

theorem checkedNext_eq_expectedOf (e : ℕ) : checkedNext e = expectedOf (e + 1) := by
  unfold checkedNext expectedOf
  simp only [Nat.succ_le_iff]

theorem expectedOf_of_le {e : ℕ} (h : e ≤ u64Max) : expectedOf e = some e := if_pos h

theorem expectedOf_of_lt {e : ℕ} (h : u64Max < e) : expectedOf e = none :=
  if_neg (Nat.not_le.mpr h)

section

variable [Crc32c]

variable {ss mx x : ℕ} {file buf : Bytes}

theorem readRecordAt_of_frameAt {lsn : ℕ} {payload : Bytes} (h : FrameAt ss mx file x lsn payload)
    (buf : Bytes) : readRecordAt file x ss mx buf =
      (.record lsn payload.length (framedSize payload.length),
        slice file x (x + framedSize payload.length)) := by
  have hs := readRecordAt_spec file x ss mx buf
  rw [h] at hs
  exact Prod.ext hs.1 (hs.2 _ _ _ rfl)

theorem readRecordAt_of_cleanAt (h : CleanAt ss file x) (buf : Bytes) :
    (readRecordAt file x ss mx buf).1 = .cleanEnd := by
  rw [(readRecordAt_spec file x ss mx buf).1, scanAt_eq_sentinel_iff.mpr h]
  rfl

theorem readRecordAt_eq_record {lsn n k : ℕ} (h : (readRecordAt file x ss mx buf).1 = .record lsn n k) :
    ∃ payload, n = payload.length ∧ k = framedSize payload.length ∧
      FrameAt ss mx file x lsn payload := by
  rw [(readRecordAt_spec file x ss mx buf).1] at h
  rcases hs : scanAt ss mx file x with ⟨l, p, k'⟩ | _ | _ | _ <;> rw [hs] at h <;>
    simp only [ScanOutcome.ofDecoded, reduceCtorEq, ScanOutcome.record.injEq] at h
  obtain ⟨rfl, rfl, rfl⟩ := h
  obtain ⟨hk, hf⟩ := scanAt_eq_record hs
  exact ⟨p, rfl, hk, hf⟩

theorem readRecordAt_eq_cleanEnd (h : (readRecordAt file x ss mx buf).1 = .cleanEnd) :
    CleanAt ss file x := by
  rw [(readRecordAt_spec file x ss mx buf).1] at h
  rcases hs : scanAt ss mx file x with _ | _ | _ | _ <;> rw [hs] at h <;>
    simp only [ScanOutcome.ofDecoded, reduceCtorEq] at h
  exact scanAt_eq_sentinel_iff.mp hs

def Continues (ss mx : ℕ) (file : Bytes) (x e : ℕ) : Prop :=
  ∃ k lsn payload, 8 * k ≤ scanBound mx ∧ e ≤ lsn ∧ FrameAt ss mx file (x + 8 + 8 * k) lsn payload

theorem forwardScanLoop_iff (ctx : RecoverCtx) (file : Bytes) (e stop p : ℕ) (buf : Bytes) :
    (forwardScanLoop ctx file e stop p buf).1 = true ↔ ∃ k lsn payload, p + 8 * k ≤ stop ∧ e ≤ lsn ∧
      FrameAt ctx.segmentSize ctx.maxRecordSize file (p + 8 * k) lsn payload := by
  fun_induction forwardScanLoop ctx file e stop p buf with
  | case1 p buf hp lsn n k buf' hr hle =>
    obtain ⟨payload, -, -, hf⟩ := readRecordAt_eq_record (congrArg Prod.fst hr)
    simp only [true_iff]
    exact ⟨0, lsn, payload, hp, hle, hf⟩
  | case2 p buf hp lsn n k buf' hr hlt ih =>
    rw [ih]
    constructor
    · rintro ⟨k, l, q, hk, hl, hf⟩
      exact ⟨k + 1, l, q, by omega, hl, by rwa [show p + 8 * (k + 1) = p + 8 + 8 * k by omega]⟩
    · rintro ⟨k, l, q, hk, hl, hf⟩
      rcases k with _ | k
      · rw [Nat.mul_zero, Nat.add_zero] at hf
        rw [readRecordAt_of_frameAt hf] at hr
        simp only [Prod.mk.injEq, ScanOutcome.record.injEq] at hr
        omega
      · exact ⟨k, l, q, by omega, hl, by rwa [show p + 8 + 8 * k = p + 8 * (k + 1) by omega]⟩
  | case3 p buf hp out buf' hnr hr ih =>
    rw [ih]
    constructor
    · rintro ⟨k, l, q, hk, hl, hf⟩
      exact ⟨k + 1, l, q, by omega, hl, by rwa [show p + 8 * (k + 1) = p + 8 + 8 * k by omega]⟩
    · rintro ⟨k, l, q, hk, hl, hf⟩
      rcases k with _ | k
      · rw [Nat.mul_zero, Nat.add_zero] at hf
        rw [readRecordAt_of_frameAt hf] at hr
        exact absurd (congrArg Prod.fst hr).symm (hnr _ _ _)
      · exact ⟨k, l, q, by omega, hl, by rwa [show p + 8 + 8 * k = p + 8 * (k + 1) by omega]⟩
  | case4 p buf hp =>
    simp only [Bool.false_eq_true, false_iff]
    rintro ⟨k, l, q, hk, -⟩
    omega

/-- The saturating bounds of the scan cut nothing off: no record starts past them. -/
theorem forwardScanFindsValid_iff {ctx : RecoverCtx} {e : ℕ} (hss : ctx.segmentSize < 2 ^ 64) :
    (forwardScanFindsValid ctx file x e buf).1 = true ↔
      Continues ctx.segmentSize ctx.maxRecordSize file x e := by
  simp only [forwardScanFindsValid, forwardScanLoop_iff, Continues, le_saturatingAdd_iff]
  constructor
  · rintro ⟨k, l, p, ⟨hk, -⟩, hl, hf⟩
    have := hf.le_segment
    have := le_framedSize p.length
    have hx : saturatingAdd x 8 = x + 8 := by
      by_contra hne
      have : ¬ x + 8 < 2 ^ 64 := fun h => hne (saturatingAdd_of_lt h)
      have : u64Max ≤ saturatingAdd x 8 := Nat.le_min.mpr ⟨by unfold u64Max; omega, le_rfl⟩
      have := u64Max_add_one
      omega
    rw [hx] at hk hf
    exact ⟨k, l, p, by omega, hl, hf⟩
  · rintro ⟨k, l, p, hk, hl, hf⟩
    have := hf.le_segment
    have := le_framedSize p.length
    rw [saturatingAdd_of_lt (show x + 8 < 2 ^ 64 by omega)]
    exact ⟨k, l, p, ⟨by omega, by omega⟩, hl, hf⟩

variable (ctx : RecoverCtx) (name : FileName)

/-- The loop passes over a run. -/
theorem recoverLoop_run {ps : List Bytes} {e : ℕ}
    (h : Run ctx.segmentSize ctx.maxRecordSize file x e ps) (buf : Bytes) :
    ∃ buf', recoverLoop ctx name file x (expectedOf e) (e - 1) buf =
      recoverLoop ctx name file (x + runSize ps) (expectedOf (e + ps.length)) (e + ps.length - 1)
        buf' := by
  induction ps generalizing x e buf with
  | nil => exact ⟨buf, rfl⟩
  | cons p ps ih =>
    have hr := readRecordAt_of_frameAt h.1 buf
    obtain ⟨buf', hb⟩ := ih h.2 (slice file x (x + framedSize p.length))
    refine ⟨buf', ?_⟩
    rw [recoverLoop, expectedOf_of_le h.1.lsn_le]
    split
    · rename_i hr'
      rw [hr] at hr'
      simp only [Prod.mk.injEq, ScanOutcome.record.injEq] at hr'
      obtain ⟨⟨rfl, -, rfl⟩, rfl⟩ := hr'
      simp only [ne_eq, not_true_eq_false, if_false, checkedNext_eq_expectedOf]
      rw [Nat.add_sub_cancel] at hb
      rw [hb, runSize_cons, List.length_cons, Nat.add_right_comm e, Nat.add_assoc x, Nat.add_assoc e]
    · rename_i hr'
      rw [hr] at hr'
      simp at hr'
    · rename_i hr'
      rw [hr] at hr'
      simp at hr'

theorem recoverLoop_of_cleanAt (h : CleanAt ctx.segmentSize file x) (expected : Option ℕ)
    (last : ℕ) (buf : Bytes) :
    recoverLoop ctx name file x expected last buf = pure ⟨last, x, .clean⟩ := by
  have hr : (readRecordAt file x ctx.segmentSize ctx.maxRecordSize buf).1 = .cleanEnd :=
    readRecordAt_of_cleanAt h buf
  rw [recoverLoop]
  split
  · rename_i hr'
    simp [hr'] at hr
  · rfl
  · rename_i hr'
    simp [hr'] at hr

/-- Where the run stops short of a clean end, the offset is classified. -/
theorem recoverLoop_of_stops {e : ℕ} (he : e ≤ u64Max)
    (hs : Stops ctx.segmentSize ctx.maxRecordSize file x e) (hc : ¬ CleanAt ctx.segmentSize file x)
    (last : ℕ) (buf : Bytes) : ∃ buf', recoverLoop ctx name file x (expectedOf e) last buf =
      classify ctx name file x e last buf' := by
  rw [recoverLoop, expectedOf_of_le he]
  split
  · rename_i lsn n k buf' hr
    obtain ⟨p, -, -, hf⟩ := readRecordAt_eq_record (congrArg Prod.fst hr)
    have hne : lsn ≠ e := by
      rintro rfl
      exact hs p hf
    exact ⟨buf', if_pos hne⟩
  · rename_i hr
    exact absurd (readRecordAt_eq_cleanEnd (congrArg Prod.fst hr)) hc
  · rename_i buf' hr
    exact ⟨buf', rfl⟩

theorem recoverLoop_at_capacity {e : ℕ} (he : u64Max < e) (hss : ctx.segmentSize < 2 ^ 64)
    (hc : ¬ CleanAt ctx.segmentSize file x) (last : ℕ) (buf : Bytes) :
    recoverLoop ctx name file x (expectedOf e) last buf =
      atCapacityInvalid ctx name file x last := by
  rw [recoverLoop, expectedOf_of_lt he]
  split
  · rename_i hr
    obtain ⟨p, -, -, hf⟩ := readRecordAt_eq_record (congrArg Prod.fst hr)
    have := hf.le_file
    have := hf.le_segment
    have := le_framedSize p.length
    rw [atCapacityInvalid, if_pos]
    left
    rw [saturatingAdd_of_lt] <;> simp only [recordHeaderSize] <;> omega
  · rename_i hr
    exact absurd (readRecordAt_eq_cleanEnd (congrArg Prod.fst hr)) hc
  · rfl

/-- At `x`, where number `e` is missing, an active segment was torn: what is there
does not continue the log, or, past `u64::MAX`, is zeros that were cut short. -/
def TornAt (ss mx : ℕ) (file : Bytes) (x e : ℕ) : Prop :=
  ¬ CleanAt ss file x ∧ (e ≤ u64Max → ¬ Continues ss mx file x e) ∧
    (u64Max < e → file.length < x + 20 ∧ ZeroOn file x file.length)

def fatalError (base : ℕ) (isActive : Bool) (x e : ℕ) : WalError :=
  if e ≤ u64Max then
    if isActive then .tornMidLog base x else .corruption base x "invalid record in sealed segment"
  else .corruption base x "data after the last LSN (u64::MAX)"

variable {ps : List Bytes} {base : ℕ} (isActive : Bool)

omit [Crc32c] in
theorem room_of_not_cleanAt (h : ¬ CleanAt ss file x) : x + 20 ≤ ss :=
  Nat.not_lt.mp fun hlt => h (Or.inl hlt)

theorem recoverSegment_run (h : Run ss mx file headerSize base ps) (hb : base ≤ u64Max) :
    ∃ buf, recoverSegment name file base isActive ss mx =
      recoverLoop ⟨base, isActive, ss, mx⟩ name file (headerSize + runSize ps)
        (expectedOf (base + ps.length)) (base + ps.length - 1) buf := by
  obtain ⟨buf, hr⟩ := recoverLoop_run ⟨base, isActive, ss, mx⟩ name h []
  refine ⟨buf, ?_⟩
  rw [recoverSegment, ← hr, expectedOf_of_le hb]

theorem recoverSegment_of_cleanAt (h : Run ss mx file headerSize base ps) (hb : base ≤ u64Max)
    (hc : CleanAt ss file (headerSize + runSize ps)) :
    recoverSegment name file base isActive ss mx =
      pure ⟨base + ps.length - 1, headerSize + runSize ps, .clean⟩ := by
  obtain ⟨buf, hr⟩ := recoverSegment_run name isActive h hb
  exact hr.trans (recoverLoop_of_cleanAt ⟨base, isActive, ss, mx⟩ name hc _ _ _)

theorem recoverSegment_of_tornAt (h : Run ss mx file headerSize base ps) (hb : base ≤ u64Max)
    (hss : ss < 2 ^ 64)
    (hs : Stops ss mx file (headerSize + runSize ps) (base + ps.length))
    (ht : TornAt ss mx file (headerSize + runSize ps) (base + ps.length)) :
    recoverSegment name file base true ss mx = (do
      zeroToEof name (headerSize + runSize ps) ss
      return ⟨base + ps.length - 1, headerSize + runSize ps,
        .truncatedAt base (headerSize + runSize ps)⟩) := by
  obtain ⟨buf, hr⟩ := recoverSegment_run name true h hb
  rw [hr]
  by_cases he : base + ps.length ≤ u64Max
  · obtain ⟨buf', hl⟩ := recoverLoop_of_stops ⟨base, true, ss, mx⟩ name he hs ht.1
      (base + ps.length - 1) buf
    rw [hl, classify, if_neg (by simp), if_neg]
    rw [forwardScanFindsValid_iff hss]
    exact ht.2.1 he
  · have he := Nat.not_le.mp he
    obtain ⟨hlen, hz⟩ := ht.2.2 he
    have hroom := room_of_not_cleanAt ht.1
    have hshort : ¬ (saturatingAdd (headerSize + runSize ps) recordHeaderSize ≤ file.length ∨
        ¬ (true = true)) := by
      rintro (hle | hact)
      · rw [saturatingAdd_of_lt (by simp only [recordHeaderSize]; omega)] at hle
        simp only [recordHeaderSize] at hle
        omega
      · exact hact rfl
    have hzero : ¬ (slice file (headerSize + runSize ps) file.length).any (· != 0) = true := by
      rw [hz.slice_eq]
      simp [zeros]
    rw [recoverLoop_at_capacity ⟨base, true, ss, mx⟩ name he hss ht.1, atCapacityInvalid,
      if_neg hshort, if_neg hzero]

theorem recoverSegment_of_fatal (h : Run ss mx file headerSize base ps) (hb : base ≤ u64Max)
    (hss : ss < 2 ^ 64)
    (hs : Stops ss mx file (headerSize + runSize ps) (base + ps.length))
    (hc : ¬ CleanAt ss file (headerSize + runSize ps))
    (ht : isActive = true → ¬ TornAt ss mx file (headerSize + runSize ps) (base + ps.length)) :
    recoverSegment name file base isActive ss mx =
      Prog.raise (fatalError base isActive (headerSize + runSize ps) (base + ps.length)) := by
  obtain ⟨buf, hr⟩ := recoverSegment_run name isActive h hb
  rw [hr]
  by_cases he : base + ps.length ≤ u64Max
  · obtain ⟨buf', hl⟩ := recoverLoop_of_stops ⟨base, isActive, ss, mx⟩ name he hs hc
      (base + ps.length - 1) buf
    rw [hl, classify, fatalError, if_pos he]
    cases isActive with
    | false => rfl
    | true =>
      rw [if_neg (by simp), if_pos, if_pos rfl]
      rw [forwardScanFindsValid_iff hss]
      by_contra hn
      exact ht rfl ⟨hc, fun _ => hn, fun h => absurd he (Nat.not_le.mpr h)⟩
  · have he := Nat.not_le.mp he
    rw [recoverLoop_at_capacity ⟨base, isActive, ss, mx⟩ name he hss hc, atCapacityInvalid,
      fatalError, if_neg (Nat.not_le.mpr he)]
    by_cases hshort : saturatingAdd (headerSize + runSize ps) recordHeaderSize ≤ file.length ∨
        ¬ isActive = true
    · rw [if_pos hshort]
      rfl
    · obtain ⟨hlen, hact⟩ := not_or.mp hshort
      have hact := not_not.mp hact
      have hroom := room_of_not_cleanAt hc
      rw [saturatingAdd_of_lt (by simp only [recordHeaderSize]; omega)] at hlen
      simp only [recordHeaderSize] at hlen
      rw [if_neg hshort, if_pos]
      · rfl
      by_contra hzero
      refine ht hact ⟨hc, fun h => absurd h (Nat.not_le.mpr he), fun _ => ⟨by omega, ?_⟩⟩
      apply zeroOn_of_slice_eq
      have hz := eq_zeros_of_forall (b := slice file (headerSize + runSize ps) file.length) ?_
      · rw [hz, slice_length_of_le le_rfl]
      · simpa using hzero

end

end OpenWal
