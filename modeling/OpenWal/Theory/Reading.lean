import OpenWal.Theory.SegmentRecovery
import OpenWal.Model.Reader

namespace OpenWal
open ByteSeq Posix

structure Reader.SameLog (r r' : Reader) : Prop where
  segments : r'.segments = r.segments
  start : r'.start = r.start
  segmentSize : r'.segmentSize = r.segmentSize
  maxRecordSize : r'.maxRecordSize = r.maxRecordSize

theorem Reader.SameLog.trans {r r' r'' : Reader} (h : r.SameLog r') (h' : r'.SameLog r'') :
    r.SameLog r'' where
  segments := h'.segments.trans h.segments
  start := h'.start.trans h.start
  segmentSize := h'.segmentSize.trans h.segmentSize
  maxRecordSize := h'.maxRecordSize.trans h.maxRecordSize

/-- `b` is what the open file of the reader holds, or what a file it may open does. -/
def Reader.Sees (d : Disk) (r : Reader) (b : Bytes) : Prop :=
  r.file = some b ∨ ∃ base ∈ r.segments, ∃ f, d.file (filenameFor base) = some f ∧ f.data = b

section

variable [Crc32c]

variable {d : Disk} {r r' : Reader}

omit [Crc32c] in
/-- Advancing opens a file of the log, and keeps what is expected. -/
theorem advanceSegment_ok {b : Bytes} (h : Reader.advanceSegment d r = (.ok true, r')) :
    r.SameLog r' ∧ r'.expectedLsn = r.expectedLsn ∧
      (r'.file = some b → ∃ base ∈ r.segments, ∃ f, d.file (filenameFor base) = some f ∧ f.data = b) := by
  unfold Reader.advanceSegment at h
  simp only at h
  split at h
  · simp at h
  · rename_i base hb
    split at h
    · simp at h
    · rename_i f hf
      obtain ⟨-, rfl⟩ := Prod.mk.inj h
      refine ⟨⟨rfl, rfl, rfl, rfl⟩, rfl, fun hfile => ?_⟩
      exact ⟨base, List.mem_of_getElem? hb, f, hf, Option.some.inj hfile⟩

theorem next_of_done (h : r.done = true) : r.next d = (none, r) := by
  rw [Reader.next, if_pos h]

/-- The payload handed out is the one of the frame that was read. -/
theorem payload_of_read {file buf b : Bytes} {x ss mx lsn n k : ℕ}
    (h : readRecordAt file x ss mx buf = (.record lsn n k, b)) :
    FrameAt ss mx file x lsn (slice b recordHeaderSize (recordHeaderSize + n)) := by
  obtain ⟨payload, rfl, rfl, hf⟩ := readRecordAt_eq_record (congrArg Prod.fst h)
  have hb : b = slice file x (x + framedSize payload.length) := by
    have hr := readRecordAt_of_frameAt hf buf
    rw [h] at hr
    exact (Prod.mk.inj hr).2
  have hp : slice b recordHeaderSize (recordHeaderSize + payload.length) = payload := by
    rw [hb]
    exact hf.valid.payload
  rwa [hp]

omit [Crc32c] in
theorem eq_of_expected {l e : ℕ} (h : some l = expectedOf e) : l = e := by
  unfold expectedOf at h
  split_ifs at h
  exact Option.some.inj h

omit [Crc32c] in
/-- What is seen after advancing could be opened before. -/
theorem Reader.Sees.of_advance {r₁ : Reader} {b buf : Bytes}
    (ha : Reader.advanceSegment d { r with buf := buf } = (.ok true, r₁)) (h : r₁.Sees d b) :
    r.Sees d b := by
  obtain ⟨hsame, -, hfile⟩ := advanceSegment_ok (b := b) ha
  rcases h with h | ⟨base, hm, hf⟩
  · exact Or.inr (hfile h)
  · exact Or.inr ⟨base, hsame.segments ▸ hm, hf⟩

/-- A call that yields a record yields the expected one, or the first one asked for
where that comes later. -/
theorem next_yields {lsn e : ℕ} {payload : Bytes} (h : r.next d = (some (.ok (lsn, payload)), r'))
    (he : r.expectedLsn = expectedOf e) :
    r.SameLog r' ∧ lsn = max r.start e ∧ r'.expectedLsn = expectedOf (lsn + 1) ∧
      ∃ b x, r.Sees d b ∧ FrameAt r.segmentSize r.maxRecordSize b x lsn payload := by
  revert e
  fun_induction Reader.next d r with
  | case1 => simp at h
  | case2 => simp at h
  | case3 => simp at h
  | case4 r _ file hfile l n k buf hr hexp r₁ hlt ih =>
    -- a record below `start` is passed over
    intro e he
    obtain rfl := eq_of_expected ((not_not.mp hexp).trans he)
    obtain ⟨hsame, hlsn, hnext, b, x, hsees, hf⟩ := ih h (checkedNext_eq_expectedOf l)
    have hstart : r₁.start = r.start := rfl
    exact ⟨⟨hsame.segments, hsame.start, hsame.segmentSize, hsame.maxRecordSize⟩, by omega, hnext, b, x,
      hsees, hf⟩
  | case5 r _ file hfile l n k buf hr hexp r₁ hge =>
    intro e he
    obtain rfl := eq_of_expected ((not_not.mp hexp).trans he)
    simp only [Prod.mk.injEq, Option.some.injEq, Except.ok.injEq] at h
    obtain ⟨⟨rfl, rfl⟩, rfl⟩ := h
    exact ⟨⟨rfl, rfl, rfl, rfl⟩, by omega, checkedNext_eq_expectedOf l, file, r.offset, Or.inl hfile,
      payload_of_read hr⟩
  | case6 r _ file _ buf _ r₁ ha ih | case9 r _ file _ buf _ r₁ ha ih =>
    -- the log goes on in the next segment
    intro e he
    obtain ⟨hsame, hexp, -⟩ := advanceSegment_ok (b := []) ha
    obtain ⟨hsame', hlsn, hnext, b, x, hsees, hf⟩ := ih h (hexp.trans he)
    rw [hsame.start] at hlsn
    rw [hsame.segmentSize, hsame.maxRecordSize] at hf
    have hr : r.SameLog r₁ := ⟨hsame.segments, hsame.start, hsame.segmentSize, hsame.maxRecordSize⟩
    exact ⟨hr.trans hsame', hlsn, hnext, b, x, .of_advance ha hsees, hf⟩
  | case7 => simp at h
  | case8 => simp at h
  | case10 => simp at h
  | case11 => simp at h

/-- A call that yields no record is the last one to do anything. -/
theorem next_ends {o : Option (Except WalError (ℕ × Bytes))} (h : r.next d = (o, r'))
    (ho : ∀ x, o ≠ some (.ok x)) : r'.done = true := by
  fun_induction Reader.next d r with
  | case1 r hd =>
    obtain ⟨-, rfl⟩ := Prod.mk.inj h
    exact hd
  | case4 r _ file hfile l n k buf hr hexp r₁ hlt ih => exact ih h
  | case5 r _ file hfile l n k buf hr hexp r₁ hge =>
    exact absurd (Prod.mk.inj h).1.symm (ho _)
  | case6 r _ file _ buf _ r₁ ha ih => exact ih h
  | case9 r _ file _ buf _ r₁ ha ih => exact ih h
  | _ =>
    obtain ⟨-, rfl⟩ := Prod.mk.inj h
    rfl

end

end OpenWal
