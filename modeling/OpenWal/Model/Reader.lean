import OpenWal.Model.Segment

namespace OpenWal
open ByteSeq Posix

structure Reader where
  segments : List ℕ
  /-- Index of the segment that is open. -/
  segIdx : ℕ
  /-- The bytes of the open segment, `none` after the last one. -/
  file : Option Bytes
  offset : ℕ
  /-- The number the next record must carry, `none` past a `u64::MAX` record. -/
  expectedLsn : Option ℕ
  start : ℕ
  segmentSize : ℕ
  maxRecordSize : ℕ
  buf : Bytes
  done : Bool

namespace Reader

def new (segments : List ℕ) (idx : ℕ) (first : Bytes) (start : ℕ)
    (segmentSize maxRecordSize : ℕ) : Reader where
  segments := segments
  segIdx := idx
  file := some first
  offset := headerSize
  expectedLsn := segments[idx]?
  start := start
  segmentSize := segmentSize
  maxRecordSize := maxRecordSize
  buf := []
  done := false

def advanceSegment (d : Disk) (r : Reader) : Except IoError Bool × Reader :=
  let r := { r with segIdx := r.segIdx + 1 }
  match r.segments[r.segIdx]? with
  | none => (.ok false, { r with file := none })
  | some base =>
    match d.file (filenameFor base) with
    | none => (.error .notFound, r)
    | some f => (.ok true, { r with file := some f.data, offset := headerSize })

def workLeft (r : Reader) : ℕ :=
  (r.segments.length - r.segIdx) * (r.segmentSize + 1) + (r.segmentSize - r.offset)

theorem advanceSegment_workLeft {d : Disk} {r r' : Reader}
    (h : r.advanceSegment d = (.ok true, r')) : r'.workLeft < r.workLeft := by
  unfold advanceSegment at h
  simp only at h
  split at h
  · simp at h
  · rename_i base hb
    split at h
    · simp at h
    · simp only [Prod.mk.injEq, true_and] at h
      subst h
      have hi := (List.getElem?_eq_some_iff.mp hb).1
      obtain ⟨k, hk⟩ : ∃ k, r.segments.length - r.segIdx = k + 1 :=
        ⟨r.segments.length - r.segIdx - 1, by omega⟩
      have hk' : r.segments.length - (r.segIdx + 1) = k := by omega
      simp only [workLeft, hk, hk', Nat.add_mul, one_mul]
      omega

section

variable [Crc32c]

/-- The next record numbered `start` or higher, or `none` at the end of the log. -/
def next (d : Disk) (r : Reader) : Option (Except WalError (ℕ × Bytes)) × Reader :=
  if r.done then (none, r)
  else
    match r.file with
    | none => (none, { r with done := true })
    | some file =>
      match _ : readRecordAt file r.offset r.segmentSize r.maxRecordSize r.buf with
      | (.record lsn payloadLen framedLen, buf) =>
        if some lsn ≠ r.expectedLsn then (none, { r with buf := buf, done := true })
        else
          let r' :=
            { r with buf := buf, offset := r.offset + framedLen, expectedLsn := checkedNext lsn }
          if lsn < r.start then next d r'
          else (some (.ok (lsn, slice buf recordHeaderSize (recordHeaderSize + payloadLen))), r')
      | (.cleanEnd, buf) | (.invalid, buf) =>
        match _ : advanceSegment d { r with buf := buf } with
        | (.ok true, r') => next d r'
        | (.ok false, r') => (none, { r' with done := true })
        | (.error e, r') => (some (.error (.io e)), { r' with done := true })
termination_by r.workLeft
decreasing_by
  · have := readRecordAt_record_bounds ‹_›
    simp only [workLeft]
    omega
  all_goals
    have := advanceSegment_workLeft ‹_›
    exact this.trans_le le_rfl

/-- A yielded record is work done. -/
theorem next_workLeft {d : Disk} {r r' : Reader} {x : ℕ × Bytes}
    (h : r.next d = (some (.ok x), r')) : r'.workLeft < r.workLeft := by
  fun_induction next d r with
  | case1 => simp at h
  | case2 => simp at h
  | case3 => simp at h
  | case4 r _ file _ lsn payloadLen framedLen buf hr _ r₁ hlt ih =>
    have := readRecordAt_record_bounds hr
    have hw : r₁.workLeft < r.workLeft := by
      simp only [r₁, workLeft]
      omega
    exact (ih h).trans hw
  | case5 r _ file _ lsn payloadLen framedLen buf hr _ r₁ hlt =>
    have := readRecordAt_record_bounds hr
    simp only [Prod.mk.injEq, Option.some.injEq, Except.ok.injEq] at h
    rw [← h.2]
    simp only [r₁, workLeft]
    omega
  | case6 r _ file _ buf _ r₁ ha ih => exact (ih h).trans ((advanceSegment_workLeft ha).trans_le le_rfl)
  | case7 => simp at h
  | case8 => simp at h
  | case9 r _ file _ buf _ r₁ ha ih => exact (ih h).trans ((advanceSegment_workLeft ha).trans_le le_rfl)
  | case10 => simp at h
  | case11 => simp at h

def drain (d : Disk) (r : Reader) : List (ℕ × Bytes) × Option WalError :=
  match _ : r.next d with
  | (none, _) => ([], none)
  | (some (.error e), _) => ([], some e)
  | (some (.ok x), r') => (x :: (drain d r').1, (drain d r').2)
termination_by r.workLeft
decreasing_by all_goals exact next_workLeft ‹_›

end

end Reader

end OpenWal
