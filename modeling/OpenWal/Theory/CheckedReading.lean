import OpenWal.Model.CheckedWal
import OpenWal.Theory.CheckedScan
import OpenWal.Theory.Replay

namespace OpenWal
open ByteSeq Posix CrashProg

namespace Checked

variable {ε : Type} {ss mx : ℕ} {d : Disk} {r r' : Reader}

structure ReadsIn (ss mx : ℕ) (r : Reader) : Prop where
  segmentSize : r.segmentSize = ss
  maxRecordSize : r.maxRecordSize = mx
  few : r.segments.length ≤ u64Max
  here : ∀ file, r.file = some file → r.segIdx < r.segments.length

theorem advanceSegment_audits {P : Touch → Prop} (hr : r.segIdx < u64Max) :
    Audits P (advanceSegment d r : Guarded ε (Except IoError Bool × Reader))
      (pure (r.advanceSegment d)) := by
  rw [advanceSegment, addU64_eq hr, CheckedProg.pure_bind, Reader.advanceSegment]
  dsimp only
  cases hb : r.segments[r.segIdx + 1]? with
  | none =>
    rw [if_pos (List.getElem?_eq_none_iff.mp hb)]
    exact .ret _
  | some base =>
    obtain ⟨hlt, -⟩ := List.getElem?_eq_some_iff.mp hb
    rw [if_neg (Nat.not_le.mpr hlt), CheckedProg.index_eq hb, CheckedProg.pure_bind]
    dsimp only
    cases d.file (filenameFor base) with
    | none => exact .ret _
    | some f => exact .ret _

theorem ReadsIn.advanceSegment (h : ReadsIn ss mx r) (ha : r.advanceSegment d = (.ok true, r')) :
    ReadsIn ss mx r' := by
  unfold Reader.advanceSegment at ha
  dsimp only at ha
  split at ha
  · simp at ha
  · rename_i base hb
    split at ha
    · simp at ha
    · obtain ⟨-, rfl⟩ := Prod.mk.inj ha
      exact ⟨h.segmentSize, h.maxRecordSize, h.few, fun _ _ => (List.getElem?_eq_some_iff.mp hb).1⟩

variable [Crc32c]

/-- The payload of a record lies in the buffer it was read into. -/
theorem payload_bounds {file buf buf' : Bytes} {offset lsn n k : ℕ}
    (h : OpenWal.readRecordAt file offset ss mx buf = (.record lsn n k, buf')) :
    recordHeaderSize + n ≤ buf'.length ∧ offset + (recordHeaderSize + n) ≤ ss := by
  obtain ⟨payload, rfl, rfl, hf⟩ := readRecordAt_eq_record (congrArg Prod.fst h)
  obtain ⟨-, rfl⟩ := Prod.mk.inj ((readRecordAt_of_frameAt hf buf).symm.trans h)
  have hframed := le_framedSize payload.length
  have hss := hf.le_segment
  rw [slice_length_of_le hf.le_file]
  unfold recordHeaderSize
  omega

theorem next_of_closed (hdone : r.done = false) (hfile : r.file = none) :
    r.next d = (none, { r with done := true }) := by
  rw [Reader.next, if_neg (by simp [hdone])]
  split
  · rfl
  · rename_i hsome
    simp [hfile] at hsome

variable [ShortReads]

theorem nextLoop_audits (hmx : mx < 2 ^ 32) (hss : ss ≤ u64Max) {turns : ℕ} (h : ReadsIn ss mx r)
    (ht : r.workLeft < turns) :
    Audits (Within ss mx) (nextLoop d turns r : Guarded ε (Option (Except WalError (ℕ × Bytes)) × Reader))
      (pure (r.next d)) := by
  induction turns generalizing r with
  | zero => exact absurd ht (Nat.not_lt_zero _)
  -- each turn skips a record or opens a later segment: both leave less work
  | succ turns ih =>
    obtain ⟨segments, segIdx, file, offset, expectedLsn, start, ss', mx', buf, done⟩ := r
    obtain ⟨rfl, rfl, hfew, hhere⟩ := h
    rw [nextLoop]
    dsimp only at hmx hss hfew hhere ⊢
    cases done with
    | true =>
      rw [Reader.next, if_pos rfl, if_pos rfl]
      exact .ret _
    | false =>
      rw [if_neg Bool.false_ne_true]
      cases file with
      | none =>
        rw [next_of_closed rfl rfl]
        exact .ret _
      | some file =>
        refine (readRecordAt_audits offset hmx hss).bind_pure ?_
        rcases hr : OpenWal.readRecordAt file offset _ _ buf with ⟨outcome, buf'⟩
        cases outcome with
        | record lsn n k =>
          obtain ⟨hleast, hmost⟩ := readRecordAt_record_bounds hr
          obtain ⟨hlong, hpayload⟩ := payload_bounds hr
          dsimp only
          by_cases hexp : some lsn = expectedLsn
          · rw [if_neg (not_not.mpr hexp), next_of_record rfl rfl hr hexp, addU64_eq (by omega),
              CheckedProg.pure_bind]
            refine .cond_pure (fun _ => ih ⟨rfl, rfl, hfew, hhere⟩ ?_) fun _ => ?_
            · simp only [Reader.workLeft] at ht ⊢
              omega
            · rw [addU64_eq (by omega), CheckedProg.pure_bind, slice_bind (Nat.le_add_right _ _) hlong]
              exact .ret _
          · rw [if_pos hexp, next_of_other rfl rfl hr hexp]
            exact .ret _
        | cleanEnd | invalid =>
          rw [next_of_end rfl rfl hr (by simp)]
          have hhere' := hhere file rfl
          refine (advanceSegment_audits (by dsimp only; omega)).bind_pure ?_
          dsimp only
          rcases ha : Reader.advanceSegment d _ with ⟨e | more, r'⟩
          · exact .ret _
          · cases more with
            | false => exact .ret _
            | true =>
              have hless := Reader.advanceSegment_workLeft ha
              have hin : ReadsIn ss' mx'
                  ⟨segments, segIdx, some file, offset, expectedLsn, start, ss', mx', buf', false⟩ :=
                ⟨rfl, rfl, hfew, hhere⟩
              exact ih (hin.advanceSegment ha) (hless.trans_le (Nat.lt_succ_iff.mp ht))

theorem next_audits (hmx : mx < 2 ^ 32) (hss : ss ≤ u64Max) (h : ReadsIn ss mx r) :
    Audits (Within ss mx) (next d r : Guarded ε (Option (Except WalError (ℕ × Bytes)) × Reader))
      (pure (r.next d)) :=
  nextLoop_audits hmx hss h (Nat.lt_succ_self _)

omit [ShortReads] in
theorem ReadsIn.next {x : ℕ × Bytes} (h : ReadsIn ss mx r) (hn : r.next d = (some (.ok x), r')) :
    ReadsIn ss mx r' := by
  fun_induction Reader.next d r with
  | case4 r _ file hfile l n k buf hr hexp r₁ hlt ih =>
    exact ih ⟨h.segmentSize, h.maxRecordSize, h.few, h.here⟩ hn
  | case5 r _ file hfile l n k buf hr hexp r₁ hge =>
    obtain ⟨-, rfl⟩ := Prod.mk.inj hn
    exact ⟨h.segmentSize, h.maxRecordSize, h.few, h.here⟩
  | case6 r _ file _ buf _ r₁ ha ih | case9 r _ file _ buf _ r₁ ha ih =>
    have hbuf : ReadsIn ss mx { r with buf := buf } :=
      ⟨h.segmentSize, h.maxRecordSize, h.few, h.here⟩
    exact ih (hbuf.advanceSegment ha) hn
  | _ => simp at hn

theorem drainLoop_audits (hmx : mx < 2 ^ 32) (hss : ss ≤ u64Max) {turns : ℕ} (h : ReadsIn ss mx r)
    (ht : r.workLeft < turns) :
    Audits (Within ss mx) (drainLoop d turns r : Guarded ε (List (ℕ × Bytes) × Option WalError))
      (pure (r.drain d)) := by
  induction turns generalizing r with
  | zero => exact absurd ht (Nat.not_lt_zero _)
  | succ turns ih =>
    rw [drainLoop, Reader.drain]
    refine (next_audits hmx hss h).bind_pure ?_
    rcases hn : Reader.next d r with ⟨_ | e | x, r'⟩
    · exact .ret _
    · exact .ret _
    · have hless := Reader.next_workLeft hn
      exact (ih (h.next hn) (by omega)).bind_pure (.ret _)

omit [Crc32c] [ShortReads] in
theorem containingSegmentIdx_lt {bases : List ℕ} (hne : bases ≠ []) (start : ℕ) :
    containingSegmentIdx bases start < bases.length := by
  have hle := (List.takeWhile_prefix (fun b => decide (b ≤ start)) (l := bases)).length_le
  have hpos := List.length_pos_of_ne_nil hne
  unfold containingSegmentIdx partitionPoint
  omega

/-- A handle with the segments of a log, replayed against any directory. -/
theorem replay_audits {w : Wal} (hmx : w.maxRecordSize < 2 ^ 32) (hss : w.segmentSize ≤ u64Max)
    (hne : w.segments ≠ []) (hfew : w.segments.length ≤ u64Max) (start : ℕ) :
    Audits (Within w.segmentSize w.maxRecordSize) (replay w d start) (OpenWal.replay w d start) := by
  unfold replay OpenWal.replay readerFrom OpenWal.readerFrom
  by_cases hold : start ≠ 0 ∧ start < w.oldestLsn
  · rw [if_pos hold, if_pos hold]
    exact .raise _
  · rw [if_neg hold, if_neg hold]
    generalize (if start = 0 then lsnFirst else start) = effective
    have hlt := containingSegmentIdx_lt hne effective
    dsimp only
    generalize containingSegmentIdx w.segments effective = idx at hlt ⊢
    have hbase := List.getElem?_eq_getElem hlt
    rw [CheckedProg.index_eq hbase, CheckedProg.pure_bind, hbase]
    dsimp only
    cases d.file (filenameFor w.segments[idx]) with
    | none => exact .raise _
    | some first =>
      dsimp only
      have hnew : Reader.new w.segments idx first.data effective w.segmentSize w.maxRecordSize =
          { Reader.new w.segments idx first.data effective w.segmentSize w.maxRecordSize with
            expectedLsn := some w.segments[idx] } := by
        rw [← hbase]
        rfl
      rw [CheckedProg.pure_bind, CheckedProg.pure_bind, ← hnew]
      exact drainLoop_audits hmx hss ⟨rfl, rfl, hfew, fun _ _ => hlt⟩ (Nat.lt_succ_self _)

end Checked

end OpenWal
