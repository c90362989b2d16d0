import OpenWal.Theory.CheckedScan
import OpenWal.Theory.Scan

namespace OpenWal
open ByteSeq Posix CrashProg

def shownFrom (ss : ℕ) (file : Bytes) (x : ℕ) : Bytes := slice file x (min file.length ss)

theorem shownFrom_eq_visible (ss : ℕ) (file : Bytes) (x : ℕ) :
    shownFrom ss file x = visible ss file x := by
  apply List.ext_getElem?
  intro i
  rw [shownFrom, slice_getElem?, visible_getElem?]
  by_cases hi : x + i < file.length
  · congr 1
    simp only [eq_iff_iff]
    omega
  · rw [List.getElem?_eq_none (Nat.not_lt.mp hi)]
    split_ifs <;> rfl

/-- The scanner's answer, and what it leaves in its buffer, where the decoder finds `decoded`. -/
structure Answers (decoded : Decoded) (outcome : ScanOutcome) (buf : Bytes) : Prop where
  record : ∀ lsn n k, outcome = .record lsn n k ↔
    ∃ payload, payload.length = n ∧ decoded = .record lsn payload k
  payload : ∀ lsn payload k, decoded = .record lsn payload k →
    slice buf payloadOff (payloadOff + payload.length) = payload
  cleanEnd : outcome = .cleanEnd ↔ decoded = .sentinel
  invalid : outcome = .invalid ↔ decoded = .incomplete ∨ ∃ e, decoded = .invalid e

/-- By cases on what the decoder finds. -/
theorem answers_ofDecoded {decoded : Decoded} {buf : Bytes}
    (h : ∀ lsn payload k, decoded = .record lsn payload k →
      slice buf payloadOff (payloadOff + payload.length) = payload) :
    Answers decoded (.ofDecoded decoded) buf := by
  refine ⟨fun lsn n k => ?_, h, ?_, ?_⟩
  · constructor
    · intro ho
      cases decoded with
      | record lsn' payload k' =>
        simp only [ScanOutcome.ofDecoded, ScanOutcome.record.injEq] at ho
        obtain ⟨rfl, rfl, rfl⟩ := ho
        exact ⟨payload, rfl, rfl⟩
      | _ => simp [ScanOutcome.ofDecoded] at ho
    · rintro ⟨payload, rfl, rfl⟩
      rfl
  · cases decoded <;> simp [ScanOutcome.ofDecoded]
  · cases decoded <;> simp [ScanOutcome.ofDecoded]

section

variable [Crc32c]

/-- What the decoder finds is the payload behind the header of what it decodes. -/
theorem payload_of_decode {b payload : Bytes} {mx lsn k : ℕ} (h : decode b mx = .record lsn payload k) :
    slice (b.take k) payloadOff (payloadOff + payload.length) = payload := by
  obtain ⟨-, -, -, hv⟩ := decode_eq_record_iff.mp h
  exact hv.payload

theorem readRecordAt_answers (file buf : Bytes) (x ss mx : ℕ) (h : ¬ ss - x < recordHeaderSize) :
    Answers (decode (shownFrom ss file x) mx) (readRecordAt file x ss mx buf).1
      (readRecordAt file x ss mx buf).2 := by
  obtain ⟨houtcome, hbuf⟩ := readRecordAt_spec file x ss mx buf
  have hscan : scanAt ss mx file x = decode (visible ss file x) mx := if_neg h
  rw [hscan] at houtcome hbuf
  rw [shownFrom_eq_visible, houtcome]
  apply answers_ofDecoded
  intro lsn payload k hd
  obtain ⟨-, hk, -, -⟩ := decode_eq_record_iff.mp hd
  -- the record was found in what the segment shows, so it ends before the segment does
  have hin : x + k ≤ ss := by
    rw [visible_length] at hk
    unfold recordHeaderSize at h
    omega
  rw [hbuf _ _ _ hd, ← visible_take hin]
  exact payload_of_decode hd

/-- At every offset of every file, whatever the buffer held and however the reads come back,
the scanner answers a clean end without room for a header, and otherwise what the decoder
finds in the bytes the segment shows. -/
theorem scanner_eq_decoder [ShortReads] (config : WalConfig) (file : Bytes) (offset : ℕ)
    (buf : Bytes) (s : Audited World Touch) :
    ∃ outcome buf' audit,
      (Checked.readRecordAt file offset config.segmentSize config.maxRecordSize buf :
        Checked.Guarded WalError (ScanOutcome × Bytes)) s = (.ret (outcome, buf'), ⟨s.world, audit⟩) ∧
      readRecordAt file offset config.segmentSize config.maxRecordSize buf = (outcome, buf') ∧
      if config.segmentSize - offset < 20 then outcome = .cleanEnd
      else Answers (decode (slice file offset (min file.length config.segmentSize)) config.maxRecordSize)
        outcome buf' := by
  have haudits : Audits (Within config.segmentSize config.maxRecordSize)
      (Checked.readRecordAt file offset config.segmentSize config.maxRecordSize buf :
        Checked.Guarded WalError (ScanOutcome × Bytes))
      (pure (readRecordAt file offset config.segmentSize config.maxRecordSize buf)) :=
    Checked.readRecordAt_audits offset config.maxRecordSize_lt (le_u64Max_of_lt config.segmentSize_lt)
  obtain ⟨es, -, hrun⟩ := haudits s
  rcases hr : readRecordAt file offset config.segmentSize config.maxRecordSize buf with ⟨outcome, buf'⟩
  rw [hr] at hrun
  refine ⟨outcome, buf', _, hrun, rfl, ?_⟩
  split_ifs with hroom
  · have hclean : scanAt config.segmentSize config.maxRecordSize file offset = .sentinel := if_pos hroom
    have houtcome := (readRecordAt_spec file offset config.segmentSize config.maxRecordSize buf).1
    rw [hr, hclean] at houtcome
    exact houtcome
  · have ha := readRecordAt_answers file buf offset config.segmentSize config.maxRecordSize hroom
    rwa [hr] at ha

end

end OpenWal
