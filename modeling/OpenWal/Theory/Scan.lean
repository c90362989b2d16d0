import OpenWal.Theory.Frames
import OpenWal.Model.Segment

namespace OpenWal
open ByteSeq

def visible (ss : ℕ) (file : Bytes) (x : ℕ) : Bytes := (file.take ss).drop x

theorem visible_length (ss : ℕ) (file : Bytes) (x : ℕ) :
    (visible ss file x).length = min ss file.length - x := by
  simp [visible]

theorem visible_getElem? (ss : ℕ) (file : Bytes) (x i : ℕ) :
    (visible ss file x)[i]? = if x + i < ss then file[x + i]? else none := by
  simp only [visible, List.getElem?_drop, List.getElem?_take]

theorem visible_take {ss x n : ℕ} {file : Bytes} (h : x + n ≤ ss) :
    (visible ss file x).take n = slice file x (x + n) := by
  apply List.ext_getElem?
  intro i
  simp only [List.getElem?_take, visible_getElem?, slice_getElem?, Nat.add_sub_cancel_left]
  split_ifs <;> first | rfl | omega

theorem visible_zeroOn_iff {ss x n : ℕ} {file : Bytes} (h : x + n ≤ ss) :
    ZeroOn (visible ss file x) 0 n ↔ ZeroOn file x (x + n) := by
  constructor
  · intro hz i hx hi
    have := hz (i - x) (by omega) (by omega)
    rwa [visible_getElem?, if_pos (by omega), Nat.add_sub_cancel' hx] at this
  · intro hz i _ hi
    rw [visible_getElem?, if_pos (by omega)]
    exact hz (x + i) (by omega) (by omega)

theorem readFullAt_of_le {file buf : Bytes} {x : ℕ} (h : x + buf.length ≤ file.length) :
    readFullAt file buf x = (true, slice file x (x + buf.length)) := by
  have hl : (slice file x (x + buf.length)).length = buf.length := by
    rw [slice_length_of_le h, Nat.add_sub_cancel_left]
  simp [readFullAt, hl]

theorem readFullAt_of_short {file buf : Bytes} {x : ℕ} (h : file.length < x + buf.length)
    (hb : 0 < buf.length) : (readFullAt file buf x).1 = false := by
  simp only [readFullAt, slice_length, decide_eq_false_iff_not]
  omega

theorem readFullAt_eq_true {file buf b : Bytes} {x : ℕ} (h : readFullAt file buf x = (true, b)) :
    b = slice file x (x + buf.length) := by
  simp only [readFullAt, Prod.mk.injEq, decide_eq_true_eq] at h
  rw [← h.2, h.1, List.drop_length, List.append_nil]

theorem resize_length (buf : Bytes) (n : ℕ) : (resize buf n).length = n := by
  simp only [resize, List.length_append, List.length_take, zeros_length]
  omega

theorem resize_take {buf : Bytes} {n : ℕ} (h : buf.length ≤ n) :
    (resize buf n).take buf.length = buf := by
  rw [resize, List.take_of_length_le h, List.take_left]

def ScanOutcome.ofDecoded : Decoded → ScanOutcome
  | .record lsn payload n => .record lsn payload.length n
  | .sentinel => .cleanEnd
  | _ => .invalid

section

variable [Crc32c]

def scanAt (ss mx : ℕ) (file : Bytes) (x : ℕ) : Decoded :=
  if ss - x < recordHeaderSize then .sentinel else decode (visible ss file x) mx

/-- A record is decoded alike from its own bytes and from all that follows. -/
theorem decode_take_eq_record {b payload : Bytes} {mx n k : ℕ} {lsn : ℕ}
    (h : decode (b.take k) mx = .record lsn payload n) : decode b mx = .record lsn payload n := by
  obtain ⟨hn, hle, hmx, hv⟩ := decode_eq_record_iff.mp h
  rw [List.length_take] at hle
  rw [List.take_take, Nat.min_eq_left (by omega)] at hv
  exact decode_eq_record_iff.mpr ⟨hn, by omega, hmx, hv⟩

section

variable {file : Bytes} {x ss mx n : ℕ}

omit [Crc32c] in
theorem head_length (hle : x + 20 ≤ file.length) : (slice file x (x + 20)).length = 20 := by
  rw [slice_length_of_le hle, Nat.add_sub_cancel_left]

omit [Crc32c] in
/-- The header stays where it is when the buffer is resized for the record. -/
theorem resize_head_take (hle : x + 20 ≤ file.length) (hn : 20 ≤ n) :
    (resize (slice file x (x + 20)) n).take recordHeaderSize = slice file x (x + 20) := by
  have hl := head_length hle
  have ht : (resize (slice file x (x + 20)) n).take (slice file x (x + 20)).length = _ :=
    resize_take (by omega)
  rwa [hl] at ht

omit [Crc32c] in
theorem resize_tail_length (b : Bytes) (n : ℕ) :
    (slice (resize b n) recordHeaderSize n).length = n - 20 := by
  rw [slice_length_of_le (by rw [resize_length])]
  rfl

omit [Crc32c] in
/-- The header and what is read behind it are the record's bytes. -/
theorem slice_head_append (hn : 20 ≤ n) : slice file x (x + 20) ++
    slice file (x + recordHeaderSize) (x + recordHeaderSize + (n - 20)) = slice file x (x + n) := by
  rw [show x + recordHeaderSize + (n - 20) = x + n by simp only [recordHeaderSize]; omega]
  exact slice_append_slice file (by omega) (by omega)

omit [Crc32c] in
theorem readFullAt_header (hle : x + 20 ≤ file.length) (buf : Bytes) :
    readFullAt file (resize buf recordHeaderSize) x = (true, slice file x (x + 20)) := by
  have hr : (resize buf recordHeaderSize).length = 20 := resize_length buf 20
  rw [readFullAt_of_le (by rw [hr]; exact hle), hr]

/-- The header alone tells whether the records end here. -/
theorem decode_head_eq_sentinel_iff (hss : x + 20 ≤ ss) (hle : x + 20 ≤ file.length) :
    decode ((slice file x (x + 20)).take recordHeaderSize) mx = .sentinel ↔
      decode (visible ss file x) mx = .sentinel := by
  rw [List.take_of_length_le (by rw [head_length hle]; rfl), decode_eq_sentinel_iff,
    decode_eq_sentinel_iff, visible_zeroOn_iff hss, ← visible_take hss]
  constructor
  · intro hz
    rw [← visible_zeroOn_iff hss]
    intro i h0 hi
    rw [← hz i h0 hi, List.getElem?_take_of_lt hi]
  · intro hz i h0 hi
    rw [List.getElem?_take_of_lt hi]
    exact (visible_zeroOn_iff hss).mpr hz i h0 hi

theorem readRecordAt_of_cut (hss : x + 20 ≤ ss) (hf : file.length < x + 20) (buf : Bytes) :
    (readRecordAt file x ss mx buf).1 = .invalid ∧ decode (visible ss file x) mx = .incomplete := by
  have h20 : ¬ ss - x < recordHeaderSize := by simp only [recordHeaderSize]; omega
  have hr : (resize buf recordHeaderSize).length = 20 := resize_length buf 20
  have hshort := readFullAt_of_short (x := x) (hr ▸ hf) (by omega)
  have hd : decode (visible ss file x) mx = .incomplete := decode_of_short (by
    rw [visible_length]
    omega)
  refine ⟨?_, hd⟩
  rcases hr' : readFullAt file (resize buf recordHeaderSize) x with ⟨ok, b⟩
  rw [hr'] at hshort
  simp only at hshort
  subst hshort
  simp only [readRecordAt, h20, if_false, hr']

theorem readRecordAt_of_sentinel (hss : x + 20 ≤ ss) (hle : x + 20 ≤ file.length)
    (hs : decode (visible ss file x) mx = .sentinel) (buf : Bytes) :
    (readRecordAt file x ss mx buf).1 = .cleanEnd := by
  have h20 : ¬ ss - x < recordHeaderSize := by simp only [recordHeaderSize]; omega
  simp only [readRecordAt, h20, if_false, readFullAt_header hle,
    (decode_head_eq_sentinel_iff hss hle).mpr hs, if_true]

/-- The header states the length, and the second read is of all that is left of the record. -/
theorem readRecordAt_of_record {lsn : ℕ} {payload : Bytes} (hss : x + 20 ≤ ss)
    (hle : x + 20 ≤ file.length) (hd : decode (visible ss file x) mx = .record lsn payload n)
    (buf : Bytes) :
    readRecordAt file x ss mx buf = (.record lsn payload.length n, slice file x (x + n)) := by
  have h20 : ¬ ss - x < recordHeaderSize := by simp only [recordHeaderSize]; omega
  have hs' : ¬ decode ((slice file x (x + 20)).take recordHeaderSize) mx = .sentinel := by
    rw [decode_head_eq_sentinel_iff hss hle, hd]
    simp
  obtain ⟨hn, hnv, hmx, hv⟩ := decode_eq_record_iff.mp hd
  have hn20 := le_framedSize payload.length
  rw [visible_length] at hnv
  have hlen : leNat (slice (slice file x (x + 20)) 4 8) = payload.length := by
    have := hv.lengthField
    rwa [slice_take (by simp only [lenOff]; omega), ← slice_take (show lenOff + 4 ≤ 20 by decide),
      visible_take hss] at this
  have hdn : decode ((slice file x (x + n)).take n) mx = .record lsn payload n := by
    refine decode_eq_record_iff.mpr ⟨hn, ?_, hmx, ?_⟩
    · rw [List.length_take, slice_length]
      omega
    · have hvn : (visible ss file x).take n = slice file x (x + n) := visible_take (by omega)
      rwa [List.take_take, Nat.min_self, ← hvn, List.take_take, Nat.min_self]
  have hread : readFullAt file (slice (resize (slice file x (x + 20)) n) recordHeaderSize n)
      (x + recordHeaderSize) =
      (true, slice file (x + recordHeaderSize) (x + recordHeaderSize + (n - 20))) := by
    rw [readFullAt_of_le (by rw [resize_tail_length]; simp only [recordHeaderSize]; omega),
      resize_tail_length]
  have hrem : ¬ n > ss - x := by omega
  simp only [readRecordAt, h20, if_false, readFullAt_header hle, hs', hlen, Nat.not_lt.mpr hmx,
    framedSizeU64_eq, ← hn, hrem, hread, resize_head_take hle (show 20 ≤ n by omega),
    slice_head_append (show 20 ≤ n by omega), hdn]

/-- Whatever the second read finds, it is decoded from the record's own bytes. -/
theorem readRecordAt_of_none (hss : x + 20 ≤ ss) (hle : x + 20 ≤ file.length)
    (hs : decode (visible ss file x) mx ≠ .sentinel)
    (hrec : ∀ lsn payload n, decode (visible ss file x) mx ≠ .record lsn payload n) (buf : Bytes) :
    (readRecordAt file x ss mx buf).1 = .invalid := by
  have h20 : ¬ ss - x < recordHeaderSize := by simp only [recordHeaderSize]; omega
  have hs' := mt (decode_head_eq_sentinel_iff hss hle).mp hs
  simp only [readRecordAt, h20, if_false, readFullAt_header hle, hs']
  split
  · rfl
  rename_i hmx
  split
  · rfl
  rename_i hfr
  split
  · rfl
  rename_i tail ht
  have hn20 : 20 ≤ framedSizeU64 (leNat (slice (slice file x (x + 20)) 4 8)) := by
    rw [framedSizeU64_eq]
    exact (Nat.le_add_right _ _).trans (le_framedSize _)
  have htl := readFullAt_eq_true ht
  rw [resize_tail_length] at htl
  rw [resize_head_take hle hn20, htl, slice_head_append hn20]
  set n := framedSizeU64 (leNat (slice (slice file x (x + 20)) 4 8))
  have hvn : (visible ss file x).take n = slice file x (x + n) := visible_take (by omega)
  split
  · rename_i lsn payload n hd
    rw [← hvn, List.take_take, Nat.min_self] at hd
    exact absurd (decode_take_eq_record hd) (hrec lsn payload n)
  · rfl

end

/-- Reading at an offset is decoding what the segment shows there, and a record that is read is
in the buffer. -/
theorem readRecordAt_spec (file : Bytes) (x ss mx : ℕ) (buf : Bytes) :
    (readRecordAt file x ss mx buf).1 = .ofDecoded (scanAt ss mx file x) ∧
      ∀ lsn payload n, scanAt ss mx file x = .record lsn payload n →
        (readRecordAt file x ss mx buf).2 = slice file x (x + n) := by
  by_cases h20 : ss - x < recordHeaderSize
  · simp [readRecordAt, scanAt, h20, ScanOutcome.ofDecoded]
  have hss : x + 20 ≤ ss := by simp only [recordHeaderSize] at h20; omega
  rw [scanAt, if_neg h20]
  by_cases hf : file.length < x + 20
  · have hcut : (readRecordAt file x ss mx buf).1 = .invalid ∧
        decode (visible ss file x) mx = .incomplete := readRecordAt_of_cut hss hf buf
    rw [hcut.1, hcut.2]
    exact ⟨rfl, by simp⟩
  have hle : x + 20 ≤ file.length := Nat.not_lt.mp hf
  rcases hd : decode (visible ss file x) mx with ⟨lsn, payload, n⟩ | _ | _ | e
  · rw [readRecordAt_of_record hss hle hd]
    refine ⟨rfl, ?_⟩
    rintro _ _ _ ⟨⟩
    rfl
  · rw [readRecordAt_of_sentinel hss hle hd]
    exact ⟨rfl, by simp⟩
  · rw [readRecordAt_of_none hss hle (by simp [hd]) (by simp [hd])]
    exact ⟨rfl, by simp⟩
  · rw [readRecordAt_of_none hss hle (by simp [hd]) (by simp [hd])]
    exact ⟨rfl, by simp⟩

end

end OpenWal
