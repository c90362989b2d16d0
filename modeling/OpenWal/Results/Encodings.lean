import OpenWal.Theory.Headers
import OpenWal.Theory.Packing

namespace OpenWal
open ByteSeq

section

variable [Crc32c]

def encodeAll (buf : Bytes) : List (ℕ × Bytes) → Bytes × List ℕ
  | [] => (buf, [])
  | (lsn, payload) :: rs =>
    let (buf, framed) := encodeInto buf lsn payload
    let (buf, sizes) := encodeAll buf rs
    (buf, framed :: sizes)

def decodeAll (maxRecordSize : ℕ) : ℕ → Bytes → Option (List (ℕ × Bytes) × Bytes)
  | 0, buf => some ([], buf)
  | n + 1, buf =>
    match decode buf maxRecordSize with
    | .record lsn payload framedLen =>
      (decodeAll maxRecordSize n (buf.drop framedLen)).map fun (rs, rest) => ((lsn, payload) :: rs, rest)
    | _ => none

omit [Crc32c] in
def peekAll : ℕ → Bytes → List (ℕ × ℕ) × Bytes
  | 0, buf => ([], buf)
  | n + 1, buf =>
    let (lsn, framed) := peek buf
    let (ps, rest) := peekAll n (buf.drop framed)
    ((lsn, framed) :: ps, rest)

def encodeRecords (rs : List (ℕ × Bytes)) : Bytes := rs.flatMap fun r => encodeFrame r.1 r.2

omit [Crc32c] in
def boundaries (rs : List (ℕ × Bytes)) : List (ℕ × ℕ) := rs.map fun r => (r.1, framedSize r.2.length)

variable {mx : ℕ} {rs : List (ℕ × Bytes)}

theorem encodeAll_eq (buf : Bytes) (rs : List (ℕ × Bytes)) :
    encodeAll buf rs = (buf ++ encodeRecords rs, (boundaries rs).map Prod.snd) := by
  induction rs generalizing buf with
  | nil => simp [encodeAll, encodeRecords, boundaries]
  | cons r rs ih =>
    simp only [encodeAll, encodeInto_eq, ih]
    simp [encodeRecords, boundaries]

theorem decodeAll_encodeRecords (hmx : mx < 2 ^ 32) (rest : Bytes)
    (hrs : ∀ r ∈ rs, r.1 ≤ u64Max ∧ r.2.length ≤ mx) :
    decodeAll mx rs.length (encodeRecords rs ++ rest) = some (rs, rest) := by
  induction rs with
  | nil => rfl
  | cons r rs ih =>
    obtain ⟨hr, hrs⟩ := List.forall_mem_cons.mp hrs
    have hd := decode_encodeFrame (encodeRecords rs ++ rest) (lt_two_pow_of_le_u64Max hr.1) hmx hr.2
    rw [show encodeRecords (r :: rs) ++ rest = encodeFrame r.1 r.2 ++ (encodeRecords rs ++ rest) by
      simp [encodeRecords], List.length_cons, decodeAll, hd]
    simp only
    rw [← encodeFrame_length r.1 r.2, List.drop_left, ih hrs, Option.map_some]

theorem peekAll_encodeRecords (hmx : mx < 2 ^ 32) (rest : Bytes)
    (hrs : ∀ r ∈ rs, r.1 ≤ u64Max ∧ r.2.length ≤ mx) :
    peekAll rs.length (encodeRecords rs ++ rest) = (boundaries rs, rest) := by
  induction rs with
  | nil => rfl
  | cons r rs ih =>
    obtain ⟨hr, hrs⟩ := List.forall_mem_cons.mp hrs
    have hp := peek_encodeFrame (encodeRecords rs ++ rest) hr.1 (hr.2.trans_lt hmx)
    rw [show encodeRecords (r :: rs) ++ rest = encodeFrame r.1 r.2 ++ (encodeRecords rs ++ rest) by
      simp [encodeRecords], List.length_cons, peekAll, hp]
    simp only
    rw [← encodeFrame_length r.1 r.2, List.drop_left, ih hrs]
    simp [boundaries]

/-- Records encoded one after another are decoded and peeked at as they were, whatever
lies before and behind them; the three computations of a framed size agree. -/
theorem record_stream_round_trip (hmx : mx < 2 ^ 32) (buf rest : Bytes)
    (hrs : ∀ r ∈ rs, r.1 ≤ u64Max ∧ r.2.length ≤ mx) :
    decodeAll mx rs.length (((encodeAll buf rs).1 ++ rest).drop buf.length) = some (rs, rest) ∧
      peekAll rs.length (((encodeAll buf rs).1 ++ rest).drop buf.length) = (boundaries rs, rest) ∧
      (encodeAll buf rs).2 = (boundaries rs).map Prod.snd ∧
      ∀ r ∈ rs,
        (encodeInto buf r.1 r.2).2 = framedSize r.2.length ∧
        framedSizeU64 r.2.length = framedSize r.2.length ∧
        8 ∣ framedSize r.2.length ∧
        r.2.length + 20 ≤ framedSize r.2.length ∧ framedSize r.2.length ≤ r.2.length + 27 ∧
        decode ((encodeInto [] r.1 r.2).1 ++ rest) mx ≠ .sentinel := by
  have hfront : ((encodeAll buf rs).1 ++ rest).drop buf.length = encodeRecords rs ++ rest := by
    rw [encodeAll_eq, List.append_assoc, List.drop_left]
  refine ⟨?_, ?_, by rw [encodeAll_eq], fun r hr => ⟨by rw [encodeInto_eq], framedSizeU64_eq _, ?_, ?_,
    framedSize_le _, ?_⟩⟩
  · rw [hfront]
    exact decodeAll_encodeRecords hmx rest hrs
  · rw [hfront]
    exact peekAll_encodeRecords hmx rest hrs
  · exact Nat.dvd_of_mod_eq_zero (framedSize_mod _)
  · have := le_framedSize r.2.length
    omega
  · rw [encodeInto_eq, List.nil_append,
      decode_encodeFrame rest (lt_two_pow_of_le_u64Max (hrs r hr).1) hmx (hrs r hr).2]
    simp

end

/-- Two records, the first numbered `u64::MAX`, behind one byte and before another. -/
theorem record_stream_round_trip_twoRecords :
    decodeAll 16 2 (((encodeAll [9] [(u64Max, [1, 2, 3]), (1, [])]).1 ++ [8]).drop 1) =
      some ([(u64Max, [1, 2, 3]), (1, [])], [8]) :=
  (@record_stream_round_trip _ 16 [(u64Max, [1, 2, 3]), (1, [])] (by decide) [9] [8] (by decide)).1

section

variable [Crc32c]

/-- `b` starts with the encoder's record, but for the reserved bytes, the padding and the
checksum that covers them. -/
structure LikeRecord (b : Bytes) (lsn : ℕ) (payload : Bytes) (n : ℕ) : Prop where
  framed : n = (encodeInto [] lsn payload).2
  inside : n ≤ b.length
  head : AgreeOn b (encodeInto [] lsn payload).1 4 17
  body : AgreeOn b (encodeInto [] lsn payload).1 20 (20 + payload.length)
  checksum : leNat (slice b 0 4) = (crc32c (slice b 4 n)).toNat
  exact_iff : b.take n = (encodeInto [] lsn payload).1 ↔
    ZeroOn b 17 20 ∧ ZeroOn b (20 + payload.length) n

structure LikeHeader (b : Bytes) (base : ℕ) : Prop where
  inside : headerSize ≤ b.length
  start : AgreeOn b (encodeHeader base (createdOf b)) 0 10
  middle : AgreeOn b (encodeHeader base (createdOf b)) 12 28
  checksum : leNat (slice b 60 64) = (crc32c (slice b 0 60)).toNat
  exact_iff : (∃ created ≤ u64Max, b.take headerSize = encodeHeader base created) ↔
    ZeroOn b 10 12 ∧ ZeroOn b 28 60

variable {b payload : Bytes} {mx lsn n base : ℕ}

theorem likeRecord_of_decode (h : decode b mx = .record lsn payload n) : LikeRecord b lsn payload n := by
  obtain ⟨hn, hle, hmx, hv⟩ := decode_eq_record_iff.mp h
  have he := encodeFrame_validFrame (lt_two_pow_of_le_u64Max hv.lsn_le) hv.length_lt
  have hlen : (b.take n).length = n := List.length_take_of_le hle
  have hl := hv.le_length
  rw [hlen] at hl
  have hagree : AgreeOn (b.take n) b 0 n := agreeOn_of_slice_eq (slice_take le_rfl)
  have hcrc := hv.crc
  rw [hlen, slice_take le_rfl, slice_take (by omega)] at hcrc
  have henc : (encodeInto [] lsn payload).1 = encodeFrame lsn payload := by
    rw [encodeInto_eq, List.nil_append]
  constructor
  · rw [encodeInto_eq, hn]
  · exact hle
  · have ha : AgreeOn (b.take n) (encodeFrame lsn payload) 4 17 :=
      agreeOn_of_slice_eq (hv.slice_head.trans he.slice_head.symm)
    rw [henc]
    exact (hagree.symm.mono (by omega) (by omega)).trans ha
  · have ha : AgreeOn (b.take n) (encodeFrame lsn payload) 20 (20 + payload.length) :=
      agreeOn_of_slice_eq (hv.payload.trans he.payload.symm)
    rw [henc]
    exact (hagree.symm.mono (by omega) hl).trans ha
  · exact hcrc.symm
  · rw [henc]
    constructor
    · intro heq
      obtain ⟨hr, hp⟩ := encodeFrame_zeroOn lsn payload
      rw [← heq, ← hn] at hp
      rw [← heq] at hr
      exact ⟨hr.congr (hagree.mono (by omega) (by omega)), hp.congr (hagree.mono (by omega) le_rfl)⟩
    · rintro ⟨hr, hp⟩
      apply hv.eq_encodeFrame (hr.congr (hagree.symm.mono (by omega) (by omega)))
      rw [hlen]
      exact hp.congr (hagree.symm.mono (by omega) le_rfl)

theorem likeHeader_of_decodeHeader (h : decodeHeader b = .ok base) : LikeHeader b base := by
  obtain ⟨hl, _, hcrc, _, _, _⟩ := decodeHeader_eq_ok_iff.mp h
  obtain ⟨hpos, hmax⟩ := decodeHeader_ok_pos h
  have he := decodeHeader_encodeHeader hpos hmax (createdOf b)
  obtain ⟨hstart, hmid⟩ := slices_of_decodeHeader h
  obtain ⟨hstart', hmid'⟩ := slices_of_decodeHeader he
  rw [createdOf_encodeHeader (createdOf_le b)] at hmid'
  constructor
  · exact hl
  · exact agreeOn_of_slice_eq (hstart.trans hstart'.symm)
  · exact agreeOn_of_slice_eq (hmid.trans hmid'.symm)
  · exact hcrc.symm
  · constructor
    · rintro ⟨created, _, heq⟩
      have hagree : AgreeOn (encodeHeader base created) b 0 headerSize :=
        heq ▸ agreeOn_of_slice_eq (slice_take le_rfl)
      obtain ⟨hf, hr⟩ := encodeHeader_zeroOn base created
      exact ⟨hf.congr (hagree.mono (by decide) (by decide)),
        hr.congr (hagree.mono (by decide) (by decide))⟩
    · rintro ⟨hf, hr⟩
      exact ⟨createdOf b, createdOf_le b, eq_encodeHeader h hf hr⟩

/-- What the decoders accept, against what the encoders write. -/
theorem accepted_encodings :
    (∀ (b : Bytes) (mx lsn : ℕ) (payload : Bytes) (n : ℕ),
      decode b mx = .record lsn payload n → LikeRecord b lsn payload n) ∧
    ∀ (b : Bytes) (base : ℕ), decodeHeader b = .ok base → LikeHeader b base := by
  constructor
  · intro b mx lsn payload n h
    exact likeRecord_of_decode h
  · intro b base h
    exact likeHeader_of_decodeHeader h

end

def flaggedRecord : Bytes :=
  let body := leBytes 4 1 ++ leBytes 8 1 ++ [recTypeFull] ++ [1] ++ zeros 2 ++ [7] ++ [0, 0, 5]
  leBytes 4 (crc32c body).toNat ++ body

def flaggedHeader : Bytes :=
  let body := magic ++ leBytes 2 formatVersion ++ [1, 0] ++ leBytes 8 1 ++ leBytes 8 0 ++ [5] ++ zeros 31
  body ++ leBytes 4 (crc32c body).toNat

theorem flaggedRecord_decoded : decode flaggedRecord 16 = .record 1 [7] 24 := by decide +kernel

theorem flaggedHeader_decoded : decodeHeader flaggedHeader = .ok 1 := by decide +kernel

theorem flagged_accepted :
    (decode flaggedRecord 16 = .record 1 [7] 24 ∧
      flaggedRecord.take 24 ≠ (encodeInto [] 1 [7]).1) ∧
    decodeHeader flaggedHeader = .ok 1 ∧
      ∀ created ≤ u64Max, flaggedHeader.take headerSize ≠ encodeHeader 1 created := by
  refine ⟨⟨flaggedRecord_decoded, by decide +kernel⟩, flaggedHeader_decoded, fun created _ h => ?_⟩
  have hz := (encodeHeader_zeroOn 1 created).1 10 (by decide) (by decide)
  rw [← h] at hz
  exact absurd hz (by decide +kernel)

theorem accepted_encodings_flagged :
    LikeRecord flaggedRecord 1 [7] 24 ∧ LikeHeader flaggedHeader 1 :=
  ⟨accepted_encodings.1 flaggedRecord 16 1 [7] 24 flaggedRecord_decoded,
    accepted_encodings.2 flaggedHeader 1 flaggedHeader_decoded⟩

end OpenWal
