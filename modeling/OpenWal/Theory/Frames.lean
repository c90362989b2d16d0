import OpenWal.Model.Record

namespace OpenWal
open ByteSeq

theorem paddingForU64_eq (n : ℕ) : paddingForU64 n = paddingFor n := by
  simp only [paddingForU64, paddingFor, recordHeaderSize]
  omega

theorem framedSizeU64_eq (n : ℕ) : framedSizeU64 n = framedSize n := by
  rw [framedSizeU64, paddingForU64_eq, framedSize]

theorem paddingFor_lt (n : ℕ) : paddingFor n < 8 := Nat.mod_lt _ (by decide)

theorem framedSize_eq (n : ℕ) : framedSize n = 20 + n + paddingFor n := rfl

theorem le_framedSize (n : ℕ) : 20 + n ≤ framedSize n := Nat.le_add_right _ _

theorem framedSize_le (n : ℕ) : framedSize n ≤ n + 27 := by
  have := paddingFor_lt n
  rw [framedSize_eq]
  omega

theorem framedSize_pos (n : ℕ) : 0 < framedSize n := by
  have := le_framedSize n
  omega

theorem framedSize_mod (n : ℕ) : framedSize n % 8 = 0 := by
  simp only [framedSize, paddingFor, recordHeaderSize]
  omega

section

variable [Crc32c]

def frameBody (lsn : ℕ) (payload : Bytes) : Bytes :=
  leBytes 4 payload.length ++ leBytes 8 lsn ++ [recTypeFull] ++ [0] ++ zeros 2 ++ payload ++
    zeros (paddingFor payload.length)

def encodeFrame (lsn : ℕ) (payload : Bytes) : Bytes :=
  leBytes 4 (crc32c (frameBody lsn payload)).toNat ++ frameBody lsn payload

omit [Crc32c] in
theorem frameBody_length (lsn : ℕ) (payload : Bytes) :
    (frameBody lsn payload).length + 4 = framedSize payload.length := by
  simp only [frameBody, List.length_append, leBytes_length, zeros_length, List.length_cons,
    List.length_nil, framedSize_eq]
  omega

@[simp] theorem encodeFrame_length (lsn : ℕ) (payload : Bytes) :
    (encodeFrame lsn payload).length = framedSize payload.length := by
  rw [← frameBody_length lsn payload, encodeFrame, List.length_append, leBytes_length]
  omega

theorem encodeInto_eq (buf : Bytes) (lsn : ℕ) (payload : Bytes) :
    encodeInto buf lsn payload = (buf ++ encodeFrame lsn payload, framedSize payload.length) := by
  have hz : zeroPad.take (paddingFor payload.length) = zeros (paddingFor payload.length) := by
    have := paddingFor_lt payload.length
    simp only [zeroPad, zeros, List.take_replicate]
    congr 1
    omega
  have hlaid : buf ++ zeros 4 ++ leBytes 4 payload.length ++ leBytes 8 lsn ++ [recTypeFull] ++ [0] ++
      zeros 2 ++ payload ++ zeros (paddingFor payload.length) =
      buf ++ (zeros 4 ++ frameBody lsn payload) := by
    simp only [frameBody, List.append_assoc]
  have hlen : (buf ++ (zeros 4 ++ frameBody lsn payload)).length - buf.length =
      framedSize payload.length := by
    rw [← frameBody_length lsn payload]
    simp only [List.length_append, zeros_length]
    omega
  have hbody : slice (buf ++ (zeros 4 ++ frameBody lsn payload)) (buf.length + lenOff)
      (buf.length + framedSize payload.length) = frameBody lsn payload := by
    rw [← frameBody_length lsn payload, slice, ← List.append_assoc, List.drop_append_of_le_length,
      List.drop_of_length_le, List.nil_append, List.take_of_length_le]
    · simp only [lenOff]
      omega
    · simp [lenOff]
    · simp [lenOff]
  simp only [encodeInto, hz, hlaid, hlen, hbody]
  rw [overwrite_eq _ (by simp), List.take_left, ← List.append_assoc buf, List.drop_append_of_le_length
    (by simp), List.drop_of_length_le (by simp), List.nil_append, List.append_assoc, encodeFrame]

/-- The checks `decode` makes on the bytes of a frame; those on the reserved
bytes and the padding are not among them. -/
structure ValidFrame (f : Bytes) (lsn : ℕ) (payload : Bytes) : Prop where
  size : f.length = framedSize payload.length
  lengthField : leNat (slice f lenOff (lenOff + 4)) = payload.length
  lsnField : leNat (slice f lsnOff (lsnOff + 8)) = lsn
  recType : f.getD recTypeOff 0 = recTypeFull
  payload : slice f payloadOff (payloadOff + payload.length) = payload
  crc : (crc32c (slice f lenOff f.length)).toNat = leNat (slice f 0 4)

theorem decode_of_short {b : Bytes} {mx : ℕ} (h : b.length < 20) : decode b mx = .incomplete :=
  if_pos h

theorem decode_eq_sentinel_iff {b : Bytes} {mx : ℕ} :
    decode b mx = .sentinel ↔ ZeroOn b 0 20 := by
  constructor
  · intro h
    unfold decode at h
    simp only at h
    split_ifs at h with h1 h2
    have hz := List.all_eq_true.mp h2.2
    have hlen : (20 : ℕ) ≤ b.length := Nat.not_lt.mp h1
    intro i _ hi
    have hi' : i < (b.take 20).length := by rw [List.length_take]; omega
    have hb := hz _ (List.getElem_mem hi')
    rw [List.getElem_take, beq_iff_eq] at hb
    rw [List.getElem?_eq_getElem (by omega), hb]
  · intro h
    have hlen : (20 : ℕ) ≤ b.length := h.le_length (by decide)
    have h16 : b.getD recTypeOff 0 = 0 := by
      rw [List.getD_eq_getElem?_getD, h recTypeOff (by decide) (by decide)]
      rfl
    have hall : (b.take recordHeaderSize).all (· == 0) = true := by
      rw [List.all_eq_true]
      intro x hx
      obtain ⟨i, hi, rfl⟩ := List.getElem_of_mem hx
      have hi' : i < 20 := by
        rw [List.length_take] at hi
        exact (lt_min_iff.mp hi).1
      have hb := h i (by omega) hi'
      rw [List.getElem?_eq_getElem (by omega), Option.some.injEq] at hb
      rw [List.getElem_take, hb]
      rfl
    unfold decode
    rw [if_neg (show ¬ b.length < recordHeaderSize from Nat.not_lt.mpr hlen)]
    exact if_pos ⟨h16, hall⟩

/-- Behind the checks for the sentinel, the length and the end of the buffer, the checksum
decides. -/
theorem decode_eq_badCrc {b : Bytes} {mx : ℕ} (hz : ¬ ZeroOn b 0 20)
    (hmx : leNat (slice b 4 8) ≤ mx) (hfit : framedSize (leNat (slice b 4 8)) ≤ b.length)
    (hcrc : (crc32c (slice b 4 (framedSize (leNat (slice b 4 8))))).toNat ≠ leNat (slice b 0 4)) :
    decode b mx = .invalid .badCrc := by
  have h20 : ¬ b.length < recordHeaderSize := by
    have := le_framedSize (leNat (slice b 4 8))
    simp only [recordHeaderSize]
    omega
  have hs : ¬ (b.getD recTypeOff 0 = recTypeSentinel ∧ (b.take recordHeaderSize).all (· == 0)) := by
    intro hc
    apply hz
    rw [← show decode b mx = .sentinel ↔ ZeroOn b 0 20 from decode_eq_sentinel_iff, decode, if_neg h20]
    exact if_pos hc
  rw [← framedSizeU64_eq] at hfit hcrc
  unfold decode
  rw [if_neg h20]
  simp only
  rw [if_neg hs]
  exact (if_neg (Nat.not_lt.mpr hmx)).trans ((if_neg (Nat.not_lt.mpr hfit)).trans (if_pos hcrc))

omit [Crc32c] in
theorem getD_take {b : Bytes} {i n : ℕ} (h : i < n) : (b.take n).getD i 0 = b.getD i 0 := by
  rw [List.getD_eq_getElem?_getD, List.getD_eq_getElem?_getD, List.getElem?_take_of_lt h]

theorem decode_eq_record_iff {b payload : Bytes} {mx n : ℕ} {lsn : ℕ} :
    decode b mx = .record lsn payload n ↔ n = framedSize payload.length ∧ n ≤ b.length ∧
      payload.length ≤ mx ∧ ValidFrame (b.take n) lsn payload := by
  constructor
  · intro h
    unfold decode at h
    simp only at h
    split_ifs at h with h1 h2 h3 h4 h5 h6
    simp only [Decoded.record.injEq] at h
    obtain ⟨rfl, rfl, rfl⟩ := h
    rw [← framedSizeU64, framedSizeU64_eq] at *
    set len := leNat (slice b lenOff (lenOff + 4)) with hlen
    have hle := le_framedSize len
    have hp : (slice b payloadOff (payloadOff + len)).length = len := by
      rw [slice_length]
      simp only [payloadOff, recordHeaderSize]
      omega
    have hn : (b.take (framedSize len)).length = framedSize len :=
      List.length_take_of_le (Nat.not_lt.mp h4)
    refine ⟨by rw [hp], Nat.not_lt.mp h4, by rw [hp]; exact Nat.not_lt.mp h3, ?_⟩
    constructor
    · rw [hn, hp]
    · rw [hp, slice_take (by simp only [lenOff]; omega)]
    · rw [slice_take (by simp only [lsnOff]; omega)]
    · rw [getD_take (by simp only [recTypeOff]; omega)]
      exact not_not.mp h6
    · rw [hp, slice_take (by simp only [payloadOff, recordHeaderSize]; omega)]
    · rw [hn, slice_take le_rfl, slice_take (by omega)]
      exact not_not.mp h5
  · rintro ⟨rfl, hn, hmx, hv⟩
    have hle := le_framedSize payload.length
    have hlen := hv.lengthField
    have hlsn := hv.lsnField
    have hty := hv.recType
    have hpay := hv.payload
    have hcrc := hv.crc
    -- the checks are of the frame; the decoder makes them of the whole buffer
    rw [hv.size, slice_take le_rfl, slice_take (by omega)] at hcrc
    rw [slice_take (by simp only [lenOff]; omega)] at hlen
    rw [slice_take (by simp only [lsnOff]; omega)] at hlsn
    rw [getD_take (by simp only [recTypeOff]; omega)] at hty
    rw [slice_take (by simp only [payloadOff, recordHeaderSize]; omega)] at hpay
    unfold decode
    simp only
    rw [if_neg (by simp only [recordHeaderSize]; omega), if_neg, hlen, if_neg (Nat.not_lt.mpr hmx),
      ← framedSizeU64, framedSizeU64_eq, if_neg (Nat.not_lt.mpr hn), if_neg (not_not.mpr hcrc),
      if_neg (not_not.mpr hty), hlsn, hpay]
    rw [hty]
    exact fun h => absurd h.1 (by decide)

section

variable (lsn : ℕ) (payload : Bytes)

abbrev crcField : Bytes :=
  leBytes 4 (crc32c (frameBody lsn payload)).toNat

theorem crcField_length : (crcField lsn payload).length = 4 :=
  leBytes_length 4 _

theorem encodeFrame_crc : slice (encodeFrame lsn payload) 0 4 = crcField lsn payload :=
  slice_left (crcField_length lsn payload).symm

theorem encodeFrame_body :
    slice (encodeFrame lsn payload) lenOff (framedSize payload.length) = frameBody lsn payload := by
  apply slice_part (crcField lsn payload) [] (by rw [encodeFrame, List.append_nil])
  · exact (crcField_length lsn payload).symm
  · exact (frameBody_length lsn payload).symm.trans (Nat.add_comm _ _)

theorem encodeFrame_eq : encodeFrame lsn payload = crcField lsn payload ++ (leBytes 4 payload.length ++
    (leBytes 8 lsn ++ ([recTypeFull] ++ ([0] ++ (zeros 2 ++ (payload ++
      zeros (paddingFor payload.length))))))) := by
  have hbody : frameBody lsn payload = leBytes 4 payload.length ++ (leBytes 8 lsn ++ ([recTypeFull] ++
      ([0] ++ (zeros 2 ++ (payload ++ zeros (paddingFor payload.length)))))) := by
    simp only [frameBody, List.append_assoc]
  rw [encodeFrame, ← crcField, hbody]

theorem encodeFrame_lengthField :
    slice (encodeFrame lsn payload) lenOff (lenOff + 4) = leBytes 4 payload.length := by
  apply slice_part (crcField lsn payload) (leBytes 8 lsn ++ [recTypeFull] ++ [0] ++ zeros 2 ++ payload ++
    zeros (paddingFor payload.length))
  · rw [encodeFrame_eq]
    simp only [List.append_assoc]
  · exact (crcField_length lsn payload).symm
  · rw [leBytes_length]

theorem encodeFrame_lsnField :
    slice (encodeFrame lsn payload) lsnOff (lsnOff + 8) = leBytes 8 lsn := by
  apply slice_part (crcField lsn payload ++ leBytes 4 payload.length)
    ([recTypeFull] ++ [0] ++ zeros 2 ++ payload ++ zeros (paddingFor payload.length))
  · rw [encodeFrame_eq]
    simp only [List.append_assoc]
  · simp [lsnOff]
  · rw [leBytes_length]

theorem encodeFrame_recType :
    slice (encodeFrame lsn payload) recTypeOff (recTypeOff + 1) = [recTypeFull] := by
  apply slice_part (crcField lsn payload ++ leBytes 4 payload.length ++ leBytes 8 lsn)
    ([0] ++ zeros 2 ++ payload ++ zeros (paddingFor payload.length))
  · rw [encodeFrame_eq]
    simp only [List.append_assoc]
  · simp [recTypeOff]
  · rfl

theorem encodeFrame_reserved : slice (encodeFrame lsn payload) 17 20 = zeros 3 := by
  apply slice_part (crcField lsn payload ++ leBytes 4 payload.length ++ leBytes 8 lsn ++ [recTypeFull])
    (payload ++ zeros (paddingFor payload.length))
  · rw [encodeFrame_eq]
    simp only [List.append_assoc]
    rfl
  · simp
  · rfl

theorem encodeFrame_payload :
    slice (encodeFrame lsn payload) payloadOff (payloadOff + payload.length) = payload := by
  apply slice_part (crcField lsn payload ++ leBytes 4 payload.length ++ leBytes 8 lsn ++ [recTypeFull] ++
    [0] ++ zeros 2) (zeros (paddingFor payload.length))
  · rw [encodeFrame_eq]
    simp only [List.append_assoc]
  · simp [payloadOff, recordHeaderSize]
  · rfl

theorem encodeFrame_padding :
    slice (encodeFrame lsn payload) (20 + payload.length) (framedSize payload.length) =
      zeros (paddingFor payload.length) := by
  apply slice_part (crcField lsn payload ++ leBytes 4 payload.length ++ leBytes 8 lsn ++ [recTypeFull] ++
    [0] ++ zeros 2 ++ payload) []
  · rw [encodeFrame_eq]
    simp only [List.append_assoc, List.append_nil]
  · simp
    omega
  · rw [framedSize_eq, zeros_length]

end

/-- An encoded frame passes every check of the decoder. -/
theorem encodeFrame_validFrame {lsn : ℕ} {payload : Bytes} (hlsn : lsn < 2 ^ 64)
    (hlen : payload.length < 2 ^ 32) : ValidFrame (encodeFrame lsn payload) lsn payload := by
  constructor
  · exact encodeFrame_length lsn payload
  · rw [encodeFrame_lengthField, leNat_leBytes_of_lt hlen]
  · rw [encodeFrame_lsnField, leNat_leBytes_of_lt hlsn]
  · have htype := slice_getElem? (encodeFrame lsn payload) recTypeOff (recTypeOff + 1) 0
    rw [encodeFrame_recType, if_pos (by omega), add_zero] at htype
    rw [List.getD_eq_getElem?_getD, ← htype]
    rfl
  · exact encodeFrame_payload lsn payload
  · rw [encodeFrame_length, encodeFrame_body, encodeFrame_crc, crcField,
      leNat_leBytes_of_lt (UInt32.toNat_lt _)]

/-- The encoder leaves the reserved bytes and the padding zero. -/
theorem encodeFrame_zeroOn (lsn : ℕ) (payload : Bytes) : ZeroOn (encodeFrame lsn payload) 17 20 ∧
    ZeroOn (encodeFrame lsn payload) (20 + payload.length) (framedSize payload.length) := by
  constructor
  · apply zeroOn_of_slice_eq
    exact encodeFrame_reserved lsn payload
  · apply zeroOn_of_slice_eq
    rw [encodeFrame_padding, framedSize_eq, Nat.add_sub_cancel_left]

namespace ValidFrame

variable {f payload : Bytes} {lsn : ℕ}

theorem le_length (h : ValidFrame f lsn payload) : 20 + payload.length ≤ f.length :=
  h.size ▸ le_framedSize payload.length

theorem lsn_le (h : ValidFrame f lsn payload) : lsn ≤ u64Max := by
  have hl := leNat_slice_lt f lsnOff 8
  rw [h.lsnField] at hl
  exact le_u64Max_of_lt (hl.trans_le (by norm_num))

theorem length_lt (h : ValidFrame f lsn payload) : payload.length < 2 ^ 32 := by
  have hl := leNat_slice_lt f lenOff 4
  rw [h.lengthField] at hl
  exact hl.trans_le (by norm_num)

theorem slice_recType (h : ValidFrame f lsn payload) : slice f 16 17 = [recTypeFull] := by
  have hl := h.le_length
  have hty := h.recType
  rw [List.getD_eq_getElem?_getD] at hty
  apply List.ext_getElem?
  intro k
  rw [slice_getElem?]
  rcases k with _ | k
  · simp only [recTypeOff, List.getElem?_eq_getElem (show 16 < f.length by omega),
      Option.getD_some] at hty
    simp [List.getElem?_eq_getElem (show 16 < f.length by omega), hty]
  · simp

/-- The checks fix the header from the length to the type. -/
theorem slice_head (h : ValidFrame f lsn payload) :
    slice f 4 17 = leBytes 4 payload.length ++ (leBytes 8 lsn ++ [recTypeFull]) := by
  have hl := h.le_length
  have hlen : slice f 4 8 = leBytes 4 payload.length := by
    rw [← h.lengthField]
    exact (leBytes_leNat_slice (b := f) (i := 4) (n := 4) (by omega)).symm
  have hlsn : slice f 8 16 = leBytes 8 lsn := by
    rw [← h.lsnField]
    exact (leBytes_leNat_slice (b := f) (i := 8) (n := 8) (by omega)).symm
  rw [← slice_append_slice f (show 4 ≤ 8 by decide) (show 8 ≤ 17 by decide),
    ← slice_append_slice f (show 8 ≤ 16 by decide) (show 16 ≤ 17 by decide), hlen, hlsn,
    h.slice_recType]

/-- Where the reserved bytes and the padding are zero, what passes is what the
encoder writes. -/
theorem eq_encodeFrame (h : ValidFrame f lsn payload) (hr : ZeroOn f 17 20)
    (hp : ZeroOn f (20 + payload.length) f.length) : f = encodeFrame lsn payload := by
  have hl := h.le_length
  have hpad : f.length - (20 + payload.length) = paddingFor payload.length := by
    rw [h.size, framedSize_eq]
    omega
  have hpay : slice f 20 (20 + payload.length) = payload := h.payload
  have hbody : slice f 4 f.length = frameBody lsn payload := by
    rw [← slice_append_slice f (show 4 ≤ 17 by decide) (show 17 ≤ f.length by omega),
      ← slice_append_slice f (show 17 ≤ 20 by decide) (show 20 ≤ f.length by omega),
      ← slice_append_slice f (show 20 ≤ 20 + payload.length by omega) hl, h.slice_head, hr.slice_eq,
      hpay, hp.slice_eq, hpad]
    simp only [frameBody, List.append_assoc]
    rfl
  have hcrc : slice f 0 4 = leBytes 4 (crc32c (frameBody lsn payload)).toNat := by
    have hs := h.crc
    rw [show lenOff = 4 from rfl, hbody] at hs
    rw [hs]
    exact (leBytes_leNat_slice (b := f) (i := 0) (n := 4) (by omega)).symm
  calc f = slice f 0 f.length := by simp [slice]
    _ = slice f 0 4 ++ slice f 4 f.length := (slice_append_slice f (by omega) (by omega)).symm
    _ = encodeFrame lsn payload := by rw [hcrc, hbody, encodeFrame]

end ValidFrame

/-- A frame at the front of a buffer is decoded as the record it encodes. -/
theorem decode_encodeFrame {lsn mx : ℕ} {payload : Bytes} (rest : Bytes) (hlsn : lsn < 2 ^ 64)
    (hmx : mx < 2 ^ 32) (hlen : payload.length ≤ mx) :
    decode (encodeFrame lsn payload ++ rest) mx = .record lsn payload (framedSize payload.length) := by
  rw [decode_eq_record_iff]
  refine ⟨rfl, by simp, hlen, ?_⟩
  rw [← encodeFrame_length lsn payload, List.take_left]
  exact encodeFrame_validFrame hlsn (hlen.trans_lt hmx)

end

end OpenWal
