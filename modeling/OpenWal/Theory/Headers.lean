import OpenWal.Model.Segment

namespace OpenWal
open ByteSeq

section

variable [Crc32c]

def headerBody (base created : ℕ) : Bytes :=
  magic ++ (leBytes 2 formatVersion ++ (zeros 2 ++ (leBytes 8 base ++ (leBytes 8 created ++ zeros 32))))

omit [Crc32c] in
@[simp] theorem headerBody_length (base created : ℕ) : (headerBody base created).length = 60 := by
  simp [headerBody, magic]

theorem encodeHeader_eq (base created : ℕ) : encodeHeader base created =
    headerBody base created ++ leBytes 4 (crc32c (headerBody base created)).toNat := by
  have h1 : overwrite (zeros headerSize) 0 magic = magic ++ (zeros 2 ++ zeros 54) := by
    have hz : zeros headerSize = [] ++ (zeros 8 ++ zeros 56) := rfl
    rw [hz]
    refine (overwrite_middle (show 0 = ([] : Bytes).length from rfl) ?_).trans ?_ <;> rfl
  have h2 : overwrite (magic ++ (zeros 2 ++ zeros 54)) versionOff (leBytes 2 formatVersion) =
      magic ++ leBytes 2 formatVersion ++ zeros 2 ++ (zeros 8 ++ zeros 44) := by
    refine (overwrite_middle rfl (by simp)).trans ?_
    rw [List.append_assoc, List.append_assoc]
    rfl
  have h3 : overwrite (magic ++ leBytes 2 formatVersion ++ zeros 2 ++ (zeros 8 ++ zeros 44))
      baseLsnOff (leBytes 8 base) =
      magic ++ leBytes 2 formatVersion ++ zeros 2 ++ leBytes 8 base ++ (zeros 8 ++ zeros 36) := by
    refine (overwrite_middle rfl (by simp)).trans ?_
    rw [← List.append_assoc]
    rfl
  have h4 : overwrite (magic ++ leBytes 2 formatVersion ++ zeros 2 ++ leBytes 8 base ++
      (zeros 8 ++ zeros 36)) createdOff (leBytes 8 created) =
      headerBody base created ++ (zeros 4 ++ []) := by
    refine (overwrite_middle (by simp [magic, createdOff]) (by simp)).trans ?_
    simp only [headerBody, List.append_assoc, List.append_nil]
    rfl
  have h5 : slice (headerBody base created ++ (zeros 4 ++ [])) 0 headerCrcOff =
      headerBody base created := by
    refine slice_left ?_
    rw [headerBody_length]
    rfl
  simp only [encodeHeader, h1, h2, h3, h4, h5]
  refine (overwrite_middle ?_ (by simp)).trans (by rw [List.append_nil])
  rw [headerBody_length]
  rfl

@[simp] theorem encodeHeader_length (base created : ℕ) :
    (encodeHeader base created).length = headerSize := by
  simp [encodeHeader_eq, headerSize]

/-- A header that was written is accepted, and names its base. -/
theorem decodeHeader_encodeHeader {base : ℕ} (h1 : 1 ≤ base) (h : base ≤ u64Max) (created : ℕ) :
    decodeHeader (encodeHeader base created) = .ok base := by
  set crc := leBytes 4 (crc32c (headerBody base created)).toNat with hcrc
  have he : encodeHeader base created = headerBody base created ++ crc := encodeHeader_eq base created
  have hmagic : slice (encodeHeader base created) 0 8 = magic := by
    rw [he, headerBody, List.append_assoc]
    exact slice_left rfl
  have hbody : slice (encodeHeader base created) 0 headerCrcOff = headerBody base created := by
    rw [he]
    refine slice_left ?_
    rw [headerBody_length]
    rfl
  have hcrc : slice (encodeHeader base created) headerCrcOff (headerCrcOff + 4) = crc := by
    rw [he, ← List.append_nil crc]
    refine slice_middle ?_ (by simp [crc])
    rw [headerBody_length]
    rfl
  have hversion : slice (encodeHeader base created) versionOff (versionOff + 2) =
      leBytes 2 formatVersion := by
    rw [he, headerBody, List.append_assoc, List.append_assoc]
    exact slice_middle rfl (by simp)
  have hbase : slice (encodeHeader base created) baseLsnOff (baseLsnOff + 8) = leBytes 8 base := by
    have hl : encodeHeader base created = magic ++ leBytes 2 formatVersion ++ zeros 2 ++
        (leBytes 8 base ++ (leBytes 8 created ++ zeros 32 ++ crc)) := by
      simp only [he, headerBody, List.append_assoc]
    rw [hl]
    exact slice_middle rfl (by simp)
  have hb := lt_two_pow_of_le_u64Max h
  unfold decodeHeader
  simp only [encodeHeader_length, hmagic, hbody, hcrc, hversion, hbase, lt_irrefl, if_false, ne_eq,
    not_true_eq_false]
  rw [leNat_leBytes_of_lt (UInt32.toNat_lt _), leNat_leBytes_of_lt (by decide : formatVersion < 256 ^ 2),
    leNat_leBytes_of_lt (show base < 256 ^ 8 by omega)]
  simp [isNone, show base ≠ 0 by omega]

/-- The checks on a header; those on the flags and the reserved bytes are not among
them. -/
theorem decodeHeader_eq_ok_iff {h : Bytes} {base : ℕ} : decodeHeader h = .ok base ↔
    headerSize ≤ h.length ∧ slice h 0 8 = magic ∧
      (crc32c (slice h 0 headerCrcOff)).toNat = leNat (slice h headerCrcOff (headerCrcOff + 4)) ∧
      leNat (slice h versionOff (versionOff + 2)) = formatVersion ∧
      leNat (slice h baseLsnOff (baseLsnOff + 8)) = base ∧ base ≠ 0 := by
  constructor
  · intro hd
    unfold decodeHeader at hd
    simp only at hd
    split_ifs at hd with h1 h2 h3 h4 h5
    rw [Except.ok.injEq] at hd
    refine ⟨Nat.not_lt.mp h1, not_not.mp h2, not_not.mp h3, not_not.mp h4, hd, ?_⟩
    simpa [isNone, hd] using h5
  · rintro ⟨h1, h2, h3, h4, h5, h6⟩
    unfold decodeHeader
    simp only
    rw [if_neg (Nat.not_lt.mpr h1), if_neg (not_not.mpr h2), if_neg (not_not.mpr h3),
      if_neg (not_not.mpr h4), if_neg (by simpa [isNone, h5] using h6), h5]

theorem decodeHeader_ok_pos {h : Bytes} {base : ℕ} (hd : decodeHeader h = .ok base) :
    1 ≤ base ∧ base ≤ u64Max := by
  obtain ⟨_, _, _, _, hb, hne⟩ := decodeHeader_eq_ok_iff.mp hd
  have hlt := leNat_slice_lt h baseLsnOff 8
  rw [hb] at hlt
  exact ⟨Nat.one_le_iff_ne_zero.mpr hne, le_u64Max_of_lt (hlt.trans_le (by norm_num))⟩

def createdOf (h : Bytes) : ℕ := leNat (slice h 20 28)

omit [Crc32c] in
theorem createdOf_le (h : Bytes) : createdOf h ≤ u64Max :=
  le_u64Max_of_lt ((leNat_slice_lt h 20 8).trans_le (by norm_num))

/-- What the checks fix of a header, and the creation time it states. -/
theorem slices_of_decodeHeader {h : Bytes} {base : ℕ} (hd : decodeHeader h = .ok base) :
    slice h 0 10 = magic ++ leBytes 2 formatVersion ∧
      slice h 12 28 = leBytes 8 base ++ leBytes 8 (createdOf h) := by
  obtain ⟨hl, hmagic, _, hversion, hbase, _⟩ := decodeHeader_eq_ok_iff.mp hd
  simp only [headerSize] at hl
  constructor
  · rw [← slice_append_slice h (show 0 ≤ 8 by decide) (show 8 ≤ 10 by decide), hmagic, ← hversion]
    exact congrArg (magic ++ ·) (leBytes_leNat_slice (b := h) (i := 8) (n := 2) (by omega)).symm
  · rw [← slice_append_slice h (show 12 ≤ 20 by decide) (show 20 ≤ 28 by decide), ← hbase]
    congr 1
    · exact (leBytes_leNat_slice (b := h) (i := 12) (n := 8) (by omega)).symm
    · exact (leBytes_leNat_slice (b := h) (i := 20) (n := 8) (by omega)).symm

theorem encodeHeader_zeroOn (base created : ℕ) :
    ZeroOn (encodeHeader base created) 10 12 ∧ ZeroOn (encodeHeader base created) 28 60 := by
  set crc := leBytes 4 (crc32c (headerBody base created)).toNat with hcrc
  constructor
  · apply zeroOn_of_slice_eq
    rw [encodeHeader_eq, ← hcrc, show headerBody base created ++ crc =
      magic ++ leBytes 2 formatVersion ++ (zeros 2 ++ (leBytes 8 base ++ (leBytes 8 created ++
        (zeros 32 ++ crc)))) by simp only [headerBody, List.append_assoc]]
    exact slice_middle (by simp [magic]) (by simp)
  · apply zeroOn_of_slice_eq
    rw [encodeHeader_eq, ← hcrc, show headerBody base created ++ crc =
      magic ++ leBytes 2 formatVersion ++ zeros 2 ++ leBytes 8 base ++ leBytes 8 created ++
        (zeros 32 ++ crc) by simp only [headerBody, List.append_assoc]]
    exact slice_middle (by simp [magic]) (by simp)

/-- Two headers of one base differ in the creation time and the checksum at most. -/
theorem encodeHeader_getElem? (base : ℕ) {created created' i : ℕ}
    (hi : ¬ (createdOff ≤ i ∧ i < createdOff + 8)) (hi' : ¬ (headerCrcOff ≤ i ∧ i < headerCrcOff + 4)) :
    (encodeHeader base created)[i]? = (encodeHeader base created')[i]? := by
  simp only [createdOff, headerCrcOff] at hi hi'
  have hstart : ∀ c, i < 20 → (encodeHeader base c)[i]? =
      (magic ++ (leBytes 2 formatVersion ++ (zeros 2 ++ leBytes 8 base)))[i]? := by
    intro c hlt
    rw [encodeHeader_eq, headerBody]
    simp only [← List.append_assoc]
    rw [List.getElem?_append_left (by simp [magic]; omega), List.getElem?_append_left (by simp [magic]; omega),
      List.getElem?_append_left (by simp [magic]; omega)]
  by_cases hlt : i < 20
  · rw [hstart _ hlt, hstart _ hlt]
  · by_cases hlt' : i < 60
    · rw [(encodeHeader_zeroOn base created).2 i (by omega) hlt',
        (encodeHeader_zeroOn base created').2 i (by omega) hlt']
    · rw [List.getElem?_eq_none (by rw [encodeHeader_length, headerSize]; omega),
        List.getElem?_eq_none (by rw [encodeHeader_length, headerSize]; omega)]

theorem createdOf_encodeHeader {base created : ℕ} (h : created ≤ u64Max) :
    createdOf (encodeHeader base created) = created := by
  set crc := leBytes 4 (crc32c (headerBody base created)).toNat with hcrc
  have hs : slice (encodeHeader base created) 20 28 = leBytes 8 created := by
    rw [encodeHeader_eq, ← hcrc, show headerBody base created ++ crc =
      magic ++ leBytes 2 formatVersion ++ zeros 2 ++ leBytes 8 base ++ (leBytes 8 created ++
        (zeros 32 ++ crc)) by simp only [headerBody, List.append_assoc]]
    exact slice_middle (by simp [magic]) (by simp)
  rw [createdOf, hs, leNat_leBytes_of_lt ((lt_two_pow_of_le_u64Max h).trans_le (by norm_num))]

/-- Where the flags and the reserved bytes are zero, what passes is what the encoder
writes. -/
theorem eq_encodeHeader {h : Bytes} {base : ℕ} (hd : decodeHeader h = .ok base)
    (hflags : ZeroOn h 10 12) (hreserved : ZeroOn h 28 60) :
    h.take headerSize = encodeHeader base (createdOf h) := by
  obtain ⟨hl, _, hcrc, _, _, _⟩ := decodeHeader_eq_ok_iff.mp hd
  simp only [headerSize, headerCrcOff] at hl hcrc
  obtain ⟨hstart, hmid⟩ := slices_of_decodeHeader hd
  have hbody : slice h 0 60 = headerBody base (createdOf h) := by
    rw [← slice_append_slice h (show 0 ≤ 10 by decide) (show 10 ≤ 60 by decide),
      ← slice_append_slice h (show 10 ≤ 12 by decide) (show 12 ≤ 60 by decide),
      ← slice_append_slice h (show 12 ≤ 28 by decide) (show 28 ≤ 60 by decide),
      hstart, hmid, hflags.slice_eq, hreserved.slice_eq, headerBody]
    simp only [List.append_assoc, Nat.reduceSub]
  have hsum : slice h 60 64 = leBytes 4 (crc32c (headerBody base (createdOf h))).toNat := by
    rw [← hbody, hcrc]
    exact (leBytes_leNat_slice (b := h) (i := 60) (n := 4) (by omega)).symm
  calc h.take headerSize = slice h 0 64 := by simp [slice, headerSize]
    _ = slice h 0 60 ++ slice h 60 64 := (slice_append_slice h (by decide) (by decide)).symm
    _ = encodeHeader base (createdOf h) := by rw [hbody, hsum, encodeHeader_eq]

/-- The file starts with a valid header for `base`. -/
def HeaderOk (file : Bytes) (base : ℕ) : Prop :=
  headerSize ≤ file.length ∧ decodeHeader (file.take headerSize) = .ok base

variable {file file' : Bytes} {base : ℕ}

theorem HeaderOk.le_length (h : HeaderOk file base) : headerSize ≤ file.length := h.1

theorem HeaderOk.pos (h : HeaderOk file base) : 1 ≤ base := (decodeHeader_ok_pos h.2).1

theorem HeaderOk.le_u64Max (h : HeaderOk file base) : base ≤ u64Max := (decodeHeader_ok_pos h.2).2

theorem headerOk_of_toOption (hl : headerSize ≤ file.length)
    (h : (decodeHeader (file.take headerSize)).toOption = some base) : HeaderOk file base := by
  refine ⟨hl, ?_⟩
  cases hd : decodeHeader (file.take headerSize) with
  | error e => simp [hd, Except.toOption] at h
  | ok b =>
    rw [hd] at h
    rw [Option.some.inj h]

theorem HeaderOk.congr (h : HeaderOk file base) (ha : AgreeOn file file' 0 headerSize) :
    HeaderOk file' base := by
  have hlast := ha 63 (by decide) (by decide)
  have hlen := h.1
  simp only [headerSize] at hlen
  rw [List.getElem?_eq_getElem (by omega)] at hlast
  have hl := (List.getElem?_eq_some_iff.mp hlast.symm).1
  have htake := ha.slice_eq
  simp only [slice, List.drop_zero, Nat.sub_zero] at htake
  exact ⟨by simp only [headerSize]; omega, htake ▸ h.2⟩

omit [Crc32c] in
theorem readHeader_of_le (h : headerSize ≤ file.length) :
    readHeader file = some (file.take headerSize) := if_pos h

omit [Crc32c] in
theorem readHeader_of_lt (h : file.length < headerSize) : readHeader file = none :=
  if_neg (Nat.not_le.mpr h)

theorem headerOk_encodeHeader {created : ℕ} (rest : Bytes) (h1 : 1 ≤ base) (h : base ≤ u64Max) :
    HeaderOk (encodeHeader base created ++ rest) base := by
  have hl := encodeHeader_length base created
  refine ⟨by rw [List.length_append]; omega, ?_⟩
  rw [← hl, List.take_left]
  exact decodeHeader_encodeHeader h1 h created

end

end OpenWal
