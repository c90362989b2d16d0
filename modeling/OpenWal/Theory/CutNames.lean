import OpenWal.Model.PowerPull
import OpenWal.Theory.CutWrites
import OpenWal.Theory.Names

namespace OpenWal
open ByteSeq

section

variable [Crc32c] {mx e m k room i : ℕ} {p b : Bytes}

omit [Crc32c] in
def zeroedFrom (m : ℕ) (p : Bytes) : Bytes := p.take m ++ zeros (p.length - m)

omit [Crc32c] in
@[simp] theorem zeroedFrom_length (m : ℕ) (p : Bytes) : (zeroedFrom m p).length = p.length := by
  rw [zeroedFrom, List.length_append, List.length_take, zeros_length]
  omega

omit [Crc32c] in
theorem zeroedFrom_of_le (h : p.length ≤ m) : zeroedFrom m p = p := by
  rw [zeroedFrom, List.take_of_length_le h, Nat.sub_eq_zero_of_le h, zeros_zero, List.append_nil]

omit [Crc32c] in
theorem zeroedFrom_zeros_append (n i : ℕ) (p : Bytes) :
    zeroedFrom i (zeros n ++ p) = zeros n ++ zeroedFrom (i - n) p := by
  rcases Nat.le_total i n with h | h
  · obtain ⟨j, rfl⟩ := Nat.exists_eq_add_of_le h
    have hrest : (zeros (i + j) ++ p).length - i = j + p.length := by
      rw [List.length_append, zeros_length]
      omega
    rw [zeroedFrom, hrest, zeros_add, List.append_assoc,
      List.take_append_of_le_length (zeros_length i).ge, List.take_of_length_le (zeros_length i).le,
      zeros_add, Nat.sub_eq_zero_of_le h, zeroedFrom, List.take_zero, List.nil_append, Nat.sub_zero,
      List.append_assoc]
  · obtain ⟨j, rfl⟩ := Nat.exists_eq_add_of_le h
    have hrest : (zeros n ++ p).length - (n + j) = p.length - j := by
      rw [List.length_append, zeros_length]
      omega
    have htake : (zeros n ++ p).take ((zeros n).length + j) = zeros n ++ p.take j :=
      List.take_length_add_append j
    rw [zeros_length] at htake
    rw [zeroedFrom, hrest, htake, Nat.add_sub_cancel_left, zeroedFrom, List.append_assoc]

omit [Crc32c] in
/-- Zeros that replace the end of a string before more zeros. -/
theorem take_append_zeros {a c : ℕ} (hi : i ≤ p.length + a) (hc : p.length + a ≤ c) :
    (p ++ zeros a).take i ++ zeros (c - i) = zeroedFrom i p ++ zeros a ++ zeros (c - (p.length + a)) := by
  rw [zeroedFrom, List.append_assoc, List.append_assoc]
  rcases Nat.le_total i p.length with h | h
  · rw [List.take_append_of_le_length h, ← zeros_add, ← zeros_add]
    congr 2
    omega
  · obtain ⟨j, rfl⟩ := Nat.exists_eq_add_of_le h
    have hz : (zeros a).take j = zeros j := by
      rw [zeros, List.take_replicate, Nat.min_eq_left (by omega), zeros]
    rw [List.take_length_add_append, hz, List.take_of_length_le h, List.append_assoc, ← zeros_add,
      ← zeros_add, ← zeros_add]
    congr 2
    omega

/-- A frame whose end was lost behind its type is the frame of a payload whose end was, with the old
checksum. -/
theorem cutShort_eq (h : 17 ≤ k) (hk : k ≤ framedSize p.length) (hroom : framedSize p.length ≤ room) :
    cutShort e p room k = crcField e p ++ frameBody e (zeroedFrom (k - 20) p) ++
      zeros (room - framedSize p.length) := by
  have hsize := framedSize_eq p.length
  set a := crcField e p ++ leBytes 4 p.length ++ leBytes 8 e ++ [recTypeFull] with ha
  have hal : a.length = 17 := by simp [ha]
  have hframe : encodeFrame e p = a ++ (zeros 3 ++ p ++ zeros (paddingFor p.length)) := by
    rw [encodeFrame_eq, ha]
    simp [zeros, List.replicate]
  obtain ⟨j, rfl⟩ := Nat.exists_eq_add_of_le h
  have hthree : (zeros 3 ++ p).length = 3 + p.length := by rw [List.length_append, zeros_length]
  have hcut := take_append_zeros (i := j) (p := zeros 3 ++ p) (a := paddingFor p.length) (c := room - 17)
    (by omega) (by omega)
  have hroom' : room - 17 - (3 + p.length + paddingFor p.length) = room - framedSize p.length := by omega
  rw [hthree, hroom', zeroedFrom_zeros_append, show j - 3 = 17 + j - 20 by omega] at hcut
  rw [cutShort, hframe, ← hal, List.take_length_add_append, hal, List.append_assoc, Nat.sub_add_eq, hcut]
  have hbody : frameBody e (zeroedFrom (17 + j - 20) p) =
      leBytes 4 p.length ++ leBytes 8 e ++ [recTypeFull] ++
      (zeros 3 ++ zeroedFrom (17 + j - 20) p ++ zeros (paddingFor p.length)) := by
    simp [frameBody, zeros, List.replicate]
  rw [hbody, ha]
  simp only [List.append_assoc]

theorem recType_of_record {q : Bytes} {l n : ℕ} (h : decode b mx = .record l q n) :
    b.getD recTypeOff 0 = recTypeFull := by
  obtain ⟨rfl, hn, -, hv⟩ := decode_eq_record_iff.mp h
  have hle := le_framedSize q.length
  rw [← getD_take (n := framedSize q.length) (by simp only [recTypeOff]; omega)]
  exact hv.recType

theorem continues_of_recType (h : b.getD recTypeOff 0 ≠ recTypeFull) :
    (decode b mx).continues e = false := by
  cases hd : decode b mx with
  | record l q n => exact absurd (recType_of_record hd) h
  | _ => rfl

theorem cutShort_getD_of_le (h : k ≤ i) : (cutShort e p room k).getD i 0 = 0 := by
  have hl : ((encodeFrame e p).take k).length ≤ i := (List.length_take_le k _).trans h
  rw [List.getD_eq_getElem?_getD, cutShort, List.getElem?_append_right hl, zeros_getElem?]
  split_ifs <;> rfl

omit [Crc32c] in
theorem eq_zero_of_mem_zeros {n : ℕ} {x : UInt8} (h : x ∈ zeros n) : x = 0 := (List.mem_replicate.mp h).2

/-- Behind its header a cut frame has bytes of its payload and zeros. -/
theorem cutShort_getD (h : 20 ≤ i) :
    (cutShort e p room k).getD i 0 = 0 ∨ (cutShort e p room k).getD i 0 ∈ p := by
  rw [List.getD_eq_getElem?_getD]
  rcases hx : (cutShort e p room k)[i]? with _ | x
  · exact Or.inl rfl
  have hdrop : (encodeFrame e p).drop 20 = p ++ zeros (paddingFor p.length) := by
    rw [encodeFrame_eq]
    simp only [← List.append_assoc]
    rw [List.append_assoc _ p, List.drop_append_of_le_length (by simp), List.drop_of_length_le (by simp),
      List.nil_append]
  have hmem : x ∈ (cutShort e p room k).drop 20 := by
    refine List.mem_of_getElem? (i := i - 20) ?_
    rwa [List.getElem?_drop, Nat.add_sub_cancel' h]
  rw [cutShort, List.drop_append, List.drop_take, hdrop, zeros_drop] at hmem
  rcases List.mem_append.mp hmem with hmem | hmem
  · rcases List.mem_append.mp (List.mem_of_mem_take hmem) with hmem | hmem
    · exact Or.inr hmem
    · exact Or.inl (eq_zero_of_mem_zeros hmem)
  · exact Or.inl (eq_zero_of_mem_zeros hmem)

/-- A change of the payload that the checksum shows is refused. -/
theorem decode_stale {q c : Bytes} (hq : q.length = p.length) (hlen : p.length ≤ mx) (hmx : mx < 2 ^ 32)
    (hcrc : crc32c (frameBody e q) ≠ crc32c (frameBody e p)) :
    (decode (crcField e p ++ frameBody e q ++ c) mx).continues e = false := by
  set b := crcField e p ++ frameBody e q ++ c with hb
  cases hd : decode b mx with
  | record l r n =>
    obtain ⟨rfl, hn, -, hv⟩ := decode_eq_record_iff.mp hd
    have hle := le_framedSize r.length
    have hlength := hv.lengthField
    have hsum := hv.crc
    rw [hv.size, slice_take le_rfl, slice_take (by omega)] at hsum
    rw [slice_take (by simp only [lenOff]; omega)] at hlength
    have hfield : slice b lenOff (lenOff + 4) = leBytes 4 p.length := by
      apply slice_part (crcField e p) (leBytes 8 e ++ [recTypeFull] ++ [0] ++ zeros 2 ++ q ++
        zeros (paddingFor q.length) ++ c)
      · rw [hb, frameBody, hq]
        simp only [List.append_assoc]
      · exact (crcField_length e p).symm
      · rw [leBytes_length]
    rw [hfield, leNat_leBytes_of_lt (hlen.trans_lt hmx)] at hlength
    have hbody : slice b lenOff (framedSize r.length) = frameBody e q := by
      apply slice_part (crcField e p) c (List.append_assoc _ _ _)
      · exact (crcField_length e p).symm
      · rw [← hlength, ← hq]
        exact (frameBody_length e q).symm.trans (Nat.add_comm _ _)
    have hfront : slice b 0 4 = crcField e p := by
      rw [hb, List.append_assoc]
      exact slice_left (crcField_length e p).symm
    rw [hbody, hfront, leNat_leBytes_of_lt (UInt32.toNat_lt _)] at hsum
    exact absurd (UInt32.toNat_inj.mp hsum) hcrc
  | _ => rfl

/-- Wherever a frame is cut, nothing in it is a record if its payload holds no byte that is a type, and
the checksum shows where its end was lost. -/
theorem cutHarmless_of_zeroed (he : e < 2 ^ 64) (hmx : mx < 2 ^ 32) (hlen : p.length ≤ mx)
    (hroom : framedSize p.length ≤ room) (hp : recTypeFull ∉ p)
    (hcrc : ∀ m < p.length, crc32c (frameBody e (zeroedFrom m p)) ≠ crc32c (frameBody e p)) :
    CutHarmless mx e p room := by
  intro k hk j _ hcont
  rcases Nat.eq_zero_or_pos j with rfl | hj
  · rw [Nat.mul_zero, List.drop_zero] at hcont
    rcases Nat.lt_or_ge k 17 with h17 | h17
    · rw [continues_of_recType] at hcont
      · cases hcont
      · rw [cutShort_getD_of_le (show k ≤ recTypeOff from Nat.le_of_lt_succ h17)]
        decide
    · left
      rw [cutShort_eq h17 hk.le hroom] at hcont ⊢
      rcases Nat.lt_or_ge (k - 20) p.length with hm | hm
      · rw [decode_stale (zeroedFrom_length _ _) hlen hmx (hcrc _ hm)] at hcont
        cases hcont
      · rw [zeroedFrom_of_le hm, ← encodeFrame]
        exact decode_encodeFrame _ he hmx hlen
  · rw [continues_of_recType] at hcont
    · cases hcont
    · rw [List.getD_eq_getElem?_getD, List.getElem?_drop, ← List.getD_eq_getElem?_getD]
      have hbyte : (cutShort e p room k).getD (8 * j + recTypeOff) 0 = 0 ∨
          (cutShort e p room k).getD (8 * j + recTypeOff) 0 ∈ p :=
        cutShort_getD (by simp only [recTypeOff]; omega)
      rcases hbyte with h0 | hmem
      · rw [h0]
        decide
      · exact fun heq => hp (heq ▸ hmem)

end

theorem decimalDigits_add (m n w : ℕ) :
    decimalDigits (m + n) w = decimalDigits m (w / 10 ^ n) ++ decimalDigits n w := by
  induction n generalizing w with
  | zero => simp [decimalDigits]
  | succ n ih =>
    rw [← Nat.add_assoc, decimalDigits, ih, decimalDigits, List.append_assoc, Nat.div_div_eq_div_mul,
      pow_succ']

def digitName (n w : ℕ) : Bytes := (['r', 'e', 'c', '-'] ++ decimalDigits n w).map Char.toUInt8

def asciiDigits (n w : ℕ) : Bytes := (decimalDigits n w).map Char.toUInt8

def IsDigitWord (r : UInt32) : Prop := ∀ b ∈ leBytes 4 r.toNat, 48 ≤ b ∧ b ≤ 57

instance (r : UInt32) : Decidable (IsDigitWord r) :=
  inferInstanceAs (Decidable (∀ b ∈ leBytes 4 r.toNat, 48 ≤ b ∧ b ≤ 57))

theorem paddedName_eq {n w : ℕ} (h : w < 10 ^ n) : PowerPull.paddedName n w = digitName n w := by
  have hlen : (Nat.digits 10 w).length ≤ n := (Nat.digits_length_le_iff (by decide) w).mpr h
  rw [PowerPull.paddedName, Nat.max_eq_left hlen, digitName]

@[simp] theorem digitName_length (n w : ℕ) : (digitName n w).length = 4 + n := by
  simp only [digitName, List.length_map, List.length_append, decimalDigits_length, List.length_cons,
    List.length_nil]

@[simp] theorem asciiDigits_length (n w : ℕ) : (asciiDigits n w).length = n := by simp [asciiDigits]

theorem digitName_add (m n w : ℕ) :
    digitName (m + n) w = digitName m (w / 10 ^ n) ++ asciiDigits n w := by
  rw [digitName, decimalDigits_add, ← List.append_assoc, List.map_append, asciiDigits, digitName]

theorem asciiDigits_mem {n w : ℕ} {b : UInt8} (h : b ∈ asciiDigits n w) : 48 ≤ b ∧ b ≤ 57 := by
  obtain ⟨c, hc, rfl⟩ := List.mem_map.mp h
  have hdigit := isAsciiDigit_iff.mp (List.all_eq_true.mp (decimalDigits_all n w) c hc)
  have hval : c.toUInt8.toNat = c.toNat := by
    rw [Char.toUInt8, UInt32.toNat_toUInt8]
    exact Nat.mod_eq_of_lt (show c.toNat < 2 ^ 8 by omega)
  simp only [UInt8.le_iff_toNat_le, hval]
  exact hdigit

theorem recTypeFull_notMem_digitName (n w : ℕ) : recTypeFull ∉ digitName n w := by
  rw [digitName, List.map_append]
  intro h
  rcases List.mem_append.mp h with h | h
  · revert h
    decide
  · exact absurd (asciiDigits_mem h) (by decide)

/-- Where the four last digits of a name have not been reached, the register is not what they would
have to be, and no end of the name leads from zero to zero. -/
theorem foldl_digitName_ne {n w m : ℕ} (hm : m < n + 8)
    (hhigh : ∀ i < n + 5, ¬ IsDigitWord (((digitName n (w / 10 ^ 4)).drop i).foldl Castagnoli.update 0)) :
    ((digitName (n + 4) w).drop m).foldl Castagnoli.update 0 ≠ 0 := by
  have hlow : (asciiDigits 4 w).length = 4 := asciiDigits_length 4 w
  rw [digitName_add]
  rcases Nat.lt_or_ge m (n + 5) with h | h
  · have hle : m ≤ (digitName n (w / 10 ^ 4)).length := by
      rw [digitName_length]
      omega
    rw [List.drop_append_of_le_length hle, List.foldl_append, Ne,
      Castagnoli.foldl_update_eq_zero_iff hlow.le]
    intro heq
    apply hhigh m h
    have hlt : leNat (asciiDigits 4 w) < 2 ^ 32 := by
      have := leNat_lt (asciiDigits 4 w)
      rwa [hlow] at this
    have hbytes := leBytes_leNat (asciiDigits 4 w)
    rw [hlow] at hbytes
    rw [heq, IsDigitWord, UInt32.toNat_ofNat_of_lt' hlt, hbytes]
    exact fun b => asciiDigits_mem
  · obtain ⟨j, rfl⟩ := Nat.exists_eq_add_of_le h
    have hdrop : (digitName n (w / 10 ^ 4) ++ asciiDigits 4 w).drop (n + 5 + j) =
        (asciiDigits 4 w).drop (j + 1) := by
      rw [List.drop_append, digitName_length, List.drop_of_length_le (by rw [digitName_length]; omega),
        List.nil_append]
      congr 1
      omega
    obtain ⟨b, s, hs⟩ := List.exists_cons_of_ne_nil (l := (asciiDigits 4 w).drop (j + 1)) fun hnil => by
      have := congrArg List.length hnil
      rw [List.length_drop, hlow, List.length_nil] at this
      omega
    have hb := (asciiDigits_mem (List.mem_of_mem_drop (hs ▸ List.mem_cons_self : b ∈ _))).1
    have hshort : (b :: s).length ≤ 4 := by
      rw [← hs, List.length_drop, hlow]
      omega
    have hlt : leNat (b :: s) < 2 ^ 32 :=
      (leNat_lt _).trans_le (Nat.pow_le_pow_right (n := 256) (by decide) hshort)
    rw [hdrop, hs, Ne, Castagnoli.foldl_update_eq_zero_iff hshort]
    intro heq
    have hzero := congrArg UInt32.toNat heq
    rw [UInt32.toNat_ofNat_of_lt' hlt, UInt32.toNat_zero, leNat] at hzero
    have hpos : 48 ≤ b.toNat := hb
    omega

/-- No cut of a frame that holds a name does harm. -/
theorem cutHarmless_digitName {n w mx room : ℕ} (hw : w < 2 ^ 64) (hmx : mx < 2 ^ 32) (hlen : n + 8 ≤ mx)
    (hroom : framedSize (n + 8) ≤ room)
    (hhigh : ∀ i < n + 5, ¬ IsDigitWord (((digitName n (w / 10 ^ 4)).drop i).foldl Castagnoli.update 0)) :
    CutHarmless mx w (digitName (n + 4) w) room := by
  have hname : (digitName (n + 4) w).length = n + 8 := by
    rw [digitName_length]
    omega
  refine cutHarmless_of_zeroed hw hmx (by rwa [hname]) (by rwa [hname])
    (recTypeFull_notMem_digitName _ _) fun m hm => ?_
  rw [hname] at hm
  set p := digitName (n + 4) w with hp
  have hbody : ∀ q : Bytes, q.length = p.length → frameBody w q = leBytes 4 p.length ++ leBytes 8 w ++
      [recTypeFull] ++ [0] ++ zeros 2 ++ q ++ zeros (paddingFor p.length) := fun q hq => by
    rw [frameBody, hq]
  have hne := foldl_digitName_ne hm hhigh
  rw [← hp] at hne
  contrapose! hne
  apply (Castagnoli.checksum_zeroed_eq_iff (leBytes 4 p.length ++ leBytes 8 w ++ [recTypeFull] ++ [0] ++
    zeros 2 ++ p.take m) (p.drop m) (zeros (paddingFor p.length))).mp
  have hz := hbody (zeroedFrom m p) (zeroedFrom_length m p)
  have hwhole := hbody p rfl
  nth_rewrite 3 [← List.take_append_drop m p] at hwhole
  rw [zeroedFrom] at hz
  rw [List.length_drop, ← List.append_assoc, ← List.append_assoc, List.append_assoc _ (p.take m), ← hz,
    List.append_assoc _ (p.take m), ← hwhole]
  exact hne

end OpenWal
