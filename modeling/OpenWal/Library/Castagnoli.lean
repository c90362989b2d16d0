import OpenWal.Library.ByteSeq

namespace Castagnoli
open ByteSeq

/-- `0x1EDC6F41` with its bits reversed. -/
def polynomial : UInt32 := 0x82F63B78

def shiftBit (r : UInt32) : UInt32 := if r &&& 1 = 1 then (r >>> 1) ^^^ polynomial else r >>> 1

def shiftBits : ℕ → UInt32 → UInt32
  | 0, r => r
  | n + 1, r => shiftBits n (shiftBit r)

def update (r : UInt32) (b : UInt8) : UInt32 := shiftBits 8 (r ^^^ b.toUInt32)

def checksum (data : Bytes) : UInt32 := data.foldl update 0xFFFFFFFF ^^^ 0xFFFFFFFF

/-- The published check value, of the string `123456789`. -/
example : checksum [0x31, 0x32, 0x33, 0x34, 0x35, 0x36, 0x37, 0x38, 0x39] = 0xE3069283 := by
  decide +kernel

example : checksum (zeros 32) = 0x8A9136AA ∧ checksum (List.replicate 32 0xFF) = 0x62A8AB43 := by
  decide +kernel

theorem toNat_and_one (r : UInt32) : (r &&& 1).toNat = r.toNat % 2 := by
  rw [UInt32.toNat_and]
  exact Nat.and_one_is_mod _

theorem and_one_eq_one_iff (r : UInt32) : r &&& 1 = 1 ↔ r.toNat % 2 = 1 := by
  rw [← UInt32.toNat_inj, toNat_and_one]
  rfl

theorem xor_toNat_mod_two (a b : UInt32) :
    (a ^^^ b).toNat % 2 = (a.toNat + b.toNat) % 2 := by
  rw [UInt32.toNat_xor]
  have h := Nat.xor_mod_two_eq_one (a := a.toNat) (b := b.toNat)
  omega

theorem shiftBit_of_odd {r : UInt32} (h : r.toNat % 2 = 1) : shiftBit r = (r >>> 1) ^^^ polynomial :=
  if_pos ((and_one_eq_one_iff r).mpr h)

theorem shiftBit_of_even {r : UInt32} (h : r.toNat % 2 = 0) : shiftBit r = r >>> 1 :=
  if_neg fun h1 => by simp [(and_one_eq_one_iff r).mp h1] at h

theorem shiftBit_xor (a b : UInt32) : shiftBit (a ^^^ b) = shiftBit a ^^^ shiftBit b := by
  have hx := xor_toNat_mod_two a b
  rcases Nat.mod_two_eq_zero_or_one a.toNat with ha | ha <;>
    rcases Nat.mod_two_eq_zero_or_one b.toNat with hb | hb
  · rw [shiftBit_of_even ha, shiftBit_of_even hb, shiftBit_of_even (by omega), UInt32.shiftRight_xor]
  · rw [shiftBit_of_even ha, shiftBit_of_odd hb, shiftBit_of_odd (by omega), UInt32.shiftRight_xor,
      UInt32.xor_assoc]
  · rw [shiftBit_of_odd ha, shiftBit_of_even hb, shiftBit_of_odd (by omega), UInt32.shiftRight_xor]
    ac_rfl
  · rw [shiftBit_of_odd ha, shiftBit_of_odd hb, shiftBit_of_even (by omega), UInt32.shiftRight_xor]
    -- the polynomial cancels itself
    calc a >>> 1 ^^^ b >>> 1 = a >>> 1 ^^^ b >>> 1 ^^^ (polynomial ^^^ polynomial) := by simp
      _ = (a >>> 1 ^^^ polynomial) ^^^ (b >>> 1 ^^^ polynomial) := by ac_rfl

theorem shiftBit_eq_zero {r : UInt32} (h : shiftBit r = 0) : r = 0 := by
  rcases Nat.mod_two_eq_zero_or_one r.toNat with hr | hr
  · rw [shiftBit_of_even hr] at h
    have := congrArg UInt32.toNat h
    simp only [UInt32.toNat_shiftRight] at this
    apply UInt32.toNat_inj.mp
    simp at this ⊢
    omega
  · rw [shiftBit_of_odd hr, UInt32.xor_eq_zero_iff] at h
    have := congrArg UInt32.toNat h
    simp [polynomial] at this
    have := r.toNat_lt
    omega

theorem shiftBits_xor (n : ℕ) (a b : UInt32) :
    shiftBits n (a ^^^ b) = shiftBits n a ^^^ shiftBits n b := by
  induction n generalizing a b with
  | zero => rfl
  | succ n ih => rw [shiftBits, shiftBit_xor, ih, shiftBits, shiftBits]

theorem shiftBits_add (m n : ℕ) (r : UInt32) : shiftBits (m + n) r = shiftBits n (shiftBits m r) := by
  induction m generalizing r with
  | zero => rw [Nat.zero_add, shiftBits]
  | succ m ih => rw [Nat.succ_add, shiftBits, ih, shiftBits]

theorem shiftBits_injective (n : ℕ) : Function.Injective (shiftBits n) := by
  induction n with
  | zero => exact fun _ _ h => h
  | succ n ih =>
    intro a b h
    have hx := shiftBit_xor a b
    rw [ih h, UInt32.xor_self] at hx
    exact UInt32.xor_eq_zero_iff.mp (shiftBit_eq_zero hx)

theorem update_injective (b : UInt8) : Function.Injective fun r => update r b := by
  intro r r' h
  exact (UInt32.xor_left_inj _).mp (shiftBits_injective 8 h)

/-- Equal bytes keep two registers apart. -/
theorem foldl_update_injective (data : Bytes) : Function.Injective fun r => data.foldl update r := by
  induction data with
  | nil => exact fun _ _ h => h
  | cons b data ih => exact fun _ _ h => update_injective b (ih h)

theorem shiftBits_zero (n : ℕ) : shiftBits n 0 = 0 := by
  have h := shiftBits_xor n 0 0
  rwa [UInt32.xor_self, UInt32.xor_self] at h

theorem update_xor (r q : UInt32) (b : UInt8) : update (r ^^^ q) b = update r 0 ^^^ update q b := by
  rw [update, update, update, ← shiftBits_xor, UInt32.xor_assoc]
  simp

/-- What a register held before comes out as if zeros had followed. -/
theorem foldl_update_xor (s : Bytes) (r q : UInt32) :
    s.foldl update (r ^^^ q) = (zeros s.length).foldl update r ^^^ s.foldl update q := by
  induction s generalizing r q with
  | nil => rfl
  | cons b s ih => rw [List.foldl_cons, update_xor, ih]; rfl

/-- A value that stands above the low bits is shifted down to where it started. -/
theorem shiftBits_ofNat_mul {n x : ℕ} (h : 2 ^ n * x < 2 ^ 32) :
    shiftBits n (UInt32.ofNat (2 ^ n * x)) = UInt32.ofNat x := by
  induction n with
  | zero => rw [pow_zero, one_mul, shiftBits]
  | succ n ih =>
    have hd : 2 ^ (n + 1) * x = 2 * (2 ^ n * x) := by ring
    have hlt : 2 ^ n * x < 2 ^ 32 := by omega
    have hn : (UInt32.ofNat (2 ^ (n + 1) * x)).toNat = 2 * (2 ^ n * x) := by
      rw [UInt32.toNat_ofNat_of_lt' h, hd]
    have hs : UInt32.ofNat (2 ^ (n + 1) * x) >>> 1 = UInt32.ofNat (2 ^ n * x) := by
      apply UInt32.toNat_inj.mp
      rw [UInt32.toNat_shiftRight, hn, UInt32.toNat_ofNat_of_lt' hlt]
      simp
      omega
    rw [shiftBits, shiftBit_of_even (by omega), hs, ih hlt]

theorem ofNat_xor_ofNat_mul {b x : ℕ} (hb : b < 256) :
    UInt32.ofNat b ^^^ UInt32.ofNat (256 * x) = UInt32.ofNat (b + 256 * x) := by
  rw [← UInt32.ofNat_xor]
  congr 1
  apply Nat.eq_of_testBit_eq
  intro j
  rw [Nat.testBit_xor, Nat.add_comm b, show 256 = 2 ^ 8 by norm_num, Nat.testBit_two_pow_mul_add x hb,
    Nat.testBit_two_pow_mul]
  split_ifs with hj
  · simp [show ¬ 8 ≤ j by omega]
  · have hz : b.testBit j = false :=
      Nat.testBit_lt_two_pow (hb.trans_le (Nat.pow_le_pow_right (n := 2) (by decide) (Nat.not_lt.mp hj)))
    simp [hz, Nat.not_lt.mp hj]

/-- Up to four bytes enter the register as one word. -/
theorem foldl_update_word {w : Bytes} (h : w.length ≤ 4) (r : UInt32) :
    w.foldl update r = shiftBits (8 * w.length) (r ^^^ UInt32.ofNat (leNat w)) := by
  induction w generalizing r with
  | nil => simp [leNat, shiftBits]
  | cons b w ih =>
    rw [List.length_cons] at h
    have hw := leNat_lt w
    have hlt : 2 ^ 8 * leNat w < 2 ^ 32 := by
      have : 256 ^ w.length ≤ 256 ^ 3 := Nat.pow_le_pow_right (by decide) (by omega)
      omega
    have hb : b.toUInt32 = UInt32.ofNat b.toNat := by
      apply UInt32.toNat_inj.mp
      rw [UInt8.toNat_toUInt32, UInt32.toNat_ofNat_of_lt' (b.toNat_lt.trans (by decide))]
    calc (b :: w).foldl update r = shiftBits (8 * w.length) (update r b ^^^ UInt32.ofNat (leNat w)) := by
          rw [List.foldl_cons, ih (by omega)]
      _ = shiftBits (8 * w.length) (shiftBits 8 (r ^^^ UInt32.ofNat (leNat (b :: w)))) := by
          rw [update, ← shiftBits_ofNat_mul hlt, ← shiftBits_xor, UInt32.xor_assoc, hb, leNat,
            ← ofNat_xor_ofNat_mul b.toNat_lt]
          rfl
      _ = shiftBits (8 * (b :: w).length) (r ^^^ UInt32.ofNat (leNat (b :: w))) := by
          rw [← shiftBits_add, List.length_cons, Nat.mul_succ, Nat.add_comm]

/-- Two different strings of one length, at most four, lead to different registers. -/
theorem foldl_update_ne {w w' : Bytes} (hl : w.length = w'.length) (h : w.length ≤ 4) (hne : w ≠ w')
    (r : UInt32) : w.foldl update r ≠ w'.foldl update r := by
  intro heq
  rw [foldl_update_word h, foldl_update_word (hl ▸ h), ← hl] at heq
  have hn := congrArg UInt32.toNat ((UInt32.xor_right_inj _).mp (shiftBits_injective _ heq))
  have hlt : ∀ v : Bytes, v.length ≤ 4 → leNat v < 2 ^ 32 := by
    intro v hv
    have : 256 ^ v.length ≤ 256 ^ 4 := Nat.pow_le_pow_right (by decide) hv
    exact (leNat_lt v).trans_le this
  rw [UInt32.toNat_ofNat_of_lt' (hlt w h), UInt32.toNat_ofNat_of_lt' (hlt w' (hl ▸ h))] at hn
  exact hne (leNat_injective hl hn)

/-- Strings that differ within four bytes have different checksums. -/
theorem checksum_burst_ne {w w' : Bytes} (hl : w.length = w'.length) (h : w.length ≤ 4) (hne : w ≠ w')
    (a c : Bytes) : checksum (a ++ (w ++ c)) ≠ checksum (a ++ (w' ++ c)) := by
  intro heq
  simp only [checksum, List.foldl_append, UInt32.xor_left_inj] at heq
  exact foldl_update_ne hl h hne _ (foldl_update_injective c heq)

/-- Zeroing a part does not show exactly where that part leads from zero to zero. -/
theorem checksum_zeroed_eq_iff (a s c : Bytes) :
    checksum (a ++ (zeros s.length ++ c)) = checksum (a ++ (s ++ c)) ↔ s.foldl update 0 = 0 := by
  have hsplit := foldl_update_xor s (a.foldl update 0xFFFFFFFF) 0
  rw [UInt32.xor_zero] at hsplit
  simp only [checksum, List.foldl_append, UInt32.xor_left_inj, (foldl_update_injective c).eq_iff, hsplit]
  rw [eq_comm, ← UInt32.xor_right_inj ((zeros s.length).foldl update (a.foldl update 0xFFFFFFFF)) (b := 0),
    UInt32.xor_zero]

theorem foldl_update_eq_zero_iff {w : Bytes} (h : w.length ≤ 4) (r : UInt32) :
    w.foldl update r = 0 ↔ r = UInt32.ofNat (leNat w) := by
  rw [foldl_update_word h, ← UInt32.xor_eq_zero_iff (b := UInt32.ofNat _)]
  nth_rewrite 1 [← shiftBits_zero (8 * w.length)]
  exact (shiftBits_injective _).eq_iff

end Castagnoli
