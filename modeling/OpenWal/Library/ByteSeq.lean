import Mathlib.Data.List.GetD
import Mathlib.Tactic

namespace ByteSeq

abbrev Bytes := List UInt8

def zeros (n : ℕ) : Bytes := List.replicate n 0

def slice (b : Bytes) (i j : ℕ) : Bytes := (b.drop i).take (j - i)

/-- A positioned write: a gap before `off` reads as zero, an empty write does nothing. -/
def overwrite (d : Bytes) (off : ℕ) (b : Bytes) : Bytes :=
  if b = [] then d else d.take off ++ zeros (off - d.length) ++ b ++ d.drop (off + b.length)

/-- Two strings hold the same bytes, or both end, at every offset in `[x, y)`. -/
def AgreeOn (d d' : Bytes) (x y : ℕ) : Prop := ∀ i, x ≤ i → i < y → d[i]? = d'[i]?

def ZeroOn (d : Bytes) (x y : ℕ) : Prop := ∀ i, x ≤ i → i < y → d[i]? = some 0

@[simp] theorem zeros_length (n : ℕ) : (zeros n).length = n := by simp [zeros]

@[simp] theorem zeros_zero : zeros 0 = [] := rfl

theorem zeros_getElem? (n i : ℕ) : (zeros n)[i]? = if i < n then some 0 else none := by
  simp [zeros, List.getElem?_replicate]

theorem zeros_add (m n : ℕ) : zeros (m + n) = zeros m ++ zeros n :=
  (List.replicate_append_replicate).symm

theorem zeros_drop (n i : ℕ) : (zeros n).drop i = zeros (n - i) := by simp [zeros]

theorem eq_zeros_of_forall {b : Bytes} (h : ∀ x ∈ b, x = 0) : b = zeros b.length :=
  List.eq_replicate_iff.mpr ⟨rfl, h⟩

theorem slice_length (b : Bytes) (i j : ℕ) : (slice b i j).length = min (j - i) (b.length - i) := by
  simp [slice]

theorem slice_length_of_le {b : Bytes} {i j : ℕ} (h : j ≤ b.length) :
    (slice b i j).length = j - i := by
  rw [slice_length]
  omega

theorem slice_getElem? (b : Bytes) (i j k : ℕ) :
    (slice b i j)[k]? = if k < j - i then b[i + k]? else none := by
  simp only [slice, List.getElem?_take, List.getElem?_drop]

theorem slice_self (b : Bytes) (i : ℕ) : slice b i i = [] := by simp [slice]

theorem slice_append_slice (b : Bytes) {i j k : ℕ} (hij : i ≤ j) (hjk : j ≤ k) :
    slice b i j ++ slice b j k = slice b i k := by
  have hk : k - i = (j - i) + (k - j) := by omega
  have hd : b.drop j = (b.drop i).drop (j - i) := by rw [List.drop_drop]; congr 1; omega
  simp only [slice, hk, hd, List.take_add]

theorem slice_slice (b : Bytes) {i j k l : ℕ} (h : l ≤ j - i) :
    slice (slice b i j) k l = slice b (i + k) (i + l) := by
  apply List.ext_getElem?
  intro n
  simp only [slice_getElem?]
  by_cases hn : n < l - k
  · rw [if_pos hn, if_pos (by omega), if_pos (by omega)]
    congr 1
    omega
  · rw [if_neg hn, if_neg (by omega)]

theorem slice_take {b : Bytes} {i j n : ℕ} (h : j ≤ n) : slice (b.take n) i j = slice b i j := by
  apply List.ext_getElem?
  intro k
  simp only [slice_getElem?, List.getElem?_take]
  split_ifs <;> first | rfl | omega

/-- The middle of three parts, given where it starts and ends. -/
theorem slice_middle {a b c : Bytes} {i j : ℕ} (hi : i = a.length) (hj : j = i + b.length) :
    slice (a ++ (b ++ c)) i j = b := by
  subst hi hj
  rw [slice, List.drop_left, Nat.add_sub_cancel_left, List.take_left]

/-- The same of a sequence that is made of the three parts. -/
theorem slice_part {s b : Bytes} (a c : Bytes) {i j : ℕ} (h : s = a ++ (b ++ c)) (hi : i = a.length)
    (hj : j = i + b.length) : slice s i j = b := by
  rw [h]
  exact slice_middle hi hj

theorem slice_left {b c : Bytes} {j : ℕ} (hj : j = b.length) : slice (b ++ c) 0 j = b := by
  subst hj
  rw [slice, List.drop_zero, Nat.sub_zero, List.take_left]

theorem slice_eq_take_drop (b : Bytes) (x n : ℕ) : slice b x (x + n) = (b.drop x).take n := by
  simp [slice]

theorem AgreeOn.refl (d : Bytes) (x y : ℕ) : AgreeOn d d x y := fun _ _ _ => rfl

theorem AgreeOn.symm {d d' : Bytes} {x y : ℕ} (h : AgreeOn d d' x y) : AgreeOn d' d x y :=
  fun i hx hy => (h i hx hy).symm

theorem AgreeOn.trans {d d' d'' : Bytes} {x y : ℕ} (h : AgreeOn d d' x y)
    (h' : AgreeOn d' d'' x y) : AgreeOn d d'' x y :=
  fun i hx hy => (h i hx hy).trans (h' i hx hy)

theorem AgreeOn.mono {d d' : Bytes} {x y x' y' : ℕ} (h : AgreeOn d d' x y) (hx : x ≤ x')
    (hy : y' ≤ y) : AgreeOn d d' x' y' :=
  fun i hi hi' => h i (hx.trans hi) (hi'.trans_le hy)

theorem AgreeOn.slice_eq {d d' : Bytes} {x y : ℕ} (h : AgreeOn d d' x y) :
    slice d x y = slice d' x y := by
  apply List.ext_getElem?
  intro k
  simp only [slice_getElem?]
  split_ifs with hk
  · exact h (x + k) (by omega) (by omega)
  · rfl

theorem agreeOn_of_slice_eq {d d' : Bytes} {x y : ℕ} (h : slice d x y = slice d' x y) :
    AgreeOn d d' x y := by
  intro i hx hy
  have hk := congrArg (fun l : Bytes => l[i - x]?) h
  have hi : x + (i - x) = i := by omega
  simpa [slice_getElem?, show i - x < y - x by omega, hi] using hk

theorem agreeOn_of_drop_eq {d d' : Bytes} {x : ℕ} (h : d.drop x = d'.drop x) (y : ℕ) :
    AgreeOn d d' x y := by
  intro i hx _
  have hk := congrArg (fun l : Bytes => l[i - x]?) h
  have hi : x + (i - x) = i := by omega
  simpa [List.getElem?_drop, hi] using hk

theorem ZeroOn.mono {d : Bytes} {x y x' y' : ℕ} (h : ZeroOn d x y) (hx : x ≤ x') (hy : y' ≤ y) :
    ZeroOn d x' y' :=
  fun i hi hi' => h i (hx.trans hi) (hi'.trans_le hy)

theorem ZeroOn.congr {d d' : Bytes} {x y : ℕ} (h : ZeroOn d x y) (ha : AgreeOn d d' x y) :
    ZeroOn d' x y :=
  fun i hx hy => (ha i hx hy).symm.trans (h i hx hy)

theorem ZeroOn.slice_eq {d : Bytes} {x y : ℕ} (h : ZeroOn d x y) : slice d x y = zeros (y - x) := by
  apply List.ext_getElem?
  intro k
  rw [slice_getElem?, zeros_getElem?]
  split_ifs with hk
  · exact h (x + k) (by omega) (by omega)
  · rfl

theorem zeroOn_of_slice_eq {d : Bytes} {x y : ℕ} (h : slice d x y = zeros (y - x)) :
    ZeroOn d x y := by
  intro i hx hy
  have hk := congrArg (fun l : Bytes => l[i - x]?) h
  have hi : x + (i - x) = i := by omega
  simp only [slice_getElem?, zeros_getElem?, if_pos (show i - x < y - x by omega), hi] at hk
  exact hk

theorem ZeroOn.le_length {d : Bytes} {x y : ℕ} (h : ZeroOn d x y) (hxy : x < y) : y ≤ d.length := by
  have := h (y - 1) (by omega) (by omega)
  have := (List.getElem?_eq_some_iff.mp this).1
  omega

@[simp] theorem overwrite_nil (d : Bytes) (off : ℕ) : overwrite d off [] = d := by simp [overwrite]

/-- A write inside the string: what was before it, the new bytes, what was after them. -/
theorem overwrite_eq {d : Bytes} {off : ℕ} (b : Bytes) (h : off ≤ d.length) :
    overwrite d off b = d.take off ++ b ++ d.drop (off + b.length) := by
  by_cases hb : b = []
  · subst hb
    simp
  · simp [overwrite, hb, Nat.sub_eq_zero_of_le h]

/-- A write over the middle of three parts. -/
theorem overwrite_middle {a b c b' : Bytes} {off : ℕ} (ho : off = a.length)
    (hl : b'.length = b.length) : overwrite (a ++ (b ++ c)) off b' = a ++ (b' ++ c) := by
  subst ho
  rw [overwrite_eq b' (by simp), List.take_left, hl, ← List.append_assoc a b c,
    ← List.length_append, List.drop_left, List.append_assoc]

theorem overwrite_length {d : Bytes} {off : ℕ} (b : Bytes) (h : off ≤ d.length) :
    (overwrite d off b).length = max d.length (off + b.length) := by
  rw [overwrite_eq b h]
  simp only [List.length_append, List.length_take, List.length_drop]
  omega

theorem overwrite_getElem? {d : Bytes} {off : ℕ} (b : Bytes) (h : off ≤ d.length) (i : ℕ) :
    (overwrite d off b)[i]? = if off ≤ i ∧ i < off + b.length then b[i - off]? else d[i]? := by
  rw [overwrite_eq b h, List.append_assoc, List.getElem?_append, List.getElem?_append]
  simp only [List.length_take, List.getElem?_take, List.getElem?_drop, Nat.min_eq_left h]
  by_cases h1 : i < off
  · simp only [h1, if_true]
    rw [if_neg (by omega)]
  · simp only [h1, if_false]
    by_cases h2 : i - off < b.length
    · rw [if_pos h2, if_pos (by omega)]
    · rw [if_neg h2, if_neg (by omega)]
      congr 1
      omega

theorem overwrite_agreeOn_before {d : Bytes} {off : ℕ} (b : Bytes) (h : off ≤ d.length) (x : ℕ) :
    AgreeOn (overwrite d off b) d x off := by
  intro i _ hi
  rw [overwrite_getElem? b h, if_neg (by omega)]

/-- A write leaves what lies before it, even where it starts past the end. -/
theorem overwrite_agreeOn_of_le {d : Bytes} {off x : ℕ} (b : Bytes) (ho : x ≤ off) (hx : x ≤ d.length) :
    AgreeOn (overwrite d off b) d 0 x := by
  intro i _ hi
  unfold overwrite
  split_ifs
  · rfl
  · rw [List.append_assoc, List.append_assoc, List.getElem?_append_left (by rw [List.length_take]; omega),
      List.getElem?_take_of_lt (by omega)]

theorem le_overwrite_length (d : Bytes) (off : ℕ) (b : Bytes) : d.length ≤ (overwrite d off b).length := by
  unfold overwrite
  split_ifs
  · exact le_rfl
  · simp only [List.length_append, List.length_take, List.length_drop, zeros_length]
    omega

theorem overwrite_agreeOn_after {d : Bytes} {off : ℕ} (b : Bytes) (h : off ≤ d.length) (y : ℕ) :
    AgreeOn (overwrite d off b) d (off + b.length) y := by
  intro i hi _
  rw [overwrite_getElem? b h, if_neg (by omega)]

theorem overwrite_slice_self {d : Bytes} {off : ℕ} (b : Bytes) (h : off ≤ d.length) :
    slice (overwrite d off b) off (off + b.length) = b := by
  apply List.ext_getElem?
  intro k
  rw [slice_getElem?]
  split_ifs with hk
  · rw [overwrite_getElem? b h, if_pos (by omega)]
    congr 1
    omega
  · exact (List.getElem?_eq_none (by omega)).symm

theorem overwrite_drop {d : Bytes} {off p : ℕ} (b : Bytes) (h : off ≤ d.length)
    (hp : off + b.length ≤ p) : (overwrite d off b).drop p = d.drop p := by
  apply List.ext_getElem?
  intro k
  rw [List.getElem?_drop, List.getElem?_drop, overwrite_getElem? b h, if_neg (by omega)]

theorem overwrite_drop_self {d : Bytes} {off : ℕ} (b : Bytes) (h : off ≤ d.length) :
    (overwrite d off b).drop off = b ++ d.drop (off + b.length) := by
  have hl : (d.take off).length = off := List.length_take_of_le h
  rw [overwrite_eq b h, List.append_assoc, List.drop_append_of_le_length hl.ge]
  nth_rewrite 1 [← hl]
  rw [List.drop_length, List.nil_append]

theorem overwrite_drop_congr {d d' : Bytes} {off : ℕ} (b : Bytes) (h : off ≤ d.length)
    (h' : off ≤ d'.length) (hd : d.drop off = d'.drop off) :
    (overwrite d off b).drop off = (overwrite d' off b).drop off := by
  rw [overwrite_drop_self b h, overwrite_drop_self b h', ← List.drop_drop, hd, List.drop_drop]

/-- A write past the end first extends the string with zeros. -/
theorem overwrite_pad {d b : Bytes} {off : ℕ} (hb : b ≠ []) :
    overwrite d off b = overwrite (d ++ zeros (off - d.length)) off b := by
  have hl : off ≤ (d ++ zeros (off - d.length)).length := by
    rw [List.length_append, zeros_length]
    omega
  rw [overwrite_eq b hl, overwrite, if_neg hb, List.take_append, List.drop_append]
  simp only [zeros_drop, List.append_assoc]
  rcases Nat.le_total off d.length with h | h
  · simp [Nat.sub_eq_zero_of_le h]
  · rw [List.take_of_length_le (l := zeros _) (by simp),
      List.drop_of_length_le (show d.length ≤ off + b.length by omega)]
    simp [show off - d.length - (off + b.length - d.length) = 0 by omega]

/-- Writing `b` and then `b'` right after it is writing both at once. -/
theorem overwrite_overwrite (d : Bytes) (off : ℕ) (b b' : Bytes) :
    overwrite (overwrite d off b) (off + b.length) b' = overwrite d off (b ++ b') := by
  by_cases hb : b = []
  · simp [hb]
  rw [overwrite_pad hb, overwrite_pad (b := b ++ b') (by simp [hb])]
  set p := d ++ zeros (off - d.length) with hp
  have h : off ≤ p.length := by
    rw [hp, List.length_append, zeros_length]
    omega
  have hl := overwrite_length b h
  apply List.ext_getElem?
  intro i
  rw [overwrite_getElem? b' (by omega), overwrite_getElem? b h, overwrite_getElem? (b ++ b') h]
  simp only [List.length_append]
  by_cases h1 : off + b.length ≤ i ∧ i < off + b.length + b'.length
  · rw [if_pos h1, if_pos (by omega), List.getElem?_append_right (by omega)]
    congr 1
    omega
  · rw [if_neg h1]
    by_cases h2 : off ≤ i ∧ i < off + b.length
    · rw [if_pos h2, if_pos (by omega), List.getElem?_append_left (by omega)]
    · rw [if_neg h2, if_neg (by omega)]

def leBytes : ℕ → ℕ → Bytes
  | 0, _ => []
  | n + 1, w => UInt8.ofNat (w % 256) :: leBytes n (w / 256)

def leNat : Bytes → ℕ
  | [] => 0
  | b :: bs => b.toNat + 256 * leNat bs

@[simp] theorem leBytes_length (n w : ℕ) : (leBytes n w).length = n := by
  induction n generalizing w with
  | zero => rfl
  | succ n ih => simp [leBytes, ih]

theorem leNat_lt (b : Bytes) : leNat b < 256 ^ b.length := by
  induction b with
  | nil => simp [leNat]
  | cons x b ih =>
    have hx : x.toNat < 256 := x.toNat_lt
    simp only [leNat, List.length_cons, pow_succ]
    omega

theorem leNat_leBytes (n w : ℕ) : leNat (leBytes n w) = w % 256 ^ n := by
  induction n generalizing w with
  | zero => simp [leBytes, leNat, Nat.mod_one]
  | succ n ih =>
    have hb : (UInt8.ofNat (w % 256)).toNat = w % 256 := by
      simp [UInt8.toNat_ofNat']
    rw [leBytes, leNat, hb, ih, pow_succ, Nat.mul_comm (256 ^ n), Nat.mod_mul]

theorem leNat_leBytes_of_lt {n w : ℕ} (h : w < 256 ^ n) : leNat (leBytes n w) = w := by
  rw [leNat_leBytes, Nat.mod_eq_of_lt h]

theorem leBytes_leNat (b : Bytes) : leBytes b.length (leNat b) = b := by
  induction b with
  | nil => rfl
  | cons x b ih =>
    have hx : x.toNat < 256 := x.toNat_lt
    have hm : (x.toNat + 256 * leNat b) % 256 = x.toNat := by omega
    have hd : (x.toNat + 256 * leNat b) / 256 = leNat b := by omega
    rw [List.length_cons, leNat, leBytes, hm, hd, ih, UInt8.ofNat_toNat]

theorem leNat_slice_lt (b : Bytes) (i n : ℕ) : leNat (slice b i (i + n)) < 256 ^ n := by
  apply (leNat_lt _).trans_le
  apply Nat.pow_le_pow_right (by decide)
  rw [slice_length]
  omega

/-- A field is what its value is written as. -/
theorem leBytes_leNat_slice {b : Bytes} {i n : ℕ} (h : i + n ≤ b.length) :
    leBytes n (leNat (slice b i (i + n))) = slice b i (i + n) := by
  have hl : (slice b i (i + n)).length = n := by
    rw [slice_length_of_le h]
    omega
  have hb := leBytes_leNat (slice b i (i + n))
  rwa [hl] at hb

theorem leNat_injective {b b' : Bytes} (hl : b.length = b'.length) (h : leNat b = leNat b') : b = b' := by
  rw [← leBytes_leNat b, ← leBytes_leNat b', hl, h]

theorem leNat_zeros (n : ℕ) : leNat (zeros n) = 0 := by
  induction n with
  | zero => rfl
  | succ n ih =>
    change (0 : UInt8).toNat + 256 * leNat (zeros n) = 0
    rw [ih]
    rfl

end ByteSeq
