import OpenWal.Model.Segment

namespace OpenWal
open Posix

theorem digitValue_digitChar (n : ℕ) : digitValue (digitChar n) = n % 10 := by
  have h : ∀ k < 10, digitValue (Char.ofNat (48 + k)) = k := by decide
  exact h (n % 10) (Nat.mod_lt n (by decide))

theorem isAsciiDigit_digitChar (n : ℕ) : isAsciiDigit (digitChar n) = true := by
  have h : ∀ k < 10, isAsciiDigit (Char.ofNat (48 + k)) = true := by decide
  exact h (n % 10) (Nat.mod_lt n (by decide))

theorem isAsciiDigit_iff {c : Char} : isAsciiDigit c = true ↔ 48 ≤ c.toNat ∧ c.toNat ≤ 57 := by
  simp [isAsciiDigit]

theorem digitValue_lt {c : Char} (h : isAsciiDigit c = true) : digitValue c < 10 := by
  have := isAsciiDigit_iff.mp h
  unfold digitValue
  omega

theorem digitChar_digitValue {c : Char} (h : isAsciiDigit c = true) :
    digitChar (digitValue c) = c := by
  have h' := isAsciiDigit_iff.mp h
  have hc : 48 + digitValue c % 10 = c.toNat := by
    rw [Nat.mod_eq_of_lt (digitValue_lt h), digitValue]
    omega
  rw [digitChar, hc, Char.ofNat_toNat]

@[simp] theorem decimalDigits_length (n w : ℕ) : (decimalDigits n w).length = n := by
  induction n generalizing w with
  | zero => rfl
  | succ n ih => simp [decimalDigits, ih]

theorem decimalDigits_all (n w : ℕ) : (decimalDigits n w).all isAsciiDigit = true := by
  induction n generalizing w with
  | zero => rfl
  | succ n ih => simp [decimalDigits, ih, isAsciiDigit_digitChar]

theorem parseDecimal_append (ds : List Char) (c : Char) :
    parseDecimal (ds ++ [c]) = 10 * parseDecimal ds + digitValue c := by
  simp [parseDecimal]

theorem parseDecimal_decimalDigits (n w : ℕ) : parseDecimal (decimalDigits n w) = w % 10 ^ n := by
  induction n generalizing w with
  | zero => simp [decimalDigits, parseDecimal, Nat.mod_one]
  | succ n ih =>
    rw [decimalDigits, parseDecimal_append, ih, digitValue_digitChar, pow_succ,
      Nat.mul_comm (10 ^ n), Nat.mod_mul, Nat.add_comm]

theorem decimalDigits_parseDecimal {ds : List Char} (h : ds.all isAsciiDigit = true) :
    decimalDigits ds.length (parseDecimal ds) = ds := by
  induction ds using List.reverseRecOn with
  | nil => rfl
  | append_singleton ds c ih =>
    rw [List.all_append, Bool.and_eq_true] at h
    have hc : isAsciiDigit c = true := by simpa using h.2
    have hv := digitValue_lt hc
    have hd : (10 * parseDecimal ds + digitValue c) / 10 = parseDecimal ds := by omega
    have hm : digitChar (10 * parseDecimal ds + digitValue c) = digitChar (digitValue c) := by
      simp [digitChar]
    rw [parseDecimal_append, List.length_append, List.length_singleton, decimalDigits, hd, hm,
      ih h.1, digitChar_digitValue hc]

theorem stripSuffix_eq_some {name suffix ds : List Char} :
    stripSuffix name suffix = some ds ↔ name = ds ++ suffix := by
  unfold stripSuffix
  split_ifs with h
  · obtain ⟨t, rfl⟩ := List.isSuffixOf_iff_suffix.mp h
    rw [Option.some.injEq, List.length_append, Nat.add_sub_cancel, List.take_left,
      List.append_left_inj, eq_comm]
  · simp only [false_iff]
    rintro rfl
    exact h (List.isSuffixOf_iff_suffix.mpr (List.suffix_append ds suffix))

theorem parseBaseLsn_filenameFor {b : ℕ} (h : b ≤ u64Max) : parseBaseLsn (filenameFor b) = some b := by
  have hv : parseDecimal (decimalDigits 20 b) = b := by
    rw [parseDecimal_decimalDigits, Nat.mod_eq_of_lt]
    exact (lt_two_pow_of_le_u64Max h).trans (by norm_num)
  have hs : stripSuffix (filenameFor b) walSuffix = some (decimalDigits 20 b) :=
    stripSuffix_eq_some.mpr (by rw [filenameFor])
  rw [parseBaseLsn, hs]
  simp only [decimalDigits_length, decimalDigits_all, hv, h]
  simp

/-- A name that parses is the canonical name of the base it parses to. -/
theorem parseBaseLsn_eq_some {n : FileName} {b : ℕ} (h : parseBaseLsn n = some b) :
    n = filenameFor b ∧ b ≤ u64Max := by
  unfold parseBaseLsn at h
  split at h
  · simp at h
  · rename_i ds hs
    split_ifs at h with h1 h2
    obtain ⟨hlen, hall⟩ := not_or.mp h1
    have hlen := not_not.mp hlen
    have hall := not_not.mp hall
    rw [Option.some.injEq] at h
    subst h
    refine ⟨?_, h2⟩
    rw [stripSuffix_eq_some.mp hs, filenameFor, ← hlen, decimalDigits_parseDecimal hall]

theorem filenameFor_injective {a b : ℕ} (ha : a ≤ u64Max) (hb : b ≤ u64Max)
    (h : filenameFor a = filenameFor b) : a = b := by
  have := parseBaseLsn_filenameFor ha
  rw [h, parseBaseLsn_filenameFor hb, Option.some.injEq] at this
  exact this.symm

theorem parseBaseLsn_eq_some_iff {n : FileName} {b : ℕ} (hb : b ≤ u64Max) :
    parseBaseLsn n = some b ↔ n = filenameFor b := by
  constructor
  · intro h
    exact (parseBaseLsn_eq_some h).1
  · rintro rfl
    exact parseBaseLsn_filenameFor hb

theorem parseBaseLsn_eq_none_of_not_suffix {n : FileName} (h : ¬ walSuffix <:+ n) :
    parseBaseLsn n = none := by
  have hs : stripSuffix n walSuffix = none := if_neg fun hw => h (List.isSuffixOf_iff_suffix.mp hw)
  rw [parseBaseLsn, hs]

/-- What stands before the extension decides. -/
theorem parseBaseLsn_append (ds : List Char) : parseBaseLsn (ds ++ walSuffix) =
    if ds.length = 20 ∧ ds.all isAsciiDigit ∧ parseDecimal ds ≤ u64Max then some (parseDecimal ds)
    else none := by
  have hs : stripSuffix (ds ++ walSuffix) walSuffix = some ds := stripSuffix_eq_some.mpr rfl
  rw [parseBaseLsn, hs]
  simp only
  split_ifs <;> simp_all

theorem filenameFor_ne {a b : ℕ} (ha : a ≤ u64Max) (hb : b ≤ u64Max) (h : a ≠ b) :
    filenameFor a ≠ filenameFor b :=
  fun he => h (filenameFor_injective ha hb he)

/-- Of two strings that start equally long, the starts are compared first. -/
theorem append_lt_append_iff {α : Type} [LT α] {a b : List α} (s t : List α)
    (h : a.length = b.length) : a ++ s < b ++ t ↔ a < b ∨ a = b ∧ s < t := by
  induction a generalizing b with
  | nil =>
    rw [List.eq_nil_of_length_eq_zero h.symm]
    simp
  | cons x a ih =>
    cases b with
    | nil => simp at h
    | cons y b =>
      have ih := ih (Nat.succ.inj h)
      rw [List.cons_append, List.cons_append, List.cons_lt_cons_iff, List.cons_lt_cons_iff, ih,
        List.cons.injEq]
      tauto

theorem digitChar_lt_iff (v w : ℕ) : digitChar v < digitChar w ↔ v % 10 < w % 10 := by
  have h : ∀ j < 10, ∀ k < 10, Char.ofNat (48 + j) < Char.ofNat (48 + k) ↔ j < k := by decide
  exact h (v % 10) (Nat.mod_lt v (by decide)) (w % 10) (Nat.mod_lt w (by decide))

theorem decimalDigits_injective {n v w : ℕ} (hv : v < 10 ^ n) (hw : w < 10 ^ n)
    (h : decimalDigits n v = decimalDigits n w) : v = w := by
  have hp := congrArg parseDecimal h
  rwa [parseDecimal_decimalDigits, parseDecimal_decimalDigits, Nat.mod_eq_of_lt hv,
    Nat.mod_eq_of_lt hw] at hp

/-- Digits of one width are ordered as the numbers they write. -/
theorem decimalDigits_lt_iff {n v w : ℕ} (hv : v < 10 ^ n) (hw : w < 10 ^ n) :
    decimalDigits n v < decimalDigits n w ↔ v < w := by
  induction n generalizing v w with
  | zero =>
    rw [pow_zero] at hv hw
    rw [Nat.lt_one_iff.mp hv, Nat.lt_one_iff.mp hw]
    simp [decimalDigits]
  | succ n ih =>
    rw [pow_succ] at hv hw
    have hv' : v / 10 < 10 ^ n := by omega
    have hw' : w / 10 < 10 ^ n := by omega
    have heq : decimalDigits n (v / 10) = decimalDigits n (w / 10) ↔ v / 10 = w / 10 :=
      ⟨decimalDigits_injective hv' hw', congrArg _⟩
    have hlast : [digitChar v] < [digitChar w] ↔ v % 10 < w % 10 := by
      simp [List.cons_lt_cons_iff, digitChar_lt_iff]
    -- the leading digits decide, or they are equal and the last one does
    rw [decimalDigits, decimalDigits, append_lt_append_iff _ _ (by simp), ih hv' hw', heq, hlast]
    omega

theorem filenameFor_lt_iff {a b : ℕ} (ha : a ≤ u64Max) (hb : b ≤ u64Max) :
    filenameFor a < filenameFor b ↔ a < b := by
  have ha' : a < 10 ^ 20 := (lt_two_pow_of_le_u64Max ha).trans (by norm_num)
  have hb' : b < 10 ^ 20 := (lt_two_pow_of_le_u64Max hb).trans (by norm_num)
  rw [filenameFor, filenameFor, append_lt_append_iff _ _ (by simp), decimalDigits_lt_iff ha' hb']
  simp [walSuffix]

end OpenWal
