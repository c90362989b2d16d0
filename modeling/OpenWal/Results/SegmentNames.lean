import OpenWal.Theory.Names

namespace OpenWal
open Posix

/-- A base has one name and a name at most one base, anything else is no segment,
and names sort as their bases do. -/
theorem segment_names :
    (∀ base ≤ u64Max, ∀ name : FileName, parseBaseLsn name = some base ↔ name = filenameFor base) ∧
    (∀ name base, parseBaseLsn name = some base → base ≤ u64Max) ∧
    (∀ digits, u64Max < parseDecimal digits → parseBaseLsn (digits ++ walSuffix) = none) ∧
    (∀ digits, ¬ digits.all isAsciiDigit → parseBaseLsn (digits ++ walSuffix) = none) ∧
    (∀ digits, digits.length ≠ 20 → parseBaseLsn (digits ++ walSuffix) = none) ∧
    (∀ name, ¬ walSuffix <:+ name → parseBaseLsn name = none) ∧
    (∀ name name' base, parseBaseLsn name = some base → parseBaseLsn name' = some base →
      name = name') ∧
    ∀ a ≤ u64Max, ∀ b ≤ u64Max, a < b ↔ filenameFor a < filenameFor b := by
  refine ⟨fun base hb name => parseBaseLsn_eq_some_iff hb, fun name base h => (parseBaseLsn_eq_some h).2,
    fun digits h => ?_, fun digits h => ?_, fun digits h => ?_, fun name h => ?_,
    fun name name' base h h' => ?_, fun a ha b hb => (filenameFor_lt_iff ha hb).symm⟩
  · rw [parseBaseLsn_append, if_neg fun hc => absurd hc.2.2 (Nat.not_le.mpr h)]
  · rw [parseBaseLsn_append, if_neg fun hc => h hc.2.1]
  · rw [parseBaseLsn_append, if_neg fun hc => h hc.1]
  · exact parseBaseLsn_eq_none_of_not_suffix h
  · rw [(parseBaseLsn_eq_some h).1, (parseBaseLsn_eq_some h').1]

/-- Both ends of `u64`, a power of ten, one number too many, a sign and a digit too few. -/
theorem segment_names_edges :
    parseBaseLsn (filenameFor u64Max) = some u64Max ∧ filenameFor 9 < filenameFor 10 ∧
      parseBaseLsn "18446744073709551616.wal".toList = none ∧
      parseBaseLsn "+0000000000000000001.wal".toList = none ∧
      parseBaseLsn "0000000000000000001.wal".toList = none ∧
      parseBaseLsn "00000000000000000001.dat".toList = none := by
  obtain ⟨hname, _, hmax, hdigit, hlen, hext, _, hlt⟩ := segment_names
  refine ⟨(hname u64Max le_rfl _).mpr rfl, (hlt 9 (by decide) 10 (by decide)).mp (by decide), ?_, ?_,
    ?_, hext _ (by decide)⟩
  · exact hmax "18446744073709551616".toList (by decide)
  · exact hdigit "+0000000000000000001".toList (by decide)
  · exact hlen "0000000000000000001".toList (by decide)

end OpenWal
