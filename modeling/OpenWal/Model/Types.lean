import OpenWal.Library.Castagnoli
import OpenWal.Library.Posix

namespace OpenWal
open ByteSeq Posix

/-- The CRC-32C function of the `crc32c` crate. -/
class Crc32c where
  crc32c : Bytes → UInt32

export Crc32c (crc32c)

/-- The checksum the crate documents. -/
instance (priority := low) castagnoli : Crc32c := ⟨Castagnoli.checksum⟩

def u64Max : ℕ := 2 ^ 64 - 1

def lsnNone : ℕ := 0

def lsnFirst : ℕ := 1

def isNone (l : ℕ) : Bool := l == 0

/-- The next number, `none` past `u64::MAX`. -/
def checkedNext (l : ℕ) : Option ℕ := if l < u64Max then some (l + 1) else none

def saturatingAdd (a b : ℕ) : ℕ := min (a + b) u64Max

theorem u64Max_add_one : u64Max + 1 = 2 ^ 64 := by norm_num [u64Max]

theorem u64Max_lt : u64Max < 2 ^ 64 := by decide

theorem lt_two_pow_of_le_u64Max {l : ℕ} (h : l ≤ u64Max) : l < 2 ^ 64 := h.trans_lt u64Max_lt

theorem le_u64Max_of_lt {n : ℕ} (h : n < 2 ^ 64) : n ≤ u64Max := by
  unfold u64Max
  omega

theorem saturatingAdd_of_lt {a b : ℕ} (h : a + b < 2 ^ 64) : saturatingAdd a b = a + b :=
  Nat.min_eq_left (le_u64Max_of_lt h)

theorem le_saturatingAdd_iff {a b c : ℕ} : c ≤ saturatingAdd a b ↔ c ≤ a + b ∧ c < 2 ^ 64 := by
  rw [saturatingAdd, Nat.le_min, ← u64Max_add_one, Nat.lt_succ_iff]

theorem checkedNext_of_le {l : ℕ} (h : u64Max ≤ l) : checkedNext l = none :=
  if_neg (Nat.not_lt.mpr h)

theorem checkedNext_eq_some {l n : ℕ} : checkedNext l = some n ↔ l < u64Max ∧ n = l + 1 := by
  unfold checkedNext
  split_ifs with h
  · simp [h, eq_comm]
  · simp [h]

structure WalConfig where
  segmentSize : ℕ
  maxRecordSize : ℕ
  segmentSize_lt : segmentSize < 2 ^ 64
  maxRecordSize_lt : maxRecordSize < 2 ^ 32

def WalConfig.Valid (config : WalConfig) : Prop := config.maxRecordSize + 91 ≤ config.segmentSize

instance (config : WalConfig) : Decidable config.Valid :=
  inferInstanceAs (Decidable (config.maxRecordSize + 91 ≤ config.segmentSize))

def tightConfig : WalConfig := ⟨136, 45, by decide, by decide⟩

inductive WalError where
  | io (e : IoError)
  | corruption (segment : ℕ) (offset : ℕ) (detail : String)
  | tornMidLog (segment : ℕ) (offset : ℕ)
  | recordTooLarge
  | invalidConfig
  | badSegmentHeader
  | locked
  | fsyncFailed
  | contiguityViolation
  | poisoned
  | lsnExhausted
  deriving DecidableEq, Repr

inductive TailState where
  | clean
  | truncatedAt (segmentBase : ℕ) (offset : ℕ)
  deriving DecidableEq, Repr

structure RecoveryReport where
  oldestLsn : ℕ
  durableLsn : ℕ
  tailState : TailState
  segmentsScanned : ℕ
  deriving DecidableEq, Repr

end OpenWal
