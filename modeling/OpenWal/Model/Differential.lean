import OpenWal.Model.Recovery

namespace OpenWal
open ByteSeq Posix CrashProg

inductive SegClass where
  | clean (maxLsn : ℕ)
  | truncated (offset maxLsn : ℕ)
  | tornMidLog (offset : ℕ)
  | corruption (offset : ℕ)
  | otherErr
  deriving DecidableEq, Repr

def SegClass.ofResult : Except WalError SegmentRecovery → SegClass
  | .ok rec =>
    match rec.tailState with
    | .clean => .clean rec.maxLsn
    | .truncatedAt _ offset => .truncated offset rec.maxLsn
  | .error (.tornMidLog _ offset) => .tornMidLog offset
  | .error (.corruption _ offset _) => .corruption offset
  | .error _ => .otherErr

def recoverSegmentClassify [Crc32c] (name : FileName) (file : Bytes) (baseLsn : ℕ) (isActive : Bool)
    (segmentSize maxRecordSize : ℕ) : Prog World WalError SegClass :=
  -- the scanner asserts what `open` has validated; a test build panics where nobody has
  if maxRecordSize + 91 > segmentSize then Prog.diverge
  else do
    let base := max baseLsn 1
    let r ← Prog.attempt (recoverSegment name file base isActive segmentSize maxRecordSize)
    return SegClass.ofResult r

namespace Reference

def headerSize : ℕ := 64

def recHeader : ℕ := 20

def crcOff : ℕ := 0

def lenOff : ℕ := 4

def lsnOff : ℕ := 8

def recTypeOff : ℕ := 16

def recTypeFull : UInt8 := 1

def refPadding (payloadLen : ℕ) : ℕ := (8 - (recHeader + payloadLen) % 8) % 8

def refScanBound (maxRecordSize : ℕ) : ℕ := maxRecordSize + 28

inductive RScan where
  | record (lsn framed : ℕ)
  | cleanEnd
  | invalid
  deriving DecidableEq, Repr

def getRange (bytes : Bytes) (i j : ℕ) : Option Bytes :=
  if i ≤ j ∧ j ≤ bytes.length then some (slice bytes i j) else none

section

variable [Crc32c]

def refReadRecordAt (bytes : Bytes) (offset segmentSize maxRecordSize : ℕ) : RScan :=
  let remaining := segmentSize - offset
  if remaining < recHeader then .cleanEnd
  else
    match getRange bytes offset (offset + recHeader) with
    | none => .invalid
    | some header =>
      if header.all (· == 0) then .cleanEnd
      else
        let length := leNat (slice header lenOff (lenOff + 4))
        if length > maxRecordSize then .invalid
        else
          let framed := recHeader + length + refPadding length
          if framed > remaining then .invalid
          else
            match getRange bytes offset (offset + framed) with
            | none => .invalid
            | some full =>
              let stored := leNat (slice full crcOff (crcOff + 4))
              if (crc32c (slice full lenOff framed)).toNat ≠ stored then .invalid
              else if full.getD recTypeOff 0 ≠ recTypeFull then .invalid
              else .record (leNat (slice full lsnOff (lsnOff + 8))) framed

/-- A record the parser accepts lies inside the segment. -/
theorem refReadRecordAt_record_bounds {bytes : Bytes} {offset segmentSize maxRecordSize lsn framed : ℕ}
    (h : refReadRecordAt bytes offset segmentSize maxRecordSize = .record lsn framed) :
    20 ≤ framed ∧ offset + framed ≤ segmentSize := by
  have h20 : recHeader = 20 := rfl
  unfold refReadRecordAt at h
  simp only at h
  split at h
  · cases h
  split at h
  · cases h
  split_ifs at h
  split at h
  · cases h
  split_ifs at h
  simp only [RScan.record.injEq] at h
  omega

def refForwardScanLoop (bytes : Bytes) (expected segmentSize maxRecordSize stop p : ℕ) : Option Bool :=
  if p ≤ stop then
    match refReadRecordAt bytes p segmentSize maxRecordSize with
    | .record lsn _ =>
      if expected ≤ lsn then some true
      else if p + 8 ≤ u64Max then
        refForwardScanLoop bytes expected segmentSize maxRecordSize stop (p + 8)
      else none
    | _ =>
      if p + 8 ≤ u64Max then
        refForwardScanLoop bytes expected segmentSize maxRecordSize stop (p + 8)
      else none
  else some false
termination_by stop + 1 - p
decreasing_by all_goals omega

def refForwardScanFindsValid (bytes : Bytes) (x expected segmentSize maxRecordSize : ℕ) : Option Bool :=
  let bound := refScanBound maxRecordSize
  let start := saturatingAdd x 8
  let stop := saturatingAdd start bound
  refForwardScanLoop bytes expected segmentSize maxRecordSize stop start

def refClassifyBoundary (bytes : Bytes) (isActive : Bool) (segmentSize maxRecordSize : ℕ)
    (x expected lastValid : ℕ) : Option SegClass :=
  if ¬ isActive then some (.corruption x)
  else do
    if ← refForwardScanFindsValid bytes x expected segmentSize maxRecordSize then
      return .tornMidLog x
    else return .truncated x lastValid

/-- What may follow a record numbered `u64::MAX`. -/
def refAtCapacity (bytes : Bytes) (isActive : Bool) (offset lastValid : ℕ) : RScan → SegClass
  | .cleanEnd => .clean lastValid
  | .record _ _ => .corruption offset
  | .invalid =>
    let rest := (getRange bytes offset bytes.length).getD []
    let zeroCut := decide (rest.length < recHeader) && rest.all (· == 0)
    if isActive && zeroCut then .truncated offset lastValid else .corruption offset

def referenceLoop (bytes : Bytes) (isActive : Bool) (segmentSize maxRecordSize : ℕ)
    (offset expected lastValid : ℕ) (atCapacity : Bool) : Option SegClass :=
  match h : refReadRecordAt bytes offset segmentSize maxRecordSize with
  | .record lsn framed =>
    if atCapacity then some (refAtCapacity bytes isActive offset lastValid (.record lsn framed))
    else if lsn ≠ expected then
      refClassifyBoundary bytes isActive segmentSize maxRecordSize offset expected lastValid
    else if offset + framed ≤ u64Max then
      if lsn = u64Max then
        referenceLoop bytes isActive segmentSize maxRecordSize (offset + framed) expected lsn true
      else
        referenceLoop bytes isActive segmentSize maxRecordSize (offset + framed) (lsn + 1) lsn false
    else none
  | .cleanEnd =>
    if atCapacity then some (refAtCapacity bytes isActive offset lastValid .cleanEnd)
    else some (.clean lastValid)
  | .invalid =>
    if atCapacity then some (refAtCapacity bytes isActive offset lastValid .invalid)
    else refClassifyBoundary bytes isActive segmentSize maxRecordSize offset expected lastValid
termination_by segmentSize - offset
decreasing_by
  all_goals
    have := refReadRecordAt_record_bounds h
    omega

/-- The test's own parser; `none` where an offset would leave its 64-bit word. -/
def referenceClassify (bytes : Bytes) (baseLsn : ℕ) (isActive : Bool)
    (segmentSize maxRecordSize : ℕ) : Option SegClass :=
  let base := max baseLsn 1
  referenceLoop bytes isActive segmentSize maxRecordSize headerSize base (base - 1) false

end

end Reference

end OpenWal
