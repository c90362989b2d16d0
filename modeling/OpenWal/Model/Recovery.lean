import OpenWal.Model.Segment

namespace OpenWal
open ByteSeq Posix CrashProg

structure SegmentRecovery where
  /-- The last accepted number, `baseLsn - 1` when there is none. -/
  maxLsn : ℕ
  writeOffset : ℕ
  tailState : TailState
  deriving DecidableEq, Repr

structure RecoverCtx where
  baseLsn : ℕ
  isActive : Bool
  segmentSize : ℕ
  maxRecordSize : ℕ

def afterExhaustion (ctx : RecoverCtx) (offset : ℕ) : WalError :=
  .corruption ctx.baseLsn offset "data after the last LSN (u64::MAX)"

/-- What is invalid after a `u64::MAX` record may only be zeros that were cut short. -/
def atCapacityInvalid (ctx : RecoverCtx) (name : FileName) (file : Bytes) (offset : ℕ)
    (lastValid : ℕ) : Prog World WalError SegmentRecovery :=
  let len := file.length
  if saturatingAdd offset recordHeaderSize ≤ len ∨ ¬ ctx.isActive then
    Prog.raise (afterExhaustion ctx offset)
  else if (slice file offset len).any (· != 0) then
    Prog.raise (afterExhaustion ctx offset)
  else do
    zeroToEof name offset ctx.segmentSize
    return ⟨lastValid, offset, .truncatedAt ctx.baseLsn offset⟩

/-- How far past `offset + 8` a forward scan looks. -/
def scanBound (maxRecordSize : ℕ) : ℕ := maxRecordSize + 28

section

variable [Crc32c]

def forwardScanLoop (ctx : RecoverCtx) (file : Bytes) (expected : ℕ) (stop p : ℕ) (buf : Bytes) :
    Bool × Bytes :=
  if p ≤ stop then
    match readRecordAt file p ctx.segmentSize ctx.maxRecordSize buf with
    | (.record lsn _ _, buf) =>
      if expected ≤ lsn then (true, buf) else forwardScanLoop ctx file expected stop (p + 8) buf
    | (_, buf) => forwardScanLoop ctx file expected stop (p + 8) buf
  else (false, buf)
termination_by stop + 1 - p
decreasing_by all_goals omega

/-- Whether a record numbered `expected` or higher starts within the bound after `x`. -/
def forwardScanFindsValid (ctx : RecoverCtx) (file : Bytes) (x : ℕ) (expected : ℕ) (buf : Bytes) :
    Bool × Bytes :=
  let bound := scanBound ctx.maxRecordSize
  let start := saturatingAdd x 8
  let stop := saturatingAdd start bound
  forwardScanLoop ctx file expected stop start buf

def classify (ctx : RecoverCtx) (name : FileName) (file : Bytes) (x : ℕ) (expected : ℕ)
    (lastValid : ℕ) (buf : Bytes) : Prog World WalError SegmentRecovery :=
  if ¬ ctx.isActive then
    Prog.raise (.corruption ctx.baseLsn x "invalid record in sealed segment")
  else if (forwardScanFindsValid ctx file x expected buf).1 then
    Prog.raise (.tornMidLog ctx.baseLsn x)
  else do
    zeroToEof name x ctx.segmentSize
    return ⟨lastValid, x, .truncatedAt ctx.baseLsn x⟩

/-- The loop of `recoverSegment`; `expected` is `none` past a `u64::MAX` record. -/
def recoverLoop (ctx : RecoverCtx) (name : FileName) (file : Bytes) (offset : ℕ)
    (expected : Option ℕ) (lastValid : ℕ) (buf : Bytes) : Prog World WalError SegmentRecovery :=
  match _ : readRecordAt file offset ctx.segmentSize ctx.maxRecordSize buf with
  | (.record lsn _ framedLen, buf) =>
    match expected with
    | none => Prog.raise (afterExhaustion ctx offset)
    | some want =>
      if lsn ≠ want then classify ctx name file offset want lastValid buf
      else recoverLoop ctx name file (offset + framedLen) (checkedNext lsn) lsn buf
  | (.cleanEnd, _) => return ⟨lastValid, offset, .clean⟩
  | (.invalid, buf) =>
    match expected with
    | none => atCapacityInvalid ctx name file offset lastValid
    | some want => classify ctx name file offset want lastValid buf
termination_by ctx.segmentSize - offset
decreasing_by
  have := readRecordAt_record_bounds ‹_›
  omega

def recoverSegment (name : FileName) (file : Bytes) (baseLsn : ℕ) (isActive : Bool)
    (segmentSize maxRecordSize : ℕ) : Prog World WalError SegmentRecovery :=
  recoverLoop ⟨baseLsn, isActive, segmentSize, maxRecordSize⟩ name file headerSize (some baseLsn)
    (baseLsn - 1) []

end

end OpenWal
