import OpenWal.Library.CheckedRuns
import OpenWal.Model.Wal

namespace OpenWal
open ByteSeq Posix CrashProg

/-- What recovery and replay, every sum, difference, index and slice of theirs checked, enter in the
audit. -/
inductive Touch where
  /-- The bytes of a segment file in `[first, past)` were asked for. -/
  | read (first past : ℕ)
  /-- The record buffer was given this length. -/
  | sized (n : ℕ)
  /-- The forward scan from `x` looked at offset `p`. -/
  | examined (x p : ℕ)
  deriving DecidableEq, Repr

/-- What one read comes back with: of the bytes there are, as many as it pleases. -/
class ShortReads where
  ready : ℕ → ℕ → ℕ

namespace Checked

abbrev Guarded (ε : Type) : Type → Type := CheckedProg World Touch ε

variable {ε : Type}

def addU64 (a b : ℕ) : Guarded ε ℕ := CheckedProg.add u64Max a b

def slice (buf : Bytes) (i j : ℕ) : Guarded ε Bytes := do
  CheckedProg.require (i ≤ j ∧ j ≤ buf.length)
  return ByteSeq.slice buf i j

/-- `buf[i..j].copy_from_slice(bytes)` -/
def copyInto (buf : Bytes) (i j : ℕ) (bytes : Bytes) : Guarded ε Bytes := do
  CheckedProg.require (i ≤ j ∧ j ≤ buf.length ∧ bytes.length = j - i)
  return overwrite buf i bytes

def paddingForU64 (payloadLen : ℕ) : Guarded ε ℕ := do
  let past ← addU64 (recordHeaderSize % 8) (payloadLen % 8)
  let pad ← CheckedProg.sub 8 (past % 8)
  return pad % 8

def framedSizeU64 (payloadLen : ℕ) : Guarded ε ℕ := do
  let size ← addU64 recordHeaderSize payloadLen
  let pad ← paddingForU64 payloadLen
  addU64 size pad

section

variable [Crc32c]

def decode (buf : Bytes) (maxRecordSize : ℕ) : Guarded ε Decoded :=
  if buf.length < recordHeaderSize then return .incomplete
  else do
    let recType ← CheckedProg.index buf recTypeOff
    let header ← slice buf 0 recordHeaderSize
    if recType = recTypeSentinel ∧ header.all (· == 0) then return .sentinel
    else
      let length := leNat (← slice buf lenOff (lenOff + 4))
      if length > maxRecordSize then return .invalid .lengthTooLarge
      else
        let size ← addU64 recordHeaderSize length
        let pad ← paddingForU64 length
        let framed ← addU64 size pad
        if framed > buf.length then return .incomplete
        else
          let storedCrc := leNat (← slice buf 0 4)
          let computedCrc := crc32c (← slice buf lenOff framed)
          if computedCrc.toNat ≠ storedCrc then return .invalid .badCrc
          else if recType ≠ recTypeFull then return .invalid .unknownRecType
          else
            let lsn := leNat (← slice buf lsnOff (lsnOff + 8))
            let stop ← addU64 payloadOff length
            let payload ← slice buf payloadOff stop
            return .record lsn payload framed

def encodeHeader (baseLsn : ℕ) (createdUnixNanos : ℕ) : Guarded ε Bytes := do
  let h := zeros headerSize
  let h ← copyInto h 0 8 magic
  let h ← copyInto h versionOff (versionOff + 2) (leBytes 2 formatVersion)
  let h ← copyInto h baseLsnOff (baseLsnOff + 8) (leBytes 8 baseLsn)
  let h ← copyInto h createdOff (createdOff + 8) (leBytes 8 createdUnixNanos)
  let crc := crc32c (← slice h 0 headerCrcOff)
  copyInto h headerCrcOff (headerCrcOff + 4) (leBytes 4 crc.toNat)

def decodeHeader (bytes : Bytes) : Guarded ε (Except WalError ℕ) :=
  if bytes.length < headerSize then return .error .badSegmentHeader
  else do
    let first ← slice bytes 0 8
    if first ≠ magic then return .error .badSegmentHeader
    else
      let storedCrc := leNat (← slice bytes headerCrcOff (headerCrcOff + 4))
      let computedCrc := crc32c (← slice bytes 0 headerCrcOff)
      if computedCrc.toNat ≠ storedCrc then return .error .badSegmentHeader
      else
        let version := leNat (← slice bytes versionOff (versionOff + 2))
        if version ≠ formatVersion then return .error .badSegmentHeader
        else
          let baseLsn := leNat (← slice bytes baseLsnOff (baseLsnOff + 8))
          if isNone baseLsn then return .error .badSegmentHeader
          else return .ok baseLsn

omit [Crc32c] in
def readHeader (file : Bytes) : Guarded ε (Option Bytes) := do
  CheckedProg.enter (.read 0 headerSize)
  return OpenWal.readHeader file

def chunk : ℕ := 64 * 1024

omit [Crc32c] in
def writeZerosLoop (name : FileName) (stop : ℕ) : ℕ → ℕ → Guarded IoError Unit
  | 0, _ => Prog.diverge
  | turns + 1, off =>
    if off < stop then do
      let left ← CheckedProg.sub stop off
      let n := min chunk left
      let zeros ← slice (ByteSeq.zeros chunk) 0 n
      CheckedProg.lift (writeAllAt name zeros off)
      let off ← addU64 off n
      writeZerosLoop name stop turns off
    else return ()

omit [Crc32c] in
def writeZeros (name : FileName) (start stop : ℕ) : Guarded IoError Unit :=
  writeZerosLoop name stop (stop - start + 1) start

omit [Crc32c] in
def preallocate (name : FileName) (segmentSize : ℕ) : Guarded IoError Unit := do
  let w ← CheckedProg.lift Prog.state
  if w.disk.fallocates then CheckedProg.lift (fallocate name segmentSize)
  else writeZeros name 0 segmentSize

def create (baseLsn : ℕ) (segmentSize : ℕ) : Guarded WalError FileName :=
  CheckedProg.mapErr .io do
    let name := filenameFor baseLsn
    CheckedProg.lift (createNew name)
    preallocate name segmentSize
    let createdUnixNanos ← CheckedProg.lift readClock
    let header ← encodeHeader baseLsn createdUnixNanos
    CheckedProg.lift (writeAllAt name header 0)
    CheckedProg.lift (syncDataFully name)
    return name

omit [Crc32c] in
def zeroToEof (name : FileName) (start segmentSize : ℕ) : Guarded WalError Unit := do
  CheckedProg.mapErr .io (writeZeros name start segmentSize)
  CheckedProg.lift (Prog.mapErr (fun _ => .fsyncFailed) (syncDataFully name))

variable [ShortReads]

omit [Crc32c] in
/-- One `read_at`: nothing at the end of the file, and something before it. -/
def readAt (file : Bytes) (offset want : ℕ) : Bytes :=
  ByteSeq.slice file offset (offset + min want (max 1 (ShortReads.ready offset want)))

omit [Crc32c] in
def readFullAtLoop (file : Bytes) (offset : ℕ) : ℕ → Bytes → ℕ → Guarded ε (Bool × Bytes)
  | 0, _, _ => Prog.diverge
  | turns + 1, buf, filled =>
    if filled < buf.length then do
      let rest ← slice buf filled buf.length
      let start ← addU64 offset filled
      CheckedProg.enter (.read start (start + rest.length))
      let got := readAt file start rest.length
      if got = [] then return (false, buf)
      else do
        let filled' ← addU64 filled got.length
        readFullAtLoop file offset turns (overwrite buf filled got) filled'
    else return (true, buf)

omit [Crc32c] in
def readFullAt (file buf : Bytes) (offset : ℕ) : Guarded ε (Bool × Bytes) :=
  readFullAtLoop file offset (buf.length + 1) buf 0

omit [Crc32c] in
def readInto (file buf : Bytes) (i j offset : ℕ) : Guarded ε (Bool × Bytes) := do
  let part ← slice buf i j
  let (full, part) ← readFullAt file part offset
  return (full, buf.take i ++ part ++ buf.drop j)

omit [Crc32c] [ShortReads] in
def resize (buf : Bytes) (n : ℕ) : Guarded ε Bytes := do
  CheckedProg.enter (.sized n)
  return OpenWal.resize buf n

def readRecordAt (file : Bytes) (offset segmentSize maxRecordSize : ℕ) (buf : Bytes) :
    Guarded ε (ScanOutcome × Bytes) :=
  -- `saturating_sub`
  let remaining := segmentSize - offset
  if remaining < recordHeaderSize then return (.cleanEnd, buf)
  else do
    let buf ← resize buf recordHeaderSize
    let (full, buf) ← readInto file buf 0 recordHeaderSize offset
    if ¬ full then return (.invalid, buf)
    else
      let decoded ← decode (← slice buf 0 recordHeaderSize) maxRecordSize
      if decoded = .sentinel then return (.cleanEnd, buf)
      else
        let length := leNat (← slice buf 4 8)
        if length > maxRecordSize then return (.invalid, buf)
        else
          let framed ← framedSizeU64 length
          if framed > remaining then return (.invalid, buf)
          else
            let buf ← resize buf framed
            let start ← addU64 offset recordHeaderSize
            let (full, buf) ← readInto file buf recordHeaderSize framed start
            if ¬ full then return (.invalid, buf)
            else
              match ← decode (← slice buf 0 framed) maxRecordSize with
              | .record lsn payload framedLen => return (.record lsn payload.length framedLen, buf)
              | _ => return (.invalid, buf)

omit [Crc32c] [ShortReads] in
def atCapacityInvalid (ctx : RecoverCtx) (name : FileName) (file : Bytes) (offset : ℕ)
    (lastValid : ℕ) : Guarded WalError SegmentRecovery :=
  let len := file.length
  if saturatingAdd offset recordHeaderSize ≤ len ∨ ¬ ctx.isActive then
    CheckedProg.raise (afterExhaustion ctx offset)
  else do
    -- `saturating_sub`
    let n := len - offset
    let tail ← slice (zeros recordHeaderSize) 0 n
    CheckedProg.enter (.read offset (offset + tail.length))
    let tail := ByteSeq.slice file offset (offset + tail.length)
    if tail.any (· != 0) then CheckedProg.raise (afterExhaustion ctx offset)
    else do
      zeroToEof name offset ctx.segmentSize
      return ⟨lastValid, offset, .truncatedAt ctx.baseLsn offset⟩

omit [Crc32c] [ShortReads] in
def scanBound (maxRecordSize : ℕ) : Guarded ε ℕ := addU64 maxRecordSize 28

def forwardScanLoop (ctx : RecoverCtx) (file : Bytes) (x expected stop : ℕ) :
    ℕ → ℕ → Bytes → Guarded ε (Bool × Bytes)
  | 0, _, _ => Prog.diverge
  | turns + 1, p, buf =>
    if p ≤ stop then do
      CheckedProg.enter (.examined x p)
      match ← readRecordAt file p ctx.segmentSize ctx.maxRecordSize buf with
      | (.record lsn _ _, buf) =>
        if expected ≤ lsn then return (true, buf)
        else do
          let p ← addU64 p 8
          forwardScanLoop ctx file x expected stop turns p buf
      | (_, buf) => do
        let p ← addU64 p 8
        forwardScanLoop ctx file x expected stop turns p buf
    else return (false, buf)

def forwardScanFindsValid (ctx : RecoverCtx) (file : Bytes) (x expected : ℕ) (buf : Bytes) :
    Guarded ε (Bool × Bytes) := do
  let bound ← scanBound ctx.maxRecordSize
  let start := saturatingAdd x 8
  let stop := saturatingAdd start bound
  forwardScanLoop ctx file x expected stop (bound + 2) start buf

def classify (ctx : RecoverCtx) (name : FileName) (file : Bytes) (x expected lastValid : ℕ)
    (buf : Bytes) : Guarded WalError SegmentRecovery :=
  if ¬ ctx.isActive then
    CheckedProg.raise (.corruption ctx.baseLsn x "invalid record in sealed segment")
  else do
    let (found, _) ← forwardScanFindsValid ctx file x expected buf
    if found then CheckedProg.raise (.tornMidLog ctx.baseLsn x)
    else do
      zeroToEof name x ctx.segmentSize
      return ⟨lastValid, x, .truncatedAt ctx.baseLsn x⟩

def recoverLoop (ctx : RecoverCtx) (name : FileName) (file : Bytes) :
    ℕ → ℕ → Option ℕ → ℕ → Bytes → Guarded WalError SegmentRecovery
  | 0, _, _, _, _ => Prog.diverge
  | turns + 1, offset, expected, lastValid, buf => do
    match ← readRecordAt file offset ctx.segmentSize ctx.maxRecordSize buf with
    | (.record lsn _ framedLen, buf) =>
      match expected with
      | none => CheckedProg.raise (afterExhaustion ctx offset)
      | some want =>
        if lsn ≠ want then classify ctx name file offset want lastValid buf
        else do
          let offset ← addU64 offset framedLen
          recoverLoop ctx name file turns offset (checkedNext lsn) lsn buf
    | (.cleanEnd, _) => return ⟨lastValid, offset, .clean⟩
    | (.invalid, buf) =>
      match expected with
      | none => atCapacityInvalid ctx name file offset lastValid
      | some want => classify ctx name file offset want lastValid buf

def recoverSegment (name : FileName) (file : Bytes) (baseLsn : ℕ) (isActive : Bool)
    (segmentSize maxRecordSize : ℕ) : Guarded WalError SegmentRecovery := do
  let lastValid ← CheckedProg.sub baseLsn 1
  recoverLoop ⟨baseLsn, isActive, segmentSize, maxRecordSize⟩ name file (segmentSize + 1) headerSize
    (some baseLsn) lastValid []

end

end Checked

end OpenWal
