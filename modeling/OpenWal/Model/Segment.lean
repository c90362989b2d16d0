import OpenWal.Model.Record

namespace OpenWal
open ByteSeq Posix CrashProg

def headerSize : ℕ := 64

/-- `WAL\0SEG1` -/
def magic : Bytes := [0x57, 0x41, 0x4C, 0x00, 0x53, 0x45, 0x47, 0x31]

def formatVersion : ℕ := 1

def versionOff : ℕ := 8

def baseLsnOff : ℕ := 12

def createdOff : ℕ := 20

def headerCrcOff : ℕ := 60

def digitChar (n : ℕ) : Char := Char.ofNat (48 + n % 10)

def digitValue (c : Char) : ℕ := c.toNat - 48

def decimalDigits : ℕ → ℕ → List Char
  | 0, _ => []
  | n + 1, w => decimalDigits n (w / 10) ++ [digitChar w]

def parseDecimal (digits : List Char) : ℕ := digits.foldl (fun n c => 10 * n + digitValue c) 0

def walSuffix : List Char := ['.', 'w', 'a', 'l']

/-- `{:020}.wal` -/
@[irreducible] def filenameFor (baseLsn : ℕ) : FileName := decimalDigits 20 baseLsn ++ walSuffix

def stripSuffix (name suffix : List Char) : Option (List Char) :=
  if suffix.isSuffixOf name then some (name.take (name.length - suffix.length)) else none

def isAsciiDigit (c : Char) : Bool := decide (48 ≤ c.toNat) && decide (c.toNat ≤ 57)

def parseBaseLsn (name : FileName) : Option ℕ :=
  match stripSuffix name walSuffix with
  | none => none
  | some digits =>
    if digits.length ≠ 20 ∨ ¬ digits.all isAsciiDigit then none
    else if parseDecimal digits ≤ u64Max then some (parseDecimal digits)
    else none

section Header

variable [Crc32c]

/-- The 64 bytes start as zeros, which the flags and the reserved bytes stay. -/
def encodeHeader (baseLsn : ℕ) (createdUnixNanos : ℕ) : Bytes :=
  let h := zeros headerSize
  let h := overwrite h 0 magic
  let h := overwrite h versionOff (leBytes 2 formatVersion)
  let h := overwrite h baseLsnOff (leBytes 8 baseLsn)
  let h := overwrite h createdOff (leBytes 8 createdUnixNanos)
  let crc := crc32c (slice h 0 headerCrcOff)
  overwrite h headerCrcOff (leBytes 4 crc.toNat)

def decodeHeader (bytes : Bytes) : Except WalError ℕ :=
  if bytes.length < headerSize then .error .badSegmentHeader
  else if slice bytes 0 8 ≠ magic then .error .badSegmentHeader
  else
    let storedCrc := leNat (slice bytes headerCrcOff (headerCrcOff + 4))
    if (crc32c (slice bytes 0 headerCrcOff)).toNat ≠ storedCrc then .error .badSegmentHeader
    else
      let version := leNat (slice bytes versionOff (versionOff + 2))
      if version ≠ formatVersion then .error .badSegmentHeader
      else
        let baseLsn := leNat (slice bytes baseLsnOff (baseLsnOff + 8))
        if isNone baseLsn then .error .badSegmentHeader
        else .ok baseLsn

end Header

/-- `read_exact_at` of the first 64 bytes, `none` being `UnexpectedEof`. -/
def readHeader (file : Bytes) : Option Bytes :=
  if headerSize ≤ file.length then some (file.take headerSize) else none

/-- Writes zeros over `[start, stop)`, at most 64 KiB at a time. -/
def writeZeros (name : FileName) (start stop : ℕ) : Prog World IoError Unit :=
  if start < stop then do
    let n := min (64 * 1024) (stop - start)
    writeAllAt name (zeros n) start
    writeZeros name (start + n) stop
  else return ()
termination_by stop - start
decreasing_by omega

/-- Where the filesystem has no `fallocate`, zeros are written instead. -/
def preallocate (name : FileName) (segmentSize : ℕ) : Prog World IoError Unit := do
  if (← Prog.state).disk.fallocates then fallocate name segmentSize
  else writeZeros name 0 segmentSize

def syncDataFully (name : FileName) : Prog World IoError Unit := syncData name

def create [Crc32c] (baseLsn : ℕ) (segmentSize : ℕ) : Prog World WalError FileName :=
  Prog.mapErr .io do
    let name := filenameFor baseLsn
    createNew name
    preallocate name segmentSize
    let createdUnixNanos ← readClock
    writeAllAt name (encodeHeader baseLsn createdUnixNanos) 0
    syncDataFully name
    return name

/-- Durably zeroes `[start, segmentSize)`. -/
def zeroToEof (name : FileName) (start segmentSize : ℕ) : Prog World WalError Unit := do
  Prog.mapErr .io (writeZeros name start segmentSize)
  Prog.mapErr (fun _ => .fsyncFailed) (syncDataFully name)

inductive ScanOutcome where
  | record (lsn : ℕ) (payloadLen framedLen : ℕ)
  | cleanEnd
  | invalid
  deriving DecidableEq, Repr

def resize (buf : Bytes) (n : ℕ) : Bytes := buf.take n ++ zeros (n - buf.length)

/-- Fills `buf` from `offset`, and says whether the file was long enough. -/
def readFullAt (file buf : Bytes) (offset : ℕ) : Bool × Bytes :=
  let got := slice file offset (offset + buf.length)
  (decide (got.length = buf.length), got ++ buf.drop got.length)

def readRecordAt [Crc32c] (file : Bytes) (offset segmentSize maxRecordSize : ℕ) (buf : Bytes) :
    ScanOutcome × Bytes :=
  let remaining := segmentSize - offset
  if remaining < recordHeaderSize then (.cleanEnd, buf)
  else
    match readFullAt file (resize buf recordHeaderSize) offset with
    | (false, buf) => (.invalid, buf)
    | (true, buf) =>
      if decode (buf.take recordHeaderSize) maxRecordSize = .sentinel then (.cleanEnd, buf)
      else
        let length := leNat (slice buf 4 8)
        if length > maxRecordSize then (.invalid, buf)
        else
          let framed := framedSizeU64 length
          if framed > remaining then (.invalid, buf)
          else
            let buf := resize buf framed
            -- the header stays, the payload and its padding are read behind it
            match readFullAt file (slice buf recordHeaderSize framed) (offset + recordHeaderSize) with
            | (false, tail) => (.invalid, buf.take recordHeaderSize ++ tail)
            | (true, tail) =>
              let buf := buf.take recordHeaderSize ++ tail
              match decode (buf.take framed) maxRecordSize with
              | .record lsn payload framedLen => (.record lsn payload.length framedLen, buf)
              | _ => (.invalid, buf)

/-- A record that was read lies inside the segment. -/
theorem readRecordAt_record_bounds [Crc32c] {file buf buf' : Bytes}
    {offset segmentSize maxRecordSize payloadLen framedLen : ℕ} {lsn : ℕ}
    (h : readRecordAt file offset segmentSize maxRecordSize buf =
      (.record lsn payloadLen framedLen, buf')) :
    20 ≤ framedLen ∧ offset + framedLen ≤ segmentSize := by
  unfold readRecordAt at h
  simp only at h
  split at h
  · simp at h
  split at h
  · simp at h
  split at h
  · simp at h
  split at h
  · simp at h
  split at h
  · simp at h
  split at h
  · simp at h
  split at h
  · rename_i hd
    have hb := decode_record_bounds hd
    have hl := hb.2.trans (List.length_take_le _ _)
    simp only [Prod.mk.injEq, ScanOutcome.record.injEq] at h
    omega
  · simp at h

end OpenWal
