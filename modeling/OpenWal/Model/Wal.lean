import OpenWal.Model.Reader
import OpenWal.Model.Recovery
import Mathlib.Data.List.Sort

namespace OpenWal
open ByteSeq Posix CrashProg

structure Wal where
  /-- The bases of all live segments, ascending; the last one is active. -/
  segments : List ℕ
  active : FileName
  writeOffset : ℕ
  oldestLsn : ℕ
  lastLsn : ℕ
  durableLsn : ℕ
  segmentSize : ℕ
  maxRecordSize : ℕ
  /-- The encoded records of the batch not yet committed. -/
  staging : Bytes
  /-- What the observer was told so far. -/
  observed : List ℕ
  poisoned : Bool

structure Recovered where
  active : FileName
  writeOffset : ℕ
  lastLsn : ℕ
  oldestLsn : ℕ
  segments : List ℕ
  tailState : TailState

def Recovered.report (r : Recovered) : RecoveryReport where
  oldestLsn := r.oldestLsn
  durableLsn := r.lastLsn
  tailState := r.tailState
  segmentsScanned := r.segments.length

def Recovered.wal (r : Recovered) (config : WalConfig) : Wal where
  segments := r.segments
  active := r.active
  writeOffset := r.writeOffset
  oldestLsn := r.oldestLsn
  lastLsn := r.lastLsn
  durableLsn := r.lastLsn
  segmentSize := config.segmentSize
  maxRecordSize := config.maxRecordSize
  staging := []
  observed := []
  poisoned := false

def openLockFile : Prog World WalError Unit := syscall (fun d => d) (fun _ d => d) (.io .other)

/-- The exclusive, non-blocking `flock`. -/
def flock : Prog World WalError Unit := do
  if (← Prog.state).disk.locked then Prog.raise .locked
  else syscall (fun d => { d with locked := true }) (fun _ d => d) (.io .other)

def lockDirectory : Prog World WalError Unit := do
  Prog.mapErr .io createDirAll
  openLockFile
  flock

def unlock (w : World) : World := { w with disk := { w.disk with locked := false } }

def fsyncDirectory : Prog World WalError Unit := Prog.mapErr .io fsyncDir

def discoverSegments : Prog World WalError (List ℕ) := do
  let names ← Prog.mapErr .io readDir
  return (names.filterMap parseBaseLsn).insertionSort (· ≤ ·)

section

variable [Crc32c]

def coldStart (segmentSize : ℕ) (seed : ℕ) : Prog World WalError Recovered := do
  let active ← create seed segmentSize
  fsyncDirectory
  return {
    active := active
    writeOffset := headerSize
    lastLsn := seed - 1
    oldestLsn := seed
    segments := [seed]
    tailState := .clean }

def isIncompleteCreate (file : Bytes) (base : ℕ) (config : WalConfig) : Except WalError Bool :=
  match readHeader file with
  | some header =>
    if decodeHeader header = .ok base then .ok false
    else
      match (readRecordAt file headerSize config.segmentSize config.maxRecordSize []).1 with
      | .record .. => .error .badSegmentHeader
      | _ => .ok true
  | none =>
    -- creation leaves an empty file or a full one, never 1 to 63 bytes
    if file.length ≠ 0 then .error .badSegmentHeader else .ok true

/-- Unlinks the highest-base file if it is incomplete, and returns the bases left. -/
def discardIncompleteHighest (bases : List ℕ) (config : WalConfig) :
    Prog World WalError (List ℕ) :=
  match bases.getLast? with
  | none => return bases
  | some highest => do
    let name := filenameFor highest
    let file ← Prog.mapErr .io (openFile name)
    match isIncompleteCreate file highest config with
    | .error e => Prog.raise e
    | .ok false => return bases
    | .ok true => do
      Prog.mapErr .io (removeFile name)
      fsyncDirectory
      return bases.dropLast

/-- One turn of `recover_all`'s loop: validates the header of the segment at
`base`, its place after `prevMax`, and recovers its records. -/
def recoverOne (config : WalConfig) (prevMax : Option ℕ) (base : ℕ) (isActive : Bool) :
    Prog World WalError SegmentRecovery := do
  let name := filenameFor base
  let file ← Prog.mapErr .io (openFile name)
  match readHeader file with
  | none => Prog.raise .badSegmentHeader
  | some header =>
    match decodeHeader header with
    | .error e => Prog.raise e
    | .ok parsed =>
      if parsed ≠ base then Prog.raise .badSegmentHeader
      else if prevMax.any fun pm => checkedNext pm ≠ some base then
        Prog.raise .contiguityViolation
      else recoverSegment name file base isActive config.segmentSize config.maxRecordSize

/-- The loop over `base :: rest`, whose last segment is the active one. -/
def recoverSegments (config : WalConfig) :
    Option ℕ → ℕ → List ℕ → Prog World WalError SegmentRecovery
  | prevMax, base, [] => recoverOne config prevMax base true
  | prevMax, base, next :: rest => do
    let seg ← recoverOne config prevMax base false
    -- a sealed segment without a record is a gap
    if seg.maxLsn < base then Prog.raise .contiguityViolation
    else recoverSegments config (some seg.maxLsn) next rest

def recoverAll (base : ℕ) (rest : List ℕ) (config : WalConfig) :
    Prog World WalError Recovered := do
  let seg ← recoverSegments config none base rest
  return {
    active := filenameFor (rest.getLastD base)
    writeOffset := seg.writeOffset
    lastLsn := seg.maxLsn
    oldestLsn := base
    segments := base :: rest
    tailState := seg.tailState }

def recoverFound (config : WalConfig) (seed : ℕ) : List ℕ → Prog World WalError Recovered
  | [] => coldStart config.segmentSize seed
  | base :: rest => recoverAll base rest config

def recoverDirectory (config : WalConfig) (seed : ℕ) : Prog World WalError Recovered := do
  let bases ← discoverSegments
  let bases ← discardIncompleteHighest bases config
  recoverFound config seed bases

def openSeeded (config : WalConfig) (seed : ℕ) : Prog World WalError (Wal × RecoveryReport) :=
  if config.maxRecordSize + 91 > config.segmentSize then Prog.raise .invalidConfig
  else if isNone seed then Prog.raise .invalidConfig
  else do
    lockDirectory
    -- an error drops the lock with the rest of the frame
    let rec' ← Prog.onError unlock (recoverDirectory config seed)
    return (rec'.wal config, rec'.report)

end

structure Sys where
  wal : Wal
  world : World

namespace Sys

def setWorld (w : World) (s : Sys) : Sys := { s with world := w }

def poison (s : Sys) : Sys := { s with wal := { s.wal with poisoned := true } }

end Sys

/-- A call whose failure poisons the handle. -/
def orPoison {α : Type} (m : Prog World WalError α) : Prog Sys WalError α :=
  Prog.onError Sys.poison (Prog.zoom Sys.world Sys.setWorld m)

def setWal (f : Wal → Wal) : Prog Sys WalError Unit :=
  Prog.update fun s => { s with wal := f s.wal }

section

variable [Crc32c]

def append (payload : Bytes) : Prog Sys WalError ℕ := do
  let w := (← Prog.state).wal
  if w.poisoned then Prog.raise .poisoned
  else if payload.length > w.maxRecordSize then Prog.raise .recordTooLarge
  else
    match checkedNext w.lastLsn with
    | none => Prog.raise .lsnExhausted
    | some lsn => do
      setWal fun w => { w with staging := (encodeInto w.staging lsn payload).1, lastLsn := lsn }
      return lsn

omit [Crc32c] in
/-- The end of the longest prefix of whole records after `pos` that fits in
`remaining` bytes, and the number of its last record. -/
def scanPrefix (staging : Bytes) (pos remaining scan : ℕ) (prefixLastLsn : ℕ) : ℕ × ℕ :=
  if scan < staging.length then
    let p := peek (staging.drop scan)
    if scan - pos + p.2 > remaining then (scan, prefixLastLsn)
    else scanPrefix staging pos remaining (scan + p.2) p.1
  else (scan, prefixLastLsn)
termination_by staging.length - scan
decreasing_by
  simp only [peek, framedSize, recordHeaderSize]
  omega

omit [Crc32c] in
def writePrefix (pos scan : ℕ) (prefixLastLsn : ℕ) : Prog Sys WalError Unit := do
  let w := (← Prog.state).wal
  orPoison (Prog.mapErr .io (writeAllAt w.active (slice w.staging pos scan) w.writeOffset))
  orPoison (Prog.mapErr (fun _ => .fsyncFailed) (syncDataFully w.active))
  setWal fun w => { w with
    writeOffset := w.writeOffset + (scan - pos)
    durableLsn := prefixLastLsn
    observed := w.observed ++ [prefixLastLsn] }

/-- Seals the active segment and starts the one based at `newBase`. -/
def roll (newBase : ℕ) : Prog Sys WalError Unit := do
  let w := (← Prog.state).wal
  let new ← orPoison (create newBase w.segmentSize)
  orPoison fsyncDirectory
  setWal fun w => { w with
    active := new
    writeOffset := headerSize
    segments := w.segments ++ [newBase] }

/-- One turn of `commit`'s loop, from position `pos` of the staging buffer to the
one returned. -/
def commitStep (pos : ℕ) : Prog Sys WalError ℕ := do
  let w := (← Prog.state).wal
  let remaining := w.segmentSize - w.writeOffset
  let (scan, prefixLastLsn) := scanPrefix w.staging pos remaining pos lsnNone
  if pos < scan then writePrefix pos scan prefixLastLsn
  if scan < w.staging.length then
    let (newBase, _) := peek (w.staging.drop scan)
    roll newBase
  return scan

/-- The loop, diverging where it takes more than `fuel` turns. -/
def commitLoop : ℕ → ℕ → Prog Sys WalError Unit
  | 0, _ => Prog.diverge
  | fuel + 1, pos => do
    if pos < (← Prog.state).wal.staging.length then
      let pos ← commitStep pos
      commitLoop fuel pos
    else return ()

def commit : Prog Sys WalError ℕ := do
  let w := (← Prog.state).wal
  if w.poisoned then Prog.raise .poisoned
  else if w.staging = [] then return w.durableLsn
  else do
    commitLoop (2 * w.staging.length + 2) 0
    setWal fun w => { w with staging := [] }
    return (← Prog.state).wal.durableLsn

end

def partitionPoint (p : ℕ → Bool) (bases : List ℕ) : ℕ := (bases.takeWhile p).length

def containingSegmentIdx (bases : List ℕ) (start : ℕ) : ℕ :=
  partitionPoint (fun b => decide (b ≤ start)) bases - 1

def readerFrom (w : Wal) (d : Disk) (start : ℕ) : Except WalError Reader :=
  if start ≠ 0 ∧ start < w.oldestLsn then .error .contiguityViolation
  else
    let effective := if start = 0 then lsnFirst else start
    let idx := containingSegmentIdx w.segments effective
    match w.segments[idx]? with
    | none => .error (.io .notFound)
    | some base =>
      match d.file (filenameFor base) with
      | none => .error (.io .notFound)
      | some first =>
        .ok (Reader.new w.segments idx first.data effective w.segmentSize w.maxRecordSize)

def deletablePrefixLen (bases : List ℕ) (upTo : ℕ) : ℕ :=
  partitionPoint (fun b => decide (b - 1 ≤ upTo)) bases.tail

/-- Unlinks the segments in order; one that is already gone is passed over. -/
def unlinkSegments : List ℕ → Prog World WalError Unit
  | [] => return ()
  | base :: bases => do
    match ← Prog.attempt (removeFile (filenameFor base)) with
    | .ok () => pure ()
    | .error .notFound => pure ()
    | .error e => Prog.raise (.io e)
    unlinkSegments bases

def checkpoint (upTo : ℕ) : Prog Sys WalError Unit := do
  let w := (← Prog.state).wal
  if w.poisoned then Prog.raise .poisoned
  else
    let n := deletablePrefixLen w.segments upTo
    if n = 0 then return ()
    else do
      orPoison (unlinkSegments (w.segments.take n))
      orPoison fsyncDirectory
      setWal fun w => { w with
        segments := w.segments.drop n
        oldestLsn := (w.segments.drop n).headD lsnNone }

end OpenWal
