import OpenWal.Model.Checked

namespace OpenWal
open ByteSeq Posix CrashProg

def replay [Crc32c] (w : Wal) (d : Disk) (start : ℕ) :
    Prog World WalError (List (ℕ × Bytes) × Option WalError) :=
  match readerFrom w d start with
  | .error e => Prog.raise e
  | .ok r => pure (r.drain d)

namespace Checked

variable [Crc32c]

def coldStart (segmentSize : ℕ) (seed : ℕ) : Guarded WalError Recovered := do
  let active ← create seed segmentSize
  CheckedProg.lift fsyncDirectory
  let lastLsn ← CheckedProg.sub seed 1
  return {
    active := active
    writeOffset := headerSize
    lastLsn := lastLsn
    oldestLsn := seed
    segments := [seed]
    tailState := .clean }

variable [ShortReads]

def isIncompleteCreate (file : Bytes) (base : ℕ) (config : WalConfig) :
    Guarded WalError (Except WalError Bool) := do
  match ← readHeader file with
  | some header =>
    if (← decodeHeader header) = .ok base then return .ok false
    else
      match ← readRecordAt file headerSize config.segmentSize config.maxRecordSize [] with
      | (.record .., _) => return .error .badSegmentHeader
      | _ => return .ok true
  | none => if file.length ≠ 0 then return .error .badSegmentHeader else return .ok true

def discardIncompleteHighest (bases : List ℕ) (config : WalConfig) : Guarded WalError (List ℕ) :=
  match bases.getLast? with
  | none => return bases
  | some highest => do
    let name := filenameFor highest
    let file ← CheckedProg.lift (Prog.mapErr .io (openFile name))
    match ← isIncompleteCreate file highest config with
    | .error e => CheckedProg.raise e
    | .ok false => return bases
    | .ok true => do
      CheckedProg.lift (Prog.mapErr .io (removeFile name))
      CheckedProg.lift fsyncDirectory
      return bases.dropLast

/-- The locals of `recover_all` that its result is made of. -/
structure Locals where
  active : Option FileName
  writeOffset : ℕ
  lastLsn : ℕ
  tailState : TailState

def recoverOne (config : WalConfig) (prevMax : Option ℕ) (base : ℕ) (isActive : Bool) :
    Guarded WalError SegmentRecovery := do
  let name := filenameFor base
  let file ← CheckedProg.lift (Prog.mapErr .io (openFile name))
  match ← readHeader file with
  | none => CheckedProg.raise .badSegmentHeader
  | some header =>
    match ← decodeHeader header with
    | .error e => CheckedProg.raise e
    | .ok parsed =>
      if parsed ≠ base then CheckedProg.raise .badSegmentHeader
      else if prevMax.any fun pm => checkedNext pm ≠ some base then
        CheckedProg.raise .contiguityViolation
      else recoverSegment name file base isActive config.segmentSize config.maxRecordSize

/-- The loop of `recover_all`, whose turn `i` is at the first of the bases left. -/
def recoverTurns (config : WalConfig) (lastIdx : ℕ) :
    Option ℕ → Locals → ℕ → List ℕ → Guarded WalError Locals
  | _, locals, _, [] => return locals
  | prevMax, locals, i, base :: bases => do
    let isActive := decide (i = lastIdx)
    let seg ← recoverOne config prevMax base isActive
    if isActive then
      recoverTurns config lastIdx prevMax
        ⟨some (filenameFor base), seg.writeOffset, seg.maxLsn, seg.tailState⟩ (i + 1) bases
    else if seg.maxLsn < base then CheckedProg.raise .contiguityViolation
    else recoverTurns config lastIdx (some seg.maxLsn) locals (i + 1) bases

def recoverAll (bases : List ℕ) (config : WalConfig) : Guarded WalError Recovered := do
  let oldestLsn ← CheckedProg.index bases 0
  let lastIdx ← CheckedProg.sub bases.length 1
  let locals ← recoverTurns config lastIdx none ⟨none, headerSize, lsnNone, .clean⟩ 0 bases
  match locals.active with
  | none => CheckedProg.fault
  | some active =>
    return {
      active := active
      writeOffset := locals.writeOffset
      lastLsn := locals.lastLsn
      oldestLsn := oldestLsn
      segments := bases
      tailState := locals.tailState }

def recoverDirectory (config : WalConfig) (seed : ℕ) : Guarded WalError Recovered := do
  let bases ← CheckedProg.lift discoverSegments
  let bases ← discardIncompleteHighest bases config
  if bases = [] then coldStart config.segmentSize seed
  else recoverAll bases config

def openSeeded (config : WalConfig) (seed : ℕ) : Guarded WalError (Wal × RecoveryReport) := do
  let least ← addU64 config.maxRecordSize 91
  if least > config.segmentSize then CheckedProg.raise .invalidConfig
  else if isNone seed then CheckedProg.raise .invalidConfig
  else do
    CheckedProg.lift lockDirectory
    let rec' ← CheckedProg.onError unlock (recoverDirectory config seed)
    return (rec'.wal config, rec'.report)

variable {ε : Type}

omit [Crc32c] [ShortReads] in
def advanceSegment (d : Disk) (r : Reader) : Guarded ε (Except IoError Bool × Reader) := do
  let segIdx ← addU64 r.segIdx 1
  let r := { r with segIdx := segIdx }
  if r.segments.length ≤ r.segIdx then return (.ok false, { r with file := none })
  else
    let base ← CheckedProg.index r.segments r.segIdx
    match d.file (filenameFor base) with
    | none => return (.error .notFound, r)
    | some f => return (.ok true, { r with file := some f.data, offset := headerSize })

def nextLoop (d : Disk) :
    ℕ → Reader → Guarded ε (Option (Except WalError (ℕ × Bytes)) × Reader)
  | 0, _ => Prog.diverge
  | turns + 1, r =>
    if r.done then return (none, r)
    else
      match r.file with
      | none => return (none, { r with done := true })
      | some file => do
        match ← readRecordAt file r.offset r.segmentSize r.maxRecordSize r.buf with
        | (.record lsn payloadLen framedLen, buf) =>
          if some lsn ≠ r.expectedLsn then return (none, { r with buf := buf, done := true })
          else
            let offset ← addU64 r.offset framedLen
            let r' := { r with buf := buf, offset := offset, expectedLsn := checkedNext lsn }
            if lsn < r.start then nextLoop d turns r'
            else
              let stop ← addU64 recordHeaderSize payloadLen
              let payload ← slice buf recordHeaderSize stop
              return (some (.ok (lsn, payload)), r')
        | (_, buf) =>
          match ← advanceSegment d { r with buf := buf } with
          | (.ok true, r') => nextLoop d turns r'
          | (.ok false, r') => return (none, { r' with done := true })
          | (.error e, r') => return (some (.error (.io e)), { r' with done := true })

def next (d : Disk) (r : Reader) : Guarded ε (Option (Except WalError (ℕ × Bytes)) × Reader) :=
  nextLoop d (r.workLeft + 1) r

def drainLoop (d : Disk) : ℕ → Reader → Guarded ε (List (ℕ × Bytes) × Option WalError)
  | 0, _ => Prog.diverge
  | turns + 1, r => do
    match ← next d r with
    | (none, _) => return ([], none)
    | (some (.error e), _) => return ([], some e)
    | (some (.ok x), r') => do
      let (rs, failure) ← drainLoop d turns r'
      return (x :: rs, failure)

omit [Crc32c] [ShortReads] in
def readerFrom (w : Wal) (d : Disk) (start : ℕ) : Guarded ε (Except WalError Reader) :=
  if start ≠ 0 ∧ start < w.oldestLsn then return .error .contiguityViolation
  else do
    let effective := if start = 0 then lsnFirst else start
    -- `saturating_sub`
    let idx := containingSegmentIdx w.segments effective
    let base ← CheckedProg.index w.segments idx
    match d.file (filenameFor base) with
    | none => return .error (.io .notFound)
    | some first =>
      let expected ← CheckedProg.index w.segments idx
      let r := Reader.new w.segments idx first.data effective w.segmentSize w.maxRecordSize
      return .ok { r with expectedLsn := some expected }

def replay (w : Wal) (d : Disk) (start : ℕ) :
    Guarded WalError (List (ℕ × Bytes) × Option WalError) := do
  match ← readerFrom w d start with
  | .error e => CheckedProg.raise e
  | .ok r => drainLoop d (r.workLeft + 1) r

omit [ShortReads] in
/-- `commit`'s loop, whose every turn takes the difference of `segment_size` and
`write_offset`. -/
def commitLoop : ℕ → ℕ → Prog Sys (Stop WalError) Unit
  | 0, _ => Prog.diverge
  | turns + 1, pos => do
    let w := (← Prog.state).wal
    if pos < w.staging.length then
      if w.segmentSize < w.writeOffset then Prog.raise .fault
      else do
        let pos ← Prog.mapErr .error (commitStep pos)
        commitLoop turns pos
    else return ()

omit [ShortReads] in
def commit : Prog Sys (Stop WalError) ℕ := do
  let w := (← Prog.state).wal
  if w.poisoned then Prog.raise (.error .poisoned)
  else if w.staging = [] then return w.durableLsn
  else do
    commitLoop (2 * w.staging.length + 2) 0
    Prog.update fun s => { s with wal := { s.wal with staging := [] } }
    return (← Prog.state).wal.durableLsn

omit [Crc32c] [ShortReads] in
/-- The predicate is taken of bases after the first, each less one. -/
def deletablePrefixLen (bases : List ℕ) (upTo : ℕ) : Guarded ε ℕ := do
  CheckedProg.require (∀ b ∈ bases.tail, 1 ≤ b)
  return OpenWal.deletablePrefixLen bases upTo

end Checked

end OpenWal
