import OpenWal.Model.System

namespace OpenWal.Harness
open ByteSeq Posix CrashProg

inductive Op where
  | append (payload : Bytes)
  | commit
  /-- The argument is clamped to the durable watermark. -/
  | checkpoint (raw : ℕ)
  /-- The handle is dropped with whatever is staged. -/
  | crashAndRecover
  /-- The staged records are committed before the handle is dropped. -/
  | reopen

abbrev Entries := List (ℕ × Bytes)

def Entries.insert (lsn : ℕ) (payload : Bytes) : Entries → Entries
  | [] => [(lsn, payload)]
  | (l, p) :: m =>
    if lsn < l then (lsn, payload) :: (l, p) :: m
    else if lsn = l then (lsn, payload) :: m
    else (l, p) :: Entries.insert lsn payload m

def lookup (entries : Entries) (lsn : ℕ) : Option Bytes :=
  (entries.find? fun r => r.1 == lsn).map Prod.snd

structure Oracle where
  committed : Entries
  staged : Entries
  oldestLsn : ℕ
  durableLsn : ℕ
  nextLsn : ℕ
  /-- The highest number ever passed to a checkpoint. -/
  maxCkptUpTo : ℕ

def Oracle.new : Oracle := ⟨[], [], 1, 0, 1, 0⟩

def Oracle.commitStaged (o : Oracle) : Oracle × ℕ :=
  match o.staged.getLast? with
  | none => (o, o.durableLsn)
  | some (last, _) =>
    ({ o with
        committed := o.staged.foldl (fun m r => m.insert r.1 r.2) o.committed
        staged := []
        durableLsn := last }, last)

def check (p : Prop) [Decidable p] : Option Unit := if p then some () else none

def isDense : Entries → Bool
  | r :: s :: rest => decide (checkedNext r.1 = some s.1) && isDense (s :: rest)
  | _ => true

section

variable [Crc32c] (config : WalConfig)

def openLog (m : Machine) : Option (Machine × RecoveryReport) :=
  match m.exec config (.openLog lsnFirst) [] with
  | some (.ret (.opened report), m') => some (m', report)
  | _ => none

def append (m : Machine) (payload : Bytes) : Option (Machine × ℕ) :=
  match m.exec config (.append payload) [] with
  | some (.ret (.appended lsn), m') => some (m', lsn)
  | _ => none

def commit (m : Machine) : Option (Machine × ℕ) :=
  match m.exec config .commit [] with
  | some (.ret (.committed durable), m') => some (m', durable)
  | _ => none

def checkpoint (m : Machine) (upTo : ℕ) : Option Machine :=
  match m.exec config (.checkpoint upTo) [] with
  | some (.ret .checkpointed, m') => some m'
  | _ => none

def drop (m : Machine) : Option Machine :=
  match m.exec config .close [] with
  | some (.ret .closed, m') => some m'
  | _ => none

/-- The whole log, from its oldest record on. -/
def replayAll (m : Machine) : Option Entries :=
  match m.exec config (.replay 0) [] with
  | some (.ret (.records rs none), _) => some rs
  | _ => none

def refuses (m : Machine) (start : ℕ) : Bool :=
  match m.exec config (.replay start) [] with
  | some (.err _, _) => true
  | _ => false

omit [Crc32c] in
def walCheckInitial (report : RecoveryReport) : Option Unit := do
  check (report.oldestLsn = 1)
  check (report.durableLsn = 0)

omit [Crc32c] in
/-- No watermark falls from one recovery to the next, and none changes without a call. -/
def checkReports (prev report : RecoveryReport) (dirty : Bool) : Option Unit := do
  check (prev.durableLsn ≤ report.durableLsn)
  check (prev.oldestLsn ≤ report.oldestLsn)
  if ¬ dirty then
    check (report.oldestLsn = prev.oldestLsn)
    check (report.durableLsn = prev.durableLsn)

omit [Crc32c] in
def checkSuffix (report : RecoveryReport) (replay : Entries) : Option Unit :=
  match replay with
  | [] => check (checkedNext report.durableLsn = some report.oldestLsn)
  | first :: rest => do
    check (first.1 = report.oldestLsn)
    check (isDense (first :: rest))
    check ((first :: rest).getLast?.map Prod.fst = some report.durableLsn)

omit [Crc32c] in
/-- Every committed record is there, or a checkpoint was allowed to drop it. -/
def checkCommitted (o : Oracle) (report : RecoveryReport) (replay : Entries) : Option Unit :=
  check (o.committed.all fun r =>
    if report.oldestLsn ≤ r.1 then lookup replay r.1 == some r.2 else decide (r.1 ≤ o.maxCkptUpTo))

omit [Crc32c] in
def checkReplayed (o : Oracle) (replay : Entries) : Option Unit :=
  check (replay.all fun r => ! decide (r.1 ≤ o.durableLsn) || lookup o.committed r.1 == some r.2)

omit [Crc32c] in
def resync (o : Oracle) (report : RecoveryReport) (replay : Entries) : Option Oracle := do
  let committed := replay.foldl
    (fun m r => if o.durableLsn < r.1 then m.insert r.1 r.2 else m) o.committed
  let next ← checkedNext report.durableLsn
  return { o with
    durableLsn := report.durableLsn
    oldestLsn := report.oldestLsn
    nextLsn := next
    staged := []
    committed := committed.filter fun r => decide (report.oldestLsn ≤ r.1) }

def recoverAndCheck (m : Machine) (o : Oracle) (prev : RecoveryReport) (dirty : Bool) :
    Option (Machine × Oracle × RecoveryReport) := do
  let (m, report) ← openLog config m
  checkReports prev report dirty
  check (1 ≤ report.oldestLsn)
  let bound ← checkedNext o.maxCkptUpTo
  check (report.oldestLsn ≤ bound)
  check (o.durableLsn ≤ report.durableLsn)
  check (m.handle.map Wal.lastLsn = some report.durableLsn)
  let replay ← replayAll config m
  checkSuffix report replay
  checkCommitted o report replay
  checkReplayed o replay
  check (1 < report.oldestLsn → refuses config m (report.oldestLsn - 1))
  let o ← resync o report replay
  return (m, o, report)

/-- Compares what a reader sees right after a checkpoint. -/
def liveProbe (m : Machine) (o : Oracle) : Option Unit := do
  check (m.handle.map Wal.durableLsn = some o.durableLsn)
  let replay ← replayAll config m
  if o.durableLsn = 0 then check (replay = [])
  else
    check (isDense replay)
    check (replay.getLast?.map Prod.fst = some o.durableLsn)
    checkReplayed o replay

structure Bench where
  machine : Machine
  oracle : Oracle
  prevReport : RecoveryReport
  /-- Whether anything was changed since the last `open`. -/
  dirty : Bool

def restart (b : Bench) (o : Oracle) (dirty : Bool) : Option Bench := do
  let m ← drop config b.machine
  let (m, o, report) ← recoverAndCheck config m o b.prevReport dirty
  return ⟨m, o, report, false⟩

def commitBoth (b : Bench) : Option Bench := do
  let (m, returned) ← commit config b.machine
  let (o, watermark) := b.oracle.commitStaged
  check (returned = watermark)
  return { b with machine := m, oracle := o, dirty := b.dirty || ! b.oracle.staged.isEmpty }

omit [Crc32c] in
/-- What a crash leaves of the oracle. -/
def Oracle.crash (o : Oracle) : Option Oracle := do
  let next ← checkedNext o.durableLsn
  return { o with staged := [], nextLsn := next }

def step (b : Bench) : Op → Option Bench
  | .append payload => do
    let (m, lsn) ← append config b.machine payload
    check (lsn = b.oracle.nextLsn)
    let next ← checkedNext b.oracle.nextLsn
    return { b with
      machine := m
      oracle := { b.oracle with
        staged := b.oracle.staged ++ [(b.oracle.nextLsn, payload)]
        nextLsn := next }
      dirty := true }
  | .commit => commitBoth config b
  | .checkpoint raw => do
    let w ← b.machine.handle
    let upTo := min raw w.durableLsn
    let m ← checkpoint config b.machine upTo
    let o := { b.oracle with maxCkptUpTo := max b.oracle.maxCkptUpTo upTo }
    liveProbe config m o
    return { b with machine := m, oracle := o, dirty := true }
  | .crashAndRecover => do
    let o ← b.oracle.crash
    restart config b o b.dirty
  | .reopen => do
    let b ← commitBoth config b
    restart config b b.oracle b.dirty

/-- Runs the script in the directory `m`, and recovers once more in the end; `none` where the test
panics. -/
def run (m : Machine) (ops : List Op) : Option Unit := do
  let (m, initial) ← openLog config m
  walCheckInitial initial
  let b ← ops.foldlM (step config) ⟨m, Oracle.new, initial, false⟩
  let o ← b.oracle.crash
  let _ ← restart config b o b.dirty
  return ()

end

end OpenWal.Harness
