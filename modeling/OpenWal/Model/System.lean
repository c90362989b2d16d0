import OpenWal.Model.Wal

namespace OpenWal
open ByteSeq Posix CrashProg

inductive Op where
  | openLog (seed : ℕ)
  | append (payload : Bytes)
  | commit
  | checkpoint (upTo : ℕ)
  | replay (start : ℕ)
  /-- The handle is dropped, or the process dies between two calls. -/
  | close

/-- The arguments are `u64` values, and a seed is a record number. -/
def Op.Legal : Op → Prop
  | .openLog seed => 1 ≤ seed ∧ seed ≤ u64Max
  | .checkpoint upTo => upTo ≤ u64Max
  | .replay start => start ≤ u64Max
  | _ => True

inductive Reply where
  | opened (report : RecoveryReport)
  | appended (lsn : ℕ)
  | committed (durable : ℕ)
  | checkpointed
  | records (rs : List (ℕ × Bytes)) (failure : Option WalError)
  | closed
  deriving DecidableEq

def reportedBy : Outcome WalError Reply → List ℕ
  | .ret (.opened report) => [report.durableLsn]
  | .ret (.committed durable) => [durable]
  | _ => []

structure Machine where
  disk : Disk
  /-- The open handle. -/
  handle : Option Wal
  /-- Every watermark the log has stated so far, to callers and observers. -/
  reported : List ℕ

namespace Machine

def fresh (fallocates : Bool) (clock : ℕ → ℕ) : Machine :=
  ⟨Disk.fresh fallocates clock, none, []⟩

def onDisk (d : Disk) : Machine := ⟨d, none, []⟩

/-- The process dies: its handle is gone, its lock released, its writes stay. -/
def die (m : Machine) : Machine :=
  { m with disk := { m.disk with locked := false }, handle := none }

def reporting (ls : List ℕ) (m : Machine) : Machine := { m with reported := m.reported ++ ls }

section

variable [Crc32c]

def execOpen (config : WalConfig) (m : Machine) (seed : ℕ) (fates : List Fate) :
    Outcome WalError Reply × Machine :=
  match openSeeded config seed ⟨m.disk, fates⟩ with
  | (.ret (wal, report), w) =>
    (.ret (.opened report),
      (⟨w.disk, some wal, m.reported⟩ : Machine).reporting [report.durableLsn])
  | (.err e, w) => (.err e, { m with disk := w.disk })
  | (.crashed, w) => (.crashed, die { m with disk := w.disk })
  | (.diverged, w) => (.diverged, { m with disk := w.disk })

omit [Crc32c] in
def execOn (m : Machine) (wal : Wal) (fates : List Fate) (prog : Prog Sys WalError Reply) :
    Outcome WalError Reply × Machine :=
  let r := prog ⟨wal, ⟨m.disk, fates⟩⟩
  let m' : Machine := ⟨r.2.world.disk, some r.2.wal, m.reported⟩
  let m' := m'.reporting (r.2.wal.observed ++ r.2.wal.durableLsn :: reportedBy r.1)
  match r.1 with
  | .crashed => (.crashed, die m')
  | o => (o, m')

def replayed (m : Machine) (wal : Wal) (start : ℕ) : Outcome WalError Reply :=
  match readerFrom wal m.disk start with
  | .error e => .err e
  | .ok r => .ret (.records (r.drain m.disk).1 (r.drain m.disk).2)

/-- What a call replies and leaves behind; only `open` can be called without a
handle. -/
def exec (config : WalConfig) (m : Machine) (op : Op) (fates : List Fate) :
    Option (Outcome WalError Reply × Machine) :=
  match op, m.handle with
  | .openLog seed, _ => some (execOpen config m seed fates)
  | _, none => none
  | .append payload, some wal => some (execOn m wal fates (Reply.appended <$> append payload))
  | .commit, some wal => some (execOn m wal fates (Reply.committed <$> commit))
  | .checkpoint upTo, some wal =>
    some (execOn m wal fates ((fun _ => Reply.checkpointed) <$> checkpoint upTo))
  | .replay start, some wal => some (replayed m wal start, m)
  | .close, some _ => some (.ret .closed, die m)

/-- The states runs reach from `m₀`, each call legal and meeting `ok`, with the fates of
its system calls, in the state it is made in. -/
inductive Reaches (config : WalConfig) (ok : Machine → Op → List Fate → Prop) (m₀ : Machine) :
    Machine → Prop
  | start : Reaches config ok m₀ m₀
  | step {m m' : Machine} {op : Op} {fates : List Fate} {o : Outcome WalError Reply} :
      Reaches config ok m₀ m → op.Legal → ok m op fates → exec config m op fates = some (o, m') →
      Reaches config ok m₀ m'

def runCalm (config : WalConfig) (m : Machine) :
    List Op → Option (List (Outcome WalError Reply) × Machine)
  | [] => some ([], m)
  | op :: ops =>
    match exec config m op [] with
    | none => none
    | some (o, m') =>
      match runCalm config m' ops with
      | none => none
      | some (os, m'') => some (o :: os, m'')

def runFated (config : WalConfig) (m : Machine) :
    List (Op × List Fate) → Option (List (Outcome WalError Reply) × Machine)
  | [] => some ([], m)
  | (op, fates) :: calls =>
    match exec config m op fates with
    | none => none
    | some (o, m') =>
      match runFated config m' calls with
      | none => none
      | some (os, m'') => some (o :: os, m'')

end

end Machine

end OpenWal
