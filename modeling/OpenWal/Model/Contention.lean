import OpenWal.Model.System

namespace OpenWal
open ByteSeq Posix CrashProg

/-- How far a party has come: each is an `open` under way or a handle, in one process or in many. -/
inductive Phase where
  | outside
  /-- The directory is made, and the lock file is opened next. -/
  | entered (seed : ℕ)
  /-- `flock` is next. -/
  | waiting (seed : ℕ)
  /-- The lock is taken, and the log is recovered next. -/
  | recovering (seed : ℕ)
  | live (wal : Wal)

def Phase.locks : Phase → Bool
  | .recovering _ => true
  | .live _ => true
  | _ => false

def Phase.wal : Phase → Option Wal
  | .live wal => some wal
  | _ => none

inductive Move where
  /-- Starts an `open`, or makes a call of the handle. -/
  | call (op : Op)
  /-- Goes on with the `open` under way. -/
  | goOn
  /-- The process dies between two of its calls. -/
  | die

def Move.Legal : Move → Prop
  | .call op => op.Legal
  | _ => True

/-- Parties on one directory. Up to `flock` an `open` makes one system call a move, in any order with
the moves of others; what it does under the lock is one move, and so is a call of its handle. -/
structure Contention (ι : Type) where
  disk : Disk
  phase : ι → Phase
  /-- Every watermark the log has stated so far, to any party. -/
  reported : List ℕ

namespace Contention

variable {ι : Type} [DecidableEq ι]

def onDisk (d : Disk) : Contention ι := ⟨d, fun _ => .outside, []⟩

def released (ph : Phase) (d : Disk) : Disk := if ph.locks then { d with locked := false } else d

def put (s : Contention ι) (p : ι) (ph : Phase) (d : Disk) (reported : List ℕ) : Contention ι :=
  ⟨d, Function.update s.phase p ph, reported⟩

/-- A system call on the way into the log, after which `ph` is reached. -/
def pass (s : Contention ι) (p : ι) (ph : Phase) (m : Prog World WalError Unit) (fates : List Fate) :
    Contention ι :=
  match m ⟨s.disk, fates⟩ with
  | (.ret _, w) => s.put p ph w.disk s.reported
  | (_, w) => s.put p .outside w.disk s.reported

section

variable [Crc32c]

def recover (config : WalConfig) (s : Contention ι) (p : ι) (seed : ℕ) (fates : List Fate) :
    Contention ι :=
  match recoverDirectory config seed ⟨s.disk, fates⟩ with
  | (.ret rec', w) => s.put p (.live (rec'.wal config)) w.disk (s.reported ++ [rec'.report.durableLsn])
  | (_, w) => s.put p .outside (released (.recovering seed) w.disk) s.reported

def use (config : WalConfig) (s : Contention ι) (p : ι) (wal : Wal) (op : Op) (fates : List Fate) :
    Option (Contention ι) :=
  match Machine.exec config ⟨s.disk, some wal, s.reported⟩ op fates with
  | some (_, ⟨d, some wal, reported⟩) => some (s.put p (.live wal) d reported)
  | some (_, ⟨d, none, reported⟩) => some (s.put p .outside d reported)
  | none => none

def move (config : WalConfig) (s : Contention ι) (p : ι) (a : Move) (fates : List Fate) :
    Option (Contention ι) :=
  match a, s.phase p with
  | .die, ph => some (s.put p .outside (released ph s.disk) s.reported)
  | .call (.openLog seed), .outside =>
    if config.maxRecordSize + 91 > config.segmentSize then some s
    else if isNone seed then some s
    else some (s.pass p (.entered seed) (Prog.mapErr .io createDirAll) fates)
  | .goOn, .entered seed => some (s.pass p (.waiting seed) openLockFile fates)
  | .goOn, .waiting seed => some (s.pass p (.recovering seed) flock fates)
  | .goOn, .recovering seed => some (s.recover config p seed fates)
  | .call (.openLog _), _ => none
  | .call op, .live wal => s.use config p wal op fates
  | _, _ => none

def run (config : WalConfig) : List (ι × Move × List Fate) → Contention ι → Option (Contention ι)
  | [], s => some s
  | (p, a, fates) :: moves, s =>
    match s.move config p a fates with
    | some s => run config moves s
    | none => none

inductive Reaches (config : WalConfig) (s₀ : Contention ι) : Contention ι → Prop
  | start : Reaches config s₀ s₀
  | step {s s' : Contention ι} {p : ι} {a : Move} {fates : List Fate} :
      Reaches config s₀ s → a.Legal → move config s p a fates = some s' → Reaches config s₀ s'

end

end Contention

end OpenWal
