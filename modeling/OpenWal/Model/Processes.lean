import OpenWal.Model.System

namespace OpenWal
open ByteSeq Posix CrashProg

structure Processes (ι : Type) where
  disk : Disk
  handle : ι → Option Wal
  /-- Every watermark the log has stated so far, to any process. -/
  reported : List ℕ

namespace Processes

variable {ι : Type} [DecidableEq ι]

def onDisk (d : Disk) : Processes ι := ⟨d, fun _ => none, []⟩

def seenBy (s : Processes ι) (p : ι) : Machine := ⟨s.disk, s.handle p, s.reported⟩

/-- The lock after a call of `p`. A process that dies gives up the lock it holds; where it
died waiting for the log, that is at most the one it took in this very call. -/
def lockAfter (s : Processes ι) (p : ι) (o : Outcome WalError Reply) (m : Machine) : Bool :=
  match o, s.handle p with
  | .crashed, none => s.disk.locked
  | _, _ => m.disk.locked

def after (s : Processes ι) (p : ι) (o : Outcome WalError Reply) (m : Machine) : Processes ι where
  disk := { m.disk with locked := s.lockAfter p o m }
  handle := Function.update s.handle p m.handle
  reported := m.reported

section

variable [Crc32c]

/-- What a call of `p` replies and leaves behind: the call is made as a whole, with no other in between. -/
def exec (config : WalConfig) (s : Processes ι) (p : ι) (op : Op) (fates : List Fate) :
    Option (Outcome WalError Reply × Processes ι) :=
  match (s.seenBy p).exec config op fates with
  | none => none
  | some (o, m) => some (o, s.after p o m)

inductive Reaches (config : WalConfig) (ok : Machine → Op → List Fate → Prop) (s₀ : Processes ι) :
    Processes ι → Prop
  | start : Reaches config ok s₀ s₀
  | step {s s' : Processes ι} {p : ι} {op : Op} {fates : List Fate} {o : Outcome WalError Reply} :
      Reaches config ok s₀ s → op.Legal → ok (s.seenBy p) op fates →
      exec config s p op fates = some (o, s') → Reaches config ok s₀ s'

end

end Processes

end OpenWal
