import OpenWal.Model.PowerPull

namespace OpenWal.CrashMatrix
open ByteSeq Posix CrashProg

structure Child where
  seed : ℕ
  /-- The digits in the name of a record. -/
  digits : ℕ
  /-- The last record. -/
  last : ℕ
  batch : ℕ
  checkpoints : Bool
  /-- Whether what is left of the last batch is committed. -/
  finishes : Bool

def crashChild (checkpoints : Bool) : Child where
  seed := lsnFirst
  digits := 8
  last := 50000
  batch := 8
  checkpoints := checkpoints
  finishes := true

def seededCrashChild : Child where
  seed := 7000000001
  digits := 20
  last := 7000000001 + 50000 - 1
  batch := 8
  checkpoints := false
  finishes := false

/-- The limits of `crash_child` and of `seeded_crash_child`. -/
def cfg : WalConfig := ⟨64 * 1024, 256, by decide, by decide⟩

def ckptCfg : WalConfig := ⟨512, 256, by decide, by decide⟩

/-- The children of the tests, each with its limits. -/
inductive Tested : WalConfig → Child → Prop
  | appending : Tested cfg (crashChild false)
  | checkpointing : Tested ckptCfg (crashChild true)
  | seeded : Tested cfg seededCrashChild

def Child.payload (c : Child) (lsn : ℕ) : Bytes := PowerPull.paddedName c.digits lsn

structure Session where
  machine : Machine
  nextLsn : ℕ
  sinceCommit : ℕ
  /-- The watermarks the parent has read. -/
  announced : List ℕ

/-- What happens in one turn of the child's loop: the fates of the system calls of its commit and
of its checkpoint, whether its line is read, and whether it goes on. -/
structure Turn where
  commit : List Fate
  checkpoint : List Fate
  announced : Bool
  goesOn : Bool

section

variable [Crc32c] (config : WalConfig) (c : Child)

def reclaim (m : Machine) (durable : ℕ) (fates : List Fate) : Option (Outcome WalError Reply × Machine) :=
  if c.checkpoints then m.exec config (.checkpoint durable) fates else some (.ret .checkpointed, m)

def commitBatch (s : Session) (t : Turn) : Session × Bool :=
  match s.machine.exec config .commit t.commit with
  | some (.ret (.committed durable), m) =>
    let s := { s with machine := m, sinceCommit := 0 }
    match reclaim config c m durable t.checkpoint with
    | some (.ret _, m) =>
      let announced := if t.announced then s.announced ++ [durable] else s.announced
      ({ s with machine := m, announced := announced }, t.goesOn)
    | some (_, m) => ({ s with machine := m }, false)
    | none => (s, false)
  | some (_, m) => ({ s with machine := m }, false)
  | none => (s, false)

def turn (s : Session) (t : Turn) : Session × Bool :=
  if c.last < s.nextLsn then
    if c.finishes then ((commitBatch config c s t).1, false) else (s, false)
  else
    match s.machine.exec config (.append (c.payload s.nextLsn)) [] with
    | some (.ret (.appended lsn), m) =>
      if lsn = s.nextLsn then
        let s := { s with machine := m, nextLsn := s.nextLsn + 1, sinceCommit := s.sinceCommit + 1 }
        if s.nextLsn = c.seed + 1 ∨ s.sinceCommit = c.batch then commitBatch config c s t else (s, true)
      else ({ s with machine := m }, false)
    | some (_, m) => ({ s with machine := m }, false)
    | none => (s, false)

def turns : List Turn → Session → Session
  | [], s => s
  | t :: ts, s =>
    match turn config c s t with
    | (s, true) => turns ts s
    | (s, false) => s

/-- The child until it is killed. -/
def child (m : Machine) (fates : List Fate) (ts : List Turn) : Session :=
  match m.exec config (.openLog c.seed) fates with
  | some (.ret (.opened report), m) => turns config c ts ⟨m, report.durableLsn + 1, 0, []⟩
  | some (_, m) => ⟨m, 0, 0, []⟩
  | none => ⟨m, 0, 0, []⟩

omit [Crc32c] in
/-- The number after the records, if they are those of the child from `expected` on. -/
def expect (expected : ℕ) : List (ℕ × Bytes) → Option ℕ
  | [] => some expected
  | (lsn, payload) :: rs =>
    if lsn = expected ∧ payload = c.payload expected then expect (expected + 1) rs else none

def refusesBelow (m : Machine) (oldest : ℕ) : Bool :=
  match m.exec config (.replay (oldest - 1)) [] with
  | some (.err _, _) => true
  | _ => false

/-- `assert_recovers`: reopens the directory, where nothing is to be lost up to `floor`. What is
durable, and the directory once the parent has dropped the log, or nothing if an assertion fails. -/
def assertRecovers (floor seed : ℕ) (m : Machine) : Option (ℕ × Machine) :=
  match m.exec config (.openLog seed) [] with
  | some (.ret (.opened report), m) =>
    match m.exec config (.replay 0) [] with
    | some (.ret (.records rs none), _) =>
      let first := if c.checkpoints then report.oldestLsn else c.seed
      if floor ≤ report.durableLsn ∧ (c.checkpoints ∨
            report.oldestLsn = c.seed ∧ m.handle.map Wal.oldestLsn = some c.seed) ∧
          expect c first rs = some (report.durableLsn + 1) ∧
          (c.checkpoints ∧ 1 < report.oldestLsn → refusesBelow config m report.oldestLsn) then
        some (report.durableLsn, m.die)
      else none
    | _ => none
  | _ => none

def reopens (floor durable : ℕ) : List ℕ → Machine → Option Machine
  | [], m => some m
  | seed :: seeds, m =>
    match assertRecovers config c floor seed m with
    | some (durable', m) => if durable' = durable then reopens floor durable seeds m else none
    | none => none

/-- One cycle: the fates of the child's `open`, its turns, whether the parent waits for a first line
and asserts what it says, and the seeds the parent reopens with, one after the other. -/
structure Cycle where
  opens : List Fate
  turns : List Turn
  steady : Bool
  seed : ℕ
  again : List ℕ

inductive Verdict where
  | passed
  /-- A child that the parent waits for ended without a line. -/
  | silent
  | failed
  deriving DecidableEq, Repr

/-- The assertions of the parents, taken together. Nothing is to be lost up to `floor`, and no child
the parent waits for is to announce less than `told`. -/
def matrix (told floor : ℕ) (m : Machine) : List Cycle → Verdict
  | [] => .passed
  | k :: ks =>
    let s := child config c m k.opens k.turns
    let announced := s.announced.getLastD 0
    if k.steady ∧ announced < told then if s.announced = [] then .silent else .failed
    else
      match assertRecovers config c (max floor announced) k.seed s.machine.die with
      | some (durable, m) =>
        match reopens config c (max floor announced) durable k.again m with
        | some m => matrix (max told announced) durable m ks
        | none => .failed
      | none => .failed

end

end OpenWal.CrashMatrix
