import Mathlib.Data.Nat.Digits.Defs
import OpenWal.Model.System

namespace OpenWal.PowerPull
open ByteSeq Posix CrashProg

/-- `rec-` and the number in at least `width` digits. -/
def paddedName (width lsn : ℕ) : Bytes :=
  (['r', 'e', 'c', '-'] ++ decimalDigits (max width (Nat.digits 10 lsn).length) lsn).map Char.toUInt8

def recordName (lsn : ℕ) : Bytes := paddedName 16 lsn

def resize (n : ℕ) (fill : UInt8) (b : Bytes) : Bytes :=
  (b ++ List.replicate (n - b.length) fill).take n

structure Workload where
  /-- The last record, or no last one. -/
  total : ℕ
  batch : ℕ
  payloadBytes : ℕ

def Workload.payload (p : Workload) (lsn : ℕ) : Bytes :=
  resize (max p.payloadBytes 20) '.'.toUInt8 (recordName lsn)

abbrev Line := ℕ × ℕ

structure Session where
  machine : Machine
  nextLsn : ℕ
  seq : ℕ
  sinceCommit : ℕ
  /-- The lines that left the box. -/
  captured : List Line

/-- What happens in one turn of the loop: the fates of the system calls of its commit, whether
the line gets through, and whether the workload learns so. -/
structure Turn where
  fates : List Fate
  captured : Bool
  recorded : Bool

def Session.record (s : Session) (captured : Bool) (watermark : ℕ) : Session :=
  { s with captured := if captured then s.captured ++ [(s.seq, watermark)] else s.captured }

section

variable [Crc32c] (config : WalConfig) (p : Workload)

def start (m : Machine) (fates : List Fate) : Session × Bool :=
  match m.exec config (.openLog lsnFirst) fates with
  | some (.ret (.opened report), m) => (⟨m, report.durableLsn + 1, 0, 0, []⟩, true)
  | some (_, m) => (⟨m, 0, 0, 0, []⟩, false)
  | none => (⟨m, 0, 0, 0, []⟩, false)

def finish (s : Session) (t : Turn) : Session :=
  match s.machine.exec config .commit t.fates with
  | some (.ret (.committed w), m) =>
    if 1 ≤ w then { s with machine := m, seq := s.seq + 1 }.record t.captured w
    else { s with machine := m }
  | some (_, m) => { s with machine := m }
  | none => s

/-- Commits a batch that is full, and whether the workload goes on. -/
def commitBatch (s : Session) (t : Turn) : Session × Bool :=
  match s.machine.exec config .commit t.fates with
  | some (.ret (.committed w), m) =>
    ({ { s with machine := m, seq := s.seq + 1 }.record t.captured w with sinceCommit := 0 }, t.recorded)
  | some (_, m) => ({ s with machine := m }, false)
  | none => (s, false)

def turn (s : Session) (t : Turn) : Session × Bool :=
  if p.total ≠ 0 ∧ p.total < s.nextLsn then (finish config s t, false)
  else
    match s.machine.exec config (.append (p.payload s.nextLsn)) [] with
    | some (.ret (.appended _), m) =>
      let s := { s with machine := m, nextLsn := s.nextLsn + 1, sinceCommit := s.sinceCommit + 1 }
      if p.batch ≤ s.sinceCommit then commitBatch config s t else (s, true)
    | some (_, m) => ({ s with machine := m }, false)
    | none => (s, false)

def turns : List Turn → Session → Session
  | [], s => s
  | t :: ts, s =>
    match turn config p s t with
    | (s, true) => turns ts s
    | (s, false) => s

def workload (m : Machine) (fates : List Fate) (ts : List Turn) : Session :=
  match start config m fates with
  | (s, true) => turns config p ts s
  | (s, false) => s

inductive Verdict where
  | pass
  | fail
  | inconclusive
  /-- An `expect` did not hold. -/
  | panicked
  deriving DecidableEq

omit [Crc32c] in
/-- Among lines in the order of their numbers; a later line takes the place of an earlier one. -/
def insertLine (line : Line) : List Line → List Line
  | [] => [line]
  | l :: ls =>
    if line.1 < l.1 then line :: l :: ls
    else if line.1 = l.1 then line :: ls
    else l :: insertLine line ls

omit [Crc32c] in
def bySeq (lines : List Line) : List Line := lines.foldl (fun ls line => insertLine line ls) []

omit [Crc32c] in
/-- The watermark of the last line, where no line is missing. -/
def highWater : ℕ → ℕ → List Line → Option ℕ
  | _, high, [] => some high
  | expected, _, (seq, wm) :: ls => if seq = expected then highWater (expected + 1) wm ls else none

omit [Crc32c] in
def checkRecords (high : ℕ) (failure : Option WalError) : ℕ → ℕ → List (ℕ × Bytes) → Verdict
  | _, seen, [] =>
    if failure.isSome then .panicked else if seen < high then .fail else .pass
  | expected, _, (lsn, payload) :: rs =>
    if lsn ≠ expected then .fail
    else if lsn ≤ high ∧ ¬ recordName lsn <+: payload then .fail
    else checkRecords high failure (expected + 1) lsn rs

/-- The verdict on the directory, given the lines of the side channel. -/
def verify (lines : List Line) (m : Machine) (fates : List Fate) : Verdict :=
  match bySeq lines with
  | [] => .inconclusive
  | ls =>
    match highWater 1 0 ls with
    | none => .inconclusive
    | some high =>
      match m.exec config (.openLog lsnFirst) fates with
      | some (.ret (.opened report), m) =>
        match m.exec config (.replay 0) [] with
        | some (.ret (.records rs failure), _) =>
          checkRecords high failure (max report.oldestLsn 1) 0 rs
        | _ => .panicked
      | _ => .panicked

end

end OpenWal.PowerPull
