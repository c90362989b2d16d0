import OpenWal.Library.Simulation
import OpenWal.Model.System
import OpenWal.Theory.Replay

namespace OpenWal
open ByteSeq Posix CrashProg Simulation

/-- Committed records, numbered from `oldest`. -/
structure LogContent where
  oldest : ℕ
  records : List Bytes

namespace LogContent

def last (c : LogContent) : ℕ := c.oldest + c.records.length - 1

def entries (c : LogContent) : List (ℕ × Bytes) := numbered c.oldest c.records

end LogContent

inductive LogModel where
  | absent
  | closed (c : LogContent)
  | opened (c : LogContent) (staged : List Bytes)

namespace LogModel

/-- What a call may answer, and the state it leaves. A checkpoint may drop any
prefix of the records whose numbers are not above its argument. -/
inductive Step (config : WalConfig) : LogModel → Op → Outcome WalError Reply → LogModel → Prop
  | create {seed n : ℕ} :
      Step config .absent (.openLog seed) (.ret (.opened ⟨seed, seed - 1, .clean, n⟩))
        (.opened ⟨seed, []⟩ [])
  | reopen {c : LogContent} {seed n : ℕ} :
      Step config (.closed c) (.openLog seed) (.ret (.opened ⟨c.oldest, c.last, .clean, n⟩))
        (.opened c [])
  | tooLarge {c : LogContent} {staged : List Bytes} {p : Bytes} : config.maxRecordSize < p.length →
      Step config (.opened c staged) (.append p) (.err .recordTooLarge) (.opened c staged)
  | exhausted {c : LogContent} {staged : List Bytes} {p : Bytes} : p.length ≤ config.maxRecordSize →
      c.last + staged.length = u64Max →
      Step config (.opened c staged) (.append p) (.err .lsnExhausted) (.opened c staged)
  | stage {c : LogContent} {staged : List Bytes} {p : Bytes} : p.length ≤ config.maxRecordSize →
      c.last + staged.length < u64Max →
      Step config (.opened c staged) (.append p) (.ret (.appended (c.last + staged.length + 1)))
        (.opened c (staged ++ [p]))
  | commit {c : LogContent} {staged : List Bytes} :
      Step config (.opened c staged) .commit (.ret (.committed (c.last + staged.length)))
        (.opened ⟨c.oldest, c.records ++ staged⟩ [])
  | checkpoint {c : LogContent} {staged : List Bytes} {upTo : ℕ} (k : ℕ) : k ≤ c.records.length →
      (∀ l, c.oldest ≤ l → l < c.oldest + k → l ≤ upTo) →
      Step config (.opened c staged) (.checkpoint upTo) (.ret .checkpointed)
        (.opened ⟨c.oldest + k, c.records.drop k⟩ staged)
  | replay {c : LogContent} {staged : List Bytes} {start : ℕ} : start = 0 ∨ c.oldest ≤ start →
      Step config (.opened c staged) (.replay start)
        (.ret (.records (c.entries.filter fun r => start ≤ r.1) none)) (.opened c staged)
  | below {c : LogContent} {staged : List Bytes} {start : ℕ} : 0 < start → start < c.oldest →
      Step config (.opened c staged) (.replay start) (.err .contiguityViolation) (.opened c staged)
  | close {c : LogContent} {staged : List Bytes} :
      Step config (.opened c staged) .close (.ret .closed) (.closed c)

def isOpen : LogModel → Bool
  | .opened .. => true
  | _ => false

end LogModel

def InTurn : Bool → List Op → Prop
  | _, [] => True
  | false, .openLog seed :: ops => (Op.openLog seed).Legal ∧ InTurn true ops
  | false, _ :: _ => False
  | true, .openLog _ :: _ => False
  | true, .close :: ops => InTurn false ops
  | true, op :: ops => op.Legal ∧ InTurn true ops

end OpenWal
