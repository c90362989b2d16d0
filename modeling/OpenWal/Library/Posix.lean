import OpenWal.Library.ByteSeq
import OpenWal.Library.CrashProg
import Mathlib.Data.List.AList

namespace Posix
open ByteSeq CrashProg

abbrev FileName := List Char

inductive IoError where
  | notFound
  | alreadyExists
  | unexpectedEof
  | other
  deriving DecidableEq, Repr

structure File where
  data : Bytes
  /-- The offsets covered by a data sync issued after their last write. -/
  synced : ℕ → Bool

structure Removed where
  name : FileName
  file : File
  /-- The directory was synced since. -/
  durable : Bool

/-- One directory as processes see it, a read seeing every byte written so far, and as the disk below
it keeps it. -/
structure Disk where
  dirExists : Bool
  /-- The directory's own name is durable in its parent. -/
  dirDurable : Bool
  entries : AList fun _ : FileName => File
  /-- The names entered before the last directory sync. -/
  nameDurable : FileName → Bool
  removed : List Removed
  locked : Bool
  /-- Whether the filesystem implements `fallocate`. -/
  fallocates : Bool
  /-- The wall clock at each of its readings, and how many were taken. -/
  clock : ℕ → ℕ
  clockReads : ℕ

abbrev World := Env Disk

namespace File

def empty : File := ⟨[], fun _ => false⟩

def write (off : ℕ) (b : Bytes) (f : File) : File where
  data := overwrite f.data off b
  synced i := f.synced i && !(decide (off ≤ i) && decide (i < off + b.length))

def allocate (size : ℕ) (f : File) : File where
  data := f.data ++ zeros (size - f.data.length)
  synced := f.synced

def sync (f : File) : File where
  data := f.data
  synced i := decide (i < f.data.length)

@[simp] theorem empty_data : empty.data = [] := rfl

@[simp] theorem write_data (off : ℕ) (b : Bytes) (f : File) :
    (f.write off b).data = overwrite f.data off b := rfl

@[simp] theorem sync_data (f : File) : f.sync.data = f.data := rfl

@[simp] theorem allocate_data (size : ℕ) (f : File) :
    (f.allocate size).data = f.data ++ zeros (size - f.data.length) := rfl

@[simp] theorem sync_synced (f : File) (i : ℕ) : f.sync.synced i = decide (i < f.data.length) := rfl

theorem write_synced_before {off : ℕ} {b : Bytes} {f : File} {i : ℕ} (h : i < off) :
    (f.write off b).synced i = f.synced i := by
  simp [write, show ¬ off ≤ i by omega]

def SyncedOn (f : File) (x y : ℕ) : Prop := ∀ i, x ≤ i → i < y → f.synced i = true

theorem SyncedOn.mono {f : File} {x y x' y' : ℕ} (h : f.SyncedOn x y) (hx : x ≤ x')
    (hy : y' ≤ y) : f.SyncedOn x' y' :=
  fun i hi hi' => h i (hx.trans hi) (hi'.trans_le hy)

theorem sync_syncedOn {f : File} {y : ℕ} (x : ℕ) (h : y ≤ f.data.length) : f.sync.SyncedOn x y := by
  intro i _ hi
  simpa using hi.trans_le h

/-- Writing `b` and then `b'` right after it is writing both at once. -/
theorem write_write (f : File) (off : ℕ) (b b' : Bytes) :
    (f.write off b).write (off + b.length) b' = f.write off (b ++ b') := by
  have hd := overwrite_overwrite f.data off b b'
  have hs : ((f.write off b).write (off + b.length) b').synced = (f.write off (b ++ b')).synced := by
    funext i
    simp only [write, List.length_append, Bool.and_assoc]
    congr 1
    rw [Bool.eq_iff_iff]
    simp only [Bool.and_eq_true, Bool.not_eq_true', Bool.and_eq_false_iff, decide_eq_false_iff_not]
    omega
  simp only [write] at hd hs ⊢
  rw [hd, hs]

theorem SyncedOn.write {f : File} {x y off : ℕ} (h : f.SyncedOn x y) (b : Bytes) (hy : y ≤ off) :
    (f.write off b).SyncedOn x y := by
  intro i hx hi
  rw [write_synced_before (hi.trans_le hy)]
  exact h i hx hi

/-- What a power loss may leave of a file: the covered bytes are as they were,
nothing is known of the others. -/
def PowerLoss (f : File) (d : Bytes) : Prop := ∀ i, f.synced i = true → d[i]? = f.data[i]?

theorem PowerLoss.agreeOn {f : File} {d : Bytes} {x y : ℕ} (h : f.PowerLoss d)
    (hs : f.SyncedOn x y) : AgreeOn d f.data x y :=
  fun i hx hy => h i (hs i hx hy)

end File

namespace Disk

def fresh (fallocates : Bool) (clock : ℕ → ℕ) : Disk where
  dirExists := false
  dirDurable := false
  entries := ∅
  nameDurable _ := false
  removed := []
  locked := false
  fallocates := fallocates
  clock := clock
  clockReads := 0

def holding (files : List (FileName × Bytes)) : Disk where
  dirExists := true
  dirDurable := true
  entries := files.foldr (fun p entries => entries.insert p.1 ⟨p.2, fun _ => false⟩) ∅
  nameDurable _ := true
  removed := []
  locked := false
  fallocates := true
  clock _ := 0
  clockReads := 0

def file (d : Disk) (n : FileName) : Option File := d.entries.lookup n

def names (d : Disk) : List FileName := d.entries.keys

def create (n : FileName) (d : Disk) : Disk :=
  { d with
    entries := d.entries.insert n File.empty
    nameDurable := Function.update d.nameDurable n false }

def modify (n : FileName) (g : File → File) (d : Disk) : Disk :=
  match d.entries.lookup n with
  | some f => { d with entries := d.entries.insert n (g f) }
  | none => d

def put (n : FileName) (f : File) (d : Disk) : Disk := { d with entries := d.entries.insert n f }

def remove (n : FileName) (d : Disk) : Disk :=
  match d.entries.lookup n with
  | some f =>
    { d with entries := d.entries.erase n, removed := d.removed ++ [⟨n, f, false⟩] }
  | none => d

def syncDir (d : Disk) : Disk :=
  { d with
    nameDurable := fun n => (d.entries.lookup n).isSome
    removed := d.removed.map fun r => { r with durable := true } }

def unlinked (d : Disk) : List (FileName × File) := d.removed.map fun r => (r.name, r.file)

theorem mem_names {d : Disk} {n : FileName} : n ∈ d.names ↔ (d.file n).isSome := by
  rw [names, file, AList.lookup_isSome, AList.mem_keys]

theorem mem_names_of_file {d : Disk} {n : FileName} {f : File} (h : d.file n = some f) :
    n ∈ d.names := by
  rw [mem_names, h]
  rfl

theorem exists_file_of_mem_names {d : Disk} {n : FileName} (h : n ∈ d.names) :
    ∃ f, d.file n = some f :=
  Option.isSome_iff_exists.mp (mem_names.mp h)

theorem names_nodup (d : Disk) : d.names.Nodup := d.entries.keys_nodup

@[simp] theorem fresh_file (b : Bool) (c : ℕ → ℕ) (n : FileName) : (fresh b c).file n = none := rfl

@[simp] theorem create_file_self (n : FileName) (d : Disk) :
    (d.create n).file n = some File.empty := by
  simp [create, file]

theorem create_file_ne {n m : FileName} (d : Disk) (h : m ≠ n) :
    (d.create n).file m = d.file m := by
  simp [create, file, AList.lookup_insert_ne h]

theorem modify_file_self (n : FileName) (g : File → File) (d : Disk) :
    (d.modify n g).file n = (d.file n).map g := by
  unfold modify file
  cases h : d.entries.lookup n with
  | some f => simp
  | none => simp [h]

theorem modify_file_ne {n m : FileName} (g : File → File) (d : Disk) (h : m ≠ n) :
    (d.modify n g).file m = d.file m := by
  unfold modify file
  cases d.entries.lookup n with
  | some f => simp [AList.lookup_insert_ne h]
  | none => rfl

theorem modify_of_file {n : FileName} {d : Disk} {f : File} (h : d.file n = some f)
    (g : File → File) : d.modify n g = d.put n (g f) := by
  unfold file at h
  rw [modify, h, put]

@[simp] theorem put_file_self (n : FileName) (f : File) (d : Disk) :
    (d.put n f).file n = some f := by
  simp [put, file]

theorem put_file_ne {n m : FileName} (f : File) (d : Disk) (h : m ≠ n) :
    (d.put n f).file m = d.file m := by
  simp [put, file, AList.lookup_insert_ne h]

@[simp] theorem put_put (n : FileName) (f g : File) (d : Disk) :
    (d.put n f).put n g = d.put n g := by
  simp [put]

@[simp] theorem put_locked (n : FileName) (f : File) (d : Disk) : (d.put n f).locked = d.locked := rfl

@[simp] theorem put_unlinked (n : FileName) (f : File) (d : Disk) :
    (d.put n f).unlinked = d.unlinked := rfl

@[simp] theorem put_fallocates (n : FileName) (f : File) (d : Disk) :
    (d.put n f).fallocates = d.fallocates := rfl

@[simp] theorem create_fallocates (n : FileName) (d : Disk) :
    (d.create n).fallocates = d.fallocates := rfl

@[simp] theorem create_unlinked (n : FileName) (d : Disk) :
    (d.create n).unlinked = d.unlinked := rfl

@[simp] theorem modify_unlinked (n : FileName) (g : File → File) (d : Disk) :
    (d.modify n g).unlinked = d.unlinked := by
  unfold modify
  split <;> rfl

@[simp] theorem syncDir_unlinked (d : Disk) : d.syncDir.unlinked = d.unlinked := by
  simp [unlinked, syncDir, Function.comp_def]

theorem remove_unlinked {n : FileName} {d : Disk} {f : File} (h : d.file n = some f) :
    (d.remove n).unlinked = d.unlinked ++ [(n, f)] := by
  unfold file at h
  rw [remove, h]
  simp [unlinked]

theorem remove_of_none {n : FileName} {d : Disk} (h : d.file n = none) : d.remove n = d := by
  unfold file at h
  rw [remove, h]

@[simp] theorem remove_file_self (n : FileName) (d : Disk) : (d.remove n).file n = none := by
  unfold remove file
  cases h : d.entries.lookup n with
  | some f => simp
  | none => simp [h]

theorem remove_file_ne {n m : FileName} (d : Disk) (h : m ≠ n) :
    (d.remove n).file m = d.file m := by
  unfold remove file
  cases d.entries.lookup n with
  | some f => simp [AList.lookup_erase_ne h]
  | none => rfl

@[simp] theorem syncDir_file (d : Disk) (n : FileName) : d.syncDir.file n = d.file n := rfl

@[simp] theorem create_locked (n : FileName) (d : Disk) : (d.create n).locked = d.locked := rfl

@[simp] theorem modify_locked (n : FileName) (g : File → File) (d : Disk) :
    (d.modify n g).locked = d.locked := by
  unfold modify
  split <;> rfl

@[simp] theorem remove_locked (n : FileName) (d : Disk) : (d.remove n).locked = d.locked := by
  unfold remove
  split <;> rfl

@[simp] theorem syncDir_locked (d : Disk) : d.syncDir.locked = d.locked := rfl

end Disk

def createDirAll : Prog World IoError Unit :=
  syscall (fun d => { d with dirExists := true, dirDurable := d.dirExists && d.dirDurable })
    (fun _ d => d) .other

def readDir : Prog World IoError (List FileName) := do
  syscall (fun d => d) (fun _ d => d) .other
  return (← Prog.state).disk.names

/-- Opens an existing file; what is returned is what reads of it see. -/
def openFile (n : FileName) : Prog World IoError Bytes := do
  syscall (fun d => d) (fun _ d => d) .other
  match (← Prog.state).disk.file n with
  | some f => return f.data
  | none => Prog.raise .notFound

/-- `O_CREAT | O_EXCL`. -/
def createNew (n : FileName) : Prog World IoError Unit := do
  match (← Prog.state).disk.file n with
  | some _ => Prog.raise .alreadyExists
  | none => syscall (Disk.create n) (fun _ d => d) .other

/-- All or nothing. -/
def fallocate (n : FileName) (size : ℕ) : Prog World IoError Unit :=
  syscall (Disk.modify n (File.allocate size)) (fun _ d => d) .other

/-- A failing or dying write has stored some prefix of the bytes. -/
def writeAllAt (n : FileName) (b : Bytes) (off : ℕ) : Prog World IoError Unit :=
  syscall (Disk.modify n (File.write off b)) (fun k => Disk.modify n (File.write off (b.take k)))
    .other

def syncData (n : FileName) : Prog World IoError Unit :=
  syscall (Disk.modify n File.sync) (fun _ d => d) .other

def removeFile (n : FileName) : Prog World IoError Unit := do
  match (← Prog.state).disk.file n with
  | some _ => syscall (Disk.remove n) (fun _ d => d) .other
  | none => Prog.raise .notFound

def fsyncDir : Prog World IoError Unit := syscall Disk.syncDir (fun _ d => d) .other

def readClock : Prog World IoError ℕ := do
  let t := (← Prog.state).disk.clock (← Prog.state).disk.clockReads
  Prog.update fun w => { w with disk := { w.disk with clockReads := w.disk.clockReads + 1 } }
  return t

section Calm

variable {d : Disk} {n : FileName} {f : File}

theorem openFile_calm (h : d.file n = some f) : openFile n ⟨d, []⟩ = (.ret f.data, ⟨d, []⟩) := by
  rw [openFile, Prog.seq_of_ret (syscall_calm _ _ _ d), Prog.bind_of_ret (Prog.state_run _), h]
  rfl

theorem openFile_calm_missing (h : d.file n = none) :
    openFile n ⟨d, []⟩ = (.err .notFound, ⟨d, []⟩) := by
  rw [openFile, Prog.seq_of_ret (syscall_calm _ _ _ d), Prog.bind_of_ret (Prog.state_run _), h]
  rfl

theorem createNew_calm (h : d.file n = none) :
    createNew n ⟨d, []⟩ = (.ret (), ⟨d.create n, []⟩) := by
  rw [createNew, Prog.bind_of_ret (Prog.state_run _), h]
  rfl

theorem writeAllAt_calm (h : d.file n = some f) (b : Bytes) (off : ℕ) :
    writeAllAt n b off ⟨d, []⟩ = (.ret (), ⟨d.put n (f.write off b), []⟩) := by
  rw [writeAllAt, syscall_calm, Disk.modify_of_file h]

theorem syncData_calm (h : d.file n = some f) :
    syncData n ⟨d, []⟩ = (.ret (), ⟨d.put n f.sync, []⟩) := by
  rw [syncData, syscall_calm, Disk.modify_of_file h]

theorem fallocate_calm (h : d.file n = some f) (size : ℕ) :
    fallocate n size ⟨d, []⟩ = (.ret (), ⟨d.put n (f.allocate size), []⟩) := by
  rw [fallocate, syscall_calm, Disk.modify_of_file h]

theorem fsyncDir_calm (d : Disk) : fsyncDir ⟨d, []⟩ = (.ret (), ⟨d.syncDir, []⟩) := rfl

theorem readClock_calm (d : Disk) : readClock ⟨d, []⟩ =
    (.ret (d.clock d.clockReads), ⟨{ d with clockReads := d.clockReads + 1 }, []⟩) := rfl

theorem removeFile_calm (h : d.file n = some f) :
    removeFile n ⟨d, []⟩ = (.ret (), ⟨d.remove n, []⟩) := by
  rw [removeFile, Prog.bind_of_ret (Prog.state_run _), h]
  rfl

theorem readDir_calm (d : Disk) : readDir ⟨d, []⟩ = (.ret d.names, ⟨d, []⟩) := rfl

end Calm

end Posix
