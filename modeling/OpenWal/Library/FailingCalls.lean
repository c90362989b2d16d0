import OpenWal.Library.Posix

namespace Posix
open ByteSeq CrashProg

/-- `d'` has the files of `d`, and nothing more was unlinked. -/
structure SameFiles (d d' : Disk) : Prop where
  file : ∀ n, d'.file n = d.file n
  unlinked : d'.unlinked = d.unlinked

structure DiffersAt (n : FileName) (d d' : Disk) : Prop where
  others : ∀ m, m ≠ n → d'.file m = d.file m
  unlinked : d'.unlinked = d.unlinked

/-- `f'` has the bytes of `f` before `x`, and all of them are synced that were. -/
structure SameBefore (x : ℕ) (f f' : File) : Prop where
  length : x ≤ f'.data.length
  data : AgreeOn f.data f'.data 0 x
  synced : ∀ i < x, f.synced i = true → f'.synced i = true

def RewrittenFrom (n : FileName) (x : ℕ) (f : File) (d d' : Disk) : Prop :=
  DiffersAt n d d' ∧ ∃ f', d'.file n = some f' ∧ SameBefore x f f'

namespace SameFiles

theorem refl (d : Disk) : SameFiles d d := ⟨fun _ => rfl, rfl⟩

theorem symm {d d' : Disk} (h : SameFiles d d') : SameFiles d' d :=
  ⟨fun n => (h.file n).symm, h.unlinked.symm⟩

theorem trans {d d' d'' : Disk} (h : SameFiles d d') (h' : SameFiles d' d'') : SameFiles d d'' :=
  ⟨fun n => (h'.file n).trans (h.file n), h'.unlinked.trans h.unlinked⟩

theorem syncDir (d : Disk) : SameFiles d d.syncDir := ⟨fun _ => rfl, d.syncDir_unlinked⟩

theorem remove {d d' : Disk} (h : SameFiles d d') (n : FileName) :
    SameFiles (d.remove n) (d'.remove n) := by
  refine ⟨fun m => ?_, ?_⟩
  · by_cases hm : m = n
    · rw [hm, Disk.remove_file_self, Disk.remove_file_self]
    · rw [Disk.remove_file_ne _ hm, Disk.remove_file_ne _ hm, h.file]
  · cases hf : d.file n with
    | some f => rw [Disk.remove_unlinked hf, Disk.remove_unlinked ((h.file n).trans hf), h.unlinked]
    | none => rw [Disk.remove_of_none hf, Disk.remove_of_none ((h.file n).trans hf), h.unlinked]

end SameFiles

namespace DiffersAt

variable {n : FileName} {d d' d'' : Disk}

theorem refl (n : FileName) (d : Disk) : DiffersAt n d d := ⟨fun _ _ => rfl, rfl⟩

theorem trans (h : DiffersAt n d d') (h' : DiffersAt n d' d'') : DiffersAt n d d'' :=
  ⟨fun m hm => (h'.others m hm).trans (h.others m hm), h'.unlinked.trans h.unlinked⟩

theorem of_sameFiles (h : SameFiles d d') : DiffersAt n d d' := ⟨fun m _ => h.file m, h.unlinked⟩

theorem create (n : FileName) (d : Disk) : DiffersAt n d (d.create n) :=
  ⟨fun _ hm => d.create_file_ne hm, d.create_unlinked n⟩

theorem modify (n : FileName) (g : File → File) (d : Disk) : DiffersAt n d (d.modify n g) :=
  ⟨fun _ hm => d.modify_file_ne g hm, d.modify_unlinked n g⟩

end DiffersAt

/-- `d'` differs from `d` in the file `n`, in whether its name is durable, and in the
readings of the clock. -/
structure OnlyAt (n : FileName) (d d' : Disk) : Prop extends DiffersAt n d d' where
  locked : d'.locked = d.locked
  dirExists : d'.dirExists = d.dirExists
  dirDurable : d'.dirDurable = d.dirDurable
  nameDurable : ∀ m, m ≠ n → d'.nameDurable m = d.nameDurable m

namespace OnlyAt

variable {n : FileName} {d d' d'' : Disk}

theorem refl (n : FileName) (d : Disk) : OnlyAt n d d := ⟨.refl n d, rfl, rfl, rfl, fun _ _ => rfl⟩

theorem trans (h : OnlyAt n d d') (h' : OnlyAt n d' d'') : OnlyAt n d d'' where
  toDiffersAt := h.toDiffersAt.trans h'.toDiffersAt
  locked := h'.locked.trans h.locked
  dirExists := h'.dirExists.trans h.dirExists
  dirDurable := h'.dirDurable.trans h.dirDurable
  nameDurable m hm := (h'.nameDurable m hm).trans (h.nameDurable m hm)

theorem create (n : FileName) (d : Disk) : OnlyAt n d (d.create n) :=
  ⟨.create n d, rfl, rfl, rfl, fun _ hm => Function.update_of_ne hm _ _⟩

theorem modify (n : FileName) (g : File → File) (d : Disk) : OnlyAt n d (d.modify n g) := by
  refine ⟨.modify n g d, d.modify_locked n g, ?_, ?_, fun m _ => ?_⟩ <;>
  · unfold Disk.modify
    split <;> rfl

theorem put (n : FileName) (f : File) (d : Disk) : OnlyAt n d (d.put n f) :=
  ⟨⟨fun _ hm => d.put_file_ne f hm, rfl⟩, rfl, rfl, rfl, fun _ _ => rfl⟩

end OnlyAt

namespace SameBefore

variable {x : ℕ} {f f' f'' : File}

theorem refl (h : x ≤ f.data.length) : SameBefore x f f := ⟨h, .refl _ _ _, fun _ _ h => h⟩

theorem trans (h : SameBefore x f f') (h' : SameBefore x f' f'') : SameBefore x f f'' :=
  ⟨h'.length, h.data.trans h'.data, fun i hi hs => h'.synced i hi (h.synced i hi hs)⟩

theorem write {off : ℕ} (b : Bytes) (hx : x ≤ f.data.length) (ho : x ≤ off) :
    SameBefore x f (f.write off b) := by
  refine ⟨hx.trans (le_overwrite_length _ _ _), ?_, fun i hi hs => ?_⟩
  · exact (overwrite_agreeOn_of_le b ho hx).symm
  · rwa [File.write_synced_before (by omega)]

theorem sync (hx : x ≤ f.data.length) : SameBefore x f f.sync :=
  ⟨hx, .refl _ _ _, fun _ hi _ => decide_eq_true (hi.trans_le hx)⟩

theorem syncedOn {y z : ℕ} (h : SameBefore x f f') (hs : f.SyncedOn y z) (hz : z ≤ x) :
    f'.SyncedOn y z :=
  fun i hi hi' => h.synced i (hi'.trans_le hz) (hs i hi hi')

end SameBefore

theorem RewrittenFrom.refl {n : FileName} {x : ℕ} {f : File} {d : Disk} (h : d.file n = some f)
    (hx : x ≤ f.data.length) : RewrittenFrom n x f d d :=
  ⟨.refl n d, f, h, .refl hx⟩

theorem RewrittenFrom.modify {n : FileName} {x : ℕ} {f : File} {d d' : Disk} {g : File → File}
    (h : RewrittenFrom n x f d d') (hg : ∀ f', x ≤ f'.data.length → SameBefore x f' (g f')) :
    RewrittenFrom n x f d (d'.modify n g) := by
  obtain ⟨hd, f', hf', hs⟩ := h
  refine ⟨hd.trans (.modify n g d'), g f', ?_, hs.trans (hg f' hs.length)⟩
  rw [Disk.modify_file_self, hf', Option.map_some]

abbrev OnDisk (I : Disk → Prop) : World → Prop := fun w => I w.disk

def OfFiles (I : Disk → Prop) : Prop := ∀ d d', SameFiles d d' → I d → I d'

theorem OfFiles.differsAt (n : FileName) (d : Disk) : OfFiles (DiffersAt n d) :=
  fun _ _ hs h => h.trans (.of_sameFiles hs)

theorem syscall_onDisk {ε : Type} {P Q E C : Disk → Prop} {full : Disk → Disk}
    {part : ℕ → Disk → Disk} {e : ε} (hQ : ∀ d, P d → Q (full d)) (hE : ∀ d n, P d → E (part n d))
    (hC : ∀ d n, P d → C (part n d)) :
    Triple (OnDisk P) (syscall full part e) (fun _ => OnDisk Q) (fun _ => OnDisk E) (OnDisk C) :=
  Triple.syscall (E := fun _ => E) hQ hE hC

section

variable {I : Disk → Prop}

theorem readDir_keeps (I : Disk → Prop) : Keeps (OnDisk I) readDir :=
  Keeps.seq (Keeps.syscall (fun _ hd => hd) fun _ _ hd => hd) (Keeps.bind Keeps.state fun _ => Keeps.ret _)

theorem openFile_keeps (I : Disk → Prop) (n : FileName) : Keeps (OnDisk I) (openFile n) := by
  apply Keeps.seq (Keeps.syscall (fun _ hd => hd) fun _ _ hd => hd)
  apply Keeps.bind Keeps.state
  intro w
  split
  · exact Keeps.ret _
  · exact Keeps.raise _

theorem createNew_keeps {n : FileName} (h : ∀ d, I d → I (d.create n)) :
    Keeps (OnDisk I) (createNew n) := by
  apply Keeps.bind Keeps.state
  intro w
  split
  · exact Keeps.raise _
  · exact Keeps.syscall h fun _ _ hd => hd

theorem fallocate_keeps {n : FileName} {size : ℕ}
    (h : ∀ d, I d → I (d.modify n (File.allocate size))) : Keeps (OnDisk I) (fallocate n size) :=
  Keeps.syscall h fun _ _ hd => hd

theorem writeAllAt_keeps {n : FileName} {off : ℕ} (h : ∀ b d, I d → I (d.modify n (File.write off b)))
    (b : Bytes) : Keeps (OnDisk I) (writeAllAt n b off) :=
  Keeps.syscall (h b) fun k => h (b.take k)

theorem syncData_keeps {n : FileName} (h : ∀ d, I d → I (d.modify n File.sync)) :
    Keeps (OnDisk I) (syncData n) :=
  Keeps.syscall h fun _ _ hd => hd

theorem removeFile_keeps {n : FileName} (h : ∀ d, I d → I (d.remove n)) :
    Keeps (OnDisk I) (removeFile n) := by
  apply Keeps.bind Keeps.state
  intro w
  split
  · exact Keeps.syscall h fun _ _ hd => hd
  · exact Keeps.raise _

theorem fsyncDir_keeps (h : OfFiles I) : Keeps (OnDisk I) fsyncDir :=
  Keeps.syscall (fun d => h d _ (.syncDir d)) fun _ _ hd => hd

theorem readClock_keeps (h : OfFiles I) : Keeps (OnDisk I) readClock := by
  apply Keeps.bind Keeps.state
  intro w
  apply Keeps.bind Keeps.state
  intro w'
  apply Keeps.seq (Keeps.update fun w hw => ?_) (Keeps.ret _)
  exact h w.disk _ ⟨fun _ => rfl, rfl⟩ hw

/-- What opening a file shows of the directory. -/
theorem openFile_reads (n : FileName) (d : Disk) :
    Triple (OnDisk (· = d)) (openFile n)
      (fun b w => w.disk = d ∧ ∃ f, d.file n = some f ∧ b = f.data) (fun _ => OnDisk (· = d))
      (OnDisk (· = d)) := by
  apply Triple.seq (Keeps.syscall (I := fun e => e = d) (fun _ hd => hd) fun _ _ hd => hd)
  apply Triple.bind (Q := fun w' w : World => w' = w ∧ w.disk = d) (Triple.state fun _ hd => ⟨rfl, hd⟩)
  intro w
  split
  · rename_i f hf
    exact Triple.ret _ fun _ hw => ⟨hw.2, f, by rw [← hw.2, ← hw.1, hf], rfl⟩
  · exact Triple.raise _ fun _ hw => hw.2

theorem readDir_reads (d : Disk) :
    Triple (OnDisk (· = d)) readDir (fun names w => w.disk = d ∧ names = d.names)
      (fun _ => OnDisk (· = d)) (OnDisk (· = d)) := by
  apply Triple.seq (Keeps.syscall (I := fun e => e = d) (fun _ hd => hd) fun _ _ hd => hd)
  apply Triple.bind (Q := fun w' w : World => w' = w ∧ w.disk = d) (Triple.state fun _ hd => ⟨rfl, hd⟩)
  intro w
  exact Triple.ret _ fun _ hw => ⟨hw.2, by rw [hw.1, hw.2]⟩

theorem createDirAll_steady : Steady Env.calm createDirAll := Steady.syscall _ _ _

theorem readDir_steady : Steady Env.calm readDir :=
  (Steady.syscall _ _ _).seq (Steady.state_bind (fun _ => rfl) fun _ => Steady.ret _)

theorem openFile_steady (n : FileName) : Steady Env.calm (openFile n) := by
  apply (Steady.syscall _ _ _).seq
  refine Steady.state_bind (fun _ => rfl) fun w => ?_
  split
  · exact Steady.ret _
  · exact Steady.raise _

theorem createNew_steady (n : FileName) : Steady Env.calm (createNew n) := by
  refine Steady.state_bind (fun _ => rfl) fun w => ?_
  split
  · exact Steady.raise _
  · exact Steady.syscall _ _ _

theorem fallocate_steady (n : FileName) (size : ℕ) : Steady Env.calm (fallocate n size) :=
  Steady.syscall _ _ _

theorem writeAllAt_steady (n : FileName) (b : Bytes) (off : ℕ) :
    Steady Env.calm (writeAllAt n b off) :=
  Steady.syscall _ _ _

theorem syncData_steady (n : FileName) : Steady Env.calm (syncData n) := Steady.syscall _ _ _

theorem removeFile_steady (n : FileName) : Steady Env.calm (removeFile n) := by
  refine Steady.state_bind (fun _ => rfl) fun w => ?_
  split
  · exact Steady.syscall _ _ _
  · exact Steady.raise _

theorem fsyncDir_steady : Steady Env.calm fsyncDir := Steady.syscall _ _ _

theorem readClock_steady : Steady Env.calm readClock := by
  refine Steady.state_bind (fun _ => rfl) fun w => ?_
  refine Steady.state_bind (fun _ => rfl) fun w' => ?_
  refine Steady.seq (Steady.update fun w => ?_) (Steady.ret _)
  rfl

theorem createNew_paced (n : FileName) : Paced Env.withFates (createNew n) := by
  refine Paced.state_bind (fun _ _ => rfl) fun w => ?_
  split
  · exact Paced.raise _
  · exact Paced.syscall _ _ _

theorem fallocate_paced (n : FileName) (size : ℕ) : Paced Env.withFates (fallocate n size) :=
  Paced.syscall _ _ _

theorem writeAllAt_paced (n : FileName) (b : Bytes) (off : ℕ) :
    Paced Env.withFates (writeAllAt n b off) :=
  Paced.syscall _ _ _

theorem syncData_paced (n : FileName) : Paced Env.withFates (syncData n) := Paced.syscall _ _ _

theorem fsyncDir_paced : Paced Env.withFates fsyncDir := Paced.syscall _ _ _

theorem readClock_paced : Paced Env.withFates readClock := by
  refine Paced.state_bind (fun _ _ => rfl) fun w => ?_
  refine Paced.state_bind (fun _ _ => rfl) fun w' => ?_
  apply Paced.seq
  · exact Paced.update Env.withFates_replaces fun _ _ => rfl
  · exact Paced.ret Env.withFates_replaces _

end

end Posix
