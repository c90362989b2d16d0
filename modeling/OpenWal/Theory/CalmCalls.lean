import OpenWal.Theory.Headers
import OpenWal.Model.Wal

namespace OpenWal
open ByteSeq Posix CrashProg

variable {d : Disk} {n : FileName} {f : File}

theorem writeZeros_calm {start stop : ℕ} (h : d.file n = some f) (hlt : start < stop) :
    writeZeros n start stop ⟨d, []⟩ =
      (.ret (), ⟨d.put n (f.write start (zeros (stop - start))), []⟩) := by
  induction hm : stop - start using Nat.strong_induction_on generalizing start d f with
  | _ m ih =>
    subst hm
    rw [writeZeros, if_pos hlt, Prog.seq_of_ret (writeAllAt_calm h _ _)]
    set k := min (64 * 1024) (stop - start) with hk
    have hk0 : 0 < k := by omega
    by_cases hrest : start + k < stop
    · have hw := File.write_write f start (zeros k) (zeros (stop - (start + k)))
      rw [zeros_length, ← zeros_add, show k + (stop - (start + k)) = stop - start by omega] at hw
      rw [ih _ (by omega) (Disk.put_file_self n _ d) hrest rfl, Disk.put_put, hw]
    · have hks : k = stop - start := by omega
      rw [writeZeros, if_neg hrest, ← hks]
      rfl

def zeroed (x ss : ℕ) (f : File) : File := (f.write x (zeros (ss - x))).sync

theorem zeroToEof_calm {x ss : ℕ} (h : d.file n = some f) (hlt : x < ss) :
    zeroToEof n x ss ⟨d, []⟩ = (.ret (), ⟨d.put n (zeroed x ss f), []⟩) := by
  rw [zeroToEof, Prog.seq_of_ret (Prog.mapErr_of_ret (writeZeros_calm h hlt)), syncDataFully,
    Prog.mapErr_of_ret (syncData_calm (Disk.put_file_self n _ d)), Disk.put_put]
  rfl

section

variable [Crc32c]

def freshSegment (base ss created : ℕ) : File :=
  ⟨encodeHeader base created ++ zeros (ss - headerSize), fun i => decide (i < ss)⟩

structure SetTo (d : Disk) (n : FileName) (f : File) (d' : Disk) : Prop where
  self : d'.file n = some f
  others : ∀ m, m ≠ n → d'.file m = d.file m
  locked : d'.locked = d.locked
  unlinked : d'.unlinked = d.unlinked

omit [Crc32c] in
theorem setTo_put (d : Disk) (n : FileName) (f : File) : SetTo d n f (d.put n f) :=
  ⟨Disk.put_file_self n f d, fun _ hm => Disk.put_file_ne f d hm, rfl, rfl⟩

omit [Crc32c] in
theorem SetTo.trans {d₁ d₂ : Disk} {g : File} (h : SetTo d n f d₁) (h' : SetTo d₁ n g d₂) :
    SetTo d n g d₂ :=
  ⟨h'.self, fun m hm => (h'.others m hm).trans (h.others m hm), h'.locked.trans h.locked,
    h'.unlinked.trans h.unlinked⟩

omit [Crc32c] in
theorem preallocate_calm {ss : ℕ} (h : d.file n = some File.empty) (hss : 0 < ss) :
    ∃ g : File, preallocate n ss ⟨d, []⟩ = (.ret (), ⟨d.put n g, []⟩) ∧ g.data = zeros ss := by
  rw [preallocate, Prog.bind_of_ret (Prog.state_run _)]
  split_ifs
  · exact ⟨_, fallocate_calm h ss, by simp⟩
  · refine ⟨_, writeZeros_calm h hss, ?_⟩
    rw [File.write_data, File.empty_data, Nat.sub_zero, overwrite_eq _ (by simp)]
    simp

theorem create_calm {base ss : ℕ} (h : d.file (filenameFor base) = none) (hss : headerSize ≤ ss) :
    ∃ created d', create base ss ⟨d, []⟩ = (.ret (filenameFor base), ⟨d', []⟩) ∧
      SetTo d (filenameFor base) (freshSegment base ss created) d' := by
  set n := filenameFor base with hn
  obtain ⟨g, hpre, hg⟩ := preallocate_calm (Disk.create_file_self n d) (show 0 < ss by
    simp only [headerSize] at hss
    omega)
  set d₁ := (d.create n).put n g with hd₁
  set d₂ : Disk := { d₁ with clockReads := d₁.clockReads + 1 } with hd₂
  set created := d₁.clock d₁.clockReads
  have hf₂ : d₂.file n = some g := Disk.put_file_self n g (d.create n)
  have hwrite := writeAllAt_calm hf₂ (encodeHeader base created) 0
  have hsync := syncData_calm (Disk.put_file_self n (g.write 0 (encodeHeader base created)) d₂)
  have hfile : (g.write 0 (encodeHeader base created)).sync = freshSegment base ss created := by
    have hdata : overwrite g.data 0 (encodeHeader base created) =
        encodeHeader base created ++ zeros (ss - headerSize) := by
      rw [overwrite_eq _ (Nat.zero_le _), hg, List.take_zero, List.nil_append, zeros_drop, Nat.zero_add,
        encodeHeader_length]
    simp only [File.sync, File.write, freshSegment, hdata, List.length_append, encodeHeader_length,
      zeros_length, Nat.add_sub_cancel' hss]
  refine ⟨created, d₂.put n (freshSegment base ss created), ?_, ?_⟩
  · rw [create, Prog.mapErr_of_ret]
    rw [Prog.seq_of_ret (createNew_calm h), Prog.seq_of_ret hpre,
      Prog.bind_of_ret (readClock_calm d₁), Prog.seq_of_ret hwrite, syncDataFully,
      Prog.seq_of_ret hsync, Disk.put_put, hfile]
    rfl
  · refine ⟨Disk.put_file_self _ _ _, fun m hm => ?_, rfl, rfl⟩
    rw [Disk.put_file_ne _ _ hm]
    exact (Disk.put_file_ne g (d.create n) hm).trans (Disk.create_file_ne d hm)

end

end OpenWal
