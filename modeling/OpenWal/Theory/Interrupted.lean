import OpenWal.Library.FailingCalls
import OpenWal.Theory.OpenedLog

namespace OpenWal
open ByteSeq Posix CrashProg

variable {d : Disk} {n : FileName} {f : File} {x : ℕ}

theorem writeZeros_keeps {I : Disk → Prop} {start stop : ℕ}
    (h : ∀ off b d, start ≤ off → I d → I (d.modify n (File.write off b))) :
    Keeps (OnDisk I) (writeZeros n start stop) := by
  fun_induction writeZeros n start stop with
  | case1 start hlt k ih =>
    apply Keeps.seq (writeAllAt_keeps (fun b d => h start b d le_rfl) _)
    exact ih fun off b d ho => h off b d (by omega)
  | case2 start hge => exact Keeps.ret _

theorem writeZeros_steady (start stop : ℕ) : Steady Env.calm (writeZeros n start stop) := by
  fun_induction writeZeros n start stop with
  | case1 start hlt k ih => exact (writeAllAt_steady _ _ _).seq ih
  | case2 start hge => exact Steady.ret _

/-- Zeroing the tail touches nothing before it. -/
theorem zeroToEof_keeps {x : ℕ} (ss : ℕ) :
    Keeps (OnDisk (RewrittenFrom n x f d)) (zeroToEof n x ss) := by
  apply Keeps.seq
  · apply Keeps.mapErr
    apply writeZeros_keeps
    intro off b d' ho h
    exact h.modify fun f' hl => .write b hl ho
  · apply Keeps.mapErr
    apply syncData_keeps
    intro d' h
    exact h.modify fun f' hl => .sync hl

theorem zeroToEof_steady (x ss : ℕ) : Steady Env.calm (zeroToEof n x ss) :=
  (writeZeros_steady _ _).mapErr.seq (syncData_steady _).mapErr

theorem preallocate_keeps {I : Disk → Prop} (ss : ℕ) (h : ∀ g d, I d → I (d.modify n g)) :
    Keeps (OnDisk I) (preallocate n ss) := by
  apply Keeps.bind Keeps.state
  intro w
  split
  · exact fallocate_keeps (h _)
  · exact writeZeros_keeps fun _ _ d _ => h _ d

theorem preallocate_steady (ss : ℕ) : Steady Env.calm (preallocate n ss) := by
  refine Steady.state_bind (fun _ => rfl) fun w => ?_
  split
  · exact fallocate_steady _ _
  · exact writeZeros_steady _ _

theorem writeZeros_paced (start stop : ℕ) : Paced Env.withFates (writeZeros n start stop) := by
  fun_induction writeZeros n start stop with
  | case1 start hlt k ih => exact (writeAllAt_paced _ _ _).seq ih
  | case2 start hge => exact Paced.ret Env.withFates_replaces _

theorem preallocate_paced (ss : ℕ) : Paced Env.withFates (preallocate n ss) := by
  refine Paced.state_bind (fun _ _ => rfl) fun w => ?_
  split
  · exact fallocate_paced _ _
  · exact writeZeros_paced _ _

theorem removeFile_triple (hf : d.file n = some f) :
    Triple (OnDisk (· = d)) (removeFile n) (fun _ => OnDisk (· = d.remove n))
      (fun e w => e = .other ∧ w.disk = d) (OnDisk (· = d)) := by
  rintro w hw
  have hfile : w.disk.file n = some f := by rw [show w.disk = d from hw, hf]
  rw [removeFile, Prog.bind_of_ret (Prog.state_run w), hfile]
  refine Triple.syscall (P := (· = d)) (Q := (· = d.remove n))
    (E := fun (e : IoError) d' => e = .other ∧ d' = d) (C := (· = d)) ?_ (fun _ _ h => ⟨rfl, h⟩)
    (fun _ _ h => h) w hw
  rintro _ rfl
  rfl

def ZeroedTo (n : FileName) (f : File) (x y : ℕ) (d : Disk) : Prop :=
  x ≤ y ∧ ∃ g, d.file n = some g ∧ g.data = overwrite f.data x (zeros (y - x))

def ZeroedUpTo (n : FileName) (f : File) (x stop : ℕ) (d : Disk) : Prop :=
  ∃ y ≤ stop, ZeroedTo n f x y d

theorem ZeroedTo.write {y : ℕ} (h : ZeroedTo n f x y d) (k : ℕ) :
    ZeroedTo n f x (y + k) (d.modify n (File.write y (zeros k))) := by
  obtain ⟨hy, g, hg, hdata⟩ := h
  have hw := overwrite_overwrite f.data x (zeros (y - x)) (zeros k)
  rw [zeros_length, ← zeros_add, ← hdata, Nat.add_sub_cancel' hy] at hw
  refine ⟨by omega, g.write y (zeros k), by rw [Disk.modify_file_self, hg, Option.map_some], ?_⟩
  rw [File.write_data, hw, Nat.sub_add_comm hy]

/-- Wherever the zeroing stops, what it wrote are the first bytes of its range. -/
theorem writeZeros_triple {start stop : ℕ} (hstop : start ≤ stop) :
    Triple (OnDisk (ZeroedTo n f x start)) (writeZeros n start stop)
      (fun _ => OnDisk (ZeroedTo n f x stop)) (fun _ => OnDisk (ZeroedUpTo n f x stop))
      (OnDisk (ZeroedUpTo n f x stop)) := by
  fun_induction writeZeros n start stop with
  | case1 start hlt k ih =>
    have hk : start + k ≤ stop := by omega
    have hpart : ∀ d m, ZeroedTo n f x start d →
        ZeroedUpTo n f x stop (d.modify n (File.write start ((zeros k).take m))) := by
      intro d m h
      have htake : (zeros k).take m = zeros (min m k) := List.take_replicate
      rw [htake]
      exact ⟨start + min m k, by omega, h.write (min m k)⟩
    apply Triple.seq (Q := fun _ => OnDisk (ZeroedTo n f x (start + k)))
    · exact syscall_onDisk (fun d h => h.write k) hpart hpart
    · exact ih hk
  | case2 start hge =>
    obtain rfl : start = stop := by omega
    exact Triple.ret _ fun w h => h

theorem zeroToEof_triple {ss : ℕ} (hf : d.file n = some f) (hss : x ≤ ss) :
    Triple (OnDisk (· = d)) (zeroToEof n x ss) (fun _ => OnDisk (ZeroedUpTo n f x ss))
      (fun _ => OnDisk (ZeroedUpTo n f x ss)) (OnDisk (ZeroedUpTo n f x ss)) := by
  apply Triple.seq (Q := fun _ => OnDisk (ZeroedUpTo n f x ss))
  · apply Triple.mapErr
    refine (writeZeros_triple hss).conseq ?_ (fun _ _ h => ⟨ss, le_rfl, h⟩) (fun _ _ h => h)
      fun _ h => h
    rintro w rfl
    exact ⟨le_rfl, f, hf, by simp⟩
  · apply Triple.mapErr
    apply syncData_keeps
    rintro d' ⟨y, hy, hxy, g, hg, hdata⟩
    exact ⟨y, hy, hxy, g.sync, by rw [Disk.modify_file_self, hg, Option.map_some], hdata⟩

/-- `d'` is `d` with the zeroing of the file `n`, which is `f`, begun: from `x` on, and
to `ss` at most. -/
def Zeroing (n : FileName) (f : File) (x ss : ℕ) (d d' : Disk) : Prop :=
  RewrittenFrom n x f d d' ∧ ZeroedUpTo n f x ss d'

theorem zeroToEof_zeroing {ss : ℕ} (hf : d.file n = some f) (hx : x ≤ f.data.length) (hss : x ≤ ss) :
    Triple (OnDisk (· = d)) (zeroToEof n x ss) (fun _ => OnDisk (Zeroing n f x ss d))
      (fun _ => OnDisk (Zeroing n f x ss d)) (OnDisk (Zeroing n f x ss d)) := by
  refine ((zeroToEof_keeps ss).both (zeroToEof_triple hf hss)).pre ?_
  rintro w rfl
  exact ⟨.refl hf hx, rfl⟩

section

variable [Crc32c]

/-- What the creation of a segment of `ss` bytes leaves of it: zeros, or zeros with
the first bytes of the header over them. -/
def BegunData (base ss : ℕ) (data : Bytes) : Prop :=
  (∃ k ≤ ss, data = zeros k) ∨
    ∃ created j, data = overwrite (zeros ss) 0 ((encodeHeader base created).take j)

def BegunFile (base ss : ℕ) (d : Disk) : Prop :=
  ∀ g, d.file (filenameFor base) = some g → BegunData base ss g.data

/-- `d'` is `d` with the creation of the segment `base` begun. -/
def Begun (base ss : ℕ) (d d' : Disk) : Prop :=
  OnlyAt (filenameFor base) d d' ∧ BegunFile base ss d'

variable {base ss : ℕ} {data : Bytes}

omit [Crc32c] in
theorem zeros_zeroOn (n x : ℕ) : ZeroOn (zeros n) x n := by
  intro i _ hi
  rw [zeros_getElem?, if_pos hi]

namespace BegunData

theorem zeroOn (h : BegunData base ss data) : ZeroOn data headerSize data.length := by
  obtain ⟨k, -, rfl⟩ | ⟨created, j, rfl⟩ := h
  · rw [zeros_length]
    exact zeros_zeroOn k _
  · intro i hx hi
    have hl : ((encodeHeader base created).take j).length ≤ headerSize := by
      rw [List.length_take, encodeHeader_length]
      exact Nat.min_le_right _ _
    rw [overwrite_length _ (Nat.zero_le _), zeros_length] at hi
    rw [overwrite_getElem? _ (Nat.zero_le _), if_neg (by omega), zeros_getElem?, if_pos (by omega)]

theorem length_le (h : BegunData base ss data) (hss : headerSize ≤ ss) : data.length ≤ ss := by
  obtain ⟨k, hk, rfl⟩ | ⟨created, j, rfl⟩ := h
  · rwa [zeros_length]
  · rw [overwrite_length _ (Nat.zero_le _), zeros_length, List.length_take, encodeHeader_length]
    omega

/-- Behind a header that is not there yet lie no records. -/
theorem not_frameAt {mx lsn : ℕ} {p : Bytes} (h : BegunData base ss data) :
    ¬ FrameAt ss mx data headerSize lsn p := by
  intro hf
  have hle := le_framedSize p.length
  have hfile := hf.le_file
  exact hf.not_cleanAt (Or.inr (h.zeroOn.mono le_rfl (by omega)))

/-- A creation that got as far as the header has laid out the whole segment. -/
theorem length_of_headerOk {b : ℕ} (h : BegunData base ss data) (hss : headerSize ≤ ss)
    (hh : HeaderOk data b) : data.length = ss := by
  obtain ⟨k, hk, rfl⟩ | ⟨created, j, rfl⟩ := h
  · have hm : slice ((zeros k).take headerSize) 0 8 ≠ magic := by
      rw [slice_take (by decide), (zeros_zeroOn k 0).mono le_rfl (by
        have hle := hh.le_length
        rw [zeros_length] at hle
        simp only [headerSize] at hle
        omega : 8 ≤ k) |>.slice_eq]
      decide
    have hd := hh.2
    unfold decodeHeader at hd
    simp only at hd
    rw [if_pos hm] at hd
    split_ifs at hd
  · rw [overwrite_length _ (Nat.zero_le _), zeros_length, List.length_take, encodeHeader_length]
    omega

end BegunData

/-- Creation touches no file but its own. -/
theorem create_keeps (base ss : ℕ) (d : Disk) :
    Keeps (OnDisk (DiffersAt (filenameFor base) d)) (create base ss) := by
  have hmodify : ∀ g d', DiffersAt (filenameFor base) d d' →
      DiffersAt (filenameFor base) d (d'.modify (filenameFor base) g) :=
    fun g d' h => h.trans (.modify _ g d')
  apply Keeps.mapErr
  apply Keeps.seq (createNew_keeps fun d' h => h.trans (.create _ d'))
  apply Keeps.seq (preallocate_keeps ss hmodify)
  apply Keeps.bind (readClock_keeps (.differsAt _ d))
  intro created
  apply Keeps.seq (writeAllAt_keeps (fun b => hmodify _) _)
  exact Keeps.seq (syncData_keeps (hmodify _)) (Keeps.ret _)

theorem create_steady (base ss : ℕ) : Steady Env.calm (create base ss) :=
  ((createNew_steady _).seq ((preallocate_steady ss).seq (readClock_steady.bind fun _ =>
    (writeAllAt_steady _ _ _).seq ((syncData_steady _).seq (Steady.ret _))))).mapErr

theorem create_paced (base ss : ℕ) : Paced Env.withFates (create base ss) :=
  ((createNew_paced _).seq ((preallocate_paced ss).seq (readClock_paced.bind fun _ =>
    (writeAllAt_paced _ _ _).seq ((syncData_paced _).seq (Paced.ret Env.withFates_replaces _))))).mapErr

omit [Crc32c] in
theorem fsyncDirectory_keeps {I : Disk → Prop} (h : OfFiles I) : Keeps (OnDisk I) fsyncDirectory :=
  (fsyncDir_keeps h).mapErr

omit [Crc32c] in
theorem fsyncDirectory_steady : Steady Env.calm fsyncDirectory := fsyncDir_steady.mapErr

omit [Crc32c] in
theorem fsyncDirectory_paced : Paced Env.withFates fsyncDirectory := fsyncDir_paced.mapErr

omit [Crc32c] in
theorem readClock_onlyAt (I : Disk → Prop) (h : ∀ d k, I d → I { d with clockReads := k }) :
    Keeps (OnDisk I) readClock := by
  apply Keeps.bind Keeps.state
  intro w
  apply Keeps.bind Keeps.state
  intro w'
  exact Keeps.seq (Keeps.update fun w hw => h _ _ hw) (Keeps.ret _)

/-- Creation touches nothing but its own file. -/
theorem create_onlyAt (base ss : ℕ) (d : Disk) :
    Keeps (OnDisk (OnlyAt (filenameFor base) d)) (create base ss) := by
  have hmodify : ∀ g d', OnlyAt (filenameFor base) d d' →
      OnlyAt (filenameFor base) d (d'.modify (filenameFor base) g) :=
    fun g d' h => h.trans (.modify _ g d')
  apply Keeps.mapErr
  apply Keeps.seq (createNew_keeps fun d' h => h.trans (.create _ d'))
  apply Keeps.seq (preallocate_keeps ss hmodify)
  apply Keeps.bind (readClock_onlyAt _ fun d' k h => h.trans ⟨⟨fun _ _ => rfl, rfl⟩, rfl, rfl, rfl,
    fun _ _ => rfl⟩)
  intro created
  apply Keeps.seq (writeAllAt_keeps (fun b => hmodify _) _)
  exact Keeps.seq (syncData_keeps (hmodify _)) (Keeps.ret _)

omit [Crc32c] in
theorem zeroedTo_empty {y : ℕ} : ZeroedTo n File.empty 0 y d ↔
    ∃ g, d.file n = some g ∧ g.data = zeros y := by
  have hdata : overwrite File.empty.data 0 (zeros (y - 0)) = zeros y := by
    rw [overwrite_eq _ (Nat.zero_le _)]
    simp
  rw [ZeroedTo, hdata]
  simp

omit [Crc32c] in
theorem preallocate_triple (n : FileName) (ss : ℕ) :
    Triple (OnDisk (ZeroedTo n File.empty 0 0)) (preallocate n ss)
      (fun _ => OnDisk (ZeroedTo n File.empty 0 ss)) (fun _ => OnDisk (ZeroedUpTo n File.empty 0 ss))
      (OnDisk (ZeroedUpTo n File.empty 0 ss)) := by
  have hnone : ∀ d, ZeroedTo n File.empty 0 0 d → ZeroedUpTo n File.empty 0 ss d :=
    fun d h => ⟨0, Nat.zero_le _, h⟩
  apply Triple.bind (Q := fun _ => OnDisk (ZeroedTo n File.empty 0 0)) (Triple.state fun _ h => h)
  intro w
  split
  · refine syscall_onDisk (fun d h => ?_) (fun d _ => hnone d) fun d _ => hnone d
    obtain ⟨g, hg, hdata⟩ := zeroedTo_empty.mp h
    refine zeroedTo_empty.mpr ⟨g.allocate ss, by rw [Disk.modify_file_self, hg, Option.map_some], ?_⟩
    simp [hdata]
  · exact writeZeros_triple (Nat.zero_le _)

theorem begunFile_of_file {g : File} (hg : d.file (filenameFor base) = some g)
    (h : BegunData base ss g.data) : BegunFile base ss d := by
  intro g' hg'
  exact Option.some.inj (hg.symm.trans hg') ▸ h

theorem begunFile_of_zeroedUpTo (h : ZeroedUpTo (filenameFor base) File.empty 0 ss d) :
    BegunFile base ss d := by
  obtain ⟨y, hy, h⟩ := h
  obtain ⟨g, hg, hdata⟩ := zeroedTo_empty.mp h
  exact begunFile_of_file hg (Or.inl ⟨y, hy, hdata⟩)

/-- What a creation leaves of its file, wherever it stops. -/
theorem create_begunFile (hnone : d.file (filenameFor base) = none) :
    Triple (OnDisk (· = d)) (create base ss) (fun _ _ => True)
      (fun e w => (∃ e', e = .io e') ∧ BegunFile base ss w.disk) (OnDisk (BegunFile base ss)) := by
  set n := filenameFor base with hn
  have hzeroed : ∀ d', ZeroedTo n File.empty 0 ss d' → BegunFile base ss d' :=
    fun d' h => begunFile_of_zeroedUpTo ⟨ss, le_rfl, h⟩
  have hwrite : ∀ created j d', ZeroedTo n File.empty 0 ss d' →
      BegunFile base ss (d'.modify n (File.write 0 ((encodeHeader base created).take j))) := by
    intro created j d' h
    obtain ⟨g, hg, hdata⟩ := zeroedTo_empty.mp h
    refine begunFile_of_file (by rw [Disk.modify_file_self, hg, Option.map_some]) (Or.inr ⟨created, j, ?_⟩)
    rw [File.write_data, hdata]
  apply Triple.mapErr
  refine Triple.conseq (E := fun _ => OnDisk (BegunFile base ss)) (C := OnDisk (BegunFile base ss)) ?_
    (fun _ h => h) (fun _ _ h => h) (fun e _ h => ⟨⟨e, rfl⟩, h⟩) fun _ h => h
  apply Triple.seq (Q := fun _ => OnDisk (ZeroedTo n File.empty 0 0))
  · apply Triple.bind (Q := fun w' w : World => w' = w ∧ w.disk = d) (Triple.state fun _ hd => ⟨rfl, hd⟩)
    intro w
    split
    · rename_i f hf
      refine Triple.raise _ ?_
      rintro _ ⟨rfl, hd⟩
      rw [hd, hnone] at hf
      simp at hf
    · refine (syscall_onDisk (P := (· = d)) ?_ ?_ ?_).pre fun _ hw => hw.2
      · rintro _ rfl
        exact zeroedTo_empty.mpr ⟨File.empty, Disk.create_file_self _ _, rfl⟩
      -- a creation that fails left no file to speak of
      · rintro _ _ rfl g hg
        rw [← hn, hnone] at hg
        simp at hg
      · rintro _ _ rfl g hg
        rw [← hn, hnone] at hg
        simp at hg
  apply Triple.seq (Q := fun _ => OnDisk (ZeroedTo n File.empty 0 ss))
  · exact (preallocate_triple n ss).conseq (fun _ h => h) (fun _ _ h => h)
      (fun _ w => begunFile_of_zeroedUpTo) fun w => begunFile_of_zeroedUpTo
  apply Triple.bind (Q := fun _ => OnDisk (ZeroedTo n File.empty 0 ss))
  · exact (readClock_onlyAt _ fun _ _ h => h).conseq (fun _ h => h) (fun _ _ h => h)
      (fun _ w => hzeroed w.disk) fun w => hzeroed w.disk
  intro created
  apply Triple.seq (Q := fun _ => OnDisk (BegunFile base ss))
  · refine syscall_onDisk (fun d' h => ?_) (fun d' j => hwrite created j d') fun d' j => hwrite created j d'
    have := hwrite created headerSize d' h
    rwa [List.take_of_length_le (encodeHeader_length base created).le] at this
  apply Triple.seq (Q := fun _ _ => True)
  · exact syscall_onDisk (Q := fun _ => True) (fun _ _ => trivial) (fun _ _ h => h) fun _ _ h => h
  · exact Triple.ret _ fun _ _ => trivial

/-- A creation that returns made a fresh segment; one that does not has begun it. -/
theorem create_triple (hnone : d.file (filenameFor base) = none) (hss : headerSize ≤ ss) :
    Triple (OnDisk (· = d)) (create base ss)
      (fun name w => name = filenameFor base ∧ OnlyAt (filenameFor base) d w.disk ∧
        ∃ created, w.disk.file (filenameFor base) = some (freshSegment base ss created))
      (fun e w => (∃ e', e = .io e') ∧ Begun base ss d w.disk) (OnDisk (Begun base ss d)) := by
  have hbegun : Triple (OnDisk (· = d)) (create base ss) (fun _ _ => True)
      (fun e w => (∃ e', e = .io e') ∧ BegunFile base ss w.disk) (OnDisk (BegunFile base ss)) :=
    create_begunFile hnone
  have hcalm := (create_steady base ss).triple hbegun
  have hboth := hcalm.both ((create_onlyAt base ss d).ends (P := OnDisk (· = d)) (by
    rintro w rfl
    exact .refl _ _))
  refine hboth.conseq (fun w hw => ⟨hw, hw⟩) ?_ (fun e w h => ⟨h.1.1, h.2, h.1.2⟩)
    fun w h => ⟨h.2, h.1⟩
  rintro name w ⟨⟨w₀, hw₀, hret⟩, honly⟩
  obtain ⟨created, d', hcreate, hset⟩ := create_calm (d := d) hnone hss
  have hd : w₀.disk = d := hw₀
  rw [Env.calm, hd] at hret
  obtain ⟨hname, hworld⟩ := Prod.mk.inj (hret.symm.trans hcreate)
  have hdisk : w.disk = d' := congrArg Env.disk hworld
  refine ⟨by simpa using hname, honly, created, ?_⟩
  rw [hdisk, hset.self]

/-- A fresh segment is a creation that is done. -/
theorem freshSegment_begunData (base created : ℕ) :
    BegunData base ss (freshSegment base ss created).data := by
  refine Or.inr ⟨created, headerSize, ?_⟩
  have hl := encodeHeader_length base created
  rw [List.take_of_length_le hl.le, overwrite_eq _ (Nat.zero_le _), List.take_zero, List.nil_append,
    zeros_drop, Nat.zero_add, hl]
  rfl

end

end OpenWal
