import OpenWal.Library.Posix

namespace Posix
open ByteSeq

/-- `d'` may be found where the power was cut in `d`. -/
structure PowerCut (d d' : Disk) : Prop where
  unlocked : d'.locked = false
  dir : d.dirExists = true → d.dirDurable = true → d'.dirExists = true
  kept : ∀ n f, d.dirDurable = true → d.nameDurable n = true → d.file n = some f →
    ∃ g, d'.file n = some g ∧ f.PowerLoss g.data
  /-- A file that is there was there, or its unlink did not reach the disk. -/
  left : ∀ n g, d'.file n = some g → (∃ f, d.file n = some f ∧ f.PowerLoss g.data) ∨
    ∃ r ∈ d.removed, r.name = n ∧ r.durable = false ∧ r.file.PowerLoss g.data
  dirFound : d'.dirExists = true → d'.dirDurable = true
  found : ∀ n g, d'.file n = some g → d'.nameDurable n = true ∧ g.SyncedOn 0 g.data.length

def File.powerOff (f : File) : File where
  data := f.data.mapIdx fun i b => if f.synced i then b else 0
  synced i := decide (i < f.data.length)

theorem File.powerLoss_powerOff (f : File) : f.PowerLoss f.powerOff.data := by
  intro i hi
  simp [File.powerOff, List.getElem?_mapIdx, hi]

namespace Disk

/-- What is left of a file: a name that is not durable is lost with it. -/
def survivor (d : Disk) (n : FileName) : Option File :=
  if d.dirDurable && d.nameDurable n then (d.file n).map File.powerOff else none

/-- Nothing is left but what is synced, and every unlink reaches the disk. -/
def powerOff (d : Disk) : Disk :=
  { d with
    dirExists := d.dirExists && d.dirDurable
    entries := d.names.foldr (fun n entries =>
      match d.survivor n with
      | some g => entries.insert n g
      | none => entries) ∅
    removed := []
    locked := false }

theorem powerOff_file (d : Disk) (n : FileName) : d.powerOff.file n = d.survivor n := by
  have hfold : ∀ l : List FileName, (l.foldr (fun m entries =>
      match d.survivor m with
      | some g => entries.insert m g
      | none => entries) (∅ : AList fun _ : FileName => File)).lookup n =
      if n ∈ l then d.survivor n else none := by
    intro l
    induction l with
    | nil => rfl
    | cons m l ih =>
      rw [List.foldr_cons]
      by_cases hm : n = m
      · subst hm
        rw [if_pos List.mem_cons_self]
        cases hs : d.survivor n with
        | none => simpa only [hs, ite_self] using ih
        | some g => exact AList.lookup_insert _
      · simp only [List.mem_cons, or_iff_right hm]
        cases d.survivor m with
        | none => exact ih
        | some g => exact (AList.lookup_insert_ne hm).trans ih
  rw [file, powerOff, hfold]
  split_ifs with hn
  · rfl
  · have hf : d.file n = none := by
      rw [mem_names, Option.not_isSome_iff_eq_none] at hn
      exact hn
    simp [survivor, hf]

theorem survivor_eq_some {d : Disk} {n : FileName} {g : File} (h : d.survivor n = some g) :
    d.nameDurable n = true ∧ ∃ f, d.file n = some f ∧ g = f.powerOff := by
  unfold survivor at h
  split_ifs at h with hk
  obtain ⟨f, hf, rfl⟩ := Option.map_eq_some_iff.mp h
  rw [Bool.and_eq_true] at hk
  exact ⟨hk.2, f, hf, rfl⟩

theorem powerCut_powerOff (d : Disk) : PowerCut d d.powerOff where
  unlocked := rfl
  dir he hd := by simp [powerOff, he, hd]
  kept n f hd hn hf := by
    refine ⟨f.powerOff, ?_, f.powerLoss_powerOff⟩
    rw [powerOff_file, survivor, hd, hn, hf]
    rfl
  left n g hg := by
    rw [powerOff_file] at hg
    obtain ⟨-, f, hf, rfl⟩ := survivor_eq_some hg
    exact Or.inl ⟨f, hf, f.powerLoss_powerOff⟩
  dirFound he := by
    rw [powerOff, Bool.and_eq_true] at he
    exact he.2
  found n g hg := by
    rw [powerOff_file] at hg
    obtain ⟨hn, f, hf, rfl⟩ := survivor_eq_some hg
    refine ⟨hn, fun i _ hi => ?_⟩
    rw [File.powerOff, List.length_mapIdx] at hi
    exact decide_eq_true hi

end Disk

namespace PowerCut

variable {d d' : Disk} {n : FileName} {f : File} {x : ℕ}

/-- The synced bytes a file starts with stay, under a durable name. -/
theorem file (h : PowerCut d d') (hd : d.dirDurable = true) (hn : d.nameDurable n = true)
    (hf : d.file n = some f) (hx : x ≤ f.data.length) (hs : f.SyncedOn 0 x) :
    d'.nameDurable n = true ∧ ∃ g, d'.file n = some g ∧ AgreeOn f.data g.data 0 x ∧ g.SyncedOn 0 x := by
  obtain ⟨g, hg, hloss⟩ := h.kept n f hd hn hf
  have hagree := hloss.agreeOn hs
  have hle : x ≤ g.data.length := by
    by_contra hlt
    have hlast := hagree (x - 1) (Nat.zero_le _) (by omega)
    rw [List.getElem?_eq_none (by omega), eq_comm, List.getElem?_eq_none_iff] at hlast
    omega
  obtain ⟨hname, hsynced⟩ := h.found n g hg
  exact ⟨hname, g, hg, hagree.symm, hsynced.mono le_rfl hle⟩

end PowerCut

end Posix
