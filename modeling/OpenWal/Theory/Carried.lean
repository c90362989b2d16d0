import OpenWal.Theory.Calls
import OpenWal.Theory.FailingOpen

namespace OpenWal
open ByteSeq Posix CrashProg

variable [Crc32c]

def HeldAt (ss mx : ℕ) (d : Disk) (base : ℕ) (ps : List Bytes) : Prop :=
  ps ≠ [] ∧ ∃ f, d.file (filenameFor base) = some f ∧ HeaderOk f.data base ∧
    Run ss mx f.data headerSize base ps

structure Carries (config : WalConfig) (d : Disk) (oldest : ℕ) (sealed : List (List Bytes))
    (active : List Bytes) (f : File) : Prop where
  bases : basesOf d = basesFrom oldest sealed
  chain : ChainFrom (HeldAt config.segmentSize config.maxRecordSize d) oldest sealed
  file : d.file (filenameFor (activeBase oldest sealed)) = some f
  header : HeaderOk f.data (activeBase oldest sealed)
  run : Run config.segmentSize config.maxRecordSize f.data headerSize (activeBase oldest sealed) active

variable {config : WalConfig} {d d' : Disk} {oldest : ℕ} {sealed : List (List Bytes)}
  {active qs : List Bytes} {f f' : File}

theorem LogOn.carries (h : LogOn config.segmentSize config.maxRecordSize d oldest sealed active f) :
    Carries config d oldest sealed active f where
  bases := h.bases
  chain := h.chain.imp fun _ _ _ _ ⟨hne, g, hg, hs, _⟩ => ⟨hne, g, hg, hs.header, hs.run⟩
  file := h.file
  header := h.holds.header
  run := h.holds.run

theorem StoredLog.carries {safe : Prop} (h : StoredLog config safe d oldest sealed active f) :
    Carries config d oldest sealed active f := h.logOn.carries

namespace Carries

theorem ne_nil (h : Carries config d oldest sealed active f) : ∀ ps ∈ sealed, ps ≠ [] :=
  h.chain.forall_mem fun _ _ hs => hs.1

theorem activeBase_pos (h : Carries config d oldest sealed active f) : 1 ≤ activeBase oldest sealed :=
  h.header.pos

theorem activeBase_le (h : Carries config d oldest sealed active f) :
    activeBase oldest sealed ≤ u64Max := h.header.le_u64Max

theorem oldest_pos (h : Carries config d oldest sealed active f) : 1 ≤ oldest := by
  cases sealed with
  | nil => exact h.activeBase_pos
  | cons ps rest =>
    obtain ⟨-, g, -, hg, -⟩ := h.chain.1
    exact hg.pos

theorem next_le (h : Carries config d oldest sealed active f) :
    activeBase oldest sealed + active.length ≤ u64Max + 1 :=
  h.run.lsn_le (h.activeBase_le.trans (Nat.le_succ _))

theorem le_length (h : Carries config d oldest sealed active f) :
    headerSize + runSize active ≤ f.data.length := h.run.le_file h.header.le_length

theorem getLast?_bases (h : Carries config d oldest sealed active f) :
    (basesOf d).getLast? = some (activeBase oldest sealed) := by
  rw [h.bases, basesFrom_getLast?]

theorem free (h : Carries config d oldest sealed active f) {b : ℕ} (hb : b ≤ u64Max)
    (hlt : activeBase oldest sealed < b) : d.file (filenameFor b) = none := by
  cases hf : d.file (filenameFor b) with
  | none => rfl
  | some g =>
    have hm := mem_basesOf.mpr ⟨hb, g, hf⟩
    rw [h.bases] at hm
    have := (mem_basesFrom_le hm).2
    omega

/-- A name of a segment that is not the active one. -/
theorem name_ne (h : Carries config d oldest sealed active f) {b : ℕ} (hb : b ≤ u64Max)
    (hlt : b < activeBase oldest sealed) :
    filenameFor b ≠ filenameFor (activeBase oldest sealed) :=
  filenameFor_ne hb h.activeBase_le hlt.ne

theorem of_file (h : Carries config d oldest sealed active f) (hd : ∀ n, d'.file n = d.file n) :
    Carries config d' oldest sealed active f where
  bases := (basesOf_congr fun b _ => by rw [hd]).trans h.bases
  chain := h.chain.imp fun b ps _ _ ⟨hne, g, hg, hs⟩ => ⟨hne, g, (hd _).trans hg, hs⟩
  file := (hd _).trans h.file
  header := h.header
  run := h.run

theorem congr (h : Carries config d oldest sealed active f) (hd : SameFiles d d') :
    Carries config d' oldest sealed active f := h.of_file hd.file

theorem chain_of_others (h : Carries config d oldest sealed active f)
    (hd : ∀ m, m ≠ filenameFor (activeBase oldest sealed) → d'.file m = d.file m) :
    ChainFrom (HeldAt config.segmentSize config.maxRecordSize d') oldest sealed := by
  apply h.chain.imp
  rintro b ps _ hle ⟨hne, g, hg, hs, hrun⟩
  have := List.length_pos_iff.mpr hne
  exact ⟨hne, g, (hd _ (h.name_ne hs.le_u64Max (by omega))).trans hg, hs, hrun⟩

/-- The active file may change as long as it holds its records, and more. -/
theorem setActive (h : Carries config d oldest sealed active f)
    (hd : ∀ m, m ≠ filenameFor (activeBase oldest sealed) → d'.file m = d.file m)
    (hf : d'.file (filenameFor (activeBase oldest sealed)) = some f')
    (hh : HeaderOk f'.data (activeBase oldest sealed))
    (hr : Run config.segmentSize config.maxRecordSize f'.data headerSize (activeBase oldest sealed) qs) :
    Carries config d' oldest sealed qs f' where
  bases := by
    rw [← h.bases]
    apply basesOf_congr
    intro b hb
    by_cases hn : filenameFor b = filenameFor (activeBase oldest sealed)
    · rw [hn, hf, h.file]
      simp
    · rw [hd _ hn]
  chain := h.chain_of_others hd
  file := hf
  header := hh
  run := hr

theorem put (h : Carries config d oldest sealed active f)
    (hs : SameBefore (headerSize + runSize active) f f') :
    Carries config (d.put (filenameFor (activeBase oldest sealed)) f') oldest sealed active f' :=
  h.setActive (fun _ hm => Disk.put_file_ne _ _ hm) (Disk.put_file_self _ _ _)
    (h.header.congr (hs.data.mono le_rfl (Nat.le_add_right _ _)))
    (h.run.congr (hs.data.mono (Nat.zero_le _) le_rfl))

theorem store (h : Carries config d oldest sealed active f)
    (hb : Batch config.maxRecordSize (activeBase oldest sealed + active.length) qs)
    (hfit : headerSize + runSize active + runSize qs ≤ config.segmentSize) :
    Carries config (d.put (filenameFor (activeBase oldest sealed))
        (stored (headerSize + runSize active) (activeBase oldest sealed + active.length) qs f))
      oldest sealed (active ++ qs)
      (stored (headerSize + runSize active) (activeBase oldest sealed + active.length) qs f) := by
  have hlen := h.le_length
  have hdata := stored_data (headerSize + runSize active) (activeBase oldest sealed + active.length) qs f
  have hbefore := overwrite_agreeOn_before
    (encodeRun (activeBase oldest sealed + active.length) qs) hlen 0
  have hslice := overwrite_slice_self (encodeRun (activeBase oldest sealed + active.length) qs) hlen
  rw [encodeRun_length] at hslice
  refine h.setActive (fun _ hm => Disk.put_file_ne _ _ hm) (Disk.put_file_self _ _ _) ?_ ?_
  · rw [hdata]
    exact h.header.congr (hbefore.symm.mono le_rfl (Nat.le_add_right _ _))
  · rw [hdata]
    exact (h.run.congr (hbefore.symm.mono (Nat.zero_le _) le_rfl)).append
      (run_of_slice_eq hfit hb.small config.maxRecordSize_lt hb.last hslice)

/-- The next segment, where the active one holds records. -/
theorem next_free (h : Carries config d oldest sealed active f) (hne : active ≠ [])
    (hle : activeBase oldest sealed + active.length ≤ u64Max) :
    d.file (filenameFor (activeBase oldest sealed + active.length)) = none :=
  h.free hle (Nat.lt_add_of_pos_right (List.length_pos_iff.mpr hne))

omit [Crc32c] in
theorem activeBase_roll (oldest : ℕ) (sealed : List (List Bytes)) (active : List Bytes) :
    activeBase oldest (sealed ++ [active]) = activeBase oldest sealed + active.length := by
  simp [activeBase_append]

/-- The names once there is a file for the next segment. -/
theorem bases_next (h : Carries config d oldest sealed active f) (hne : active ≠ [])
    (hle : activeBase oldest sealed + active.length ≤ u64Max)
    (hd : ∀ m, m ≠ filenameFor (activeBase oldest sealed + active.length) → d'.file m = d.file m)
    (hf : d'.file (filenameFor (activeBase oldest sealed + active.length)) = some f') :
    basesOf d' = basesFrom oldest sealed ++ [activeBase oldest sealed + active.length] := by
  have hlt := List.length_pos_iff.mpr hne
  refine basesOf_eq ?_ fun b => ?_
  · rw [← h.bases]
    refine List.pairwise_append.mpr ⟨basesOf_sorted d, List.pairwise_singleton _ _, ?_⟩
    intro b hb c hc
    rw [List.mem_singleton.mp hc]
    have := (mem_basesFrom_le (h.bases ▸ hb)).2
    omega
  · rw [List.mem_append, List.mem_singleton, ← h.bases, mem_basesOf]
    by_cases hb : b = activeBase oldest sealed + active.length
    · subst hb
      simp [hf, hle]
    · constructor
      · rintro (⟨hbu, g, hg⟩ | hb')
        · exact ⟨hbu, g, (hd _ (filenameFor_ne hbu hle hb)).trans hg⟩
        · exact absurd hb' hb
      · rintro ⟨hbu, g, hg⟩
        exact Or.inl ⟨hbu, g, (hd _ (filenameFor_ne hbu hle hb)).symm.trans hg⟩

/-- A further segment with a valid header makes the active one sealed. -/
theorem adopt (h : Carries config d oldest sealed active f) (hne : active ≠ [])
    (hd : ∀ m, m ≠ filenameFor (activeBase oldest sealed + active.length) → d'.file m = d.file m)
    (hf : d'.file (filenameFor (activeBase oldest sealed + active.length)) = some f')
    (hh : HeaderOk f'.data (activeBase oldest sealed + active.length)) :
    Carries config d' oldest (sealed ++ [active]) [] f' := by
  have hlt := List.length_pos_iff.mpr hne
  have hle := hh.le_u64Max
  have hother : ∀ b ≤ u64Max, b < activeBase oldest sealed + active.length →
      d'.file (filenameFor b) = d.file (filenameFor b) := fun b hb hlt' =>
    hd _ (filenameFor_ne hb hle hlt'.ne)
  have hchain : ChainFrom (HeldAt config.segmentSize config.maxRecordSize d') oldest sealed := by
    apply h.chain.imp
    rintro b ps _ hle' ⟨hne', g, hg, hs, hrun⟩
    have := List.length_pos_iff.mpr hne'
    exact ⟨hne', g, (hother b hs.le_u64Max (by omega)).trans hg, hs, hrun⟩
  refine ⟨?_, ChainFrom.append_iff.mpr ⟨hchain, ⟨hne, f, ?_, h.header, h.run⟩, trivial⟩, ?_, ?_, trivial⟩
  · rw [basesFrom_append_singleton]
    exact h.bases_next hne hle hd hf
  · exact (hother _ h.activeBase_le (by omega)).trans h.file
  · rw [activeBase_roll, hf]
  · rw [activeBase_roll]
    exact hh

theorem roll (h : Carries config d oldest sealed active f) (hne : active ≠ [])
    (hle : activeBase oldest sealed + active.length ≤ u64Max)
    (hss : headerSize ≤ config.segmentSize) {created : ℕ}
    (hd : DiffersAt (filenameFor (activeBase oldest sealed + active.length)) d d')
    (hf : d'.file (filenameFor (activeBase oldest sealed + active.length)) =
      some (freshSegment (activeBase oldest sealed + active.length) config.segmentSize created)) :
    Carries config d' oldest (sealed ++ [active]) []
      (freshSegment (activeBase oldest sealed + active.length) config.segmentSize created) := by
  have hpos := h.activeBase_pos
  have hfresh : Written config.segmentSize config.maxRecordSize
      (freshSegment (activeBase oldest sealed + active.length) config.segmentSize created).data
      (activeBase oldest sealed + active.length) [] :=
    freshSegment_written (by omega) hle hss
  exact h.adopt hne hd.others hf hfresh.header

theorem drop {xs ys : List (List Bytes)} (h : Carries config d oldest (xs ++ ys) active f)
    (hnone : ∀ b ∈ (basesFrom oldest (xs ++ ys)).take xs.length, d'.file (filenameFor b) = none)
    (hrest : ∀ n, (∀ b ∈ (basesFrom oldest (xs ++ ys)).take xs.length, n ≠ filenameFor b) →
      d'.file n = d.file n) : Carries config d' (activeBase oldest xs) ys active f := by
  obtain ⟨hbases, hkeep⟩ := basesOf_drop h.ne_nil h.bases hnone hrest
  have hle := h.activeBase_le
  have hfile := h.file
  have hheader := h.header
  have hrun := h.run
  rw [activeBase_append] at hle hfile hheader hrun
  refine ⟨hbases, ?_, by rw [hkeep _ hle (le_activeBase _ _), hfile], hheader, hrun⟩
  apply (ChainFrom.append_iff.mp h.chain).2.imp
  rintro b ps hb _ ⟨hne, g, hg, hs, hr⟩
  exact ⟨hne, g, by rw [hkeep b hs.le_u64Max hb, hg], hs, hr⟩

end Carries

end OpenWal
