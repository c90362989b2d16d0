import OpenWal.Theory.CalmCalls
import OpenWal.Theory.SegmentRecovery

namespace OpenWal
open ByteSeq Posix CrashProg

section

variable [Crc32c]

/-- The records of a segment: the longest run behind the header. -/
structure IsAccepted (ss mx : ℕ) (file : Bytes) (base : ℕ) (ps : List Bytes) : Prop where
  run : Run ss mx file headerSize base ps
  longest : ∀ qs, Run ss mx file headerSize base qs → qs <+: ps

open Classical in
/-- What is answered for a segment whose records end at `x`, before number `e`, and what
becomes of the disk. -/
noncomputable def verdict (ss mx base : ℕ) (isActive : Bool) (d : Disk) (name : FileName) (f : File)
    (x e : ℕ) : Outcome WalError SegmentRecovery × World :=
  let truncated : Outcome WalError SegmentRecovery × World :=
    (.ret ⟨e - 1, x, .truncatedAt base x⟩, ⟨d.put name (zeroed x ss f), []⟩)
  if CleanAt ss f.data x then (.ret ⟨e - 1, x, .clean⟩, ⟨d, []⟩)
  else if u64Max < e then
    if isActive ∧ f.data.length < x + 20 ∧ ZeroOn f.data x f.data.length then truncated
    else (.err (.corruption base x "data after the last LSN (u64::MAX)"), ⟨d, []⟩)
  else if ¬ isActive then
    (.err (.corruption base x "invalid record in sealed segment"), ⟨d, []⟩)
  else if Continues ss mx f.data x e then (.err (.tornMidLog base x), ⟨d, []⟩)
  else truncated

variable {ss mx base : ℕ} {file : Bytes} {ps qs : List Bytes}

theorem IsAccepted.stops (h : IsAccepted ss mx file base ps) :
    Stops ss mx file (headerSize + runSize ps) (base + ps.length) := by
  intro p hp
  have hlong := (h.longest (ps ++ [p]) (h.run.append ⟨hp, trivial⟩)).length_le
  simp at hlong

theorem exists_isAccepted (ss mx : ℕ) (file : Bytes) (base : ℕ) : ∃ ps, IsAccepted ss mx file base ps := by
  obtain ⟨ps, hr, hs⟩ := Run.exists_stops ss mx file headerSize base
  exact ⟨ps, hr, fun qs => hr.prefix_of_stops hs⟩

theorem IsAccepted.unique (h : IsAccepted ss mx file base ps) (h' : IsAccepted ss mx file base qs) :
    ps = qs :=
  (h'.longest ps h.run).eq_of_length_le (h.longest qs h'.run).length_le

/-- What zeroing makes of a file of any length: zeros in `[x, ss)`, every other byte the
file has as it was, and all of it synced. -/
structure LeavesZeroed (x ss : ℕ) (f : File) : Prop where
  zero : ZeroOn (zeroed x ss f).data x ss
  others : ∀ i, i < f.data.length → i < x ∨ ss ≤ i → (zeroed x ss f).data[i]? = f.data[i]?
  synced : (zeroed x ss f).SyncedOn 0 ss

omit [Crc32c] in
theorem leavesZeroed (f : File) {x : ℕ} (hx : x < ss) : LeavesZeroed x ss f := by
  have hne : zeros (ss - x) ≠ [] := by
    intro h
    have := congrArg List.length h
    simp only [zeros_length, List.length_nil] at this
    omega
  obtain ⟨p, hp⟩ : ∃ p, p = f.data ++ zeros (x - f.data.length) := ⟨_, rfl⟩
  have hpl : x ≤ p.length := by
    rw [hp, List.length_append, zeros_length]
    omega
  have hdata : (zeroed x ss f).data = overwrite p x (zeros (ss - x)) := by
    rw [zeroed, File.sync_data, File.write_data, overwrite_pad hne, hp]
  have hlen : ss ≤ (zeroed x ss f).data.length := by
    rw [hdata, overwrite_length _ hpl, zeros_length]
    omega
  refine ⟨fun i hi hlt => ?_, fun i hi ho => ?_, File.sync_syncedOn 0 hlen⟩
  · rw [hdata, overwrite_getElem? _ hpl, zeros_length, if_pos (by omega), zeros_getElem?,
      if_pos (by omega)]
  · rw [hdata, overwrite_getElem? _ hpl, zeros_length, if_neg (by omega), hp,
      List.getElem?_append_left hi]

/-- Recovery of one segment decides as the classification says: over any bytes, of any
length, it accepts the longest run and answers for what follows. -/
theorem recoverSegment_eq_verdict {d : Disk} {name : FileName} {f : File} {isActive : Bool}
    (hf : d.file name = some f) (hb : 1 ≤ base ∧ base ≤ u64Max) (hss : ss < 2 ^ 64) :
    ∃ ps, IsAccepted ss mx f.data base ps ∧
      recoverSegment name f.data base isActive ss mx ⟨d, []⟩ =
        verdict ss mx base isActive d name f (headerSize + runSize ps) (base + ps.length) ∧
      (¬ CleanAt ss f.data (headerSize + runSize ps) → LeavesZeroed (headerSize + runSize ps) ss f) := by
  obtain ⟨ps, hps⟩ := exists_isAccepted ss mx f.data base
  refine ⟨ps, hps, ?_, fun hc => leavesZeroed f (by have := room_of_not_cleanAt hc; omega)⟩
  have hrun := hps.run
  have hstops := hps.stops
  set x := headerSize + runSize ps with hx
  set e := base + ps.length with he
  -- clean, torn or fatal, in the order in which the verdict asks
  by_cases hc : CleanAt ss f.data x
  · rw [recoverSegment_of_cleanAt name isActive hrun hb.2 hc, verdict, if_pos hc]
    rfl
  by_cases ht : isActive = true ∧ TornAt ss mx f.data x e
  · obtain ⟨rfl, ht⟩ := ht
    have hroom := room_of_not_cleanAt hc
    rw [recoverSegment_of_tornAt name hrun hb.2 hss hstops ht,
      Prog.seq_of_ret (zeroToEof_calm hf (show x < ss by omega)), verdict, if_neg hc]
    by_cases hcap : u64Max < e
    · rw [if_pos hcap, if_pos ⟨rfl, ht.2.2 hcap⟩]
      rfl
    · rw [if_neg hcap, if_neg (by simp), if_neg (ht.2.1 (Nat.not_lt.mp hcap))]
      rfl
  · have hnt : isActive = true → ¬ TornAt ss mx f.data x e := fun ha h => ht ⟨ha, h⟩
    rw [recoverSegment_of_fatal name isActive hrun hb.2 hss hstops hc hnt, verdict, if_neg hc,
      fatalError]
    by_cases hcap : u64Max < e
    · rw [if_pos hcap, if_neg (Nat.not_le.mpr hcap), if_neg]
      · rfl
      · rintro ⟨ha, hshort⟩
        exact hnt ha ⟨hc, fun h => absurd h (Nat.not_le.mpr hcap), fun _ => hshort⟩
    · rw [if_neg hcap, if_pos (Nat.not_lt.mp hcap)]
      cases isActive with
      | false => simp [hx]
      | true =>
        have hcont : Continues ss mx f.data x e := by
          by_contra hn
          exact hnt rfl ⟨hc, fun _ => hn, fun h => absurd h hcap⟩
        rw [if_pos rfl, if_neg (by simp), if_pos hcont]
        rfl

end

def stubDisk : Disk := (Disk.fresh true fun _ => 0).put (filenameFor 1) ⟨[1, 2, 3], fun _ => false⟩

theorem recoverSegment_eq_verdict_stub :
    ∃ ps, IsAccepted 136 45 [1, 2, 3] 1 ps ∧
      recoverSegment (filenameFor 1) [1, 2, 3] 1 true 136 45 ⟨stubDisk, []⟩ =
        verdict 136 45 1 true stubDisk (filenameFor 1) ⟨[1, 2, 3], fun _ => false⟩
          (headerSize + runSize ps) (1 + ps.length) := by
  exact (recoverSegment_eq_verdict
    (Disk.put_file_self (filenameFor 1) ⟨[1, 2, 3], fun _ => false⟩ (Disk.fresh true fun _ => 0))
    (show 1 ≤ 1 ∧ 1 ≤ u64Max by decide) (show 136 < 2 ^ 64 by decide)).imp fun ps h => ⟨h.1, h.2.1⟩

end OpenWal
