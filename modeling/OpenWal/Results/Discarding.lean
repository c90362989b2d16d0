import OpenWal.Theory.FailingOpen

namespace OpenWal
open ByteSeq Posix CrashProg

section

variable [Crc32c]

def NoFrames (config : WalConfig) (file : Bytes) : Prop :=
  ∀ k lsn p, ¬ FrameAt config.segmentSize config.maxRecordSize file (headerSize + 8 * k) lsn p

/-- What `open` unlinks holds no record, whatever the seed and the fates of its calls. -/
def UnlinksNoRecord (config : WalConfig) (d : Disk) : Prop :=
  ∀ seed fates unlinked,
    (openSeeded config seed ⟨d, fates⟩).2.disk.unlinked = d.unlinked ++ unlinked →
      ∀ r ∈ unlinked, NoFrames config r.2.data

variable {config : WalConfig} {d : Disk}

/-- `open` unlinks an incomplete highest segment or nothing. -/
theorem openSeeded_unlinked (config : WalConfig) (seed : ℕ) (w : World) :
    (openSeeded config seed w).2.disk.unlinked = w.disk.unlinked ∨
      config.Valid ∧ w.disk.locked = false ∧ ∃ base f, (basesOf w.disk).getLast? = some base ∧
        w.disk.file (filenameFor base) = some f ∧
        Incomplete config.segmentSize config.maxRecordSize f.data base ∧
        (openSeeded config seed w).2.disk.unlinked = w.disk.unlinked ++ [(filenameFor base, f)] := by
  set d := w.disk
  set U : List (FileName × File) → Prop := fun us => us = d.unlinked ∨ config.Valid ∧
    d.locked = false ∧ ∃ base f, (basesOf d).getLast? = some base ∧
      d.file (filenameFor base) = some f ∧
      Incomplete config.segmentSize config.maxRecordSize f.data base ∧
      us = d.unlinked ++ [(filenameFor base, f)]
  have hdropped : config.Valid → d.locked = false → ∀ e, Dropped config d e → U e.unlinked := by
    rintro hv hl e ⟨base, f, hb, hf, hi, hs⟩
    exact Or.inr ⟨hv, hl, base, f, hb, hf, hi, by rw [hs.unlinked, Disk.remove_unlinked hf]⟩
  have hleft : config.Valid → d.locked = false → ∀ d₀, Discards config (acquired d) d₀ →
      U d₀.unlinked := by
    intro hv hl d₀ hdis
    have hsame : SameFiles d (acquired d) := ⟨fun _ => rfl, rfl⟩
    rcases hdis.dropped with rfl | ⟨base, f, hb, hf, hi, hs⟩
    · exact Or.inl rfl
    · exact hdropped hv hl d₀ ⟨base, f, hb, hf, hi, (hsame.remove _).trans hs⟩
  have hends := openSeeded_triple (I := fun e => U e.unlinked) seed
    (fun e e' hs (h : U e.unlinked) => (hs.unlinked ▸ h : U e'.unlinked)) (Or.inl rfl) hdropped
    (fun hv hl d₀ d' hdis _ hdiff _ => by rw [hdiff.unlinked]; exact hleft hv hl d₀ hdis)
    (fun hv hl d₀ base f ps d' hdis _ _ _ hz => by rw [hz.1.1.unlinked]; exact hleft hv hl d₀ hdis)
    w rfl
  rcases hr : openSeeded config seed w with ⟨o, w'⟩
  rw [hr] at hends
  cases o with
  | ret a => exact hends
  | err e => exact hends.1
  | crashed => exact hends
  | diverged => exact hends.elim

/-- An unlocked directory with an incomplete highest segment loses it. -/
theorem openSeeded_unlinks {base seed : ℕ} {f : File} (hv : config.Valid) (hs : 1 ≤ seed)
    (hl : d.locked = false) (hb : (basesOf d).getLast? = some base)
    (hf : d.file (filenameFor base) = some f)
    (hi : Incomplete config.segmentSize config.maxRecordSize f.data base) :
    (openSeeded config seed ⟨d, []⟩).2.disk.unlinked = d.unlinked ++ [(filenameFor base, f)] := by
  have hdis : Discards config (acquired d) ((acquired d).remove (filenameFor base)).syncDir :=
    .drop hb hf hi
  set d₀ := ((acquired d).remove (filenameFor base)).syncDir with hd₀
  have hunlinked : d₀.unlinked = d.unlinked ++ [(filenameFor base, f)] := by
    rw [hd₀, Disk.syncDir_unlinked]
    exact Disk.remove_unlinked hf
  have hends := recoverFound_triple (I := fun e => e.unlinked = d₀.unlinked) config seed rfl
    (fun d' _ hdiff _ => hdiff.unlinked) (fun base f ps d' _ _ _ hz => hz.1.1.unlinked) ⟨d₀, []⟩ rfl
  rw [← recoverDirectory_of_discards hdis seed] at hends
  rw [openSeeded_locked hv hs hl, Prog.bind_run, Prog.andThen, Prog.onError]
  rcases hr : recoverDirectory config seed ⟨acquired d, []⟩ with ⟨o, w⟩
  rw [hr] at hends
  cases o with
  | ret a => exact (hends : w.disk.unlinked = _).trans hunlinked
  | err e => exact (hends : w.disk.unlinked = _).trans hunlinked
  | crashed => exact (hends : w.disk.unlinked = _).trans hunlinked
  | diverged => exact hends.elim

/-- The discard loses no record exactly where the highest segment is not one with a
damaged header, an empty first slot and a record behind it. -/
theorem unlinksNoRecord_iff : UnlinksNoRecord config d ↔
    (config.Valid → d.locked = false → ∀ base f, (basesOf d).getLast? = some base →
      d.file (filenameFor base) = some f → headerSize ≤ f.data.length → ¬ HeaderOk f.data base →
      (∀ lsn p, ¬ FrameAt config.segmentSize config.maxRecordSize f.data headerSize lsn p) →
      NoFrames config f.data) := by
  constructor
  · intro h hv hl base f hb hf hlen hh hfirst
    have hu := openSeeded_unlinks hv le_rfl hl hb hf (Or.inr ⟨hlen, hh, hfirst⟩)
    exact h 1 [] _ hu _ List.mem_cons_self
  · intro h seed fates unlinked hu r hr
    rcases openSeeded_unlinked config seed ⟨d, fates⟩ with hsame | ⟨hv, hl, base, f, hb, hf, hi, hnew⟩
    · rw [hsame] at hu
      obtain rfl : unlinked = [] := List.append_cancel_left (hu.symm.trans (List.append_nil _).symm)
      simp at hr
    · obtain rfl := List.append_cancel_left (hu.symm.trans hnew)
      obtain rfl := List.mem_singleton.mp hr
      rcases hi with hnil | ⟨hlen, hh, hfirst⟩
      · intro k lsn p hframe
        have hle := hframe.le_file
        have := framedSize_pos p.length
        rw [hnil, List.length_nil] at hle
        omega
      · exact h hv hl base f hb hf hlen hh hfirst

end

/-- A segment whose header and first slot read zero and whose second slot holds a record. -/
def zeroedHead : Disk := .holding [(filenameFor 1, zeros 88 ++ encodeFrame 2 [] ++ zeros 24)]

/-- The record is unlinked with its segment. -/
theorem zeroedHead_unlinked : ¬ UnlinksNoRecord tightConfig zeroedHead := by
  intro h
  set f : File := ⟨zeros 88 ++ encodeFrame 2 [] ++ zeros 24, fun _ => false⟩
  have hf : zeroedHead.file (filenameFor 1) = some f := AList.lookup_insert _
  have hb : (basesOf zeroedHead).getLast? = some 1 := by decide +kernel
  have hu := openSeeded_unlinks (by decide : tightConfig.Valid) (le_refl 1) rfl hb hf
    (Or.inr ⟨by decide +kernel, ?_, ?_⟩)
  · refine h 1 [] _ hu _ List.mem_cons_self 3 2 [] ?_
    exact scanAt_eq_record (n := 24) (by decide +kernel) |>.2
  · rintro ⟨-, hd⟩
    revert hd
    decide +kernel
  · intro lsn p hf
    have hc : scanAt 136 45 (zeros 88 ++ encodeFrame 2 [] ++ zeros 24) headerSize = .sentinel := by
      decide +kernel
    exact hf.not_cleanAt (scanAt_eq_sentinel_iff.mp hc)

end OpenWal
