import OpenWal.Theory.Verdicts

namespace OpenWal
open ByteSeq Posix CrashProg

variable {d : Disk} {b x y e pos : ℕ} {f g : File} {file file' : Bytes}

theorem basesOf_put (hb : b ≤ u64Max) (hf : d.file (filenameFor b) = some f) (g : File) :
    basesOf (d.put (filenameFor b) g) = basesOf d :=
  basesOf_setTo hb hf (setTo_put d _ g)

structure DiffersIn (f g : Bytes) (x y : ℕ) : Prop where
  length : g.length = f.length
  before : AgreeOn f g 0 x
  behind : ∀ z, AgreeOn f g y z

variable [Crc32c] {config : WalConfig} {ss mx lsn : ℕ} {p q : Bytes} {ps qs rs : List Bytes}

/-- The records before a damaged one, once it holds no record with its number. -/
theorem DiffersIn.holds (hd : DiffersIn f.data g.data (headerSize + runSize qs) x)
    (hs : SegmentHolds config.segmentSize config.maxRecordSize f.data b (qs ++ ps))
    (hno : Stops config.segmentSize config.maxRecordSize g.data (headerSize + runSize qs)
      (b + qs.length)) :
    SegmentHolds config.segmentSize config.maxRecordSize g.data b qs :=
  ⟨hs.header.congr (hd.before.mono le_rfl (Nat.le_add_right _ _)),
    (Run.append_iff.mp hs.run).1.congr (hd.before.mono (Nat.zero_le _) le_rfl), hno⟩

/-- The record behind a damaged one is seen by the forward scan. -/
theorem DiffersIn.continues (hd : DiffersIn f.data g.data x (x + framedSize p.length))
    (hr : Run config.segmentSize config.maxRecordSize f.data x e (p :: q :: rs)) :
    Continues config.segmentSize config.maxRecordSize g.data x e := by
  have hp := hr.1.le_max
  have hsize := framedSize_le p.length
  have hmod := framedSize_mod p.length
  have hmin := le_framedSize p.length
  have hq := hr.2.1.congr (hd.behind _)
  have hk : x + 8 + 8 * (framedSize p.length / 8 - 1) = x + framedSize p.length := by omega
  refine ⟨framedSize p.length / 8 - 1, e + 1, q, ?_, Nat.le_succ e, by rwa [hk]⟩
  simp only [scanBound]
  omega

structure AlteredAt (f g : Bytes) (pos : ℕ) : Prop where
  length : g.length = f.length
  others : ∀ i, i ≠ pos → f[i]? = g[i]?

namespace AlteredAt

variable {f g : Bytes}

omit [Crc32c] in
theorem of_overwrite (v : UInt8) (h : pos < f.length) : AlteredAt f (overwrite f pos [v]) pos where
  length := by
    rw [overwrite_length _ h.le, List.length_singleton]
    omega
  others i hi := by
    rw [overwrite_getElem? _ h.le, if_neg (by simp only [List.length_singleton]; omega)]

omit [Crc32c] in
theorem before (h : AlteredAt f g pos) (x : ℕ) (hy : y ≤ pos) : AgreeOn f g x y :=
  fun i _ hi => h.others i (by omega)

omit [Crc32c] in
theorem behind (h : AlteredAt f g pos) (hx : pos < x) (y : ℕ) : AgreeOn f g x y :=
  fun i hi _ => h.others i (by omega)

omit [Crc32c] in
theorem differsIn (h : AlteredAt f g pos) (hx : x ≤ pos) (hy : pos < y) : DiffersIn f g x y :=
  ⟨h.length, h.before 0 hx, h.behind hy⟩

/-- A record's number and its type are never zero together, and one byte cannot clear both. -/
theorem not_zeroOn (h : AlteredAt f g pos) (hf : FrameAt ss mx f x e p) (he : 1 ≤ e) :
    ¬ ZeroOn g x (x + 20) := by
  intro hz
  have hsize := le_framedSize p.length
  have hvalid := hf.valid
  by_cases hpos : pos = x + recTypeOff
  · have hsame : AgreeOn g f (x + 8) (x + 16) := (h.before _ (by rw [hpos, recTypeOff])).symm
    have hzero := ((hz.mono (Nat.le_add_right x 8) (by omega)).congr hsame).slice_eq
    have hlsn := hvalid.lsnField
    rw [slice_slice _ (by rw [lsnOff]; omega), lsnOff, hzero, leNat_zeros] at hlsn
    omega
  · have htype := hvalid.recType
    rw [List.getD_eq_getElem?_getD, slice_getElem?, if_pos (by rw [recTypeOff]; omega),
      h.others _ (Ne.symm hpos), hz _ (Nat.le_add_right _ _) (by rw [recTypeOff]; omega)] at htype
    exact absurd htype (by decide)

end AlteredAt

/-- Neither the header nor a frame passes its check where the byte at `pos` is part of it. -/
structure Detected (config : WalConfig) (file : Bytes) (b pos : ℕ) : Prop where
  header : pos < headerSize → ¬ HeaderOk file b
  frame : ∀ x lsn p, FrameAt config.segmentSize config.maxRecordSize file x lsn p → x ≤ pos →
    x + framedSize p.length ≤ pos

/-- A file whose first bytes read neither as a header nor as a record. -/
theorem detected_first (hh : (decodeHeader (file.take headerSize)).toOption = none) {de : DecodeError}
    (hs : scanAt config.segmentSize config.maxRecordSize file 0 = .invalid de) :
    Detected config file b 0 where
  header _ h := by
    rw [h.2] at hh
    exact Option.some_ne_none _ hh
  frame x lsn p hf hx := by
    obtain rfl := Nat.le_zero.mp hx
    exact absurd (hs.symm.trans hf) (by simp)

section

variable {f g : Bytes}

/-- No frame appears. -/
theorem Detected.frameAt (hd : Detected config g b pos) (ha : AlteredAt f g pos)
    (h : FrameAt config.segmentSize config.maxRecordSize g x lsn p) :
    FrameAt config.segmentSize config.maxRecordSize f x lsn p := by
  by_cases hx : x ≤ pos
  · exact h.congr (ha.before x (hd.frame x lsn p h hx)).symm
  · exact h.congr (ha.behind (Nat.lt_of_not_le hx) _).symm

theorem Detected.run (hd : Detected config g b pos) (ha : AlteredAt f g pos)
    (h : Run config.segmentSize config.maxRecordSize g x e ps) :
    Run config.segmentSize config.maxRecordSize f x e ps := by
  induction ps generalizing x e with
  | nil => trivial
  | cons p ps ih => exact ⟨hd.frameAt ha h.1, ih h.2⟩

/-- An altered segment keeps a prefix of its records. -/
theorem Detected.isPrefix (hd : Detected config g b pos) (ha : AlteredAt f g pos)
    (hf : SegmentHolds config.segmentSize config.maxRecordSize f b ps)
    (hg : SegmentHolds config.segmentSize config.maxRecordSize g b qs) : qs <+: ps :=
  hf.run.prefix_of_stops hf.stops (hd.run ha hg.run)

end

/-- Where an altered segment ends more than one record early, its end is neither clean nor torn. -/
theorem AlteredAt.not_accepted (ha : AlteredAt f.data g.data pos)
    (hf : SegmentHolds config.segmentSize config.maxRecordSize f.data b (qs ++ p :: q :: rs))
    (hg : SegmentHolds config.segmentSize config.maxRecordSize g.data b qs) {ts : TailState} {g' : File} :
    ¬ TailOk config.segmentSize config.maxRecordSize g b (headerSize + runSize qs) (b + qs.length) ts
      g' := by
  have hrun := (Run.append_iff.mp hf.run).2
  have hframe := hrun.1
  have hfit := hframe.le_segment
  have hmin := le_framedSize p.length
  have hpos := hf.header.pos
  -- the byte lies in the frame that no longer holds
  have hin : headerSize + runSize qs ≤ pos ∧ pos < headerSize + runSize qs + framedSize p.length := by
    by_contra hout
    have hagree : AgreeOn f.data g.data (headerSize + runSize qs)
        (headerSize + runSize qs + framedSize p.length) := by
      rcases Nat.lt_or_ge pos (headerSize + runSize qs) with hlt | hge
      · exact ha.behind hlt _
      · exact ha.before _ (by omega)
    exact hg.stops p (hframe.congr hagree)
  intro ht
  cases ht with
  | clean hc =>
    rcases hc with hlt | hz
    · omega
    · exact ha.not_zeroOn hframe (by omega) hz
  | torn ht => exact ht.2.1 hframe.lsn_le ((ha.differsIn hin.1 hin.2).continues hrun)

end OpenWal
