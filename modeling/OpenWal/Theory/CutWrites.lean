import OpenWal.Theory.CrashStates
import OpenWal.Theory.Written

namespace OpenWal
open ByteSeq Posix CrashProg

variable [Crc32c]

/-- Every `open` recovers the records `old` and the first ones of `new`. -/
def RecoversPrefix (config : WalConfig) (d : Disk) (oldest : ℕ) (old new : List Bytes) : Prop :=
  ∀ seed, (Op.openLog seed).Legal → ∃ wal rep i, i ≤ new.length ∧
    Recovers config d seed wal rep (numbered oldest (old ++ new.take i)) ∧
    rep.durableLsn + 1 = oldest + (old ++ new.take i).length

/-- At `x` there are the first ones of the records `new`, numbered from `e`, and behind them
nothing that keeps the segment from being recovered. -/
def WholePrefix (ss mx : ℕ) (data : Bytes) (x e : ℕ) (new : List Bytes) : Prop :=
  ∃ i ≤ new.length, Run ss mx data x e (new.take i) ∧ Inert ss mx data (x + runSize (new.take i)) (e + i)

omit [Crc32c] in
theorem reportOn_durable {oldest : ℕ} {sealed : List (List Bytes)} (h : 1 ≤ activeBase oldest sealed)
    (active : List Bytes) (ts : TailState) :
    (reportOn oldest sealed active ts).durableLsn + 1 = oldest + (sealed.flatten ++ active).length := by
  simp only [reportOn, List.length_append, activeBase] at h ⊢
  omega

section

variable {config : WalConfig} {d d' : Disk} {oldest : ℕ} {sealed : List (List Bytes)}
  {active new : List Bytes} {f g : File} (h : Carries config d oldest sealed active f)
  (hothers : ∀ m, m ≠ filenameFor (activeBase oldest sealed) → d'.file m = d.file m)
  (hg : d'.file (filenameFor (activeBase oldest sealed)) = some g)
  (hbefore : AgreeOn f.data g.data 0 (headerSize + runSize active))

include h hothers hg hbefore

theorem Carries.rewritten (hrun : Run config.segmentSize config.maxRecordSize g.data
    (headerSize + runSize active) (activeBase oldest sealed + active.length) new) :
    Carries config d' oldest sealed (active ++ new) g := by
  apply h.setActive hothers hg
  · exact h.header.congr (hbefore.mono le_rfl (Nat.le_add_right _ _))
  · exact (h.run.congr (hbefore.mono (Nat.zero_le _) le_rfl)).append hrun

omit hg hbefore in
theorem Carries.cleanSealed_rewritten :
    CleanSealed config d' oldest sealed ↔ CleanSealed config d oldest sealed := by
  have hfile : ∀ b ≤ u64Max, b < activeBase oldest sealed →
      d'.file (filenameFor b) = d.file (filenameFor b) := fun b hb hlt => hothers _ (h.name_ne hb hlt)
  have hchain := h.chain
  constructor
  · intro hc
    refine (hchain.and hc).imp ?_
    rintro b ps - hle ⟨⟨hne, g', hg', hh, -⟩, hclean⟩ f' hf'
    have := List.length_pos_iff.mpr hne
    exact hclean f' ((hfile b hh.le_u64Max (by omega)).trans hf')
  · intro hc
    refine (hchain.and hc).imp ?_
    rintro b ps - hle ⟨⟨hne, g', hg', hh, -⟩, hclean⟩ f' hf'
    have := List.length_pos_iff.mpr hne
    exact hclean f' ((hfile b hh.le_u64Max (by omega)).symm.trans hf')

/-- The records are recovered, with the first new ones: exactly where the sealed segments end
well, and so do these in the active one. -/
theorem Carries.recoversPrefix_iff (hv : config.Valid) (hl : d'.locked = false) :
    RecoversPrefix config d' oldest (sealed.flatten ++ active) new ↔ CleanSealed config d oldest sealed ∧
      WholePrefix config.segmentSize config.maxRecordSize g.data (headerSize + runSize active)
        (activeBase oldest sealed + active.length) new := by
  have hpos := h.activeBase_pos
  have hnext : ∀ qs : List Bytes, Run config.segmentSize config.maxRecordSize g.data
      (headerSize + runSize active) (activeBase oldest sealed + active.length) qs →
      Discards config (acquired d') (acquired d') := by
    intro qs hqs
    have hc := h.rewritten hothers hg hbefore hqs
    exact .keep hc.getLast?_bases hc.file hc.header
  rw [← h.cleanSealed_rewritten hothers]
  constructor
  · intro hrec
    obtain ⟨wal, rep, i, hi, hr, -⟩ := hrec 1 ⟨le_rfl, by decide⟩
    have hc : Carries config (acquired d') oldest sealed active g := by
      have hsame : Carries config d' oldest sealed (active ++ []) g :=
        h.rewritten hothers hg hbefore trivial
      rw [List.append_nil] at hsame
      exact hsame.of_file fun _ => rfl
    -- what was recovered and the records asked for are numbered alike, so they agree
    obtain ⟨qs, hrs, -, hclean, hrun, hinert⟩ := hc.of_recovers (by decide) (hnext [] trivial) hr
    rw [List.append_assoc] at hrs
    obtain rfl := Carries.eq_of_numbered hrs
    refine ⟨hclean, i, hi, (Run.append_iff.mp hrun).2, ?_⟩
    rwa [InertActive, runSize_append, List.length_append, ← Nat.add_assoc, ← Nat.add_assoc,
      List.length_take_of_le hi] at hinert
  · rintro ⟨hclean, i, hi, hrun, hinert⟩ seed ⟨h1, -⟩
    have hc : Carries config (acquired d') oldest sealed (active ++ new.take i) g :=
      (h.rewritten hothers hg hbefore hrun).of_file fun _ => rfl
    have hactive : InertActive config oldest sealed (active ++ new.take i) g := by
      rwa [InertActive, runSize_append, List.length_append, ← Nat.add_assoc, ← Nat.add_assoc,
        List.length_take_of_le hi]
    obtain ⟨ts, hr⟩ := hc.recovers hv h1 hl (hnext _ hrun) hclean hactive
    rw [← List.append_assoc] at hr
    refine ⟨_, _, i, hi, hr, ?_⟩
    rw [reportOn_durable hpos, List.append_assoc]

end

/-- What a segment shows from a record's place to its end, which is `room` bytes away, where
only `k` bytes of the record's frame were stored. -/
def cutShort (e : ℕ) (p : Bytes) (room k : ℕ) : Bytes := (encodeFrame e p).take k ++ zeros (room - k)

def Decoded.continues (e : ℕ) : Decoded → Bool
  | .record lsn _ _ => decide (e ≤ lsn)
  | _ => false

/-- Wherever the frame is cut, no record numbered `e` or higher seems to start inside it, unless
the record itself is still whole or its header is all zeros. -/
def CutHarmless (mx e : ℕ) (p : Bytes) (room : ℕ) : Prop :=
  ∀ k < framedSize p.length, ∀ j < framedSize p.length / 8,
    (decode ((cutShort e p room k).drop (8 * j)) mx).continues e = true →
    decode (cutShort e p room k) mx = .record e p (framedSize p.length) ∨
      decode (cutShort e p room k) mx = .sentinel

instance (mx e : ℕ) (p : Bytes) (room : ℕ) : Decidable (CutHarmless mx e p room) :=
  inferInstanceAs (Decidable (∀ k < framedSize p.length, ∀ j < framedSize p.length / 8, _ → _))

def CutsHarmless (ss mx : ℕ) : ℕ → ℕ → List Bytes → Prop
  | _, _, [] => True
  | x, e, p :: ps =>
    let x := if x + framedSize p.length ≤ ss then x else headerSize
    CutHarmless mx e p (ss - x) ∧ CutsHarmless ss mx (x + framedSize p.length) (e + 1) ps

variable {ss mx x e j : ℕ} {data : Bytes} {p q : Bytes} {ps qs : List Bytes}

theorem cutsHarmless_append (hfit : x + runSize ps ≤ ss) : CutsHarmless ss mx x e (ps ++ qs) ↔
    CutsHarmless ss mx x e ps ∧ CutsHarmless ss mx (x + runSize ps) (e + ps.length) qs := by
  induction ps generalizing x e with
  | nil => simp [CutsHarmless]
  | cons p ps ih =>
    rw [runSize_cons] at hfit
    have hp : x + framedSize p.length ≤ ss := by omega
    simp only [List.cons_append, CutsHarmless, if_pos hp, ih (x := x + framedSize p.length) (by omega),
      runSize_cons, List.length_cons, and_assoc, Nat.add_assoc, Nat.add_comm 1]

/-- A record that does not fit goes where it would go first in a segment. -/
theorem cutsHarmless_roll (hlt : ss < x + framedSize p.length) :
    CutsHarmless ss mx x e (p :: ps) ↔ CutsHarmless ss mx headerSize e (p :: ps) := by
  simp only [CutsHarmless, if_neg (Nat.not_le.mpr hlt), ite_self]

theorem laidAt_overwrite (hz : ZeroOn data x ss) (hx : x ≤ data.length) (hfit : x + runSize qs ≤ ss)
    (k : ℕ) :
    LaidAt ss (overwrite data x ((encodeRun e qs).take k)) x e qs (min k (runSize qs)) := by
  set b := (encodeRun e qs).take k with hb
  have hbl : b.length = min k (runSize qs) := by rw [hb, List.length_take, encodeRun_length]
  refine ⟨hfit, Nat.min_le_right _ _, ?_, ?_⟩
  · rw [← hbl, overwrite_slice_self b hx, hbl, hb, List.take_eq_take_min, encodeRun_length]
  · have hafter := overwrite_agreeOn_after b hx ss
    rw [hbl] at hafter
    exact (hz.mono (Nat.le_add_right _ _) le_rfl).congr hafter.symm

omit [Crc32c] in
theorem visible_drop (ss : ℕ) (data : Bytes) (x n : ℕ) :
    (visible ss data x).drop n = visible ss data (x + n) := List.drop_drop

namespace LaidAt

/-- Where the first record was cut. -/
theorem visible_eq_cutShort (h : LaidAt ss data x e (q :: qs) j) (hj : j < framedSize q.length) :
    visible ss data x = cutShort e q (ss - x) j := by
  have hfits := h.fits
  rw [runSize_cons] at hfits
  apply List.ext_getElem?
  intro i
  have hl : ((encodeFrame e q).take j).length = j := by
    rw [List.length_take_of_le (by rw [encodeFrame_length]; omega)]
  rw [visible_getElem?, cutShort, List.getElem?_append, hl]
  by_cases hi : i < j
  · have hbyte := h.getElem?_of_lt hi
    rw [encodeRun_cons, List.getElem?_append_left (by rw [encodeFrame_length]; omega)] at hbyte
    rw [if_pos (by omega), if_pos hi, List.getElem?_take_of_lt hi, hbyte]
  · rw [if_neg hi, zeros_getElem?]
    by_cases hin : x + i < ss
    · rw [if_pos hin, if_pos (by omega), h.rest _ (by omega) hin]
    · rw [if_neg hin, if_neg (by omega)]

/-- What is whole of the batch comes first, and is recovered: by induction on the batch, where
the record that was cut, if there is one, is the last one looked at. -/
theorem wholePrefix (h : LaidAt ss data x e qs j) (hb : Batch mx e qs) (hmx : mx < 2 ^ 32)
    (hc : CutsHarmless ss mx x e qs) : WholePrefix ss mx data x e qs := by
  induction qs generalizing x e j with
  | nil => exact ⟨0, le_rfl, trivial, Or.inl (cleanAt_of_zeroOn h.rest (by have := h.le; simpa using this))⟩
  | cons q qs ih =>
    have hfits := h.fits
    rw [runSize_cons] at hfits
    have hq : x + framedSize q.length ≤ ss := by omega
    simp only [CutsHarmless, if_pos hq] at hc
    by_cases hj : framedSize q.length ≤ j
    · obtain ⟨i, hi, hrun, hinert⟩ := ih (h.cons hj).2 hb.tail hc.2
      refine ⟨i + 1, Nat.succ_le_succ hi, ⟨h.frameAt_head hb hmx hj, hrun⟩, ?_⟩
      rwa [List.take_succ_cons, runSize_cons, ← Nat.add_assoc, Nat.add_comm i, ← Nat.add_assoc]
    have hj := Nat.not_le.mp hj
    have hvis := h.visible_eq_cutShort hj
    have hmin := le_framedSize q.length
    have hmod := framedSize_mod q.length
    have hroom : ¬ ss - x < recordHeaderSize := by
      unfold recordHeaderSize
      omega
    have hscan : scanAt ss mx data x = decode (cutShort e q (ss - x) j) mx := by
      rw [scanAt, if_neg hroom, hvis]
    by_cases hclean : CleanAt ss data x
    · exact ⟨0, Nat.zero_le _, trivial, Or.inl hclean⟩
    by_cases hframe : FrameAt ss mx data x e q
    · refine ⟨1, by simp, ⟨hframe, trivial⟩, Or.inl (cleanAt_of_zeroOn h.rest ?_)⟩
      simp only [List.take_succ_cons, List.take_zero, runSize_cons, runSize_nil]
      omega
    -- what decodes inside the cut frame would have made it whole, or clean
    have hnone : ∀ m lsn r, 8 * m < framedSize q.length → e ≤ lsn →
        ¬ FrameAt ss mx data (x + 8 * m) lsn r := by
      intro m lsn r hm hle hf
      have hf' := hf
      have hin := hf.le_segment
      have hr := le_framedSize r.length
      rw [FrameAt, scanAt, if_neg (by unfold recordHeaderSize; omega), ← visible_drop, hvis] at hf'
      have hcontinues : (decode ((cutShort e q (ss - x) j).drop (8 * m)) mx).continues e = true := by
        rw [hf']
        exact decide_eq_true hle
      rcases hc.1 j hj m (by omega) hcontinues with hwhole | hzero
      · exact hframe (hscan.trans hwhole)
      · exact hclean (scanAt_eq_sentinel_iff.mp (hscan.trans hzero))
    refine ⟨0, Nat.zero_le _, trivial, Or.inr ⟨fun r hr => ?_, hclean, fun _ => ?_, fun hlt => ?_⟩⟩
    · exact hnone 0 e r (by omega) le_rfl hr
    · rintro ⟨m, lsn, r, -, hle, hf⟩
      by_cases hm : 8 + 8 * m < framedSize q.length
      · refine hnone (m + 1) lsn r (by omega) hle ?_
        rwa [show x + 8 * (m + 1) = x + 8 + 8 * m by omega]
      · refine hf.not_cleanAt (cleanAt_of_zeroOn h.rest ?_)
        simp only [List.take_zero, runSize_nil]
        omega
    · exact absurd hb.lsn_le (Nat.not_le.mpr hlt)

end LaidAt

end OpenWal
