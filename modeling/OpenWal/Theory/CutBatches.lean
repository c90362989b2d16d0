import OpenWal.Theory.CutWrites

namespace OpenWal
open ByteSeq Posix CrashProg

variable [Crc32c]

variable {ss mx x e n : ℕ} {data data' : Bytes} {p : Bytes} {new more ps qs : List Bytes}

theorem Inert.stops (h : Inert ss mx data x e) : Stops ss mx data x e := by
  rcases h with hclean | ⟨hstops, -⟩
  · exact hclean.stops
  · exact hstops

theorem WholePrefix.append (h : WholePrefix ss mx data x e new) (more : List Bytes) :
    WholePrefix ss mx data x e (new ++ more) := by
  obtain ⟨i, hi, hrun, hinert⟩ := h
  refine ⟨i, by rw [List.length_append]; omega, ?_⟩
  rw [List.take_append_of_le_length hi]
  exact ⟨hrun, hinert⟩

/-- A record that is whole is among those that are recovered. -/
theorem wholePrefix_cons (hp : FrameAt ss mx data x e p) : WholePrefix ss mx data x e (p :: ps) ↔
    WholePrefix ss mx data (x + framedSize p.length) (e + 1) ps := by
  constructor
  · rintro ⟨i, hi, hrun, hinert⟩
    cases i with
    | zero => exact absurd hp (hinert.stops p)
    | succ i =>
      rw [List.take_succ_cons, runSize_cons, ← Nat.add_assoc, Nat.add_comm i, ← Nat.add_assoc] at hinert
      exact ⟨i, Nat.le_of_succ_le_succ hi, hrun.2, hinert⟩
  · rintro ⟨i, hi, hrun, hinert⟩
    refine ⟨i + 1, Nat.succ_le_succ hi, ⟨hp, hrun⟩, ?_⟩
    rwa [List.take_succ_cons, runSize_cons, ← Nat.add_assoc, Nat.add_comm i, ← Nat.add_assoc]

theorem wholePrefix_append (hrun : Run ss mx data x e ps) : WholePrefix ss mx data x e (ps ++ qs) ↔
    WholePrefix ss mx data (x + runSize ps) (e + ps.length) qs := by
  induction ps generalizing x e with
  | nil => simp
  | cons p ps ih =>
    rw [List.cons_append, wholePrefix_cons hrun.1, ih hrun.2, runSize_cons, List.length_cons,
      Nat.add_assoc x, Nat.add_assoc e, Nat.add_comm 1]

theorem WholePrefix.inert (h : WholePrefix ss mx data x e ps) (hrun : Run ss mx data x e ps) :
    Inert ss mx data (x + runSize ps) (e + ps.length) := by
  rw [← List.append_nil ps, wholePrefix_append hrun] at h
  obtain ⟨i, hi, -, hinert⟩ := h
  obtain rfl : i = 0 := Nat.le_zero.mp hi
  exact hinert

theorem wholePrefix_congr (h : data.drop x = data'.drop x) :
    WholePrefix ss mx data x e new ↔ WholePrefix ss mx data' x e new := by
  have key : ∀ {g g' : Bytes}, g.drop x = g'.drop x → WholePrefix ss mx g x e new →
      WholePrefix ss mx g' x e new := by
    rintro g g' hg ⟨i, hi, hrun, hinert⟩
    refine ⟨i, hi, hrun.congr (agreeOn_of_drop_eq hg _), (inert_congr ?_).mp hinert⟩
    rw [← List.drop_drop, hg, List.drop_drop]
  exact ⟨key h, key h.symm⟩

/-- Where `commit` puts a frame of `n` bytes: behind the records, or first in a new segment. -/
def placed (ss : ℕ) (data : Bytes) (x n : ℕ) : Bytes × ℕ :=
  if x + n ≤ ss then (data, x) else (zeros ss, headerSize)

/-- The process may die anywhere in the writes of a batch that goes to `x`, and in the creation
of the segments it needs: each cut of a record's frame leaves whole records and then nothing
that keeps the segment from being recovered, a segment that is left ends clean, and the last
one ends inertly. -/
def CutsRecover (ss mx : ℕ) : Bytes → ℕ → ℕ → List Bytes → Prop
  | data, x, e, [] => Inert ss mx data x e
  | data, x, e, p :: ps =>
    let (file, y) := placed ss data x (framedSize p.length)
    (ss < x + framedSize p.length → CleanAt ss data x) ∧
      (∀ k < framedSize p.length,
        WholePrefix ss mx (overwrite file y ((encodeFrame e p).take k)) y e (p :: ps)) ∧
      CutsRecover ss mx (overwrite file y (encodeFrame e p)) (y + framedSize p.length) (e + 1) ps

theorem cutsRecover_fits (hfit : x + framedSize p.length ≤ ss) : CutsRecover ss mx data x e (p :: ps) ↔
    (∀ k < framedSize p.length,
      WholePrefix ss mx (overwrite data x ((encodeFrame e p).take k)) x e (p :: ps)) ∧
    CutsRecover ss mx (overwrite data x (encodeFrame e p)) (x + framedSize p.length) (e + 1) ps := by
  simp only [CutsRecover, placed, if_pos hfit, Nat.not_lt.mpr hfit, false_implies, true_and]

/-- A record that does not fit goes to a segment of zeros. -/
theorem cutsRecover_roll (hlt : ss < x + framedSize p.length)
    (hfit : headerSize + framedSize p.length ≤ ss) : CutsRecover ss mx data x e (p :: ps) ↔
    CleanAt ss data x ∧ CutsRecover ss mx (zeros ss) headerSize e (p :: ps) := by
  rw [cutsRecover_fits hfit]
  simp only [CutsRecover, placed, if_neg (Nat.not_le.mpr hlt), hlt, true_implies]

/-- Only the bytes from `x` on count. -/
theorem cutsRecover_congr (hx : x ≤ data.length) (hx' : x ≤ data'.length)
    (h : data.drop x = data'.drop x) : CutsRecover ss mx data x e new ↔ CutsRecover ss mx data' x e new := by
  induction new generalizing data data' x e with
  | nil => exact inert_congr h
  | cons p ps ih =>
    by_cases hfit : x + framedSize p.length ≤ ss
    · rw [cutsRecover_fits hfit, cutsRecover_fits hfit]
      refine and_congr (forall₂_congr fun k _ => wholePrefix_congr (overwrite_drop_congr _ hx hx' h)) ?_
      have hlen := encodeFrame_length e p
      apply ih
      · rw [overwrite_length _ hx, hlen]
        exact Nat.le_max_right _ _
      · rw [overwrite_length _ hx', hlen]
        exact Nat.le_max_right _ _
      · rw [← List.drop_drop, overwrite_drop_congr _ hx hx' h, List.drop_drop]
    · have hclean : CleanAt ss data x ↔ CleanAt ss data' x :=
        ⟨fun hc => hc.congr (agreeOn_of_drop_eq h _), fun hc => hc.congr (agreeOn_of_drop_eq h.symm _)⟩
      simp only [CutsRecover, placed, if_neg hfit, hclean]

theorem run_overwrite (hb : Batch mx e (qs ++ more)) (hmx : mx < 2 ^ 32) (hx : x ≤ data.length)
    (hfit : x + runSize qs ≤ ss) : Run ss mx (overwrite data x (encodeRun e qs)) x e qs := by
  have hqs := (Batch.append_iff.mp hb).1
  have hslice := overwrite_slice_self (encodeRun e qs) hx
  rw [encodeRun_length] at hslice
  exact run_of_slice_eq hfit hqs.small hmx hqs.last hslice

/-- The records of one write, and those behind them. -/
theorem cutsRecover_append (hb : Batch mx e (qs ++ more)) (hmx : mx < 2 ^ 32) (hx : x ≤ data.length)
    (hfit : x + runSize qs ≤ ss) : CutsRecover ss mx data x e (qs ++ more) ↔
    (∀ k < runSize qs,
      WholePrefix ss mx (overwrite data x ((encodeRun e qs).take k)) x e (qs ++ more)) ∧
    CutsRecover ss mx (overwrite data x (encodeRun e qs)) (x + runSize qs) (e + qs.length) more := by
  induction qs generalizing data x e with
  | nil => simp
  | cons p qs ih =>
    rw [runSize_cons] at hfit
    have hlen := encodeFrame_length e p
    have hp : x + framedSize p.length ≤ ss := by omega
    have hx₁ : x + framedSize p.length ≤ (overwrite data x (encodeFrame e p)).length := by
      rw [overwrite_length _ hx, hlen]
      exact Nat.le_max_right _ _
    -- the bytes behind the record's frame are those of the next ones
    have hjoin : ∀ b, overwrite data x (encodeFrame e p ++ b) =
        overwrite (overwrite data x (encodeFrame e p)) (x + framedSize p.length) b := by
      intro b
      rw [← overwrite_overwrite, hlen]
    have hframe : ∀ b, FrameAt ss mx (overwrite data x (encodeFrame e p ++ b)) x e p := by
      intro b
      have hslice := overwrite_slice_self (encodeFrame e p) hx
      rw [hlen] at hslice
      refine FrameAt.congr (frameAt_of_slice_eq hp hb.head_le hmx hb.lsn_le hslice) ?_
      rw [hjoin]
      exact (overwrite_agreeOn_before b hx₁ x).symm
    rw [List.cons_append, cutsRecover_fits hp, ih hb.tail hx₁ (by omega), ← and_assoc, runSize_cons,
      List.length_cons, encodeRun_cons, hjoin, Nat.add_assoc x, Nat.add_assoc e, Nat.add_comm 1]
    refine and_congr_left' ⟨fun ⟨h, h'⟩ k hk => ?_, fun h => ⟨fun k hk => ?_, fun k hk => ?_⟩⟩
    · by_cases hlt : k < framedSize p.length
      · rw [List.take_append_of_le_length (by omega)]
        exact h k hlt
      · obtain ⟨j, rfl⟩ := Nat.exists_eq_add_of_le (Nat.not_lt.mp hlt)
        rw [← hlen, List.take_length_add_append, wholePrefix_cons (hframe _), hjoin]
        exact h' j (by omega)
    · have hcut := h k (by omega)
      rwa [List.take_append_of_le_length (by omega)] at hcut
    · have hcut := h (framedSize p.length + k) (by omega)
      rwa [← hlen, List.take_length_add_append, wholePrefix_cons (hframe _), hjoin] at hcut

/-- Before the first of the writes nothing keeps the segment from being recovered either. -/
theorem CutsRecover.wholePrefix (h : CutsRecover ss mx data x e new) : WholePrefix ss mx data x e new := by
  cases new with
  | nil => exact ⟨0, le_rfl, trivial, h⟩
  | cons p ps =>
    by_cases hfit : x + framedSize p.length ≤ ss
    · have hcut := ((cutsRecover_fits hfit).mp h).1 0 (framedSize_pos _)
      rwa [List.take_zero, overwrite_nil] at hcut
    · exact ⟨0, Nat.zero_le _, trivial, Or.inl (h.1 (Nat.not_le.mp hfit))⟩

/-- Behind records with nothing but zeros after them, the batch alone decides. -/
theorem cutsRecover_of_zeroOn (hb : Batch mx e new) (hmx : mx < 2 ^ 32) (hx : x ≤ data.length)
    (hroom : ∀ p ∈ new, headerSize + framedSize p.length ≤ ss) (hz : ZeroOn data x ss)
    (hc : CutsHarmless ss mx x e new) : CutsRecover ss mx data x e new := by
  induction new generalizing data x e with
  | nil => exact Or.inl (cleanAt_of_zeroOn hz le_rfl)
  | cons p ps ih =>
    have hp := hroom p List.mem_cons_self
    have hps : ∀ q ∈ ps, headerSize + framedSize q.length ≤ ss := fun q hq =>
      hroom q (List.mem_cons_of_mem _ hq)
    have hlen := encodeFrame_length e p
    have hb₁ : Batch mx e [p] := (Batch.append_iff.mp (show Batch mx e ([p] ++ ps) from hb)).1
    have key : ∀ {g : Bytes} {y : ℕ}, y ≤ g.length → ZeroOn g y ss → y + framedSize p.length ≤ ss →
        CutHarmless mx e p (ss - y) → CutsHarmless ss mx (y + framedSize p.length) (e + 1) ps →
          CutsRecover ss mx g y e (p :: ps) := by
      intro g y hy hg hfit hcut hrest
      refine (cutsRecover_fits hfit).mpr ⟨fun k _ => ?_, ih hb.tail ?_ hps ?_ hrest⟩
      · have hone : y + runSize [p] ≤ ss := by simpa using hfit
        have hlaid := laidAt_overwrite (e := e) hg hy hone k
        rw [encodeRun_cons, encodeRun_nil, List.append_nil] at hlaid
        apply (hlaid.wholePrefix hb₁ hmx ?_).append
        simp only [CutsHarmless, if_pos hfit, and_true]
        exact hcut
      · rw [overwrite_length _ hy, hlen]
        exact Nat.le_max_right _ _
      · have hafter := overwrite_agreeOn_after (encodeFrame e p) hy ss
        rw [hlen] at hafter
        exact (hg.mono (Nat.le_add_right _ _) le_rfl).congr hafter.symm
    by_cases hfit : x + framedSize p.length ≤ ss
    · simp only [CutsHarmless, if_pos hfit] at hc
      exact key hx hz hfit hc.1 hc.2
    · have hlt := Nat.not_le.mp hfit
      simp only [CutsHarmless, if_neg hfit] at hc
      refine (cutsRecover_roll hlt hp).mpr ⟨cleanAt_of_zeroOn hz le_rfl, key ?_ ?_ hp hc.1 hc.2⟩
      · rw [zeros_length]
        omega
      · intro i _ hi
        rw [zeros_getElem?, if_pos hi]

section

variable {config : WalConfig} {d : Disk} {oldest : ℕ} {sealed : List (List Bytes)}
  {active old rest : List Bytes} {f : File}

/-- Some of the new records are already among those that are recovered in any case. -/
theorem RecoversPrefix.of_append (h : RecoversPrefix config d oldest (old ++ ps) rest) :
    RecoversPrefix config d oldest old (ps ++ rest) := by
  intro seed hseed
  obtain ⟨wal, rep, i, hi, hr, hd⟩ := h seed hseed
  refine ⟨wal, rep, ps.length + i, by rw [List.length_append]; omega, ?_⟩
  rw [List.take_length_add_append, ← List.append_assoc]
  exact ⟨hr, hd⟩

/-- What is recovered of a log has all of its records. -/
theorem Carries.recoversPrefix_rest (h : Carries config d oldest sealed active f)
    (hold : sealed.flatten ++ active = old ++ ps) (hr : RecoversPrefix config d oldest old (ps ++ rest)) :
    RecoversPrefix config d oldest (sealed.flatten ++ active) rest := by
  intro seed hseed
  obtain ⟨wal, rep, i, hi, hrec, hd⟩ := hr seed hseed
  have hacq : Carries config (acquired d) oldest sealed active f := h.of_file fun _ => rfl
  obtain ⟨qs, hrs, -, -, hrun, hinert⟩ :=
    hacq.of_recovers hseed.2 (.keep hacq.getLast?_bases hacq.file hacq.header) hrec
  obtain ⟨more, rfl⟩ := hrun.prefix_of_stops hinert.stops h.run
  have heq := congrArg (List.map Prod.snd) hrs
  rw [numbered_map_snd, numbered_map_snd, ← List.append_assoc, hold, List.append_assoc] at heq
  have hlen := congrArg List.length (List.append_cancel_left heq)
  rw [List.length_take_of_le hi, List.length_append] at hlen
  obtain ⟨j, rfl⟩ := Nat.exists_eq_add_of_le (show ps.length ≤ i by omega)
  rw [List.length_append] at hi
  rw [List.take_length_add_append, ← List.append_assoc, ← hold] at hrec hd
  exact ⟨wal, rep, j, by omega, hrec, hd⟩

theorem freshSegment_drop (base ss created : ℕ) :
    (freshSegment base ss created).data.drop headerSize = (zeros ss).drop headerSize := by
  rw [freshSegment, List.drop_append_of_le_length (encodeHeader_length _ _).ge, zeros_drop]
  nth_rewrite 1 [← encodeHeader_length base created]
  rw [List.drop_length, List.nil_append]

end

end OpenWal
