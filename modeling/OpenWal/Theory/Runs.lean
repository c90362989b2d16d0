import OpenWal.Theory.Scan

namespace OpenWal
open ByteSeq

def runSize : List Bytes → ℕ
  | [] => 0
  | p :: ps => framedSize p.length + runSize ps

@[simp] theorem runSize_nil : runSize [] = 0 := rfl

@[simp] theorem runSize_cons (p : Bytes) (ps : List Bytes) :
    runSize (p :: ps) = framedSize p.length + runSize ps := rfl

@[simp] theorem runSize_append (ps qs : List Bytes) : runSize (ps ++ qs) = runSize ps + runSize qs := by
  induction ps with
  | nil => simp
  | cons p ps ih => simp [ih, Nat.add_assoc]

theorem le_runSize (ps : List Bytes) : 20 * ps.length ≤ runSize ps := by
  induction ps with
  | nil => simp
  | cons p ps ih =>
    have := le_framedSize p.length
    simp only [List.length_cons, runSize_cons]
    omega

theorem runSize_mod (ps : List Bytes) : runSize ps % 8 = 0 := by
  induction ps with
  | nil => rfl
  | cons p ps ih =>
    have := framedSize_mod p.length
    rw [runSize_cons]
    omega

theorem runSize_eq_zero {ps : List Bytes} : runSize ps = 0 ↔ ps = [] := by
  have := le_runSize ps
  constructor
  · intro h
    exact List.length_eq_zero_iff.mp (by omega)
  · rintro rfl
    rfl

/-- Offset `x` is the end of the records: no header fits in the segment, or 20
zero bytes are there. -/
def CleanAt (ss : ℕ) (file : Bytes) (x : ℕ) : Prop := ss < x + 20 ∨ ZeroOn file x (x + 20)

/-- Zeros up to the end of the segment end the records wherever they stand among them. -/
theorem cleanAt_of_zeroOn {ss x y : ℕ} {file : Bytes} (h : ZeroOn file x ss) (hy : x ≤ y) :
    CleanAt ss file y := by
  by_cases hroom : ss < y + 20
  · exact Or.inl hroom
  · exact Or.inr (h.mono hy (Nat.not_lt.mp hroom))

theorem CleanAt.congr {ss x : ℕ} {file file' : Bytes} (h : CleanAt ss file x)
    (ha : AgreeOn file file' x (x + 20)) : CleanAt ss file' x :=
  h.imp_right fun hz => hz.congr ha

section

variable [Crc32c]

def FrameAt (ss mx : ℕ) (file : Bytes) (x : ℕ) (lsn : ℕ) (payload : Bytes) : Prop :=
  scanAt ss mx file x = .record lsn payload (framedSize payload.length)

variable {ss mx x : ℕ} {file file' : Bytes} {lsn e : ℕ} {payload : Bytes}

theorem frameAt_iff : FrameAt ss mx file x lsn payload ↔
    x + framedSize payload.length ≤ ss ∧ x + framedSize payload.length ≤ file.length ∧
      payload.length ≤ mx ∧
      ValidFrame (slice file x (x + framedSize payload.length)) lsn payload := by
  have hle := le_framedSize payload.length
  unfold FrameAt scanAt
  constructor
  · intro h
    split_ifs at h with h20
    obtain ⟨-, hn, hmx, hv⟩ := decode_eq_record_iff.mp h
    rw [visible_length] at hn
    have hvn : (visible ss file x).take (framedSize payload.length) = _ := visible_take (by omega)
    rw [hvn] at hv
    exact ⟨by omega, by omega, hmx, hv⟩
  · rintro ⟨hss, hf, hmx, hv⟩
    rw [if_neg (by simp only [recordHeaderSize]; omega)]
    refine decode_eq_record_iff.mpr ⟨rfl, ?_, hmx, ?_⟩
    · rw [visible_length]
      omega
    · rwa [visible_take hss]

theorem scanAt_eq_record {n : ℕ} (h : scanAt ss mx file x = .record lsn payload n) :
    n = framedSize payload.length ∧ FrameAt ss mx file x lsn payload := by
  have hn : n = framedSize payload.length := by
    unfold scanAt at h
    split_ifs at h
    exact (decode_eq_record_iff.mp h).1
  exact ⟨hn, by rw [FrameAt, h, hn]⟩

theorem scanAt_eq_sentinel_iff : scanAt ss mx file x = .sentinel ↔ CleanAt ss file x := by
  unfold scanAt CleanAt
  split_ifs with h20
  · simp only [recordHeaderSize] at h20
    exact iff_of_true rfl (Or.inl (by omega))
  · simp only [recordHeaderSize] at h20
    rw [decode_eq_sentinel_iff, visible_zeroOn_iff (by omega)]
    simp only [show ¬ ss < x + 20 by omega, false_or]

namespace FrameAt

theorem le_segment (h : FrameAt ss mx file x lsn payload) : x + framedSize payload.length ≤ ss :=
  (frameAt_iff.mp h).1

theorem le_file (h : FrameAt ss mx file x lsn payload) :
    x + framedSize payload.length ≤ file.length :=
  (frameAt_iff.mp h).2.1

theorem le_max (h : FrameAt ss mx file x lsn payload) : payload.length ≤ mx := (frameAt_iff.mp h).2.2.1

theorem valid (h : FrameAt ss mx file x lsn payload) :
    ValidFrame (slice file x (x + framedSize payload.length)) lsn payload :=
  (frameAt_iff.mp h).2.2.2

theorem lsn_le (h : FrameAt ss mx file x lsn payload) : lsn ≤ u64Max := h.valid.lsn_le

theorem unique {lsn' : ℕ} {payload' : Bytes} (h : FrameAt ss mx file x lsn payload)
    (h' : FrameAt ss mx file x lsn' payload') : lsn = lsn' ∧ payload = payload' := by
  have := h.symm.trans h'
  simp only [Decoded.record.injEq] at this
  exact ⟨this.1, this.2.1⟩

theorem not_cleanAt (h : FrameAt ss mx file x lsn payload) : ¬ CleanAt ss file x := by
  intro hc
  have hs : scanAt ss mx file x = .sentinel := scanAt_eq_sentinel_iff.mpr hc
  rw [FrameAt, hs] at h
  exact Decoded.noConfusion h

/-- Whether a record is there depends on the bytes of its frame only. -/
theorem congr (h : FrameAt ss mx file x lsn payload)
    (ha : AgreeOn file file' x (x + framedSize payload.length)) :
    FrameAt ss mx file' x lsn payload := by
  have hpos := framedSize_pos payload.length
  have hlen := h.le_file
  have hlast := ha (x + framedSize payload.length - 1) (by omega) (by omega)
  rw [List.getElem?_eq_getElem (by omega)] at hlast
  have := (List.getElem?_eq_some_iff.mp hlast.symm).1
  exact frameAt_iff.mpr ⟨h.le_segment, by omega, h.le_max, ha.slice_eq ▸ h.valid⟩

end FrameAt

/-- The bytes the encoder lays down are a record. -/
theorem frameAt_of_slice_eq (hx : x + framedSize payload.length ≤ ss) (hmx : payload.length ≤ mx)
    (hmx' : mx < 2 ^ 32) (hlsn : lsn ≤ u64Max)
    (h : slice file x (x + framedSize payload.length) = encodeFrame lsn payload) :
    FrameAt ss mx file x lsn payload := by
  refine frameAt_iff.mpr ⟨hx, ?_, hmx, ?_⟩
  · have hl := congrArg List.length h
    have hpos := framedSize_pos payload.length
    rw [slice_length, encodeFrame_length] at hl
    omega
  · rw [h]
    exact encodeFrame_validFrame (lt_two_pow_of_le_u64Max hlsn) (hmx.trans_lt hmx')

/-- From offset `x` on, records numbered `e`, `e + 1`, … carry the payloads. -/
def Run (ss mx : ℕ) (file : Bytes) : ℕ → ℕ → List Bytes → Prop
  | _, _, [] => True
  | x, e, p :: ps => FrameAt ss mx file x e p ∧ Run ss mx file (x + framedSize p.length) (e + 1) ps

def Stops (ss mx : ℕ) (file : Bytes) (x : ℕ) (e : ℕ) : Prop := ∀ p, ¬ FrameAt ss mx file x e p

variable {ps qs : List Bytes}

theorem CleanAt.stops (h : CleanAt ss file x) : Stops ss mx file x e := fun _ hf => hf.not_cleanAt h

namespace Run

@[simp] theorem nil : Run ss mx file x e [] := trivial

theorem append_iff : Run ss mx file x e (ps ++ qs) ↔
    Run ss mx file x e ps ∧ Run ss mx file (x + runSize ps) (e + ps.length) qs := by
  induction ps generalizing x e with
  | nil => simp
  | cons p ps ih =>
    simp only [List.cons_append, Run, ih, and_assoc, runSize_cons, List.length_cons,
      Nat.add_assoc, Nat.add_comm ps.length]

theorem append (h : Run ss mx file x e ps)
    (h' : Run ss mx file (x + runSize ps) (e + ps.length) qs) : Run ss mx file x e (ps ++ qs) :=
  append_iff.mpr ⟨h, h'⟩

theorem take (h : Run ss mx file x e ps) (n : ℕ) : Run ss mx file x e (ps.take n) := by
  rw [← List.take_append_drop n ps] at h
  exact (append_iff.mp h).1

theorem congr (h : Run ss mx file x e ps) (ha : AgreeOn file file' x (x + runSize ps)) :
    Run ss mx file' x e ps := by
  induction ps generalizing x e with
  | nil => trivial
  | cons p ps ih =>
    rw [runSize_cons] at ha
    exact ⟨h.1.congr (ha.mono le_rfl (by omega)), ih h.2 (ha.mono (by omega) (by omega))⟩

theorem le_segment (h : Run ss mx file x e ps) (hx : x ≤ ss) : x + runSize ps ≤ ss := by
  induction ps generalizing x e with
  | nil => exact hx
  | cons p ps ih =>
    have := ih h.2 h.1.le_segment
    rw [runSize_cons]
    omega

theorem le_file (h : Run ss mx file x e ps) (hx : x ≤ file.length) :
    x + runSize ps ≤ file.length := by
  induction ps generalizing x e with
  | nil => exact hx
  | cons p ps ih =>
    have := ih h.2 h.1.le_file
    rw [runSize_cons]
    omega

theorem le_max (h : Run ss mx file x e ps) : ∀ p ∈ ps, p.length ≤ mx := by
  induction ps generalizing x e with
  | nil => simp
  | cons p ps ih =>
    intro q hq
    rcases List.mem_cons.mp hq with rfl | hq
    · exact h.1.le_max
    · exact ih h.2 q hq

/-- The last number of a run is a `u64`. -/
theorem lsn_le (h : Run ss mx file x e ps) (he : e ≤ u64Max + 1) : e + ps.length ≤ u64Max + 1 := by
  induction ps generalizing x e with
  | nil => exact he
  | cons p ps ih =>
    have := h.1.lsn_le
    have := ih h.2 (by omega)
    simp only [List.length_cons]
    omega

/-- Of two runs from one place, one begins with the other. -/
theorem prefix_total (h : Run ss mx file x e ps) (h' : Run ss mx file x e qs) :
    ps <+: qs ∨ qs <+: ps := by
  induction ps generalizing x e qs with
  | nil => exact Or.inl (List.nil_prefix)
  | cons p ps ih =>
    cases qs with
    | nil => exact Or.inr (List.nil_prefix)
    | cons q qs =>
      obtain ⟨-, rfl⟩ := h.1.unique h'.1
      simp only [List.cons_prefix_cons, true_and]
      exact ih h.2 h'.2

/-- A run that stops contains every other. -/
theorem prefix_of_stops (h : Run ss mx file x e ps)
    (hs : Stops ss mx file (x + runSize ps) (e + ps.length)) (h' : Run ss mx file x e qs) :
    qs <+: ps := by
  rcases h.prefix_total h' with ⟨r, rfl⟩ | h
  · cases r with
    | nil => simp
    | cons p r => exact absurd (append_iff.mp h').2.1 (hs p)
  · exact h

theorem eq_of_stops (h : Run ss mx file x e ps)
    (hs : Stops ss mx file (x + runSize ps) (e + ps.length)) (h' : Run ss mx file x e qs)
    (hs' : Stops ss mx file (x + runSize qs) (e + qs.length)) : ps = qs :=
  ((h'.prefix_of_stops hs' h).eq_of_length_le (h.prefix_of_stops hs h').length_le)

theorem exists_stops (ss mx : ℕ) (file : Bytes) (x : ℕ) (e : ℕ) :
    ∃ ps, Run ss mx file x e ps ∧ Stops ss mx file (x + runSize ps) (e + ps.length) := by
  by_cases h : Stops ss mx file x e
  · exact ⟨[], nil, h⟩
  · obtain ⟨p, hp⟩ := not_forall.mp h
    have hp := not_not.mp hp
    have := hp.le_segment
    have := framedSize_pos p.length
    obtain ⟨ps, hr, hs⟩ := exists_stops ss mx file (x + framedSize p.length) (e + 1)
    refine ⟨p :: ps, ⟨hp, hr⟩, ?_⟩
    rwa [runSize_cons, List.length_cons, ← Nat.add_assoc, Nat.add_comm ps.length, ← Nat.add_assoc]
  termination_by ss - x

end Run

def encodeRun : ℕ → List Bytes → Bytes
  | _, [] => []
  | e, p :: ps => encodeFrame e p ++ encodeRun (e + 1) ps

@[simp] theorem encodeRun_nil (e : ℕ) : encodeRun e [] = [] := rfl

theorem encodeRun_cons (e : ℕ) (p : Bytes) (ps : List Bytes) :
    encodeRun e (p :: ps) = encodeFrame e p ++ encodeRun (e + 1) ps := rfl

@[simp] theorem encodeRun_length (e : ℕ) (ps : List Bytes) :
    (encodeRun e ps).length = runSize ps := by
  induction ps generalizing e with
  | nil => rfl
  | cons p ps ih => rw [encodeRun_cons, List.length_append, encodeFrame_length, ih, runSize_cons]

theorem encodeRun_append (e : ℕ) (ps qs : List Bytes) :
    encodeRun e (ps ++ qs) = encodeRun e ps ++ encodeRun (e + ps.length) qs := by
  induction ps generalizing e with
  | nil => simp
  | cons p ps ih =>
    rw [List.cons_append, encodeRun_cons, encodeRun_cons, ih, List.append_assoc, List.length_cons,
      Nat.add_right_comm, Nat.add_assoc]

theorem encodeRun_eq_nil {ps : List Bytes} : encodeRun e ps = [] ↔ ps = [] := by
  rw [← List.length_eq_zero_iff, encodeRun_length, runSize_eq_zero]

/-- The bytes of a batch are a run. -/
theorem run_of_slice_eq (hx : x + runSize ps ≤ ss) (hmx : ∀ p ∈ ps, p.length ≤ mx)
    (hmx' : mx < 2 ^ 32) (he : e + ps.length ≤ u64Max + 1)
    (h : slice file x (x + runSize ps) = encodeRun e ps) : Run ss mx file x e ps := by
  induction ps generalizing x e with
  | nil => trivial
  | cons p ps ih =>
    simp only [runSize_cons, List.length_cons] at hx h he
    have hl := congrArg List.length h
    simp only [slice_length, encodeRun_length, runSize_cons] at hl
    rw [encodeRun_cons, ← slice_append_slice file (show x ≤ x + framedSize p.length by omega)
      (by omega)] at h
    have := List.append_inj h (by rw [slice_length, encodeFrame_length]; omega)
    refine ⟨frameAt_of_slice_eq (by omega) (hmx p (List.mem_cons_self)) hmx' (by omega) this.1, ?_⟩
    exact ih (by omega) (fun q hq => hmx q (List.mem_cons_of_mem _ hq)) (by omega)
      (by rw [← this.2]; congr 1; omega)

end

end OpenWal
