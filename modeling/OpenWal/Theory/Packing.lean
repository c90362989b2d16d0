import OpenWal.Theory.Runs
import OpenWal.Model.Wal

namespace OpenWal
open ByteSeq

/-- The longest prefix of the payloads whose frames fit in `room` bytes. -/
def fit : ℕ → List Bytes → List Bytes
  | _, [] => []
  | room, p :: ps =>
    if framedSize p.length ≤ room then p :: fit (room - framedSize p.length) ps else []

def overflow (room : ℕ) (ps : List Bytes) : List Bytes := ps.drop (fit room ps).length

@[simp] theorem fit_nil (room : ℕ) : fit room [] = [] := rfl

theorem fit_cons_of_le {room : ℕ} {p : Bytes} {ps : List Bytes} (h : framedSize p.length ≤ room) :
    fit room (p :: ps) = p :: fit (room - framedSize p.length) ps := if_pos h

theorem fit_cons_of_lt {room : ℕ} {p : Bytes} {ps : List Bytes} (h : room < framedSize p.length) :
    fit room (p :: ps) = [] := if_neg (Nat.not_le.mpr h)

theorem fit_append_overflow (room : ℕ) (ps : List Bytes) : fit room ps ++ overflow room ps = ps := by
  induction ps generalizing room with
  | nil => rfl
  | cons p ps ih =>
    unfold overflow at ih ⊢
    by_cases h : framedSize p.length ≤ room
    · rw [fit_cons_of_le h, List.length_cons, List.drop_succ_cons, List.cons_append, ih]
    · rw [fit_cons_of_lt (Nat.not_le.mp h)]
      rfl

theorem runSize_fit_le (room : ℕ) (ps : List Bytes) : runSize (fit room ps) ≤ room := by
  induction ps generalizing room with
  | nil => simp
  | cons p ps ih =>
    by_cases h : framedSize p.length ≤ room
    · have := ih (room - framedSize p.length)
      rw [fit_cons_of_le h, runSize_cons]
      omega
    · rw [fit_cons_of_lt (Nat.not_le.mp h)]
      simp

theorem fit_ne_nil {room : ℕ} {p : Bytes} (ps : List Bytes) (h : framedSize p.length ≤ room) :
    fit room (p :: ps) ≠ [] := by
  rw [fit_cons_of_le h]
  exact List.cons_ne_nil _ _

theorem fit_eq_self {room : ℕ} {ps : List Bytes} (h : runSize ps ≤ room) : fit room ps = ps := by
  induction ps generalizing room with
  | nil => rfl
  | cons p ps ih =>
    rw [runSize_cons] at h
    rw [fit_cons_of_le (by omega), ih (by omega)]

theorem overflow_eq_nil {room : ℕ} {ps : List Bytes} (h : runSize ps ≤ room) :
    overflow room ps = [] := by
  rw [overflow, fit_eq_self h, List.drop_length]

theorem fit_eq_of_overflow_eq_nil {room : ℕ} {ps : List Bytes} (h : overflow room ps = []) :
    fit room ps = ps := by
  have := fit_append_overflow room ps
  rwa [h, List.append_nil] at this

/-- What is left over does not fit behind what fitted. -/
theorem fit_overflow (room : ℕ) (ps : List Bytes) :
    fit (room - runSize (fit room ps)) (overflow room ps) = [] := by
  induction ps generalizing room with
  | nil => rfl
  | cons p ps ih =>
    unfold overflow at ih ⊢
    by_cases h : framedSize p.length ≤ room
    · rw [fit_cons_of_le h, runSize_cons, List.length_cons, List.drop_succ_cons, ← Nat.sub_sub]
      exact ih _
    · have hlt := Nat.not_le.mp h
      rw [fit_cons_of_lt hlt, runSize_nil, Nat.sub_zero, List.length_nil, List.drop_zero,
        fit_cons_of_lt hlt]

def place (ss : ℕ) (log : List (List Bytes) × List Bytes) (p : Bytes) : List (List Bytes) × List Bytes :=
  if headerSize + runSize log.2 + framedSize p.length ≤ ss then (log.1, log.2 ++ [p])
  else (log.1 ++ [log.2], [p])

def pack (ss : ℕ) (log : List (List Bytes) × List Bytes) (ps : List Bytes) :
    List (List Bytes) × List Bytes := ps.foldl (place ss) log

variable {ss : ℕ} {sealed : List (List Bytes)} {active : List Bytes}

/-- How a sequence of records is cut makes no difference. -/
theorem pack_append (log : List (List Bytes) × List Bytes) (ps qs : List Bytes) :
    pack ss log (ps ++ qs) = pack ss (pack ss log ps) qs := List.foldl_append

theorem place_of_le {p : Bytes} (h : headerSize + runSize active + framedSize p.length ≤ ss) :
    place ss (sealed, active) p = (sealed, active ++ [p]) := if_pos h

theorem place_of_lt {p : Bytes} (h : ss < headerSize + runSize active + framedSize p.length) :
    place ss (sealed, active) p = (sealed ++ [active], [p]) := if_neg (Nat.not_le.mpr h)

/-- No record is lost. -/
theorem pack_flatten (ss : ℕ) (log : List (List Bytes) × List Bytes) (ps : List Bytes) :
    (pack ss log ps).1.flatten ++ (pack ss log ps).2 = log.1.flatten ++ log.2 ++ ps := by
  induction ps generalizing log with
  | nil => simp [pack]
  | cons p ps ih =>
    have hstep : pack ss log (p :: ps) = pack ss (place ss log p) ps := rfl
    rw [hstep, ih]
    unfold place
    split_ifs <;> simp

/-- A turn's write. -/
theorem pack_fit (sealed : List (List Bytes)) (active ps : List Bytes) :
    pack ss (sealed, active ++ fit (ss - (headerSize + runSize active)) ps)
        (overflow (ss - (headerSize + runSize active)) ps) = pack ss (sealed, active) ps := by
  induction ps generalizing active with
  | nil => simp [overflow, pack]
  | cons p ps ih =>
    have hpos := framedSize_pos p.length
    by_cases h : framedSize p.length ≤ ss - (headerSize + runSize active)
    · have hroom : ss - (headerSize + runSize (active ++ [p])) =
          ss - (headerSize + runSize active) - framedSize p.length := by
        rw [runSize_append, runSize_cons, runSize_nil]
        omega
      have hih := ih (active ++ [p])
      rw [hroom, List.append_assoc, List.singleton_append] at hih
      rw [overflow, fit_cons_of_le h, List.length_cons, List.drop_succ_cons, ← overflow, hih, pack, pack,
        List.foldl_cons, place_of_le (by omega)]
    · rw [overflow, fit_cons_of_lt (Nat.not_le.mp h), List.append_nil, List.length_nil, List.drop_zero]

/-- A turn's roll. -/
theorem pack_roll {p : Bytes} {ps : List Bytes} (hp : headerSize + framedSize p.length ≤ ss)
    (h : fit (ss - (headerSize + runSize active)) (p :: ps) = []) :
    pack ss (sealed ++ [active], []) (p :: ps) = pack ss (sealed, active) (p :: ps) := by
  have hlt : ss < headerSize + runSize active + framedSize p.length := by
    by_contra hle
    exact fit_ne_nil ps (by omega) h
  rw [pack, pack, List.foldl_cons, List.foldl_cons, place_of_lt hlt,
    place_of_le (by rw [runSize_nil]; omega), List.nil_append]

/-- From offset `x` on, `ps` and then whole segments from the header on, each the longest
prefix of what is left that fits. -/
def Packed (ss : ℕ) : ℕ → List Bytes → List (List Bytes) → Prop
  | x, ps, [] => x + runSize ps ≤ ss
  | x, ps, qs :: rest => x + runSize ps ≤ ss ∧
    (∃ q tail, qs = q :: tail ∧ ss < x + runSize ps + framedSize q.length) ∧
    Packed ss headerSize qs rest

theorem Packed.cons {x : ℕ} {p : Bytes} {ps : List Bytes} {chunks : List (List Bytes)}
    (h : Packed ss (x + framedSize p.length) ps chunks) : Packed ss x (p :: ps) chunks := by
  cases chunks with
  | nil =>
    rw [Packed, runSize_cons]
    rw [Packed] at h
    omega
  | cons qs rest =>
    obtain ⟨hle, hnext, hrest⟩ := h
    rw [Packed, runSize_cons, ← Nat.add_assoc]
    exact ⟨hle, hnext, hrest⟩

/-- A batch is packed greedily. -/
theorem pack_packed (sealed : List (List Bytes)) (active : List Bytes) {ps : List Bytes}
    (hx : headerSize + runSize active ≤ ss) (hps : ∀ p ∈ ps, headerSize + framedSize p.length ≤ ss) :
    ∃ first chunks, (pack ss (sealed, active) ps).1 ++ [(pack ss (sealed, active) ps).2] =
        sealed ++ (active ++ first) :: chunks ∧
      ps = first ++ chunks.flatten ∧ Packed ss (headerSize + runSize active) first chunks := by
  induction ps generalizing sealed active with
  | nil => exact ⟨[], [], by simp [pack], rfl, by simpa [Packed] using hx⟩
  | cons p ps ih =>
    have hp := hps p List.mem_cons_self
    have hps := fun q hq => hps q (List.mem_cons_of_mem p hq)
    have hstep : pack ss (sealed, active) (p :: ps) = pack ss (place ss (sealed, active) p) ps := rfl
    by_cases h : headerSize + runSize active + framedSize p.length ≤ ss
    · have hsize : headerSize + runSize (active ++ [p]) =
          headerSize + runSize active + framedSize p.length := by
        rw [runSize_append, runSize_cons, runSize_nil]
        omega
      obtain ⟨first, chunks, hlog, rfl, hpacked⟩ := ih sealed (active ++ [p]) (by omega) hps
      rw [hsize] at hpacked
      refine ⟨p :: first, chunks, ?_, rfl, hpacked.cons⟩
      rw [hstep, place_of_le h, hlog, List.append_assoc, List.singleton_append]
    · have hlt := Nat.not_le.mp h
      obtain ⟨first, chunks, hlog, rfl, hpacked⟩ :=
        ih (sealed ++ [active]) [p] (by rw [runSize_cons, runSize_nil]; omega) hps
      rw [runSize_cons, runSize_nil, Nat.add_zero] at hpacked
      refine ⟨[], (p :: first) :: chunks, ?_, rfl, by simpa using hx, ⟨p, first, rfl, by simpa using hlt⟩,
        hpacked.cons⟩
      rw [hstep, place_of_lt hlt, hlog, List.append_nil, List.append_assoc, List.singleton_append,
        List.singleton_append]

section

variable [Crc32c]

theorem peek_encodeFrame {e : ℕ} {p : Bytes} (rest : Bytes) (he : e ≤ u64Max) (hp : p.length < 2 ^ 32) :
    peek (encodeFrame e p ++ rest) = (e, framedSize p.length) := by
  have hv := encodeFrame_validFrame (lt_two_pow_of_le_u64Max he) hp
  have hl := le_framedSize p.length
  have hs : ∀ i j : ℕ, j ≤ 20 →
      slice (encodeFrame e p ++ rest) i j = slice (encodeFrame e p) i j := by
    intro i j hj
    have ht : (encodeFrame e p ++ rest).take (encodeFrame e p).length = encodeFrame e p :=
      List.take_left
    rw [← slice_take (b := encodeFrame e p ++ rest) (n := (encodeFrame e p).length)
      (by rw [encodeFrame_length]; omega), ht]
  unfold peek
  rw [hs _ _ (by decide), hs _ _ (by decide), hv.lengthField, hv.lsnField]

/-- From the record at `scan` on, the scan takes the records that fit. -/
theorem scanPrefix_encodeRun (pos remaining last : ℕ) {staging done : Bytes} {e : ℕ} {ps : List Bytes}
    (hst : staging = done ++ encodeRun e ps) (hpos : pos ≤ done.length)
    (hrem : done.length - pos ≤ remaining) (hlen : ∀ p ∈ ps, p.length < 2 ^ 32)
    (he : e + ps.length ≤ u64Max + 1) :
    scanPrefix staging pos remaining done.length last =
      (done.length + runSize (fit (remaining - (done.length - pos)) ps),
        if fit (remaining - (done.length - pos)) ps = [] then last
        else e + (fit (remaining - (done.length - pos)) ps).length - 1) := by
  induction ps generalizing done e last with
  | nil =>
    rw [scanPrefix, if_neg (by simp [hst])]
    simp
  | cons p ps ih =>
    have hpl := hlen p List.mem_cons_self
    rw [List.length_cons] at he
    have hdrop : staging.drop done.length = encodeFrame e p ++ encodeRun (e + 1) ps := by
      rw [hst, List.drop_left, encodeRun_cons]
    have hlt : done.length < staging.length := by
      have := framedSize_pos p.length
      rw [hst, List.length_append, encodeRun_length, runSize_cons]
      omega
    rw [scanPrefix, if_pos hlt]
    simp only [hdrop, peek_encodeFrame _ (show e ≤ u64Max by omega) hpl]
    -- the record is taken where it fits into what is left, and ends the scan elsewhere
    by_cases hf : framedSize p.length ≤ remaining - (done.length - pos)
    · rw [if_neg (by omega)]
      have hdone : (done ++ encodeFrame e p).length = done.length + framedSize p.length := by
        rw [List.length_append, encodeFrame_length]
      have hst' : staging = done ++ encodeFrame e p ++ encodeRun (e + 1) ps := by
        rw [hst, encodeRun_cons, List.append_assoc]
      have hih : scanPrefix staging pos remaining (done ++ encodeFrame e p).length e = _ :=
        ih e hst' (by omega) (by omega) (fun q hq => hlen q (List.mem_cons_of_mem _ hq)) (by omega)
      rw [hdone] at hih
      rw [hih, fit_cons_of_le hf, runSize_cons,
        show remaining - (done.length + framedSize p.length - pos) =
          remaining - (done.length - pos) - framedSize p.length by omega, if_neg (List.cons_ne_nil _ _),
        List.length_cons]
      split_ifs with hnil
      · simp [hnil]
      · rw [Nat.add_assoc]
        congr 1
        omega
    · rw [if_pos (by omega), fit_cons_of_lt (Nat.not_le.mp hf)]
      simp

end

end OpenWal
