import OpenWal.Theory.OpenedLog

namespace OpenWal
open ByteSeq Posix CrashProg

def numbered : ℕ → List Bytes → List (ℕ × Bytes)
  | _, [] => []
  | e, p :: ps => (e, p) :: numbered (e + 1) ps

@[simp] theorem numbered_nil (e : ℕ) : numbered e [] = [] := rfl

theorem numbered_cons (e : ℕ) (p : Bytes) (ps : List Bytes) :
    numbered e (p :: ps) = (e, p) :: numbered (e + 1) ps := rfl

theorem numbered_append (e : ℕ) (ps qs : List Bytes) :
    numbered e (ps ++ qs) = numbered e ps ++ numbered (e + ps.length) qs := by
  induction ps generalizing e with
  | nil => rfl
  | cons p ps ih =>
    rw [List.cons_append, numbered_cons, numbered_cons, ih, List.cons_append, List.length_cons,
      Nat.add_right_comm, Nat.add_assoc]

theorem numbered_map_fst (e : ℕ) (ps : List Bytes) :
    (numbered e ps).map Prod.fst = List.range' e ps.length := by
  induction ps generalizing e with
  | nil => rfl
  | cons p ps ih => rw [numbered_cons, List.map_cons, ih, List.length_cons, List.range'_succ]

theorem numbered_map_snd (e : ℕ) (ps : List Bytes) : (numbered e ps).map Prod.snd = ps := by
  induction ps generalizing e with
  | nil => rfl
  | cons p ps ih => rw [numbered_cons, List.map_cons, ih]

theorem mem_numbered_bounds {e : ℕ} {ps : List Bytes} {r : ℕ × Bytes} (h : r ∈ numbered e ps) :
    e ≤ r.1 ∧ r.1 < e + ps.length := by
  have hfst := List.mem_map_of_mem (f := Prod.fst) h
  rw [numbered_map_fst, List.mem_range'_1] at hfst
  exact hfst

/-- One record is numbered `l`. -/
theorem numbered_unique {e l : ℕ} {p q : Bytes} {ps : List Bytes} (h : (l, p) ∈ numbered e ps)
    (h' : (l, q) ∈ numbered e ps) : p = q := by
  have hnodup : ((numbered e ps).map Prod.fst).Nodup := by
    rw [numbered_map_fst]
    exact List.nodup_range'
  exact (Prod.mk.inj (List.inj_on_of_nodup_map hnodup h h' rfl)).2

/-- From number `start` on. -/
theorem numbered_filter (start e : ℕ) (ps : List Bytes) :
    (numbered e ps).filter (fun r => decide (start ≤ r.1)) =
      numbered (max e start) (ps.drop (start - e)) := by
  induction ps generalizing e with
  | nil => simp
  | cons p ps ih =>
    rw [numbered_cons, List.filter_cons, ih]
    by_cases h : start ≤ e
    · simp only [h, decide_true, if_true, Nat.sub_eq_zero_of_le h, List.drop_zero, numbered_cons,
        Nat.max_eq_left h, Nat.max_eq_left (h.trans (Nat.le_succ e)),
        Nat.sub_eq_zero_of_le (h.trans (Nat.le_succ e))]
    · have hd : start - e = (start - (e + 1)) + 1 := by omega
      rw [if_neg (by simpa using h), hd, List.drop_succ_cons, Nat.max_eq_right (by omega),
        Nat.max_eq_right (by omega)]

section

variable [Crc32c]

def readerAt (config : WalConfig) (segments : List ℕ) (start idx : ℕ) (file : Bytes) (x e : ℕ)
    (buf : Bytes) : Reader where
  segments := segments
  segIdx := idx
  file := some file
  offset := x
  expectedLsn := expectedOf e
  start := start
  segmentSize := config.segmentSize
  maxRecordSize := config.maxRecordSize
  buf := buf
  done := false

variable {config : WalConfig} {segments : List ℕ} {start idx x e : ℕ} {file buf : Bytes} {d : Disk}

theorem drain_congr {r r' : Reader} (h : r.next d = r'.next d) : r.drain d = r'.drain d := by
  rw [Reader.drain, Reader.drain, h]

theorem drain_of_none {r r' : Reader} (h : r.next d = (none, r')) : r.drain d = ([], none) := by
  rw [Reader.drain]
  split
  · rfl
  · rename_i h'
    rw [h] at h'
    simp at h'
  · rename_i h'
    rw [h] at h'
    simp at h'

theorem drain_of_ok {r r' : Reader} {rec' : ℕ × Bytes} (h : r.next d = (some (.ok rec'), r')) :
    r.drain d = (rec' :: (r'.drain d).1, (r'.drain d).2) := by
  rw [Reader.drain]
  split
  · rename_i h'
    rw [h] at h'
    simp at h'
  · rename_i h'
    rw [h] at h'
    simp at h'
  · rename_i h'
    rw [h] at h'
    simp only [Prod.mk.injEq, Option.some.injEq, Except.ok.injEq] at h'
    rw [h'.1, h'.2]

section Next

variable {r : Reader} (hdone : r.done = false) (hfile : r.file = some file)

include hdone hfile

theorem next_of_record {lsn n k : ℕ} {b : Bytes}
    (hr : readRecordAt file r.offset r.segmentSize r.maxRecordSize r.buf = (.record lsn n k, b))
    (he : some lsn = r.expectedLsn) :
    r.next d =
      if lsn < r.start then
        Reader.next d { r with buf := b, offset := r.offset + k, expectedLsn := checkedNext lsn }
      else (some (.ok (lsn, slice b recordHeaderSize (recordHeaderSize + n))),
        { r with buf := b, offset := r.offset + k, expectedLsn := checkedNext lsn }) := by
  rw [Reader.next, if_neg (by simp [hdone])]
  split
  · rename_i hnone
    simp [hfile] at hnone
  · rename_i file' hfile'
    obtain rfl : file = file' := by simpa [hfile] using hfile'
    split <;> rename_i hr' <;> rw [hr] at hr' <;>
      simp only [Prod.mk.injEq, ScanOutcome.record.injEq, reduceCtorEq, false_and] at hr'
    obtain ⟨⟨rfl, rfl, rfl⟩, rfl⟩ := hr'
    rw [if_neg (not_not.mpr he)]

theorem next_of_other {lsn n k : ℕ} {b : Bytes}
    (hr : readRecordAt file r.offset r.segmentSize r.maxRecordSize r.buf = (.record lsn n k, b))
    (he : some lsn ≠ r.expectedLsn) : r.next d = (none, { r with buf := b, done := true }) := by
  rw [Reader.next, if_neg (by simp [hdone])]
  split
  · rename_i hnone
    simp [hfile] at hnone
  · rename_i file' hfile'
    obtain rfl : file = file' := by simpa [hfile] using hfile'
    split <;> rename_i hr' <;> rw [hr] at hr' <;>
      simp only [Prod.mk.injEq, ScanOutcome.record.injEq, reduceCtorEq, false_and] at hr'
    obtain ⟨⟨rfl, rfl, rfl⟩, rfl⟩ := hr'
    rw [if_pos he]

theorem next_of_end {o : ScanOutcome} {b : Bytes}
    (hr : readRecordAt file r.offset r.segmentSize r.maxRecordSize r.buf = (o, b))
    (ho : ∀ l n k, o ≠ .record l n k) :
    r.next d =
      match Reader.advanceSegment d { r with buf := b } with
      | (.ok true, r') => Reader.next d r'
      | (.ok false, r') => (none, { r' with done := true })
      | (.error e, r') => (some (.error (.io e)), { r' with done := true }) := by
  rw [Reader.next, if_neg (by simp [hdone])]
  split
  · rename_i hnone
    simp [hfile] at hnone
  · rename_i file' hfile'
    obtain rfl : file = file' := by simpa [hfile] using hfile'
    split <;> rename_i hr' <;> rw [hr, Prod.mk.injEq] at hr' <;> obtain ⟨rfl, rfl⟩ := hr'
    · exact absurd rfl (ho _ _ _)
    · split <;> rename_i ha <;> rw [ha]
    · split <;> rename_i ha <;> rw [ha]

end Next

variable (segments start idx d)

/-- A record before `start` is passed over, one from `start` on is yielded. -/
theorem drain_frame {p : Bytes} (buf : Bytes)
    (h : FrameAt config.segmentSize config.maxRecordSize file x e p) :
    ∃ r, r = readerAt config segments start idx file (x + framedSize p.length) (e + 1)
        (slice file x (x + framedSize p.length)) ∧
      (readerAt config segments start idx file x e buf).drain d =
        ((if start ≤ e then [(e, p)] else []) ++ (r.drain d).1, (r.drain d).2) := by
  have hpay : slice (slice file x (x + framedSize p.length)) recordHeaderSize
      (recordHeaderSize + p.length) = p := h.valid.payload
  have hnext := next_of_record (r := readerAt config segments start idx file x e buf) (d := d) rfl rfl
    (readRecordAt_of_frameAt h buf) (expectedOf_of_le h.lsn_le).symm
  rw [hpay, checkedNext_eq_expectedOf] at hnext
  refine ⟨_, rfl, ?_⟩
  by_cases hle : start ≤ e
  · rw [if_pos hle]
    exact drain_of_ok (hnext.trans (if_neg (Nat.not_lt.mpr hle)))
  · rw [if_neg hle, List.nil_append]
    exact drain_congr (hnext.trans (if_pos (Nat.not_le.mp hle)))

theorem drain_run {ps : List Bytes} (buf : Bytes)
    (h : Run config.segmentSize config.maxRecordSize file x e ps) :
    ∃ buf' r, r = readerAt config segments start idx file (x + runSize ps) (e + ps.length) buf' ∧
      (readerAt config segments start idx file x e buf).drain d =
        ((numbered e ps).filter (fun r => decide (start ≤ r.1)) ++ (r.drain d).1, (r.drain d).2) := by
  induction ps generalizing x e buf with
  | nil => exact ⟨buf, _, rfl, rfl⟩
  | cons p ps ih =>
    obtain ⟨r, rfl, hr⟩ := drain_frame segments start idx d buf h.1
    obtain ⟨buf', r', rfl, hr'⟩ := ih (slice file x (x + framedSize p.length)) h.2
    refine ⟨buf', _, rfl, ?_⟩
    rw [hr, hr', runSize_cons, List.length_cons, numbered_cons, List.filter_cons, ← Nat.add_assoc x,
      Nat.add_right_comm e, Nat.add_assoc e]
    by_cases hle : start ≤ e <;> simp [hle]

variable {segments idx d}

/-- At the end of a segment the reader goes on in the next one. -/
theorem drain_cleanAt {b : ℕ} {g : File} (e : ℕ) (buf : Bytes)
    (hc : CleanAt config.segmentSize file x) (hb : segments[idx + 1]? = some b)
    (hg : d.file (filenameFor b) = some g) :
    ∃ buf', (readerAt config segments start idx file x e buf).drain d =
      (readerAt config segments start (idx + 1) g.data headerSize e buf').drain d := by
  set rd := readRecordAt file x config.segmentSize config.maxRecordSize buf with hrd
  have hr : rd = (.cleanEnd, rd.2) := Prod.ext (readRecordAt_of_cleanAt hc buf) rfl
  refine ⟨rd.2, drain_congr ?_⟩
  rw [next_of_end (r := readerAt config segments start idx file x e buf) rfl rfl hr (by simp)]
  simp [Reader.advanceSegment, readerAt, hb, hg]

/-- Where the last segment's run stops, so does the reader. -/
theorem drain_stops (buf : Bytes)
    (hs : Stops config.segmentSize config.maxRecordSize file x e) (hb : segments[idx + 1]? = none) :
    (readerAt config segments start idx file x e buf).drain d = ([], none) := by
  rcases hr : readRecordAt file x config.segmentSize config.maxRecordSize buf with ⟨o, b⟩
  by_cases ho : ∃ l n k, o = .record l n k
  · obtain ⟨l, n, k, rfl⟩ := ho
    obtain ⟨p, -, -, hf⟩ := readRecordAt_eq_record (congrArg Prod.fst hr)
    have hne : some l ≠ expectedOf e := by
      intro h
      unfold expectedOf at h
      split_ifs at h
      rw [Option.some.injEq] at h
      exact hs p (h ▸ hf)
    exact drain_of_none (next_of_other (r := readerAt config segments start idx file x e buf) rfl rfl
      hr hne)
  · have hnext := next_of_end (r := readerAt config segments start idx file x e buf) (d := d) rfl rfl
      hr (fun l n k h => ho ⟨l, n, k, h⟩)
    simp only [Reader.advanceSegment, readerAt, hb] at hnext
    exact drain_of_none hnext

/-- A reader that starts a chain yields all of its records from `start` on. -/
theorem drain_chain {base : ℕ} {sealed : List (List Bytes)} {active : List Bytes} {f g : File}
    (buf : Bytes) (hsegs : segments.drop idx = basesFrom base sealed)
    (hchain : SealedFrom config.segmentSize config.maxRecordSize d base sealed)
    (hactive : d.file (filenameFor (activeBase base sealed)) = some f)
    (hs : SegmentHolds config.segmentSize config.maxRecordSize f.data (activeBase base sealed) active)
    (hg : d.file (filenameFor base) = some g) :
    (readerAt config segments start idx g.data headerSize base buf).drain d =
      ((numbered base (sealed.flatten ++ active)).filter fun r => decide (start ≤ r.1), none) := by
  induction sealed generalizing base idx g buf with
  | nil =>
    rw [activeBase_nil] at hs hactive
    obtain rfl : f = g := by simpa [hg] using hactive.symm
    obtain ⟨buf', r, rfl, hr⟩ := drain_run segments start idx d buf
      hs.run
    have hlast : segments[idx + 1]? = none := by
      have := congrArg List.length hsegs
      simp only [basesFrom, List.length_drop, List.length_singleton] at this
      exact List.getElem?_eq_none (by omega)
    rw [hr, drain_stops start buf' hs.stops hlast, List.flatten_nil, List.nil_append, List.append_nil]
  | cons ps rest ih =>
    obtain ⟨⟨-, g', hg', hps, hc⟩, hrest⟩ := hchain
    obtain rfl : g = g' := by simpa [hg] using hg'
    obtain ⟨buf', r, rfl, hr⟩ := drain_run segments start idx d buf
      hps.run
    have hdrop : segments.drop (idx + 1) = basesFrom (base + ps.length) rest := by
      rw [← List.tail_drop, hsegs, basesFrom, List.tail_cons]
    obtain ⟨bases, hbases⟩ := basesFrom_eq_cons (base + ps.length) rest
    have hnext : segments[idx + 1]? = some (base + ps.length) := by
      rw [← List.head?_drop, hdrop, hbases, List.head?_cons]
    rw [activeBase_cons] at hactive hs
    obtain ⟨g₁, hg₁⟩ : ∃ g₁, d.file (filenameFor (base + ps.length)) = some g₁ := by
      cases rest with
      | nil => exact ⟨f, hactive⟩
      | cons qs rest =>
        obtain ⟨⟨-, g₁, hg₁, -⟩, -⟩ := hrest
        exact ⟨g₁, hg₁⟩
    obtain ⟨buf₁, hd⟩ := drain_cleanAt start (base + ps.length) buf' hc hnext hg₁
    rw [hr, hd, ih buf₁ hdrop hrest hactive hs hg₁, List.flatten_cons, List.append_assoc,
      numbered_append base ps, List.filter_append]

variable {start}

omit [Crc32c] in
theorem basesFrom_drop (base : ℕ) (xs ys : List (List Bytes)) :
    (basesFrom base (xs ++ ys)).drop xs.length = basesFrom (activeBase base xs) ys := by
  induction xs generalizing base with
  | nil => rfl
  | cons ps xs ih => rw [List.cons_append, basesFrom, List.length_cons, List.drop_succ_cons, ih,
      activeBase_cons]

omit [Crc32c] in
/-- The segment the reader starts in is the first one, or based at `start` or below. -/
theorem containingSegmentIdx_basesFrom (base start : ℕ) (sealed : List (List Bytes)) :
    ∃ xs ys, sealed = xs ++ ys ∧ containingSegmentIdx (basesFrom base sealed) start = xs.length ∧
      (xs = [] ∨ activeBase base xs ≤ start) := by
  unfold containingSegmentIdx partitionPoint
  induction sealed generalizing base with
  | nil =>
    refine ⟨[], [], rfl, ?_, Or.inl rfl⟩
    by_cases h : base ≤ start <;> simp [basesFrom, h]
  | cons ps rest ih =>
    by_cases h : base ≤ start
    · obtain ⟨bases, hbases⟩ := basesFrom_eq_cons (base + ps.length) rest
      by_cases h' : base + ps.length ≤ start
      · obtain ⟨xs, ys, rfl, hl, hx⟩ := ih (base + ps.length)
        refine ⟨ps :: xs, ys, rfl, ?_, Or.inr ?_⟩
        · rw [hbases] at hl
          rw [basesFrom, hbases, List.length_cons, ← hl]
          simp [h, h']
        · rw [activeBase_cons]
          rcases hx with rfl | hx
          · exact h'
          · exact hx
      · refine ⟨[], ps :: rest, rfl, ?_, Or.inl rfl⟩
        rw [basesFrom, hbases]
        simp [h, h']
    · exact ⟨[], ps :: rest, rfl, by simp [basesFrom, h], Or.inl rfl⟩

omit [Crc32c] in
theorem filter_numbered_append {ps : List Bytes} (qs : List Bytes) (h : ps = [] ∨ e + ps.length ≤ start) :
    (numbered e (ps ++ qs)).filter (fun r => decide (start ≤ r.1)) =
      (numbered (e + ps.length) qs).filter fun r => decide (start ≤ r.1) := by
  rw [numbered_append, List.filter_append, numbered_filter start e ps]
  rcases h with rfl | h
  · simp
  · rw [List.drop_of_length_le (by omega), numbered_nil, List.nil_append]

variable {oldest : ℕ} {sealed : List (List Bytes)} {active staged : List Bytes}
  {observed : List ℕ} {f : File}

/-- Replay from number `0` or from one that is still in the log. -/
theorem drain_readerFrom (observed : List ℕ) (staged : List Bytes)
    (h : LogOn config.segmentSize config.maxRecordSize d oldest sealed active f)
    (hstart : start = 0 ∨ oldest ≤ start) :
    ∃ r, readerFrom (handleOn config oldest sealed active observed staged) d start = .ok r ∧
      r.drain d = (numbered (max oldest start) ((sealed.flatten ++ active).drop (start - oldest)),
        none) := by
  have hpos := h.oldest_pos
  set eff := if start = 0 then lsnFirst else start with heff
  have heff' : max oldest eff = max oldest start ∧ eff - oldest = start - oldest := by
    rcases Nat.eq_zero_or_pos start with rfl | h0
    · have : eff = 1 := if_pos rfl
      omega
    · have : eff = start := if_neg h0.ne'
      rw [this]
      exact ⟨rfl, rfl⟩
  -- the reader begins in the last segment that starts at or below `start`
  obtain ⟨xs, ys, rfl, hidx, hx⟩ := containingSegmentIdx_basesFrom oldest eff sealed
  set base := activeBase oldest xs with hbase
  have hdrop := basesFrom_drop oldest xs ys
  obtain ⟨bases, hbases⟩ := basesFrom_eq_cons base ys
  have hget : (basesFrom oldest (xs ++ ys))[xs.length]? = some base := by
    rw [← List.head?_drop, hdrop, hbases, List.head?_cons]
  have hchain := (ChainFrom.append_iff.mp h.chain).2
  have hactive := h.file
  have hholds := h.holds
  have hle := h.activeBase_le
  rw [activeBase_append] at hactive hholds hle
  obtain ⟨g, hg⟩ : ∃ g, d.file (filenameFor base) = some g := by
    cases ys with
    | nil => exact ⟨f, hactive⟩
    | cons ps rest =>
      obtain ⟨⟨-, g, hg, -⟩, -⟩ := hchain
      exact ⟨g, hg⟩
  refine ⟨readerAt config (basesFrom oldest (xs ++ ys)) eff xs.length g.data headerSize base [], ?_, ?_⟩
  · have hbu : expectedOf base = some base := expectedOf_of_le ((le_activeBase base ys).trans hle)
    rw [readerFrom, if_neg (by simp only [handleOn]; omega)]
    simp only [handleOn, ← heff, hidx, hget, hg, Reader.new, readerAt, hbu]
  · have hdrain := drain_chain eff [] hdrop hchain hactive hholds hg
    have hskip : xs.flatten = [] ∨ oldest + xs.flatten.length ≤ eff := by
      rcases hx with rfl | hx
      · exact Or.inl rfl
      · exact Or.inr hx
    have hfilter := filter_numbered_append (ys.flatten ++ active) hskip
    rw [hdrain, activeBase, ← hfilter, ← List.append_assoc, ← List.flatten_append,
      numbered_filter, heff'.1, heff'.2]

theorem readerFrom_below (hpos : 0 < start) (hlt : start < oldest) :
    readerFrom (handleOn config oldest sealed active observed staged) d start =
      .error .contiguityViolation :=
  if_pos ⟨by omega, hlt⟩

end

end OpenWal
