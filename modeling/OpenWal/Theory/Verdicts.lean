import OpenWal.Theory.OpenedLog

namespace OpenWal
open ByteSeq Posix CrashProg

variable [Crc32c]

variable (config : WalConfig) {d d' : Disk} {base : ℕ} {f : File} {prevMax : Option ℕ}

theorem recoverOne_of_badHeader (isActive : Bool) (hf : d.file (filenameFor base) = some f)
    (hh : ¬ HeaderOk f.data base) :
    recoverOne config prevMax base isActive ⟨d, []⟩ = (.err .badSegmentHeader, ⟨d, []⟩) := by
  rw [recoverOne, Prog.bind_of_ret (Prog.mapErr_of_ret (openFile_calm hf))]
  by_cases hlen : headerSize ≤ f.data.length
  · rw [readHeader_of_le hlen]
    cases hd : decodeHeader (f.data.take headerSize) with
    | error e =>
      obtain rfl : e = .badSegmentHeader := by
        unfold decodeHeader at hd
        simp only at hd
        split_ifs at hd <;> simp_all
      simp [hd]
    | ok parsed =>
      have hne : parsed ≠ base := by
        rintro rfl
        exact hh ⟨hlen, hd⟩
      simp [hd, hne]
  · rw [readHeader_of_lt (Nat.not_le.mp hlen)]
    rfl

theorem recoverOne_of_gap (isActive : Bool) (hf : d.file (filenameFor base) = some f)
    (hh : HeaderOk f.data base) (hp : ¬ Follows prevMax base) :
    recoverOne config prevMax base isActive ⟨d, []⟩ = (.err .contiguityViolation, ⟨d, []⟩) := by
  have hany : (prevMax.any fun pm => decide (checkedNext pm ≠ some base)) = true := by
    by_contra hn
    refine hp fun pm hpm => ?_
    by_contra hne
    exact hn ((Option.any_eq_true _ _).mpr ⟨pm, hpm, by simpa using hne⟩)
  rw [recoverOne, Prog.bind_of_ret (Prog.mapErr_of_ret (openFile_calm hf)), readHeader_of_le hh.le_length]
  simp only [hh.2, ne_eq, not_true_eq_false, if_false]
  rw [if_pos hany]
  rfl

inductive SealedTurn (config : WalConfig) (f : File) (prevMax : Option ℕ) (base : ℕ) :
    Except WalError ℕ → Prop
  | badHeader : ¬ HeaderOk f.data base → SealedTurn config f prevMax base (.error .badSegmentHeader)
  | gap : HeaderOk f.data base → ¬ Follows prevMax base →
      SealedTurn config f prevMax base (.error .contiguityViolation)
  | empty : SegmentHolds config.segmentSize config.maxRecordSize f.data base [] →
      Follows prevMax base → CleanAt config.segmentSize f.data headerSize →
      SealedTurn config f prevMax base (.error .contiguityViolation)
  | corrupt {ps : List Bytes} :
      SegmentHolds config.segmentSize config.maxRecordSize f.data base ps → Follows prevMax base →
      ¬ CleanAt config.segmentSize f.data (headerSize + runSize ps) →
      SealedTurn config f prevMax base
        (.error (fatalError base false (headerSize + runSize ps) (base + ps.length)))
  | passed {ps : List Bytes} :
      SegmentHolds config.segmentSize config.maxRecordSize f.data base ps → Follows prevMax base →
      CleanAt config.segmentSize f.data (headerSize + runSize ps) → ps ≠ [] →
      SealedTurn config f prevMax base (.ok (base + ps.length - 1))

theorem SealedTurn.total (f : File) (prevMax : Option ℕ) (base : ℕ) :
    ∃ r, SealedTurn config f prevMax base r := by
  by_cases hh : HeaderOk f.data base
  · by_cases hp : Follows prevMax base
    · obtain ⟨ps, hs⟩ := hh.exists_holds config.segmentSize config.maxRecordSize
      by_cases hc : CleanAt config.segmentSize f.data (headerSize + runSize ps)
      · by_cases hne : ps = []
        · subst hne
          exact ⟨_, .empty hs hp hc⟩
        · exact ⟨_, .passed hs hp hc hne⟩
      · exact ⟨_, .corrupt hs hp hc⟩
    · exact ⟨_, .gap hh hp⟩
  · exact ⟨_, .badHeader hh⟩

variable {config} {r : Except WalError ℕ} {next : ℕ} {rest : List ℕ}

/-- A refusal ends the loop, a segment that passes hands its last number on. -/
theorem SealedTurn.recoverSegments (h : SealedTurn config f prevMax base r)
    (hf : d.file (filenameFor base) = some f) :
    recoverSegments config prevMax base (next :: rest) ⟨d, []⟩ =
      match r with
      | .ok last => OpenWal.recoverSegments config (some last) next rest ⟨d, []⟩
      | .error e => (.err e, ⟨d, []⟩) := by
  rw [OpenWal.recoverSegments]
  cases h with
  | badHeader hh => exact Prog.bind_of_err (recoverOne_of_badHeader config false hf hh)
  | gap hh hp => exact Prog.bind_of_err (recoverOne_of_gap config false hf hh hp)
  | empty hs hp hc =>
    have hpos := hs.header.pos
    rw [Prog.bind_of_ret (recoverOne_of_cleanAt config hf hs hp false hc), if_pos (by
      simp only [List.length_nil]
      omega)]
    rfl
  | corrupt hs hp hc =>
    exact Prog.bind_of_err (recoverOne_of_fatal config hf hs hp false hc (by simp))
  | @passed ps hs hp hc hne =>
    have hpos := List.length_pos_iff.mpr hne
    rw [Prog.bind_of_ret (recoverOne_of_cleanAt config hf hs hp false hc), if_neg (by
      simp only
      omega)]

/-- Every one of `bases` passes as a sealed segment, the first one after `prevMax`
and the last one ending with `prevMax'`. -/
inductive Passes (config : WalConfig) (d : Disk) : Option ℕ → List ℕ → Option ℕ → Prop
  | nil (prevMax : Option ℕ) : Passes config d prevMax [] prevMax
  | cons {prevMax prevMax' : Option ℕ} {base last : ℕ} {f : File} {rest : List ℕ} :
      d.file (filenameFor base) = some f → SealedTurn config f prevMax base (.ok last) →
      Passes config d (some last) rest prevMax' → Passes config d prevMax (base :: rest) prevMax'

def Refused (config : WalConfig) (d : Disk) (prevMax : Option ℕ) (base : ℕ) (e : WalError) : Prop :=
  ∃ f, d.file (filenameFor base) = some f ∧ SealedTurn config f prevMax base (.error e)

variable {prevMax' : Option ℕ} {pre bases : List ℕ} {e : WalError}

theorem Passes.congr (h : Passes config d prevMax bases prevMax')
    (hd : ∀ b ∈ bases, d'.file (filenameFor b) = d.file (filenameFor b)) :
    Passes config d' prevMax bases prevMax' := by
  induction h with
  | nil => exact .nil _
  | cons hf ht hrest ih =>
    refine .cons ?_ ht (ih fun b hb => hd b (List.mem_cons_of_mem _ hb))
    rw [hd _ List.mem_cons_self, hf]

theorem Refused.congr (h : Refused config d prevMax base e)
    (hd : d'.file (filenameFor base) = d.file (filenameFor base)) :
    Refused config d' prevMax base e := by
  obtain ⟨f, hf, ht⟩ := h
  exact ⟨f, hd.trans hf, ht⟩

/-- Either all pass, or there is a first one that does not. -/
theorem passes_or_refused (config : WalConfig) (prevMax : Option ℕ)
    (hd : ∀ b ∈ bases, ∃ f, d.file (filenameFor b) = some f) :
    (∃ prevMax', Passes config d prevMax bases prevMax') ∨
      ∃ pre b post prevMax' e, bases = pre ++ b :: post ∧ Passes config d prevMax pre prevMax' ∧
        Refused config d prevMax' b e := by
  induction bases generalizing prevMax with
  | nil => exact Or.inl ⟨prevMax, .nil _⟩
  | cons b bases ih =>
    obtain ⟨f, hf⟩ := hd b List.mem_cons_self
    obtain ⟨r, hr⟩ := SealedTurn.total config f prevMax b
    cases r with
    | error e => exact Or.inr ⟨[], b, bases, prevMax, e, rfl, .nil _, f, hf, hr⟩
    | ok last =>
      rcases ih (some last) fun c hc => hd c (List.mem_cons_of_mem _ hc) with
        ⟨pm, hpass⟩ | ⟨pre, c, post, pm, e, rfl, hpass, href⟩
      · exact Or.inl ⟨pm, .cons hf hr hpass⟩
      · exact Or.inr ⟨b :: pre, c, post, pm, e, rfl, .cons hf hr hpass, href⟩

theorem Passes.recoverSegments (h : Passes config d prevMax pre prevMax') {b : ℕ}
    (hb : base :: bases = pre ++ b :: rest) :
    recoverSegments config prevMax base bases ⟨d, []⟩ =
      OpenWal.recoverSegments config prevMax' b rest ⟨d, []⟩ := by
  induction h generalizing base bases with
  | nil =>
    obtain ⟨rfl, rfl⟩ := List.cons.inj hb
    rfl
  | @cons _ _ _ last _ pre hf ht hrest ih =>
    obtain ⟨rfl, hbases⟩ := List.cons.inj hb
    cases bases with
    | nil => simp at hbases
    | cons c cs =>
      rw [ht.recoverSegments hf]
      exact ih hbases

/-- The first segment that is refused decides, unless it is the active one. -/
theorem Refused.recoverSegments (h : Refused config d prevMax base e) :
    recoverSegments config prevMax base (next :: rest) ⟨d, []⟩ = (.err e, ⟨d, []⟩) := by
  obtain ⟨f, hf, ht⟩ := h
  exact ht.recoverSegments hf

/-- The segment `base`, whose records end at `x`, holds data behind the record `u64::MAX`
that are not zeros cut short. -/
def PastCapacity (config : WalConfig) (file : Bytes) (base : ℕ) : Prop :=
  ∃ ps, SegmentHolds config.segmentSize config.maxRecordSize file base ps ∧
    u64Max < base + ps.length ∧ ¬ CleanAt config.segmentSize file (headerSize + runSize ps) ∧
    ¬ TornAt config.segmentSize config.maxRecordSize file (headerSize + runSize ps) (base + ps.length)

/-- What is refused as a sealed segment is refused alike as the active one only for what
does not depend on the tail being torn. -/
theorem Refused.recoverOne_iff (h : Refused config d prevMax base e)
    (hf : d.file (filenameFor base) = some f) :
    (∃ w, recoverOne config prevMax base true ⟨d, []⟩ = (.err e, w)) ↔
      (HeaderOk f.data base → Follows prevMax base → PastCapacity config f.data base) := by
  obtain ⟨f', hf', ht⟩ := h
  obtain rfl := Option.some.inj (hf.symm.trans hf')
  cases ht with
  | badHeader hh =>
    rw [recoverOne_of_badHeader config true hf hh]
    simp [hh]
  | gap hh hp =>
    rw [recoverOne_of_gap config true hf hh hp]
    simp [hp]
  | empty hs hp hc =>
    rw [recoverOne_of_cleanAt config hf hs hp true hc]
    simp only [Prod.mk.injEq, reduceCtorEq, false_and, exists_false, false_iff]
    intro hpast
    obtain ⟨ps, hs', hlt, hc', -⟩ := hpast hs.header hp
    obtain rfl := hs.run.eq_of_stops hs.stops hs'.run hs'.stops
    exact hc' hc
  | @corrupt ps hs hp hc =>
    -- a sealed segment with a torn tail is refused, and repaired as the active one
    by_cases htorn : TornAt config.segmentSize config.maxRecordSize f.data (headerSize + runSize ps)
        (base + ps.length)
    · obtain ⟨d', hr, -⟩ := recoverOne_of_tailOk config hf hs hp (.torn htorn)
      rw [hr]
      simp only [Prod.mk.injEq, reduceCtorEq, false_and, exists_false, false_iff]
      intro hpast
      obtain ⟨qs, hs', -, -, ht'⟩ := hpast hs.header hp
      obtain rfl := hs.run.eq_of_stops hs.stops hs'.run hs'.stops
      exact ht' htorn
    · rw [recoverOne_of_fatal config hf hs hp true hc fun _ => htorn]
      constructor
      · rintro ⟨w, hw⟩ - -
        refine ⟨ps, hs, ?_, hc, htorn⟩
        by_contra hle
        simp [fatalError, Nat.not_lt.mp hle] at hw
      · intro hpast
        obtain ⟨qs, hs', hlt, -⟩ := hpast hs.header hp
        obtain rfl := hs.run.eq_of_stops hs.stops hs'.run hs'.stops
        exact ⟨⟨d, []⟩, by simp [fatalError, Nat.not_le.mpr hlt]⟩

theorem Passes.append {xs ys : List ℕ} (h : Passes config d prevMax (xs ++ ys) prevMax') :
    ∃ pm, Passes config d prevMax xs pm ∧ Passes config d pm ys prevMax' := by
  induction xs generalizing prevMax with
  | nil => exact ⟨prevMax, .nil _, h⟩
  | cons x xs ih =>
    cases h with
    | cons hf ht hrest =>
      obtain ⟨pm, hx, hy⟩ := ih hrest
      exact ⟨pm, .cons hf ht hx, hy⟩

/-- The active segment decides if all below it pass. -/
theorem Passes.recoverFound {b : ℕ} (h : Passes config d none pre prevMax') (seed : ℕ) :
    ∃ g : SegmentRecovery → Recovered, recoverFound config seed (pre ++ [b]) ⟨d, []⟩ =
      (g <$> recoverOne config prevMax' b true) ⟨d, []⟩ := by
  obtain ⟨base, bases, hb⟩ : ∃ base bases, pre ++ [b] = base :: bases :=
    List.exists_cons_of_ne_nil (by simp)
  have hall := h.recoverSegments hb.symm
  rw [OpenWal.recoverSegments] at hall
  refine ⟨fun seg => ⟨filenameFor (bases.getLastD base), seg.writeOffset, seg.maxLsn, base,
    base :: bases, seg.tailState⟩, ?_⟩
  rw [hb, OpenWal.recoverFound, recoverAll, Prog.bind_run, Prog.andThen, hall]
  rfl

/-- A segment below the active one that is refused decides. -/
theorem Refused.recoverFound {b seed : ℕ} (h : Refused config d prevMax' b e)
    (hpre : Passes config d none pre prevMax') (hrest : rest ≠ []) :
    recoverFound config seed (pre ++ b :: rest) ⟨d, []⟩ = (.err e, ⟨d, []⟩) := by
  obtain ⟨base, bases, hb⟩ : ∃ base bases, pre ++ b :: rest = base :: bases :=
    List.exists_cons_of_ne_nil (by simp)
  obtain ⟨c, cs, rfl⟩ := List.exists_cons_of_ne_nil hrest
  rw [hb, OpenWal.recoverFound, recoverAll]
  exact Prog.bind_of_err ((hpre.recoverSegments hb.symm).trans h.recoverSegments)

/-- A refusal of the active segment writes nothing. -/
theorem recoverOne_eq_err {isActive : Bool} {w : World} (hf : d.file (filenameFor base) = some f)
    (h : recoverOne config prevMax base isActive ⟨d, []⟩ = (.err e, w)) : w = ⟨d, []⟩ := by
  by_cases hh : HeaderOk f.data base
  swap
  · rw [recoverOne_of_badHeader config isActive hf hh] at h
    exact (Prod.mk.inj h).2.symm
  by_cases hp : Follows prevMax base
  swap
  · rw [recoverOne_of_gap config isActive hf hh hp] at h
    exact (Prod.mk.inj h).2.symm
  obtain ⟨ps, hs⟩ := hh.exists_holds config.segmentSize config.maxRecordSize
  by_cases hc : CleanAt config.segmentSize f.data (headerSize + runSize ps)
  · rw [recoverOne_of_cleanAt config hf hs hp isActive hc] at h
    simp at h
  by_cases ht : isActive = true ∧ TornAt config.segmentSize config.maxRecordSize f.data
      (headerSize + runSize ps) (base + ps.length)
  · obtain ⟨rfl, ht⟩ := ht
    obtain ⟨d', hr, -⟩ := recoverOne_of_tailOk config hf hs hp (.torn ht)
    rw [hr] at h
    simp at h
  · rw [recoverOne_of_fatal config hf hs hp isActive hc fun ha ht' => ht ⟨ha, ht'⟩] at h
    exact (Prod.mk.inj h).2.symm

/-- A refused directory keeps its files. -/
theorem recoverFound_eq_err {seed : ℕ} {w : World} (hseed : seed ≤ u64Max) (hv : config.Valid)
    (h : recoverFound config seed (basesOf d) ⟨d, []⟩ = (.err e, w)) :
    w = ⟨d, []⟩ ∧ basesOf d ≠ [] := by
  rcases List.eq_nil_or_concat (basesOf d) with hnone | ⟨lower, top, hb⟩
  · have := hv.room
    obtain ⟨created, d', hr, -⟩ := recoverFound_of_none config hnone hseed (by omega)
    rw [hr] at h
    simp at h
  · rw [List.concat_eq_append] at hb
    refine ⟨?_, by simp [hb]⟩
    have hfiles : ∀ b ∈ lower ++ [top], ∃ f, d.file (filenameFor b) = some f :=
      fun b hm => (mem_basesOf.mp (hb ▸ hm)).2
    rcases passes_or_refused config none fun b hm => hfiles b (List.mem_append_left _ hm) with
      ⟨pm, hpass⟩ | ⟨pre, b, post, pm, e', rfl, hpre, href⟩
    · obtain ⟨f, hf⟩ := hfiles top (by simp)
      obtain ⟨g, hr⟩ := hpass.recoverFound (b := top) seed
      rw [hb, hr] at h
      exact recoverOne_eq_err hf (Prog.map_eq_err h)
    · rw [hb, List.append_assoc, List.cons_append, href.recoverFound hpre (by simp)] at h
      exact (Prod.mk.inj h).2.symm

/-- What is handed on by the turn of a segment that holds `ps`. -/
theorem SealedTurn.ok_eq {last : ℕ} {ps : List Bytes} (h : SealedTurn config f prevMax base (.ok last))
    (hs : SegmentHolds config.segmentSize config.maxRecordSize f.data base ps) :
    Follows prevMax base ∧ last + 1 = base + ps.length := by
  cases h with
  | @passed qs hs' hp hc hne =>
    obtain rfl := hs'.run.eq_of_stops hs'.stops hs.run hs.stops
    have := hs.header.pos
    exact ⟨hp, by omega⟩

/-- A sealed segment whose records do not end where the next segment starts is not
accepted. -/
theorem recoverFound_of_mismatch {post : List ℕ} {b : ℕ} {ps : List Bytes} (seed : ℕ)
    (hb : basesOf d = pre ++ b :: next :: post) (hf : d.file (filenameFor b) = some f)
    (hs : SegmentHolds config.segmentSize config.maxRecordSize f.data b ps)
    (hne : b + ps.length ≠ next) :
    ∃ e, recoverFound config seed (basesOf d) ⟨d, []⟩ = (.err e, ⟨d, []⟩) := by
  have hfiles : ∀ c ∈ pre ++ b :: next :: post, ∃ g, d.file (filenameFor c) = some g :=
    fun c hc => (mem_basesOf.mp (hb ▸ hc)).2
  -- the segments below the active one, which is `next` or a later one
  obtain ⟨lower, top, hsplit⟩ : ∃ lower top, b :: next :: post = b :: (lower ++ [top]) := by
    obtain ⟨lower, top, h⟩ := (List.eq_nil_or_concat (next :: post)).resolve_left (by simp)
    exact ⟨lower, top, by rw [h, List.concat_eq_append]⟩
  have hbases : basesOf d = (pre ++ b :: lower) ++ [top] := by
    rw [hb, hsplit]
    simp
  have hlower : ∀ c ∈ pre ++ b :: lower, ∃ g, d.file (filenameFor c) = some g :=
    fun c hc => (mem_basesOf.mp (by rw [hbases]; exact List.mem_append_left _ hc)).2
  rw [hbases]
  rcases passes_or_refused config none hlower with
    ⟨pm, hpass⟩ | ⟨pre', c, post', pm, e, hl, hpass, href⟩
  · obtain ⟨pm₁, -, hpass'⟩ := hpass.append
    cases hpass' with
    | @cons _ _ _ last f' _ hf' ht hrest =>
      obtain rfl := Option.some.inj (hf'.symm.trans hf)
      obtain ⟨-, hlast⟩ := ht.ok_eq hs
      have hgap : ¬ Follows (some last) next := by
        intro hfol
        have := (checkedNext_eq_some.mp (hfol last rfl)).2
        omega
      cases lower with
      | nil =>
        -- the active segment comes next
        obtain ⟨rfl, rfl⟩ : next = top ∧ post = [] := by simpa using hsplit
        cases hrest
        obtain ⟨g, hg⟩ := hfiles next (by simp)
        obtain ⟨k, hr⟩ := hpass.recoverFound (b := next) seed
        rw [hr]
        by_cases hh : HeaderOk g.data next
        · exact ⟨_, Prog.map_of_err (recoverOne_of_gap config true hg hh hgap)⟩
        · exact ⟨_, Prog.map_of_err (recoverOne_of_badHeader config true hg hh)⟩
      | cons c lower =>
        obtain ⟨rfl, -⟩ : next = c ∧ post = lower ++ [top] := by simpa using hsplit
        cases hrest with
        | cons hg ht' _ =>
          cases ht' with
          | passed _ hp => exact absurd hp hgap
  · exact ⟨e, by
      rw [hl, List.append_assoc, List.cons_append]
      exact href.recoverFound hpass (by simp)⟩

/-- A highest segment that is neither accepted nor taken for an interrupted creation. -/
theorem discardIncompleteHighest_of_refused (hb : bases.getLast? = some base)
    (hf : d.file (filenameFor base) = some f) (hh : ¬ HeaderOk f.data base)
    (hi : ¬ Incomplete config.segmentSize config.maxRecordSize f.data base) :
    discardIncompleteHighest bases config ⟨d, []⟩ = (.err .badSegmentHeader, ⟨d, []⟩) := by
  have hv : isIncompleteCreate f.data base config = .error .badSegmentHeader := by
    have hfalse := fun h => hh (isIncompleteCreate_eq_false config h)
    have htrue := fun h => hi ((isIncompleteCreate_iff config).mp h)
    unfold isIncompleteCreate at hfalse htrue ⊢
    split
    · rename_i header hheader
      simp only [hheader] at hfalse htrue
      split_ifs at hfalse htrue ⊢ with hd
      · exact absurd rfl hfalse
      · split at htrue
        · rfl
        · exact absurd rfl htrue
    · rename_i hheader
      simp only [hheader] at htrue
      split_ifs at htrue ⊢ with hz
      · rfl
      · exact absurd rfl htrue
  rw [discardIncompleteHighest, hb]
  simp only
  rw [Prog.bind_of_ret (Prog.mapErr_of_ret (openFile_calm hf)), hv]
  rfl

/-- The discard either ends with the segments to recover, or refuses the highest one. -/
theorem discards_or_refused (config : WalConfig) (d : Disk) : (∃ d₀, Discards config d d₀) ∨
    ∃ base f, (basesOf d).getLast? = some base ∧ d.file (filenameFor base) = some f ∧
      ¬ HeaderOk f.data base ∧ ¬ Incomplete config.segmentSize config.maxRecordSize f.data base := by
  cases hb : (basesOf d).getLast? with
  | none => exact Or.inl ⟨d, .nothing (List.getLast?_eq_none_iff.mp hb)⟩
  | some base =>
    obtain ⟨-, f, hf⟩ := mem_basesOf.mp (List.mem_of_getLast? hb)
    by_cases hh : HeaderOk f.data base
    · exact Or.inl ⟨d, .keep hb hf hh⟩
    by_cases hi : Incomplete config.segmentSize config.maxRecordSize f.data base
    · exact Or.inl ⟨_, .drop hb hf hi⟩
    · exact Or.inr ⟨base, f, rfl, hf, hh, hi⟩

theorem recoverDirectory_of_refused (seed : ℕ) (hb : (basesOf d).getLast? = some base)
    (hf : d.file (filenameFor base) = some f) (hh : ¬ HeaderOk f.data base)
    (hi : ¬ Incomplete config.segmentSize config.maxRecordSize f.data base) :
    recoverDirectory config seed ⟨d, []⟩ = (.err .badSegmentHeader, ⟨d, []⟩) := by
  rw [recoverDirectory, Prog.bind_of_ret (discoverSegments_calm d),
    Prog.bind_of_err (discardIncompleteHighest_of_refused hb hf hh hi)]

/-- The errors that speak of the directory's content. -/
def WalError.IsFatal : WalError → Prop
  | .badSegmentHeader => True
  | .corruption .. => True
  | .tornMidLog .. => True
  | .contiguityViolation => True
  | _ => False

theorem SealedTurn.isFatal (h : SealedTurn config f prevMax base (.error e)) : e.IsFatal := by
  cases h with
  | badHeader => trivial
  | gap => trivial
  | empty => trivial
  | corrupt =>
    unfold fatalError
    split_ifs <;> trivial

theorem SealedTurn.badHeader_iff (h : SealedTurn config f prevMax base (.error e)) :
    e = .badSegmentHeader ↔ ¬ HeaderOk f.data base := by
  cases h with
  | badHeader hh => simp [hh]
  | gap hh => simp [hh]
  | empty hs => simp [hs.header]
  | corrupt hs =>
    unfold fatalError
    split_ifs <;> simp_all [hs.header]

/-- A fatal error comes from recovering the directory. -/
theorem openSeeded_eq_fatal {seed : ℕ} {w : World} (hseed : 1 ≤ seed)
    (h : openSeeded config seed ⟨d, []⟩ = (.err e, w)) (he : e.IsFatal) :
    config.Valid ∧ d.locked = false ∧ ∃ w', recoverDirectory config seed ⟨acquired d, []⟩ = (.err e, w') ∧
      w = unlock w' := by
  have hv : config.Valid := by
    by_contra hv
    rw [openSeeded, if_pos (Nat.not_le.mp hv)] at h
    obtain rfl := Outcome.err.inj (Prod.mk.inj h).1
    exact he
  have hl : d.locked = false := by
    by_contra hl
    obtain ⟨w', hlock⟩ := lockDirectory_locked (by simpa using hl : d.locked = true)
    rw [openSeeded, if_neg (Nat.not_lt.mpr hv), if_neg (by simp [isNone]; omega),
      Prog.bind_of_err hlock] at h
    obtain rfl := Outcome.err.inj (Prod.mk.inj h).1
    exact he
  refine ⟨hv, hl, ?_⟩
  rw [openSeeded_locked hv hseed hl, Prog.bind_run, Prog.andThen, Prog.onError] at h
  rcases hr : recoverDirectory config seed ⟨acquired d, []⟩ with ⟨o, w'⟩
  rw [hr] at h
  cases o with
  | ret a => simp at h
  | err e' =>
    obtain ⟨he', hw⟩ := Prod.mk.inj h
    obtain rfl := Outcome.err.inj he'
    exact ⟨w', rfl, hw.symm⟩
  | crashed => simp at h
  | diverged => simp at h

end OpenWal
