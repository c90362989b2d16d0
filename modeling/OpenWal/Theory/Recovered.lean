import OpenWal.Theory.Replay
import OpenWal.Theory.Verdicts

namespace OpenWal
open ByteSeq Posix CrashProg

variable [Crc32c]

variable {config : WalConfig} {d d₀ d₁ : Disk} {oldest seed : ℕ} {sealed : List (List Bytes)}
  {active : List Bytes} {f f' : File} {ts : TailState}

theorem recoverOne_total {base : ℕ} (prevMax : Option ℕ) (hf : d.file (filenameFor base) = some f) :
    (∃ seg w, recoverOne config prevMax base true ⟨d, []⟩ = (.ret seg, w)) ∨
      ∃ e w, recoverOne config prevMax base true ⟨d, []⟩ = (.err e, w) := by
  by_cases hh : HeaderOk f.data base
  · by_cases hp : Follows prevMax base
    · obtain ⟨ps, hs⟩ := hh.exists_holds config.segmentSize config.maxRecordSize
      by_cases hc : CleanAt config.segmentSize f.data (headerSize + runSize ps)
      · exact Or.inl ⟨_, _, recoverOne_of_cleanAt config hf hs hp true hc⟩
      · by_cases ht : TornAt config.segmentSize config.maxRecordSize f.data (headerSize + runSize ps)
            (base + ps.length)
        · obtain ⟨d', hr, -⟩ := recoverOne_of_tailOk config hf hs hp (.torn ht)
          exact Or.inl ⟨_, _, hr⟩
        · exact Or.inr ⟨_, _, recoverOne_of_fatal config hf hs hp true hc fun _ => ht⟩
    · exact Or.inr ⟨_, _, recoverOne_of_gap config true hf hh hp⟩
  · exact Or.inr ⟨_, _, recoverOne_of_badHeader config true hf hh⟩

variable (config) in
theorem recoverSegments_total (prevMax : Option ℕ) (base : ℕ) (rest : List ℕ)
    (hd : ∀ b ∈ base :: rest, ∃ f, d.file (filenameFor b) = some f) :
    (∃ seg w, recoverSegments config prevMax base rest ⟨d, []⟩ = (.ret seg, w)) ∨
      ∃ e w, recoverSegments config prevMax base rest ⟨d, []⟩ = (.err e, w) := by
  obtain ⟨f, hf⟩ := hd base List.mem_cons_self
  induction rest generalizing prevMax base f with
  | nil => exact recoverOne_total prevMax hf
  | cons next rest ih =>
    obtain ⟨r, hr⟩ := SealedTurn.total config f prevMax base
    rw [hr.recoverSegments hf]
    cases r with
    | error e => exact Or.inr ⟨e, _, rfl⟩
    | ok last =>
      have hrest := fun b hb => hd b (List.mem_cons_of_mem base hb)
      obtain ⟨g, hg⟩ := hrest next List.mem_cons_self
      exact ih (some last) next hrest g hg

theorem recoverDirectory_total (hv : config.Valid) (hs : seed ≤ u64Max) :
    (∃ found w, recoverDirectory config seed ⟨acquired d, []⟩ = (.ret found, w)) ∨
      ∃ e w, recoverDirectory config seed ⟨acquired d, []⟩ = (.err e, w) := by
  rcases discards_or_refused config (acquired d) with ⟨d₀, hdis⟩ | ⟨base, f, hb, hf, hh, hi⟩
  · rw [recoverDirectory_of_discards hdis seed]
    cases hb : basesOf d₀ with
    | nil =>
      obtain ⟨created, d', hr, -⟩ := recoverFound_of_none config hb hs
        ((Nat.le_add_right _ _).trans hv.room)
      exact Or.inl ⟨_, _, hb ▸ hr⟩
    | cons base rest =>
      rw [recoverFound, recoverAll]
      rcases recoverSegments_total config none base rest fun b hm =>
          (mem_basesOf.mp (hb ▸ hm)).2 with ⟨seg, w, h⟩ | ⟨e, w, h⟩
      · exact Or.inl ⟨_, _, Prog.bind_of_ret h⟩
      · exact Or.inr ⟨_, _, Prog.bind_of_err h⟩
  · exact Or.inr ⟨_, _, recoverDirectory_of_refused seed hb hf hh hi⟩

variable (config d) in
/-- An `open` that meets no failing call returns a log or an error. -/
theorem openSeeded_total (hs : seed ≤ u64Max) :
    (∃ r w, openSeeded config seed ⟨d, []⟩ = (.ret r, w)) ∨
      ∃ e w, openSeeded config seed ⟨d, []⟩ = (.err e, w) := by
  -- the three checks before any file is read
  by_cases hv : config.Valid
  case neg => exact Or.inr ⟨_, _, by rw [openSeeded, if_pos (Nat.not_le.mp hv)]; rfl⟩
  by_cases hseed : 1 ≤ seed
  case neg =>
    exact Or.inr ⟨_, _, by
      rw [openSeeded, if_neg (Nat.not_lt.mpr hv), if_pos (by simp [isNone]; omega)]; rfl⟩
  by_cases hl : d.locked = false
  case neg =>
    obtain ⟨w, hlock⟩ := lockDirectory_locked (d := d) (by simpa using hl)
    exact Or.inr ⟨_, _, by
      rw [openSeeded, if_neg (Nat.not_lt.mpr hv), if_neg (by simp [isNone]; omega),
        Prog.bind_of_err hlock]⟩
  rcases recoverDirectory_total (d := d) hv hs with ⟨found, w, h⟩ | ⟨e, w, h⟩
  · refine Or.inl ⟨(found.wal config, found.report), w, ?_⟩
    rw [openSeeded_locked hv hseed hl, Prog.bind_of_ret (Prog.onError_of_ret h)]
    rfl
  · exact Or.inr ⟨e, _, openSeeded_of_err hv hseed hl h⟩

/-- `open` returns the handle and the report, and a replay of the log then yields `rs`. -/
def Recovers (config : WalConfig) (d : Disk) (seed : ℕ) (wal : Wal) (rep : RecoveryReport)
    (rs : List (ℕ × Bytes)) : Prop :=
  ∃ w r, openSeeded config seed ⟨d, []⟩ = (.ret (wal, rep), w) ∧ readerFrom wal w.disk 0 = .ok r ∧
    r.drain w.disk = (rs, none)

theorem drain_of_logOn (h : LogOn config.segmentSize config.maxRecordSize d oldest sealed active f) :
    ∃ r, readerFrom (handleOn config oldest sealed active [] []) d 0 = .ok r ∧
      r.drain d = (numbered oldest (sealed.flatten ++ active), none) := by
  obtain ⟨r, hr, hdrain⟩ := drain_readerFrom [] [] h (show 0 = 0 ∨ oldest ≤ 0 from Or.inl rfl)
  rw [Nat.max_zero, Nat.zero_sub, List.drop_zero] at hdrain
  exact ⟨r, hr, hdrain⟩

theorem recovers_of_logOn (hv : config.Valid) (hseed : 1 ≤ seed) (hl : d.locked = false)
    (hdis : Discards config (acquired d) d₀)
    (h : LogOn config.segmentSize config.maxRecordSize d₀ oldest sealed active f)
    (ht : TailOk config.segmentSize config.maxRecordSize f (activeBase oldest sealed)
      (headerSize + runSize active) (activeBase oldest sealed + active.length) ts f') :
    Recovers config d seed (handleOn config oldest sealed active [] [])
      (reportOn oldest sealed active ts) (numbered oldest (sealed.flatten ++ active)) := by
  obtain ⟨d', hr, hset⟩ := recoverFound_of_logOn seed h ht
  obtain ⟨r, hreader, hdrain⟩ := drain_of_logOn (h.setActive hset (ht.holds h.holds).1)
  exact ⟨_, r, openSeeded_of_recovered hv hseed hl ((recoverDirectory_of_discards hdis seed).trans hr),
    hreader, hdrain⟩

theorem recovers_of_none (hv : config.Valid) (hseed : 1 ≤ seed) (hs : seed ≤ u64Max)
    (hl : d.locked = false) (hdis : Discards config (acquired d) d₀) (h : basesOf d₀ = []) :
    Recovers config d seed (handleOn config seed [] [] [] []) (reportOn seed [] [] .clean) [] := by
  obtain ⟨created, d', hr, hset⟩ := recoverFound_of_none config h hs
    ((Nat.le_add_right _ _).trans hv.room)
  obtain ⟨r, hreader, hdrain⟩ := drain_of_logOn (logOn_fresh config.maxRecordSize hseed hs hv.room h hset)
  exact ⟨_, r, openSeeded_of_recovered hv hseed hl ((recoverDirectory_of_discards hdis seed).trans hr),
    hreader, hdrain⟩

/-- A log that was opened can be replayed. -/
theorem recovers_of_openSeeded {wal : Wal} {rep : RecoveryReport} {w : World} (hs : seed ≤ u64Max)
    (h : openSeeded config seed ⟨d, []⟩ = (.ret (wal, rep), w)) :
    ∃ rs, Recovers config d seed wal rep rs := by
  obtain ⟨hv, hseed, d', rfl, hopens⟩ := openSeeded_opens hs h
  obtain ⟨oldest, sealed, active, ts, f', rfl, rfl, hlog, -⟩ := hopens.log hv hseed hs
  obtain ⟨r, hreader, hdrain⟩ := drain_of_logOn hlog
  exact ⟨_, _, r, h, hreader, hdrain⟩

def reportOf (config : WalConfig) (seed : ℕ) (d : Disk) : Option RecoveryReport :=
  match (openSeeded config seed ⟨d, []⟩).1 with
  | .ret (_, rep) => some rep
  | _ => none

theorem openSeeded_of_reportOf {rep : RecoveryReport} (h : reportOf config seed d = some rep) :
    ∃ wal w, openSeeded config seed ⟨d, []⟩ = (.ret (wal, rep), w) := by
  unfold reportOf at h
  split at h
  · rename_i wal rep' hopen
    obtain rfl := Option.some.inj h
    exact ⟨wal, _, Prod.ext hopen rfl⟩
  · simp at h

def refusalOf (config : WalConfig) (seed : ℕ) (d : Disk) : Option WalError :=
  match (openSeeded config seed ⟨d, []⟩).1 with
  | .err e => some e
  | _ => none

theorem openSeeded_of_refusalOf {e : WalError} (h : refusalOf config seed d = some e) :
    ∃ w, openSeeded config seed ⟨d, []⟩ = (.err e, w) := by
  unfold refusalOf at h
  split at h
  · rename_i e' hopen
    obtain rfl := Option.some.inj h
    exact ⟨_, Prod.ext hopen rfl⟩
  · simp at h

def replayOf (config : WalConfig) (seed : ℕ) (d : Disk) : Option (List (ℕ × Bytes)) :=
  match openSeeded config seed ⟨d, []⟩ with
  | (.ret (wal, _), w) =>
    match readerFrom wal w.disk 0 with
    | .ok r => if (r.drain w.disk).2 = none then some (r.drain w.disk).1 else none
    | .error _ => none
  | _ => none

theorem recovers_of_replayOf {rs : List (ℕ × Bytes)} (h : replayOf config seed d = some rs) :
    ∃ wal rep, Recovers config d seed wal rep rs := by
  unfold replayOf at h
  split at h
  · rename_i wal rep w hopen
    split at h
    · rename_i r hreader
      split_ifs at h with hend
      exact ⟨wal, rep, w, r, hopen, hreader, Prod.ext (Option.some.inj h) hend⟩
    · simp at h
  · simp at h

/-- What is recovered is what the segments hold once an incomplete highest one is gone. -/
theorem Recovers.cases {wal : Wal} {rep : RecoveryReport} {rs : List (ℕ × Bytes)}
    (h : Recovers config d seed wal rep rs) (hs : seed ≤ u64Max) :
    config.Valid ∧ 1 ≤ seed ∧ d.locked = false ∧ ∃ d₀, Discards config (acquired d) d₀ ∧
      ∃ oldest sealed active ts, wal = handleOn config oldest sealed active [] [] ∧
        rep = reportOn oldest sealed active ts ∧
        rs = numbered oldest (sealed.flatten ++ active) ∧
        (basesOf d₀ = [] ∧ oldest = seed ∧ sealed = [] ∧ active = [] ∨ ∃ f f',
          LogOn config.segmentSize config.maxRecordSize d₀ oldest sealed active f ∧
          TailOk config.segmentSize config.maxRecordSize f (activeBase oldest sealed)
            (headerSize + runSize active) (activeBase oldest sealed + active.length) ts f') := by
  obtain ⟨w, r, hopen, hreader, hdrain⟩ := h
  have hl := (openSeeded_eq_ret_recovered hopen).2.2.1
  obtain ⟨hv, hseed, d', rfl, hopens⟩ := openSeeded_opens hs hopen
  have hrecords : ∀ {oldest sealed active f}, wal = handleOn config oldest sealed active [] [] →
      LogOn config.segmentSize config.maxRecordSize d' oldest sealed active f →
      rs = numbered oldest (sealed.flatten ++ active) := by
    intro oldest sealed active f hw hlog
    subst hw
    obtain ⟨r', hreader', hdrain'⟩ := drain_of_logOn hlog
    obtain rfl := Except.ok.inj (hreader.symm.trans hreader')
    exact (Prod.mk.inj (hdrain.symm.trans hdrain')).1
  refine ⟨hv, hseed, hl, ?_⟩
  cases hopens with
  | created hdis hnone hset =>
    exact ⟨_, hdis, seed, [], [], .clean, rfl, rfl,
      hrecords rfl (logOn_fresh config.maxRecordSize hseed hs hv.room hnone hset),
      Or.inl ⟨hnone, rfl, rfl, rfl⟩⟩
  | recovered hdis hlog ht hset =>
    exact ⟨_, hdis, _, _, _, _, rfl, rfl,
      hrecords rfl (hlog.setActive hset (ht.holds hlog.holds).1), Or.inr ⟨_, _, hlog, ht⟩⟩

end OpenWal
