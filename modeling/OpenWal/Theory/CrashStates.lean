import OpenWal.Theory.FailingCalls
import OpenWal.Theory.Recovered
import OpenWal.Theory.Reopen
import OpenWal.Theory.Verdicts

namespace OpenWal
open ByteSeq Posix CrashProg

variable [Crc32c]

def CleanSealed (config : WalConfig) (d : Disk) : ℕ → List (List Bytes) → Prop :=
  ChainFrom fun b ps => ∀ f, d.file (filenameFor b) = some f →
    CleanAt config.segmentSize f.data (headerSize + runSize ps)

variable {config : WalConfig} {d d' d₀ : Disk} {oldest seed b : ℕ} {sealed : List (List Bytes)}
  {active qs : List Bytes} {f g : File} {wal : Wal} {rep : RecoveryReport}

omit [Crc32c] in
theorem CleanSealed.congr (h : CleanSealed config d oldest sealed)
    (hd : ∀ b, oldest ≤ b → b ≤ activeBase oldest sealed →
      d'.file (filenameFor b) = d.file (filenameFor b)) : CleanSealed config d' oldest sealed :=
  h.imp fun b _ hb hle hc f hf => hc f ((hd b hb (by omega)).symm.trans hf)

/-- Behind the records of the active segment there is nothing that keeps it from being
recovered. -/
def InertActive (config : WalConfig) (oldest : ℕ) (sealed : List (List Bytes)) (active : List Bytes)
    (f : File) : Prop :=
  Inert config.segmentSize config.maxRecordSize f.data (headerSize + runSize active)
    (activeBase oldest sealed + active.length)

theorem Discards.unique {d₁ : Disk} (h : Discards config d d₀) (h' : Discards config d d₁) : d₀ = d₁ := by
  have heq := (discardIncompleteHighest_of_discards h).symm.trans (discardIncompleteHighest_of_discards h')
  simp only [Prod.mk.injEq, Env.mk.injEq] at heq
  exact heq.2.1

/-- A segment file that is neither whole nor an interrupted creation stops recovery. -/
theorem not_recovers_of_refused {rs : List (ℕ × Bytes)} (hseed : seed ≤ u64Max)
    (hb : (basesOf d).getLast? = some b) (hf : d.file (filenameFor b) = some f)
    (hh : ¬ HeaderOk f.data b)
    (hi : ¬ Incomplete config.segmentSize config.maxRecordSize f.data b) :
    ¬ Recovers config d seed wal rep rs := by
  intro h
  obtain ⟨-, -, -, d₀, hdis, -⟩ := h.cases hseed
  have heq := (discardIncompleteHighest_of_discards hdis).symm.trans
    (discardIncompleteHighest_of_refused hb hf hh hi)
  simp at heq

namespace Carries

theorem sealedFrom (h : Carries config d oldest sealed active f) (hc : CleanSealed config d oldest sealed) :
    SealedFrom config.segmentSize config.maxRecordSize d oldest sealed :=
  (h.chain.and hc).imp fun _ _ _ _ ⟨⟨hne, g, hg, hh, hr⟩, hclean⟩ =>
    ⟨hne, g, hg, ⟨hh, hr, (hclean g hg).stops⟩, hclean g hg⟩

/-- The log is recovered where its segments end well. -/
theorem recovers (h : Carries config d₀ oldest sealed active f) (hv : config.Valid) (hseed : 1 ≤ seed)
    (hl : d.locked = false) (hdis : Discards config (acquired d) d₀)
    (hc : CleanSealed config d₀ oldest sealed) (hi : InertActive config oldest sealed active f) :
    ∃ ts, Recovers config d seed (handleOn config oldest sealed active [] [])
      (reportOn oldest sealed active ts) (numbered oldest (sealed.flatten ++ active)) := by
  rcases hi with hclean | ⟨hstops, ht⟩
  · exact ⟨_, recovers_of_logOn hv hseed hl hdis
      ⟨h.bases, h.sealedFrom hc, h.file, h.header, h.run, hclean.stops⟩ (.clean hclean)⟩
  · exact ⟨_, recovers_of_logOn hv hseed hl hdis
      ⟨h.bases, h.sealedFrom hc, h.file, h.header, h.run, hstops⟩ (.torn ht)⟩

/-- The names of the files and the records in them say which segments a log has. -/
theorem segments_unique {oldest' : ℕ} {sealed' : List (List Bytes)} {active' : List Bytes}
    (h : Carries config d oldest sealed active f) (h' : Carries config d oldest' sealed' active' g) :
    oldest = oldest' ∧ sealed = sealed' ∧ f = g := by
  have hbases := h.bases.symm.trans h'.bases
  obtain rfl : oldest = oldest' := by
    obtain ⟨rest, hr⟩ := basesFrom_eq_cons oldest sealed
    obtain ⟨rest', hr'⟩ := basesFrom_eq_cons oldest' sealed'
    rw [hr, hr'] at hbases
    exact (List.cons.inj hbases).1
  obtain rfl : sealed = sealed' := by
    apply h.chain.eq_of_basesFrom h'.chain hbases
    rintro c ps qs ⟨-, g₁, hg₁, -, hr₁⟩ ⟨-, g₂, hg₂, -, hr₂⟩ hlen
    obtain rfl := Option.some.inj (hg₁.symm.trans hg₂)
    rcases hr₁.prefix_total hr₂ with hp | hp
    · exact hp.eq_of_length hlen
    · exact (hp.eq_of_length hlen.symm).symm
  exact ⟨rfl, rfl, Option.some.inj (h.file.symm.trans h'.file)⟩

/-- The number of the last record says which the records are. -/
theorem unique {oldest' : ℕ} {sealed' : List (List Bytes)} {active' : List Bytes}
    (h : Carries config d oldest sealed active f) (h' : Carries config d oldest' sealed' active' g)
    (hlen : activeBase oldest sealed + active.length = activeBase oldest' sealed' + active'.length) :
    oldest = oldest' ∧ sealed = sealed' ∧ active = active' ∧ f = g := by
  obtain ⟨rfl, rfl, rfl⟩ := h.segments_unique h'
  refine ⟨rfl, rfl, ?_, rfl⟩
  rcases h.run.prefix_total h'.run with hp | hp
  · exact hp.eq_of_length (by omega)
  · exact (hp.eq_of_length (by omega)).symm

/-- What is recovered is in the segments of the log, and they end well behind it. -/
theorem of_recovers {rs : List (ℕ × Bytes)} (h : Carries config d₀ oldest sealed active f)
    (hseed : seed ≤ u64Max) (hdis : Discards config (acquired d) d₀)
    (hrec : Recovers config d seed wal rep rs) :
    ∃ qs, rs = numbered oldest (sealed.flatten ++ qs) ∧
      rep.durableLsn = activeBase oldest sealed + qs.length - 1 ∧
      CleanSealed config d₀ oldest sealed ∧
      Run config.segmentSize config.maxRecordSize f.data headerSize (activeBase oldest sealed) qs ∧
      InertActive config oldest sealed qs f := by
  obtain ⟨-, -, -, d₁, hdis', oldest', sealed', active', ts, -, rfl, hrs, hcases⟩ := hrec.cases hseed
  obtain rfl := hdis.unique hdis'
  rcases hcases with ⟨hnone, -⟩ | ⟨g, g', hlog, ht⟩
  · have hlast := h.getLast?_bases
    simp [hnone] at hlast
  · obtain ⟨rfl, rfl, rfl⟩ := h.segments_unique hlog.carries
    refine ⟨active', hrs, rfl, hlog.chain.imp ?_, hlog.holds.run, ?_⟩
    · rintro c ps - - ⟨-, g₁, hg₁, -, hclean⟩ g₂ hg₂
      obtain rfl := Option.some.inj (hg₁.symm.trans hg₂)
      exact hclean
    · cases ht with
      | clean hclean => exact Or.inl hclean
      | torn ht => exact Or.inr ⟨hlog.holds.stops, ht⟩

/-- Where all of the log is recovered, or as many records, its segments end well. -/
theorem endsWell_of_recovers {rs : List (ℕ × Bytes)} (h : Carries config d₀ oldest sealed active f)
    (hseed : seed ≤ u64Max) (hdis : Discards config (acquired d) d₀)
    (hrec : Recovers config d seed wal rep rs)
    (hdurable : rep.durableLsn + 1 = activeBase oldest sealed + active.length) :
    CleanSealed config d₀ oldest sealed ∧ InertActive config oldest sealed active f := by
  obtain ⟨qs, -, hd, hclean, hrun, hi⟩ := h.of_recovers hseed hdis hrec
  have hpos := h.activeBase_pos
  have hlen : qs.length = active.length := by omega
  obtain rfl : qs = active := by
    rcases hrun.prefix_total h.run with hp | hp
    · exact hp.eq_of_length hlen
    · exact (hp.eq_of_length hlen.symm).symm
  exact ⟨hclean, hi⟩

omit [Crc32c] in
theorem eq_of_numbered {ps : List Bytes}
    (h : numbered oldest (sealed.flatten ++ ps) = numbered oldest (sealed.flatten ++ qs)) : ps = qs := by
  have heq := congrArg (List.map Prod.snd) h
  rw [numbered_map_snd, numbered_map_snd] at heq
  exact List.append_cancel_left heq

end Carries

/-- The file of the segment `next` is not cut inside its header. -/
def NotCut (next : ℕ) (d' : Disk) : Prop :=
  ∀ g, d'.file (filenameFor next) = some g → g.data = [] ∨ headerSize ≤ g.data.length

/-- In `d'` the segment `next` was begun, and what the segments of `d` hold behind their
records does not keep the log from being recovered. -/
structure TailsAllow (config : WalConfig) (d : Disk) (oldest : ℕ) (sealed : List (List Bytes))
    (active : List Bytes) (f : File) (next : ℕ) (d' : Disk) : Prop where
  clean : CleanSealed config d oldest sealed
  /-- The new file is the active segment. -/
  adopted : ∀ g, d'.file (filenameFor next) = some g → HeaderOk g.data next →
    CleanAt config.segmentSize f.data (headerSize + runSize active)
  /-- It is unlinked, or was never there. -/
  discarded : (∀ g, d'.file (filenameFor next) = some g → ¬ HeaderOk g.data next) →
    InertActive config oldest sealed active f

/-- The files of a log are whole headers at least. -/
theorem Carries.notCut (h : Carries config d oldest sealed active f) : ∀ b ∈ basesOf d, NotCut b d := by
  rw [h.bases]
  refine h.chain.of_mem_basesFrom (R := fun b => NotCut b d) ?_ ?_
  · rintro b ps ⟨-, g, hg, hh, -⟩ g' hg'
    obtain rfl := Option.some.inj (hg.symm.trans hg')
    exact Or.inr hh.le_length
  · intro g hg
    obtain rfl := Option.some.inj (h.file.symm.trans hg)
    exact Or.inr h.header.le_length

section Creation

variable {next : ℕ} (h : Carries config d oldest sealed active f) (hne : active ≠ [])
  (hnext : next = activeBase oldest sealed + active.length) (hle : next ≤ u64Max)
  (hothers : ∀ m, m ≠ filenameFor next → d'.file m = d.file m)

include h hne hnext hle hothers

theorem Carries.getLast?_next (hg : d'.file (filenameFor next) = some g) :
    (basesOf d').getLast? = some next := by
  subst hnext
  rw [h.bases_next hne hle hothers hg, List.getLast?_concat]

omit [Crc32c] h in
theorem cleanSealed_next : CleanSealed config d' oldest sealed ↔ CleanSealed config d oldest sealed := by
  have hlt := List.length_pos_iff.mpr hne
  have hfile : ∀ b, oldest ≤ b → b ≤ activeBase oldest sealed →
      d'.file (filenameFor b) = d.file (filenameFor b) := fun b _ hb =>
    hothers _ (filenameFor_ne (by omega) hle (by omega))
  exact ⟨fun hc => hc.congr fun b h1 h2 => (hfile b h1 h2).symm, fun hc => hc.congr hfile⟩

/-- Without the file the log is as it was. -/
theorem Carries.without_next (hd : ∀ m, m ≠ filenameFor next → d₀.file m = d'.file m)
    (hnone : d₀.file (filenameFor next) = none) : Carries config d₀ oldest sealed active f := by
  apply h.of_file
  intro m
  by_cases hm : m = filenameFor next
  · subst hnext
    rw [hm, hnone, h.next_free hne hle]
  · exact (hd m hm).trans (hothers m hm)

variable (hbegun : BegunFile next config.segmentSize d')

include hbegun

/-- Recovery goes on without a file that was not finished. -/
theorem Carries.discards_next
    (hno : ∀ g, d'.file (filenameFor next) = some g → ¬ HeaderOk g.data next) (hcut : NotCut next d') :
    ∃ d₀, Discards config (acquired d') d₀ ∧ Carries config d₀ oldest sealed active f ∧
      (CleanSealed config d₀ oldest sealed ↔ CleanSealed config d oldest sealed) := by
  cases hg : d'.file (filenameFor next) with
  | none =>
    have hc : Carries config (acquired d') oldest sealed active f :=
      h.without_next hne hnext hle hothers (fun _ _ => rfl) hg
    exact ⟨_, .keep hc.getLast?_bases hc.file hc.header, hc, cleanSealed_next hne hnext hle hothers⟩
  | some g =>
    have hlast := h.getLast?_next hne hnext hle hothers hg
    have hi : Incomplete config.segmentSize config.maxRecordSize g.data next :=
      (hcut g hg).imp id fun hl => ⟨hl, hno g hg, fun lsn p => (hbegun g hg).not_frameAt⟩
    have hrest : ∀ m, m ≠ filenameFor next →
        ((acquired d').remove (filenameFor next)).syncDir.file m = d'.file m := fun m hm =>
      Disk.remove_file_ne _ hm
    refine ⟨_, .drop hlast hg hi, h.without_next hne hnext hle hothers hrest ?_, ?_⟩
    · exact Disk.remove_file_self _ _
    · exact cleanSealed_next hne hnext hle fun m hm => (hrest m hm).trans (hothers m hm)

/-- A file that was finished is an empty active segment. -/
theorem Carries.adopts_next (hss : headerSize + 20 ≤ config.segmentSize)
    (hg : d'.file (filenameFor next) = some g) (hh : HeaderOk g.data next) :
    Carries config (acquired d') oldest (sealed ++ [active]) [] g ∧
      InertActive config oldest (sealed ++ [active]) [] g ∧
      (CleanSealed config (acquired d') oldest (sealed ++ [active]) ↔
        CleanSealed config d oldest sealed ∧
          CleanAt config.segmentSize f.data (headerSize + runSize active)) := by
  have hbelow : d'.file (filenameFor (activeBase oldest sealed)) = some f := by
    have hlt := List.length_pos_iff.mpr hne
    rw [hothers _ (filenameFor_ne (by omega) hle (by omega)), h.file]
  have hzero := (hbegun g hg).zeroOn
  rw [(hbegun g hg).length_of_headerOk (by omega) hh] at hzero
  refine ⟨?_, Or.inl (Or.inr (hzero.mono le_rfl hss)), ?_⟩
  · subst hnext
    exact h.adopt hne hothers hg hh
  · have hsealed : CleanSealed config (acquired d') oldest sealed ↔ CleanSealed config d oldest sealed :=
      cleanSealed_next hne hnext hle hothers
    have hactive : (∀ f', d'.file (filenameFor (activeBase oldest sealed)) = some f' →
        CleanAt config.segmentSize f'.data (headerSize + runSize active)) ↔
        CleanAt config.segmentSize f.data (headerSize + runSize active) := by
      simp [hbelow]
    rw [CleanSealed, ChainFrom.append_iff, ← CleanSealed, hsealed]
    exact and_congr_right' ((and_iff_left trivial).trans hactive)

omit hbegun in
/-- A file of one to 63 bytes is refused. -/
theorem notCut_of_recovers {rs : List (ℕ × Bytes)} (hseed : seed ≤ u64Max)
    (hrec : Recovers config d' seed wal rep rs) : NotCut next d' := by
  intro g hg
  by_contra hcut
  obtain ⟨hne', hlt⟩ := not_or.mp hcut
  refine not_recovers_of_refused hseed (h.getLast?_next hne hnext hle hothers hg) hg
    (fun hh => hlt hh.le_length) ?_ hrec
  rintro (hnil | ⟨hl, -⟩)
  · exact hne' hnil
  · exact hlt hl

theorem tailsAllow_of_recovers (hv : config.Valid) (hseed : seed ≤ u64Max)
    (hrec : Recovers config d' seed wal rep (numbered oldest (sealed.flatten ++ active))) :
    TailsAllow config d oldest sealed active f next d' := by
  have hcut := notCut_of_recovers h hne hnext hle hothers hseed hrec
  by_cases hno : ∀ g, d'.file (filenameFor next) = some g → ¬ HeaderOk g.data next
  · obtain ⟨d₀, hdis, hc, hclean⟩ := h.discards_next hne hnext hle hothers hbegun hno hcut
    obtain ⟨qs, hrs, -, hc', -, hi⟩ := hc.of_recovers hseed hdis hrec
    obtain rfl := Carries.eq_of_numbered hrs
    exact ⟨hclean.mp hc', fun g hg hh => absurd hh (hno g hg), fun _ => hi⟩
  · simp only [not_forall, not_not] at hno
    obtain ⟨g, hg, hh⟩ := hno
    obtain ⟨hc, -, hclean⟩ := h.adopts_next hne hnext hle hothers hbegun hv.room hg hh
    obtain ⟨-, -, -, hc', -⟩ := hc.of_recovers hseed (.keep hc.getLast?_bases hc.file hc.header) hrec
    obtain ⟨hsealed, hactive⟩ := hclean.mp hc'
    exact ⟨hsealed, fun _ _ _ => hactive, fun hno => absurd hh (hno g hg)⟩

theorem TailsAllow.recovers (ht : TailsAllow config d oldest sealed active f next d')
    (hcut : NotCut next d') (hv : config.Valid) (hseed : 1 ≤ seed) (hl : d'.locked = false) :
    ∃ ts, Recovers config d' seed (handleOn config oldest sealed active [] [])
        (reportOn oldest sealed active ts) (numbered oldest (sealed.flatten ++ active)) ∨
      Recovers config d' seed (handleOn config oldest (sealed ++ [active]) [] [] [])
        (reportOn oldest (sealed ++ [active]) [] ts) (numbered oldest (sealed.flatten ++ active)) := by
  by_cases hno : ∀ g, d'.file (filenameFor next) = some g → ¬ HeaderOk g.data next
  · obtain ⟨d₀, hdis, hc, hclean⟩ := h.discards_next hne hnext hle hothers hbegun hno hcut
    obtain ⟨ts, hr⟩ := hc.recovers hv hseed hl hdis (hclean.mpr ht.clean) (ht.discarded hno)
    exact ⟨ts, Or.inl hr⟩
  · simp only [not_forall, not_not] at hno
    obtain ⟨g, hg, hh⟩ := hno
    obtain ⟨hc, hi, hclean⟩ := h.adopts_next hne hnext hle hothers hbegun hv.room hg hh
    obtain ⟨ts, hr⟩ := hc.recovers hv hseed hl (.keep hc.getLast?_bases hc.file hc.header)
      (hclean.mpr ⟨ht.clean, ht.adopted g hg hh⟩) hi
    exact ⟨ts, Or.inr (by simpa using hr)⟩

end Creation

end OpenWal
