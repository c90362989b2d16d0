import OpenWal.Library.FailingCalls
import OpenWal.Model.System
import OpenWal.Theory.Recovered

namespace OpenWal
open ByteSeq Posix CrashProg

section

variable [Crc32c]

def KeepsAllButHighest (d d' : Disk) : Prop :=
  SameFiles d d' ∨ ∃ base, (basesOf d).getLast? = some base ∧
    SameFiles (d.remove (filenameFor base)) d'

/-- A fatal `open` leaves every file but the highest one as it is, and any further one
fails alike. -/
def FatalIsFinal (config : WalConfig) (d : Disk) : Prop :=
  ∀ seed seed' e w, (Op.openLog seed).Legal → (Op.openLog seed').Legal →
    openSeeded config seed ⟨d, []⟩ = (.err e, w) → e.IsFatal →
    KeepsAllButHighest d w.disk ∧ ∃ w', openSeeded config seed' ⟨w.disk, []⟩ = (.err e, w')

/-- What is refused with `top` as the highest segment is refused alike by the next `open`:
`top` has a valid header, or it is refused by the discard and nothing below it is refused
for another reason, or the discard takes it and something below it is refused for a reason
that stays. -/
def StaysRefused (config : WalConfig) (d : Disk) : Prop :=
  ∀ lower top g, basesOf d = lower ++ [top] → d.file (filenameFor top) = some g →
    HeaderOk g.data top ∨
    (¬ Incomplete config.segmentSize config.maxRecordSize g.data top ∧
      ∀ pre b post pm e f, lower = pre ++ b :: post → Passes config d none pre pm →
        Refused config d pm b e → d.file (filenameFor b) = some f → ¬ HeaderOk f.data b) ∨
    (Incomplete config.segmentSize config.maxRecordSize g.data top ∧
      ∃ pre b post pm e f, lower = pre ++ b :: post ∧ Passes config d none pre pm ∧
        Refused config d pm b e ∧ d.file (filenameFor b) = some f ∧
        (post = [] → HeaderOk f.data b → Follows pm b → PastCapacity config f.data b))

variable {config : WalConfig} {d d₀ : Disk} {seed : ℕ} {e : WalError} {w : World}

omit [Crc32c] in
/-- Locking a directory again that was locked before. -/
theorem acquired_unlock (hd : d.dirExists = true) (hl : d.locked = true) :
    acquired (unlock ⟨d, []⟩).disk = d := by
  cases d
  simp_all [acquired, unlock]

theorem Discards.taken (h : Discards config (acquired d) d₀) :
    d₀.dirExists = true ∧ d₀.locked = true := by
  refine ⟨?_, h.locked⟩
  cases h with
  | nothing => rfl
  | keep => rfl
  | drop hb hf =>
    unfold Disk.syncDir Disk.remove
    split <;> rfl

theorem Discards.keepsAllButHighest (h : Discards config (acquired d) d₀) :
    KeepsAllButHighest d (unlock ⟨d₀, []⟩).disk := by
  have hsame : SameFiles d (acquired d) := ⟨fun _ => rfl, rfl⟩
  have hunlock : ∀ d₁ : Disk, SameFiles d₁ (unlock ⟨d₁, []⟩).disk := fun d₁ => ⟨fun _ => rfl, rfl⟩
  cases h with
  | nothing => exact Or.inl (hsame.trans (hunlock _))
  | keep => exact Or.inl (hsame.trans (hunlock _))
  | drop hb =>
    exact Or.inr ⟨_, hb, ((hsame.remove _).trans (.syncDir _)).trans (hunlock _)⟩

/-- The second `open` recovers what the discard of the first left. -/
theorem openSeeded_again {o : WalError} (hv : config.Valid) (hseed : 1 ≤ seed)
    (hd : d.dirExists = true) (hl : d.locked = true) :
    (∃ w', openSeeded config seed ⟨(unlock ⟨d, []⟩).disk, []⟩ = (.err o, w')) ↔
      ∃ w', recoverDirectory config seed ⟨d, []⟩ = (.err o, w') := by
  rw [openSeeded_locked hv hseed rfl, acquired_unlock hd hl]
  constructor
  · rintro ⟨w', h⟩
    rw [Prog.bind_run, Prog.andThen, Prog.onError] at h
    rcases hr : recoverDirectory config seed ⟨d, []⟩ with ⟨o', t⟩
    rw [hr] at h
    cases o' <;> simp_all
  · rintro ⟨w', h⟩
    exact ⟨_, Prog.bind_of_err (Prog.onError_of_err h)⟩

/-- Where all segments pass as sealed ones, recovery succeeds. -/
theorem Passes.recoverFound_ret {bases : List ℕ} {pm : Option ℕ} (h : Passes config d none bases pm)
    (hb : basesOf d = bases) (hv : config.Valid) (seed : ℕ) (hseed : seed ≤ u64Max) :
    ∃ rec' w, OpenWal.recoverFound config seed bases ⟨d, []⟩ = (.ret rec', w) := by
  rcases List.eq_nil_or_concat bases with hnil | ⟨pre, b, hcat⟩
  · have := hv.room
    obtain ⟨created, d', hr, -⟩ := recoverFound_of_none config (hb.trans hnil) hseed (by omega)
    exact ⟨_, _, hb ▸ hr⟩
  · rw [List.concat_eq_append] at hcat
    obtain ⟨pm', hpre, hlast⟩ := (hcat ▸ h).append
    cases hlast with
    | cons hf ht hrest =>
      cases ht with
      | passed hs hp hc =>
        obtain ⟨g, hr⟩ := hpre.recoverFound (b := b) seed
        rw [hcat, hr]
        exact ⟨_, _, Prog.map_of_ret (recoverOne_of_cleanAt config hf hs hp true hc)⟩

section Again

variable {lower : List ℕ} {top : ℕ} {g : File} (hb : basesOf d = lower ++ [top])
  (hg : d.file (filenameFor top) = some g)

include hb

omit [Crc32c] in
theorem lower_file {b : ℕ} (hm : b ∈ lower) :
    (∃ f, d.file (filenameFor b) = some f) ∧ filenameFor b ≠ filenameFor top := by
  have hsort := basesOf_sorted d
  rw [hb] at hsort
  have hlt := (List.pairwise_append.mp hsort).2.2 b hm top List.mem_cons_self
  have hbm := mem_basesOf.mp (by rw [hb]; exact List.mem_append_left _ hm)
  have htm := mem_basesOf.mp (by rw [hb]; simp : top ∈ basesOf d)
  exact ⟨hbm.2, filenameFor_ne hbm.1 htm.1 hlt.ne⟩

/-- What is refused below the highest segment decides. -/
theorem recoverFound_of_lower (seed : ℕ) {pre post : List ℕ} {b : ℕ} {pm : Option ℕ}
    (hl : lower = pre ++ b :: post) (hpass : Passes config d none pre pm)
    (href : Refused config d pm b e) :
    recoverFound config seed (basesOf d) ⟨d, []⟩ = (.err e, ⟨d, []⟩) := by
  rw [hb, hl, List.append_assoc, List.cons_append]
  exact href.recoverFound hpass (by simp)

include hg

/-- The first error, where the highest segment has a damaged header. -/
theorem recoverFound_err_cases (config : WalConfig) (seed : ℕ) (hh : ¬ HeaderOk g.data top) :
    (∃ pm, Passes config d none lower pm ∧ recoverFound config seed (basesOf d) ⟨d, []⟩ =
        (.err .badSegmentHeader, ⟨d, []⟩)) ∨
      ∃ pre b post pm e, lower = pre ++ b :: post ∧ Passes config d none pre pm ∧
        Refused config d pm b e := by
  rcases passes_or_refused config none fun b hm => (lower_file hb hm).1 with
    ⟨pm, hpass⟩ | hrefused
  · obtain ⟨rec', hr⟩ := hpass.recoverFound (b := top) seed
    refine Or.inl ⟨pm, hpass, ?_⟩
    rw [hb, hr]
    exact Prog.map_of_err (recoverOne_of_badHeader config true hg hh)
  · exact Or.inr hrefused

/-- The next recovery discards an incomplete highest segment. -/
theorem recoverDirectory_of_incomplete
    (hi : Incomplete config.segmentSize config.maxRecordSize g.data top) :
    ∃ d₁, basesOf d₁ = lower ∧ (∀ b ∈ lower, d₁.file (filenameFor b) = d.file (filenameFor b)) ∧
      ∀ seed, recoverDirectory config seed ⟨d, []⟩ = recoverFound config seed lower ⟨d₁, []⟩ := by
  have hlast : (basesOf d).getLast? = some top := by rw [hb]; simp
  have hdis : Discards config d (d.remove (filenameFor top)).syncDir := .drop hlast hg hi
  have hbases : basesOf (d.remove (filenameFor top)).syncDir = lower := by
    have hr := discardIncompleteHighest_of_discards hdis
    rw [discardIncompleteHighest_of_incomplete config hlast hg hi, hb, List.dropLast_concat] at hr
    exact (Outcome.ret.inj (Prod.mk.inj hr).1).symm
  refine ⟨_, hbases, fun b hm => ?_, fun seed => ?_⟩
  · rw [Disk.syncDir_file]
    exact d.remove_file_ne (lower_file hb hm).2
  · rw [recoverDirectory_of_discards hdis, hbases]

end Again

/-- A first fatal error is met again only where the refusal stays. -/
theorem staysRefused_of_final (hv : config.Valid)
    (hfinal : ∀ e : WalError, e.IsFatal →
      recoverFound config 1 (basesOf d) ⟨d, []⟩ = (.err e, ⟨d, []⟩) →
      ∃ w, recoverDirectory config 1 ⟨d, []⟩ = (.err e, w)) : StaysRefused config d := by
  intro lower top g hb hg
  by_cases hh : HeaderOk g.data top
  · exact Or.inl hh
  by_cases hi : Incomplete config.segmentSize config.maxRecordSize g.data top
  · obtain ⟨d₁, hb₁, hfiles, hagain⟩ := recoverDirectory_of_incomplete hb hg hi
    refine Or.inr (Or.inr ⟨hi, ?_⟩)
    rcases recoverFound_err_cases hb hg config 1 hh with
      ⟨pm, hpass, hr⟩ | ⟨pre, b, post, pm, e, hl, hpass, href⟩
    · -- with the highest segment gone, all is well
      obtain ⟨w, hw⟩ := hfinal .badSegmentHeader trivial hr
      obtain ⟨rec', w', hret⟩ := (hpass.congr hfiles).recoverFound_ret hb₁ hv 1 (by decide)
      rw [hagain, hret] at hw
      simp at hw
    · obtain ⟨f, hf, ht⟩ := href
      refine ⟨pre, b, post, pm, e, f, hl, hpass, ⟨f, hf, ht⟩, hf, ?_⟩
      rintro rfl
      obtain ⟨w, hw⟩ := hfinal e ht.isFatal (recoverFound_of_lower hb 1 hl hpass ⟨f, hf, ht⟩)
      have hmem : ∀ c ∈ pre ++ [b], c ∈ lower := fun c hc => hl ▸ hc
      obtain ⟨k, hr⟩ := (hpass.congr fun c hc => hfiles c (hmem c (by simp [hc]))).recoverFound (b := b) 1
      rw [hagain, hl, hr] at hw
      have hfb := hfiles b (hmem b (by simp))
      exact ((Refused.congr ⟨f, hf, ht⟩ hfb).recoverOne_iff (hfb.trans hf)).mp
        ⟨w, Prog.map_eq_err hw⟩
  · refine Or.inr (Or.inl ⟨hi, ?_⟩)
    intro pre b post pm e f hl hpass href hf
    obtain ⟨f', hf', ht⟩ := href
    obtain rfl := Option.some.inj (hf.symm.trans hf')
    obtain ⟨w, hw⟩ := hfinal e ht.isFatal (recoverFound_of_lower hb 1 hl hpass ⟨f, hf, ht⟩)
    rw [recoverDirectory_of_refused 1 (by rw [hb]; simp) hg hh hi] at hw
    exact ht.badHeader_iff.mp (Outcome.err.inj (Prod.mk.inj hw).1).symm

/-- Where the refusal stays, the next recovery meets it again. -/
theorem StaysRefused.again (h : StaysRefused config d) (seed' : ℕ)
    (hr : recoverFound config seed (basesOf d) ⟨d, []⟩ = (.err e, w)) (hne : basesOf d ≠ []) :
    ∃ w', recoverDirectory config seed' ⟨d, []⟩ = (.err e, w') := by
  obtain ⟨lower, top, hb⟩ : ∃ lower top, basesOf d = lower ++ [top] := by
    rcases List.eq_nil_or_concat (basesOf d) with hnil | ⟨lower, top, hcat⟩
    · exact absurd hnil hne
    · exact ⟨lower, top, by rw [hcat, List.concat_eq_append]⟩
  obtain ⟨-, g, hg⟩ := mem_basesOf.mp (by rw [hb]; simp : top ∈ basesOf d)
  have hlast : (basesOf d).getLast? = some top := by rw [hb]; simp
  -- a highest segment with a valid header is kept, so the same is read again
  by_cases hh : HeaderOk g.data top
  · refine ⟨w, ?_⟩
    rw [recoverDirectory_of_discards (.keep hlast hg hh), ← hr]
    obtain ⟨base, bases, hcons⟩ := List.exists_cons_of_ne_nil hne
    rw [hcons]
    rfl
  rcases (h lower top g hb hg).resolve_left hh with
    ⟨hi, hbad⟩ | ⟨hi, pre, b, post, pm, e', f, hl, hpass, href, hf, hlast'⟩
  -- it is kept with its bad header too, for all that was read before
  · obtain rfl : e = .badSegmentHeader := by
      rcases recoverFound_err_cases hb hg config seed hh with
        ⟨pm, hpass, hr'⟩ | ⟨pre, b, post, pm, e', hl, hpass, href⟩
      · rw [hr'] at hr
        exact (Outcome.err.inj (Prod.mk.inj hr).1).symm
      · rw [recoverFound_of_lower hb seed hl hpass href] at hr
        obtain ⟨f, hf, ht⟩ := href
        rw [← Outcome.err.inj (Prod.mk.inj hr).1]
        exact ht.badHeader_iff.mpr (hbad pre b post pm e' f hl hpass ⟨f, hf, ht⟩ hf)
    exact ⟨_, recoverDirectory_of_refused seed' hlast hg hh hi⟩
  · rw [recoverFound_of_lower hb seed hl hpass href] at hr
    obtain rfl := Outcome.err.inj (Prod.mk.inj hr).1
    -- it is dropped now, and a segment below it is refused as before
    obtain ⟨d₁, hb₁, hfiles, hagain⟩ := recoverDirectory_of_incomplete hb hg hi
    have hmem : ∀ c ∈ pre ++ [b], c ∈ lower := by
      intro c hc
      rw [hl]
      rcases List.mem_append.mp hc with hc | hc
      · exact List.mem_append_left _ hc
      · exact List.mem_append_right _ (by simp_all)
    have hpass₁ := hpass.congr fun c hc => hfiles c (hmem c (List.mem_append_left _ hc))
    have hfb := hfiles b (hmem b (by simp))
    have href₁ := href.congr hfb
    rw [hagain, hl]
    by_cases hpost : post = []
    · subst hpost
      obtain ⟨w', hw'⟩ := (href₁.recoverOne_iff (hfb.trans hf)).mpr (hlast' rfl)
      obtain ⟨k, hr'⟩ := hpass₁.recoverFound (b := b) seed'
      exact ⟨w', hr'.trans (Prog.map_of_err hw')⟩
    · exact ⟨_, href₁.recoverFound hpass₁ hpost⟩

/-- A fatal `open` is final exactly where what it leaves stays refused. -/
theorem fatalIsFinal_iff : FatalIsFinal config d ↔ (config.Valid → d.locked = false →
    ∀ d₀, Discards config (acquired d) d₀ → StaysRefused config d₀) := by
  constructor
  · intro h hv hl d₀ hdis
    have htaken := hdis.taken
    refine staysRefused_of_final hv fun e he hr => ?_
    have hopen := openSeeded_of_err hv le_rfl hl ((recoverDirectory_of_discards hdis 1).trans hr)
    obtain ⟨-, hagain⟩ := h 1 1 e _ ⟨le_rfl, by decide⟩ ⟨le_rfl, by decide⟩ hopen he
    exact (openSeeded_again hv le_rfl htaken.1 htaken.2).mp hagain
  · intro h seed seed' e w hs hs' hopen he
    obtain ⟨hv, hl, w', hrec, rfl⟩ := openSeeded_eq_fatal hs.1 hopen he
    rcases discards_or_refused config (acquired d) with ⟨d₀, hdis⟩ | ⟨base, f, hb, hf, hh, hi⟩
    · rw [recoverDirectory_of_discards hdis] at hrec
      obtain ⟨rfl, hne⟩ := recoverFound_eq_err hs.2 hv hrec
      have htaken := hdis.taken
      exact ⟨hdis.keepsAllButHighest, (openSeeded_again hv hs'.1 htaken.1 htaken.2).mpr
        ((h hv hl d₀ hdis).again seed' hrec hne)⟩
    · rw [recoverDirectory_of_refused seed hb hf hh hi] at hrec
      obtain ⟨he', rfl⟩ := Prod.mk.inj hrec
      obtain rfl := Outcome.err.inj he'
      exact ⟨Or.inl ⟨fun _ => rfl, rfl⟩, (openSeeded_again hv hs'.1 rfl rfl).mpr
        ⟨_, recoverDirectory_of_refused seed' hb hf hh hi⟩⟩

end

def damagedBelowEmpty : Disk := .holding [
  (filenameFor 1, encodeHeader 1 0 ++ (encodeFrame 1 [] ++ zeros 48)),
  (filenameFor 2, zeros 88 ++ (encodeFrame 3 [] ++ zeros 24)),
  (filenameFor 3, [])]

/-- The second `open` takes the damaged segment for an interrupted creation. -/
theorem damagedBelowEmpty_not_final : ¬ FatalIsFinal tightConfig damagedBelowEmpty := by
  intro h
  have hfirst : refusalOf tightConfig 1 damagedBelowEmpty = some .badSegmentHeader := by
    decide +kernel
  have hsecond : (reportOf tightConfig 1
      (openSeeded tightConfig 1 ⟨damagedBelowEmpty, []⟩).2.disk).isSome = true := by decide +kernel
  obtain ⟨w, hopen⟩ := openSeeded_of_refusalOf hfirst
  obtain ⟨-, w', hw'⟩ := h 1 1 _ _ ⟨le_rfl, by decide⟩ ⟨le_rfl, by decide⟩ hopen trivial
  rw [hopen, reportOf, hw'] at hsecond
  simp at hsecond

end OpenWal
