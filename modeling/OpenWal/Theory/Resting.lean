import OpenWal.Theory.CutWrites

namespace OpenWal
open ByteSeq Posix CrashProg

variable [Crc32c]

/-- From `x` on, where record `e` is missing, there are zeros to the end of the segment, or
there is a tail that recovery cuts off. -/
def ZeroOrTorn (ss mx : ℕ) (data : Bytes) (x e : ℕ) : Prop :=
  ZeroOn data x ss ∨ Stops ss mx data x e ∧ TornAt ss mx data x e

section

variable {ss mx x e j : ℕ} {data : Bytes} {qs : List Bytes}

theorem ZeroOrTorn.stops (h : ZeroOrTorn ss mx data x e) : Stops ss mx data x e := by
  rcases h with hz | ⟨hs, -⟩
  · exact (cleanAt_of_zeroOn hz le_rfl).stops
  · exact hs

theorem ZeroOrTorn.tailOk {f : File} (h : ZeroOrTorn ss mx f.data x e) (base : ℕ) :
    ∃ ts f', TailOk ss mx f base x e ts f' := by
  rcases h with hz | ⟨-, ht⟩
  · exact ⟨_, _, .clean (cleanAt_of_zeroOn hz le_rfl)⟩
  · exact ⟨_, _, .torn ht⟩

/-- Recovery leaves zeros behind the records. -/
theorem ZeroOrTorn.zeroOn {f f' : File} {base : ℕ} {ts : TailState} (h : ZeroOrTorn ss mx f.data x e)
    (hx : x ≤ f.data.length) (ht : TailOk ss mx f base x e ts f') : ZeroOn f'.data x ss := by
  cases ht with
  | clean hc =>
    rcases h with hz | ⟨-, ht⟩
    · exact hz
    · exact absurd hc ht.1
  | torn => exact (zeroed_data ss hx).2

/-- Where a write was cut, some records of the batch came whole, and then come zeros or the torn
frame of the next. -/
theorem LaidAt.whole_or_torn (h : LaidAt ss data x e qs j) (hb : Batch mx e qs) (hmx : mx < 2 ^ 32)
    (he : 1 ≤ e) (hc : CutsHarmless ss mx x e qs) :
    ∃ i ≤ qs.length, Run ss mx data x e (qs.take i) ∧
      ZeroOrTorn ss mx data (x + runSize (qs.take i)) (e + i) := by
  obtain ⟨i, hi, hrun, hclean | htorn⟩ := h.wholePrefix hb hmx hc
  · obtain ⟨-, qs', j', hlaid, hbatch⟩ := h.run hb hmx hrun
    exact ⟨i, hi, hrun, Or.inl (hlaid.zeroOn_of_cleanAt hbatch hmx (by omega) hclean)⟩
  · exact ⟨i, hi, hrun, Or.inr htorn⟩

end

/-- `P` says of the records of a log, the first one numbered `oldest`, what holds of a log that
is started, what further records do not end that meet `Q`, and what the first records may go
missing from. -/
structure Stable (Q : ℕ → Bytes → Prop) (P : ℕ → List Bytes → Prop) : Prop where
  append : ∀ {oldest : ℕ} {ps qs : List Bytes}, P oldest ps →
    (∀ r ∈ numbered (oldest + ps.length) qs, Q r.1 r.2) → P oldest (ps ++ qs)
  drop : ∀ {oldest : ℕ} {ps qs : List Bytes}, P oldest (ps ++ qs) → P (oldest + ps.length) qs

omit [Crc32c] in
/-- Only some of the further records may come. -/
theorem Stable.append_take {Q : ℕ → Bytes → Prop} {P : ℕ → List Bytes → Prop} (h : Stable Q P) {oldest : ℕ}
    {ps qs : List Bytes} (hP : P oldest ps)
    (hQ : ∀ r ∈ numbered (oldest + ps.length) qs, Q r.1 r.2) (i : ℕ) : P oldest (ps ++ qs.take i) := by
  refine h.append hP fun r hr => hQ r ?_
  rw [← List.take_append_drop i qs, numbered_append]
  exact List.mem_append_left _ hr

variable {config : WalConfig} {Q : ℕ → Bytes → Prop} {P : ℕ → List Bytes → Prop} {d d' d₀ d₁ : Disk}
  {oldest seed : ℕ} {sealed xs ys : List (List Bytes)} {active rest : List Bytes} {f g : File}

structure Tidy (config : WalConfig) (P : ℕ → List Bytes → Prop) (oldest : ℕ)
    (sealed : List (List Bytes)) (active : List Bytes) (f : File) (d : Disk) : Prop where
  clean : CleanSealed config d oldest sealed
  zero : ZeroOn f.data (headerSize + runSize active) config.segmentSize
  holds : P oldest (sealed.flatten ++ active)

/-- A log that a process left. -/
structure Resting (config : WalConfig) (P : ℕ → List Bytes → Prop) (d : Disk) (oldest : ℕ)
    (sealed : List (List Bytes)) (active : List Bytes) (f : File) : Prop
    extends Carries config d oldest sealed active f where
  clean : CleanSealed config d oldest sealed
  tail : ZeroOrTorn config.segmentSize config.maxRecordSize f.data (headerSize + runSize active)
    (activeBase oldest sealed + active.length)
  holds : P oldest (sealed.flatten ++ active)

/-- Once an incomplete highest segment is gone, the directory is without a log, where `P` holds
of every one that is started, or it holds one. -/
inductive Rests (config : WalConfig) (P : ℕ → List Bytes → Prop) (d : Disk) : Prop
  | empty {d₀ : Disk} : Discards config (acquired d) d₀ → basesOf d₀ = [] →
      (∀ seed, 1 ≤ seed → P seed []) → Rests config P d
  | log {d₀ : Disk} {oldest : ℕ} {sealed : List (List Bytes)} {active : List Bytes} {f : File} :
      Discards config (acquired d) d₀ → Resting config P d₀ oldest sealed active f → Rests config P d

theorem Discards.congr (h : Discards config d d₀) (hs : SameFiles d d') :
    ∃ d₁, Discards config d' d₁ ∧ SameFiles d₀ d₁ := by
  have hb : basesOf d' = basesOf d := basesOf_congr fun b _ => by rw [hs.file]
  cases h with
  | nothing hnil => exact ⟨d', .nothing (hb.trans hnil), hs⟩
  | keep hlast hf hh => exact ⟨d', .keep (hb ▸ hlast) ((hs.file _).trans hf) hh, hs⟩
  | drop hlast hf hi =>
    refine ⟨_, .drop (hb ▸ hlast) ((hs.file _).trans hf) hi, ?_⟩
    exact (SameFiles.syncDir _).symm.trans ((hs.remove _).trans (.syncDir _))

/-- A file with a valid header is not discarded. -/
theorem Discards.file_of_headerOk {b : ℕ} (h : Discards config d d₀) (hf : d.file (filenameFor b) = some f)
    (hh : HeaderOk f.data b) : d₀.file (filenameFor b) = some f := by
  cases h with
  | nothing => exact hf
  | keep => exact hf
  | @drop base g hlast hg hi =>
    obtain ⟨hu, -⟩ := mem_basesOf.mp (List.mem_of_getLast? hlast)
    have hne : b ≠ base := by
      rintro rfl
      obtain rfl := Option.some.inj (hf.symm.trans hg)
      exact hi.not_headerOk hh
    exact (Disk.remove_file_ne d (filenameFor_ne hh.le_u64Max hu hne)).trans hf

theorem Carries.keeps (h : Carries config d oldest sealed active f) : Discards config d d :=
  .keep h.getLast?_bases h.file h.header

theorem LogOn.cleanSealed (h : LogOn config.segmentSize config.maxRecordSize d oldest sealed active f) :
    CleanSealed config d oldest sealed := by
  apply h.chain.imp
  rintro b ps - - ⟨-, g, hg, -, hclean⟩ g' hg'
  obtain rfl := Option.some.inj (hg.symm.trans hg')
  exact hclean

namespace Resting

theorem congr (h : Resting config P d oldest sealed active f) (hs : SameFiles d d') :
    Resting config P d' oldest sealed active f :=
  ⟨h.toCarries.congr hs, h.clean.congr fun _ _ _ => hs.file _, h.tail, h.holds⟩

theorem logOn (h : Resting config P d oldest sealed active f) :
    LogOn config.segmentSize config.maxRecordSize d oldest sealed active f :=
  ⟨h.bases, h.sealedFrom h.clean, h.file, h.header, h.run, h.tail.stops⟩

/-- It was left with no segment above the active one. -/
theorem rests (h : Resting config P d oldest sealed active f) : Rests config P d :=
  have hacq : Resting config P (acquired d) oldest sealed active f := h.congr ⟨fun _ => rfl, rfl⟩
  .log hacq.keeps hacq

end Resting

namespace Rests

theorem ofFiles : OfFiles (Rests config P) := by
  intro d d' hs h
  have hacq : SameFiles (acquired d) (acquired d') := ⟨hs.file, hs.unlinked⟩
  cases h with
  | empty hdis hnil hP =>
    obtain ⟨d₁, hdis', hs'⟩ := hdis.congr hacq
    exact .empty hdis' ((basesOf_congr fun b _ => by rw [hs'.file]).trans hnil) hP
  | log hdis h =>
    obtain ⟨d₁, hdis', hs'⟩ := hdis.congr hacq
    exact .log hdis' (h.congr hs')

/-- An undisturbed `open` recovers all of it, from its first segment on. -/
theorem recovers (h : Rests config P d) (hv : config.Valid) (hl : d.locked = false)
    (hseed : (Op.openLog seed).Legal) : ∃ wal rep oldest ps, P oldest ps ∧
      Recovers config d seed wal rep (numbered oldest ps) ∧ rep.oldestLsn = oldest ∧
      rep.durableLsn + 1 = oldest + ps.length ∧
      ∀ b g, d.file (filenameFor b) = some g → HeaderOk g.data b → oldest ≤ b := by
  -- a whole segment is among those that are recovered
  have hmem : ∀ {d₀ b g}, Discards config (acquired d) d₀ → d.file (filenameFor b) = some g →
      HeaderOk g.data b → b ∈ basesOf d₀ := fun hdis hg hh =>
    mem_basesOf.mpr ⟨hh.le_u64Max, _, hdis.file_of_headerOk hg hh⟩
  cases h with
  | empty hdis hnil hP =>
    have hdurable : (reportOn seed [] [] .clean).durableLsn + 1 = seed + ([] : List Bytes).length :=
      @reportOn_durable seed [] hseed.1 [] .clean
    refine ⟨_, _, seed, [], hP seed hseed.1, recovers_of_none hv hseed.1 hseed.2 hl hdis hnil, rfl,
      hdurable, fun b g hg hh => ?_⟩
    simpa [hnil] using hmem hdis hg hh
  | log hdis h =>
    obtain ⟨ts, f', ht⟩ := h.tail.tailOk _
    refine ⟨_, _, _, _, h.holds, recovers_of_logOn hv hseed.1 hl hdis h.logOn ht, rfl,
      reportOn_durable h.activeBase_pos _ ts, fun b g hg hh => ?_⟩
    exact (mem_basesFrom_le (h.bases ▸ hmem hdis hg hh)).1

/-- What an `open` that returns leaves open. -/
theorem tidy_of_opens {wal : Wal} {rep : RecoveryReport} (h : Rests config P d) (hv : config.Valid)
    (h1 : 1 ≤ seed) (hseed : seed ≤ u64Max) (ho : Opens config d seed wal rep d')
    (hlog : LogOn config.segmentSize config.maxRecordSize d' oldest sealed active f) :
    Tidy config P oldest sealed active f d' := by
  suffices hrest : ZeroOn f.data (headerSize + runSize active) config.segmentSize ∧
      P oldest (sealed.flatten ++ active) from ⟨hlog.cleanSealed, hrest.1, hrest.2⟩
  cases ho with
  | created hdis hnil hset =>
    obtain ⟨rfl, rfl, rfl⟩ := (logOn_fresh config.maxRecordSize h1 hseed hv.room hnil hset).unique hlog
    obtain rfl := Option.some.inj (hset.self.symm.trans hlog.file)
    refine ⟨freshSegment_zeroOn _ _ _, ?_⟩
    cases h with
    | empty _ _ hP => exact hP _ h1
    | log hdis' h => exact absurd (hdis.unique hdis' ▸ hnil) h.logOn.bases_ne_nil
  | recovered hdis hlog₀ ht hset =>
    obtain ⟨rfl, rfl, rfl⟩ := (hlog₀.setActive hset (ht.holds hlog₀.holds).1).unique hlog
    obtain rfl := Option.some.inj (hset.self.symm.trans hlog.file)
    cases h with
    | empty hdis' hnil _ => exact absurd (hdis'.unique hdis ▸ hnil) hlog₀.bases_ne_nil
    | log hdis' h =>
      obtain rfl := hdis'.unique hdis
      obtain ⟨rfl, rfl, rfl⟩ := h.logOn.unique hlog₀
      obtain rfl := Option.some.inj (h.file.symm.trans hlog₀.file)
      exact ⟨h.tail.zeroOn h.le_length ht, h.holds⟩

/-- An `open` that fails after the discard has done what the next one would do first. -/
theorem dropped (h : Rests config P d) (hd : Dropped config d d') : Rests config P d' := by
  obtain ⟨base, g, hlast, hg, hi, hs⟩ := hd
  have hgone : ∀ {d₀}, Discards config (acquired d) d₀ → SameFiles d₀ (acquired d') := by
    intro d₀ hdis
    obtain rfl := hdis.unique (.drop (d := acquired d) hlast hg hi)
    have hacq : SameFiles (acquired d) d := ⟨fun _ => rfl, rfl⟩
    have hacq' : SameFiles d' (acquired d') := ⟨fun _ => rfl, rfl⟩
    exact (SameFiles.syncDir _).symm.trans ((hacq.remove _).trans (hs.trans hacq'))
  cases h with
  | empty hdis hnil hP =>
    have hnil' : basesOf (acquired d') = [] :=
      (basesOf_congr fun b _ => by rw [(hgone hdis).file]).trans hnil
    exact .empty (.nothing hnil') hnil' hP
  | log hdis h => exact .log (h.congr (hgone hdis)).keeps (h.congr (hgone hdis))

end Rests

def ZeroedWhole (ss : ℕ) (d d' : Disk) : Prop :=
  ∀ b f g, HeaderOk f.data b → d.file (filenameFor b) = some f → d'.file (filenameFor b) = some g →
    ∀ i, g.data[i]? ≠ f.data[i]? → ZeroOn g.data i ss

theorem ZeroedWhole.of_files {ss : ℕ} (h : ZeroedWhole ss d d') (hs : ∀ n, d₁.file n = d'.file n) :
    ZeroedWhole ss d d₁ :=
  fun b f g hh hf hg => h b f g hh hf ((hs _).symm.trans hg)

/-- An `open` that returns zeroes whole tails. -/
theorem Opens.zeroedWhole {seed : ℕ} {wal : Wal} {rep : RecoveryReport} (h : Opens config d seed wal rep d') :
    ZeroedWhole config.segmentSize d d' := by
  intro b f g hh hf hg i hi
  cases h with
  | created hdis hnil _ =>
    have hmem := mem_basesOf.mpr ⟨hh.le_u64Max, f, hdis.file_of_headerOk hf hh⟩
    simp [hnil] at hmem
  | recovered hdis hlog ht hset =>
    rename_i oldest sealed active f₀ f' ts
    have hfound := hdis.file_of_headerOk hf hh
    by_cases hb : filenameFor b = filenameFor (activeBase oldest sealed)
    · rw [hb] at hfound hg
      obtain rfl := Option.some.inj (hlog.file.symm.trans hfound)
      obtain rfl := Option.some.inj (hset.self.symm.trans hg)
      cases ht with
      | clean => exact absurd rfl hi
      | torn =>
        obtain ⟨hsame, hzero⟩ :=
          zeroed_data config.segmentSize (hlog.holds.run.le_file hlog.holds.header.le_length)
        refine hzero.mono ?_ le_rfl
        by_contra hlt
        exact hi (hsame i (Nat.zero_le _) (Nat.not_le.mp hlt))
    · rw [hset.others _ hb, hfound] at hg
      exact absurd (Option.some.inj hg ▸ rfl) hi

/-- An `open` that zeroes a torn tail, and dies or fails once it has done so, or before. -/
theorem Rests.zeroing {base : ℕ} {ps : List Bytes} (h : Rests config P d)
    (hdis : Discards config (acquired d) d₀) (hlast : (basesOf d₀).getLast? = some base)
    (hf : d₀.file (filenameFor base) = some f)
    (hs : SegmentHolds config.segmentSize config.maxRecordSize f.data base ps)
    (hz : Zeroing (filenameFor base) f (headerSize + runSize ps) config.segmentSize d₀ d')
    (hw : ZeroedWhole config.segmentSize d d') : Rests config P d' := by
  cases h with
  | empty hdis' hnil _ =>
    obtain rfl := hdis'.unique hdis
    simp [hnil] at hlast
  | log hdis' h =>
    rename_i oldest sealed active f₀
    obtain rfl := hdis'.unique hdis
    obtain rfl : activeBase oldest sealed = base := by
      simpa [h.getLast?_bases] using hlast
    obtain rfl := Option.some.inj (h.file.symm.trans hf)
    obtain rfl := h.run.eq_of_stops h.tail.stops hs.run hs.stops
    obtain ⟨⟨hdiff, g, hg, hbefore⟩, y, hy, hxy, g', hg', hdata⟩ := hz
    obtain rfl := Option.some.inj (hg.symm.trans hg')
    have hc : Carries config d' oldest sealed active g := h.setActive hdiff.others hg
      (h.header.congr (hbefore.data.mono le_rfl (Nat.le_add_right _ _)))
      (h.run.congr (hbefore.data.mono (Nat.zero_le _) le_rfl))
    have hclean := (h.cleanSealed_rewritten hdiff.others).mpr h.clean
    refine (Resting.mk hc hclean ?_ h.holds).rests
    by_cases hsame : g.data = f₀.data
    · rw [hsame]
      exact h.tail
    -- the first byte that changed is behind the records, and what is before it is zero as well
    obtain ⟨i, hi⟩ : ∃ i, g.data[i]? ≠ f₀.data[i]? := by
      by_contra hno
      exact hsame (List.ext_getElem? fun i => not_not.mp fun hi => hno ⟨i, hi⟩)
    have hzero := hw _ _ _ hs.header (hdis.file hf) hg i hi
    left
    intro k hk hks
    by_cases hki : i ≤ k
    · exact hzero k hki hks
    · rw [hdata, overwrite_getElem? _ h.le_length] at hi ⊢
      have hin : i < headerSize + runSize active + (zeros (y - (headerSize + runSize active))).length := by
        by_contra hout
        exact hi (if_neg fun hin => hout hin.2)
      rw [if_pos ⟨hk, by omega⟩, zeros_getElem?, if_pos (by rw [zeros_length] at hin; omega)]

namespace Tidy

omit [Crc32c] in
theorem congr (h : Tidy config P oldest sealed active f d) (hs : ∀ n, d'.file n = d.file n) :
    Tidy config P oldest sealed active f d' :=
  ⟨h.clean.congr fun _ _ _ => hs _, h.zero, h.holds⟩

theorem resting (h : Tidy config P oldest sealed active f d)
    (hc : Carries config d oldest sealed active f) : Resting config P d oldest sealed active f :=
  ⟨hc, h.clean, Or.inl h.zero, h.holds⟩

omit [Crc32c] in
/-- The first segments may go. -/
theorem removeAll (h : Tidy config P oldest (xs ++ ys) active f d) (hP : Stable Q P) (bases : List ℕ) :
    Tidy config P (activeBase oldest xs) ys active f (removeAll bases d) := by
  refine ⟨?_, h.zero, ?_⟩
  · exact (ChainFrom.append_iff.mp h.clean).2.imp fun b ps _ _ hps g hg => hps g (removeAll_subset hg)
  · have hall := h.holds
    rw [List.flatten_append, List.append_assoc] at hall
    exact hP.drop hall

end Tidy

end OpenWal
