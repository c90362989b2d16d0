import OpenWal.Theory.Resting
import OpenWal.Results.Immutability
import OpenWal.Results.InterruptedCreation
import OpenWal.Results.ProcessDeath

namespace OpenWal
open ByteSeq Posix CrashProg

section

variable [Crc32c]

variable {config : WalConfig} {Q : ℕ → Bytes → Prop} {P : ℕ → List Bytes → Prop} {d d' d₀ : Disk}
  {oldest seed : ℕ} {sealed : List (List Bytes)} {active rest : List Bytes} {f : File}

/-- Of a log that is being started there is no segment, an incomplete one, or a whole one. -/
theorem rests_of_begunFile (hP : ∀ seed, 1 ≤ seed → P seed []) (hss : headerSize ≤ config.segmentSize)
    (hle : seed ≤ u64Max) (hnil : basesOf d₀ = [])
    (hothers : ∀ m, m ≠ filenameFor seed → d'.file m = d₀.file m)
    (hbegun : BegunFile seed config.segmentSize d') (hcut : NotCut seed d') : Rests config P d' := by
  cases hg : d'.file (filenameFor seed) with
  | none =>
    have hnone : d₀.file (filenameFor seed) = none := by
      cases hf : d₀.file (filenameFor seed) with
      | none => rfl
      | some f => simpa [hnil] using mem_basesOf.mpr ⟨hle, f, hf⟩
    have hnil' : basesOf (acquired d') = [] := by
      rw [basesOf_acquired, ← hnil]
      apply basesOf_congr
      intro b _
      by_cases hb : filenameFor b = filenameFor seed
      · rw [hb, hg, hnone]
      · rw [hothers _ hb]
    exact .empty (.nothing hnil') hnil' hP
  | some g =>
    have hbases : basesOf d' = [seed] := basesOf_first hnil hle hothers hg
    by_cases hh : HeaderOk g.data seed
    · -- a whole header means that the file was laid out before it was written
      have hzero := (hbegun g hg).zeroOn
      rw [(hbegun g hg).length_of_headerOk hss hh] at hzero
      have hc : Carries config d' seed [] [] g := ⟨hbases, trivial, hg, hh, trivial⟩
      exact (Resting.mk hc trivial (Or.inl hzero) (hP seed hh.pos)).rests
    · have hi : Incomplete config.segmentSize config.maxRecordSize g.data seed :=
        (hcut g hg).imp id fun hl => ⟨hl, hh, fun lsn p => (hbegun g hg).not_frameAt⟩
      have hlast : (basesOf (acquired d')).getLast? = some seed := by
        rw [basesOf_acquired, hbases, List.getLast?_singleton]
      refine .empty (.drop hlast hg hi) ?_ hP
      rw [basesOf_remove_highest hlast, basesOf_acquired, hbases]
      rfl

structure Storing (config : WalConfig) (Q : ℕ → Bytes → Prop) (P : ℕ → List Bytes → Prop)
    (oldest : ℕ) (sealed : List (List Bytes)) (active rest : List Bytes) (f : File) (d : Disk) : Prop
    extends Tidy config P oldest sealed active f d where
  harmless : CutsHarmless config.segmentSize config.maxRecordSize (headerSize + runSize active)
    (activeBase oldest sealed + active.length) rest
  meets : ∀ r ∈ numbered (activeBase oldest sealed + active.length) rest, Q r.1 r.2

omit [Crc32c] in
/-- The number of the record after these. -/
theorem next_eq (oldest : ℕ) (sealed : List (List Bytes)) (active : List Bytes) :
    oldest + (sealed.flatten ++ active).length = activeBase oldest sealed + active.length := by
  rw [List.length_append, activeBase, Nat.add_assoc]

namespace Storing

variable (h : Storing config Q P oldest sealed active rest f d)
  (hc : Committing config d oldest sealed active f rest)

include h

theorem cleanAt : CleanAt config.segmentSize f.data (headerSize + runSize active) :=
  cleanAt_of_zeroOn h.zero le_rfl

theorem holds_take (hP : Stable Q P) (i : ℕ) : P oldest (sealed.flatten ++ (active ++ rest.take i)) := by
  rw [← List.append_assoc]
  exact hP.append_take h.holds (by rw [next_eq]; exact h.meets) i

include hc

/-- The process dies, or the call fails, in the write of the records that fit. -/
theorem cut (hP : Stable Q P) (hv : config.Valid) (k : ℕ) :
    Rests config P (d.put (filenameFor (activeBase oldest sealed)) (f.write (headerSize + runSize active)
      ((encodeRun (activeBase oldest sealed + active.length) (fit (roomIn config active) rest)).take k))) := by
  have hx := hc.le_length
  have hpos := hc.activeBase_pos
  have hfit := hc.fit_le hv
  have hsplit := fit_append_overflow (roomIn config active) rest
  have hbatch := (Batch.append_iff.mp (hsplit.symm ▸ hc.batch)).1
  have hharmless := ((cutsHarmless_append hfit).mp (hsplit.symm ▸ h.harmless)).1
  obtain ⟨i, hi, hrun, htail⟩ := (laidAt_overwrite h.zero hx hfit k).whole_or_torn hbatch
    config.maxRecordSize_lt (by omega) hharmless
  have hothers : ∀ m, m ≠ filenameFor (activeBase oldest sealed) → (d.put _ _).file m = d.file m :=
    fun m hm => Disk.put_file_ne (f.write (headerSize + runSize active)
      ((encodeRun (activeBase oldest sealed + active.length) (fit (roomIn config active) rest)).take k)) d hm
  have hcarries := hc.toCarries.rewritten hothers (Disk.put_file_self _ _ _)
    (overwrite_agreeOn_before _ hx 0).symm hrun
  have hclean := (hc.toCarries.cleanSealed_rewritten hothers).mpr h.clean
  have hholds := h.holds_take hP i
  rw [← hsplit, List.take_append_of_le_length hi] at hholds
  refine (Resting.mk hcarries hclean ?_ hholds).rests
  rwa [runSize_append, List.length_append, List.length_take_of_le hi, ← Nat.add_assoc, ← Nat.add_assoc]

theorem store (hP : Stable Q P) (hv : config.Valid) :
    Storing config Q P oldest sealed (active ++ fit (roomIn config active) rest)
      (overflow (roomIn config active) rest)
      (f.write (headerSize + runSize active) (encodeRun (activeBase oldest sealed + active.length)
        (fit (roomIn config active) rest))).sync
      (d.put (filenameFor (activeBase oldest sealed)) (f.write (headerSize + runSize active)
        (encodeRun (activeBase oldest sealed + active.length)
          (fit (roomIn config active) rest))).sync) := by
  have hsplit := fit_append_overflow (roomIn config active) rest
  have hafter := overwrite_agreeOn_after (encodeRun (activeBase oldest sealed + active.length)
    (fit (roomIn config active) rest)) hc.le_length config.segmentSize
  rw [encodeRun_length, Nat.add_assoc, ← runSize_append] at hafter
  have hharmless := ((cutsHarmless_append (hc.fit_le hv)).mp (hsplit.symm ▸ h.harmless)).2
  refine ⟨⟨?_, ?_, ?_⟩, ?_, fun r hr => h.meets r ?_⟩
  · exact (hc.toCarries.cleanSealed_rewritten fun m hm => Disk.put_file_ne _ _ hm).mpr h.clean
  · refine (h.zero.mono ?_ le_rfl).congr hafter.symm
    rw [runSize_append]
    omega
  · have htake := congrArg (List.take (fit (roomIn config active) rest).length) hsplit
    rw [List.take_left] at htake
    rw [htake]
    exact h.holds_take hP _
  · rwa [runSize_append, List.length_append, ← Nat.add_assoc, ← Nat.add_assoc]
  · rw [List.length_append, ← Nat.add_assoc] at hr
    rw [← hsplit, numbered_append]
    exact List.mem_append_right _ hr

/-- The process dies, or a call fails, in the creation of the next segment. -/
theorem begun (hv : config.Valid) (hr : rest ≠ []) (ha : active ≠ [])
    (hb : Begun (activeBase oldest sealed + active.length) config.segmentSize d d')
    (hcut : ∀ b, NotCut b d') : Rests config P d' := by
  have hle := hc.next_le_u64Max hr
  have hothers := hb.1.others
  have hss : headerSize ≤ config.segmentSize := (Nat.le_add_right _ _).trans hv.room
  by_cases hno : ∀ g, d'.file (filenameFor (activeBase oldest sealed + active.length)) = some g →
      ¬ HeaderOk g.data (activeBase oldest sealed + active.length)
  · obtain ⟨d₀, hdis, hcarries, hclean⟩ :=
      hc.toCarries.discards_next ha rfl hle hothers hb.2 hno (hcut _)
    exact .log hdis ⟨hcarries, hclean.mpr h.clean, Or.inl h.zero, h.holds⟩
  · simp only [not_forall, not_not] at hno
    obtain ⟨g, hg, hh⟩ := hno
    obtain ⟨hcarries, -, hclean⟩ := hc.toCarries.adopts_next ha rfl hle hothers hb.2 hv.room hg hh
    have hzero := (hb.2 g hg).zeroOn
    rw [(hb.2 g hg).length_of_headerOk hss hh] at hzero
    refine .log hcarries.keeps ⟨hcarries, hclean.mpr ⟨h.clean, h.cleanAt⟩, Or.inl hzero, ?_⟩
    simpa using h.holds

theorem rolled (hv : config.Valid) {created : ℕ} (hr : rest ≠ []) (ha : active ≠ [])
    (hq : fit (roomIn config active) rest = [])
    (honly : OnlyAt (filenameFor (activeBase oldest sealed + active.length)) d d')
    (hf : d'.file (filenameFor (activeBase oldest sealed + active.length)) =
      some (freshSegment (activeBase oldest sealed + active.length) config.segmentSize created)) :
    Storing config Q P oldest (sealed ++ [active]) [] rest
      (freshSegment (activeBase oldest sealed + active.length) config.segmentSize created)
      d'.syncDir := by
  have hle := hc.next_le_u64Max hr
  have hpos := hc.activeBase_pos
  have hss : headerSize ≤ config.segmentSize := (Nat.le_add_right _ _).trans hv.room
  have hfresh : Written config.segmentSize config.maxRecordSize
      (freshSegment (activeBase oldest sealed + active.length) config.segmentSize created).data
      (activeBase oldest sealed + active.length) [] := freshSegment_written (by omega) hle hss
  have hbegun := (show Created _ _ d d' from ⟨honly, created, hf⟩).begun
  obtain ⟨-, -, hclean⟩ :=
    hc.toCarries.adopts_next ha rfl hle honly.others hbegun.2 hv.room hf hfresh.header
  refine ⟨⟨hclean.mpr ⟨h.clean, h.cleanAt⟩, by simpa using hfresh.rest, by simpa using h.holds⟩, ?_, ?_⟩
  · -- the first of the records did not fit, and goes where a new segment puts it
    obtain ⟨q, more, rfl⟩ := List.exists_cons_of_ne_nil hr
    rw [Carries.activeBase_roll, List.length_nil, Nat.add_zero, runSize_nil, Nat.add_zero]
    exact (cutsHarmless_roll (lt_of_overflow_cons hq)).mp h.harmless
  · rw [Carries.activeBase_roll]
    exact h.meets

end Storing

/-- What a run asks of a call: an `open` finds no segment file that ends inside its header, and
zeroes a torn tail to its end if at all; no cut of the frames of a commit does harm. -/
def Benign (config : WalConfig) (m : Machine) (op : Op) (fates : List Fate) : Prop :=
  match op with
  | .openLog seed => m.disk.locked = false → (∀ b, NotCut b m.disk) ∧
      ZeroedWhole config.segmentSize m.disk (openSeeded config seed ⟨m.disk, fates⟩).2.disk
  | .commit => ∀ wal staged, m.handle = some wal → wal.staging = encodeRun (wal.durableLsn + 1) staged →
      Batch config.maxRecordSize (wal.durableLsn + 1) staged →
      CutsHarmless config.segmentSize config.maxRecordSize wal.writeOffset (wal.durableLsn + 1) staged
  | _ => True

def StagedMeet (config : WalConfig) (Q : ℕ → Bytes → Prop) (wal : Wal) : Prop :=
  wal.poisoned = false → ∀ staged, wal.staging = encodeRun (wal.durableLsn + 1) staged →
    Batch config.maxRecordSize (wal.durableLsn + 1) staged →
    ∀ r ∈ numbered (wal.durableLsn + 1) staged, Q r.1 r.2

theorem Rests.released (h : Rests config P d) : Rests config P (released d) :=
  Rests.ofFiles d _ ⟨fun _ => rfl, rfl⟩ h

/-- What an `open` leaves that does not return is left as a process leaves it. -/
theorem openSeeded_rests (hseed : seed ≤ u64Max) (h : Rests config P d) :
    Triple (OnDisk (· = d)) (openSeeded config seed)
      (fun _ => OnDisk fun e => (∀ b, NotCut b e) → ZeroedWhole config.segmentSize d e → Rests config P e)
      (fun _ => OnDisk fun e => ((∀ b, NotCut b e) → ZeroedWhole config.segmentSize d e →
        Rests config P e) ∧ e.locked = d.locked)
      (OnDisk fun e => (∀ b, NotCut b e) → ZeroedWhole config.segmentSize d e → Rests config P e) := by
  apply openSeeded_triple (I := fun e => (∀ b, NotCut b e) → ZeroedWhole config.segmentSize d e →
    Rests config P e)
  · intro e e' hs hI hcut hz
    refine Rests.ofFiles e e' hs (hI (fun b g hg => hcut b g ((hs.file _).trans hg)) ?_)
    exact hz.of_files fun n => (hs.file n).symm
  · exact fun _ _ => h
  · exact fun _ _ e hd _ _ => h.dropped hd
  · intro hv _ d₀ e hdis hnil hdiff hbegun hcut _
    have hss : headerSize ≤ config.segmentSize := (Nat.le_add_right _ _).trans hv.room
    cases h with
    | empty _ _ hP =>
      exact rests_of_begunFile hP hss hseed hnil hdiff.others (hbegun hseed hss) (hcut seed)
    | log hdis' h => exact absurd (hdis.unique hdis' ▸ hnil) h.logOn.bases_ne_nil
  · exact fun _ _ d₀ base f ps e hdis hlast hf hs hz _ hw => h.zeroing hdis hlast hf hs hz hw

theorem upheld_benign (ok : Machine → Op → List Fate → Prop) (hP : Stable Q P)
    (hok : ∀ {m op fates}, ok m op fates → Benign config m op fates)
    (hmeet : ∀ {m fates wal}, ok m .commit fates → m.handle = some wal → StagedMeet config Q wal) :
    Upheld config ok (fun d => (∀ b, NotCut b d) → Rests config P d)
      (fun _ d => (∀ b, NotCut b d) → Rests config P d) (Tidy config P)
      fun oldest sealed active rest f d => config.Valid ∧ Storing config Q P oldest sealed active rest f d where
  rest_of_stuck h hcut := (h hcut).released
  stuck_die h hcut := (h hcut).released
  stuck_of_live hc h _ := (h.resting hc).rests
  fails {m seed fates} hseed hr hl hcall := by
    obtain ⟨hcut, hzeroed⟩ := hok hcall hl
    have hends := openSeeded_rests hseed (hr hcut) ⟨m.disk, fates⟩ rfl
    rcases hopen : openSeeded config seed ⟨m.disk, fates⟩ with ⟨o, w⟩
    rw [hopen] at hends hzeroed
    cases o with
    | ret r => exact trivial
    | err e => exact fun hcut' => hends.1 hcut' hzeroed
    | crashed => exact fun hcut' => (hends hcut' hzeroed).released
    | diverged => exact hends.elim
  opens {m seed fates wal rep w _ _ _ _} hseed hr hl hcall hopen hopens _ hlog _ := by
    obtain ⟨hv, h1, -⟩ := openSeeded_opens hseed (openSeeded_steady seed _ _ _ hopen)
    exact (hr (hok hcall hl).1).tidy_of_opens hv h1 hseed hopens hlog
  begins {m fates oldest sealed active observed staged f} hv hm hc h hcall _ := by
    have hpos := hc.activeBase_pos
    have hnext : activeBase oldest sealed + active.length - 1 + 1 =
        activeBase oldest sealed + active.length := by omega
    have hharmless := hok hcall _ staged hm
    have hmeets := hmeet hcall hm rfl staged
    simp only [handleOn, hnext, forall_const] at hharmless hmeets
    exact ⟨hv, h, hharmless hc.batch, hmeets hc.batch⟩
  commits oldest := {
    cut := fun k hc hj _ _ => hj.2.cut hc hP hj.1 k
    store := fun hc hj _ => ⟨hj.1, hj.2.store hc hP hj.1⟩
    begun := fun hc hj hr ha _ hb hcut => hj.2.begun hc hj.1 hr ha hb hcut
    rolled := fun hc hj hr ha hq honly hf => ⟨hj.1, hj.2.rolled hc hj.1 hr ha hq honly hf⟩ }
  ends _ h := h.2.toTidy
  unlinks hc h _ := ((h.removeAll hP _).resting hc.removeAll).rests
  deletes _ h _ := (h.removeAll hP _).congr fun _ => rfl

/-- What holds of a directory and of the handle on it over such runs. -/
abbrev Holding (config : WalConfig) (P : ℕ → List Bytes → Prop) : Disk → Option Wal → Prop :=
  Upholds config (fun d => (∀ b, NotCut b d) → Rests config P d)
    (fun _ d => (∀ b, NotCut b d) → Rests config P d) (Tidy config P)

variable {m₀ m m' : Machine} {op : Op} {fates : List Fate} {o : Outcome WalError Reply} {wal : Wal}
  {ok : Machine → Op → List Fate → Prop} {start l : ℕ} {p : Bytes} {rs : List (ℕ × Bytes)}

/-- A run starts in a directory without segments. -/
theorem holding_start (hh : m₀.handle = none) (hl : m₀.disk.locked = false) (hb : basesOf m₀.disk = [])
    (hP : ∀ seed, 1 ≤ seed → P seed []) : Holding config P m₀.disk m₀.handle := by
  rw [hh]
  have hnil : basesOf (acquired m₀.disk) = [] := hb
  exact .rest hl fun _ => .empty (.nothing hnil) hnil hP

/-- What a replay of an open log yields. -/
theorem replayed_of_tidy (hc : Carries config m.disk oldest sealed active f)
    (h : Tidy config P oldest sealed active f m.disk) (observed : List ℕ) (staged : List Bytes)
    (hs : start = 0 ∨ oldest ≤ start) :
    m.replayed (handleOn config oldest sealed active observed staged) start =
      .ret (.records ((numbered oldest (sealed.flatten ++ active)).filter
        fun r => decide (start ≤ r.1)) none) := by
  obtain ⟨r, hr, hdrain⟩ := drain_readerFrom observed staged (h.resting hc).logOn hs
  rw [Machine.replayed, hr]
  simp only [hdrain, numbered_filter]

/-- It yields nothing that is not in the log. -/
theorem mem_of_replayed {failure : Option WalError} {observed : List ℕ} {staged : List Bytes}
    (hc : Carries config m.disk oldest sealed active f) (h : Tidy config P oldest sealed active f m.disk)
    (hr : m.replayed (handleOn config oldest sealed active observed staged) start =
      .ret (.records rs failure)) : ∀ r ∈ rs, r ∈ numbered oldest (sealed.flatten ++ active) := by
  intro r hmem
  by_cases hs : start = 0 ∨ oldest ≤ start
  · rw [replayed_of_tidy hc h observed staged hs] at hr
    obtain ⟨rfl, -⟩ : _ = rs ∧ none = failure := by simpa using hr
    exact (List.mem_filter.mp hmem).1
  · obtain ⟨h0, hlt⟩ := not_or.mp hs
    rw [Machine.replayed, readerFrom_below (Nat.pos_of_ne_zero h0) (Nat.not_le.mp hlt)] at hr
    simp at hr

/-- A whole segment starts at `l` or below. -/
def StartsBelow (l : ℕ) (d : Disk) : Prop :=
  ∃ b ≤ l, ∃ f, d.file (filenameFor b) = some f ∧ HeaderOk f.data b

namespace StartsBelow

theorem ofFiles : OfFiles (StartsBelow l) := by
  rintro d d' hs ⟨b, hb, f, hf, hh⟩
  exact ⟨b, hb, f, (hs.file _).trans hf, hh⟩

theorem of_carries (hc : Carries config d oldest sealed active f) (hle : oldest ≤ l) : StartsBelow l d := by
  cases sealed with
  | nil => exact ⟨oldest, hle, f, hc.file, hc.header⟩
  | cons ps rest =>
    obtain ⟨-, g, hg, hh, -⟩ := hc.chain.1
    exact ⟨oldest, hle, g, hg, hh⟩

theorem oldest_le (h : StartsBelow l d) (hc : Carries config d oldest sealed active f) : oldest ≤ l := by
  obtain ⟨b, hb, g, hg, hh⟩ := h
  have hmem := mem_basesOf.mpr ⟨hh.le_u64Max, g, hg⟩
  rw [hc.bases] at hmem
  exact (mem_basesFrom_le hmem).1.trans hb

theorem discards (h : StartsBelow l d) (hd : Discards config d d₀) : StartsBelow l d₀ := by
  obtain ⟨b, hb, f, hf, hh⟩ := h
  exact ⟨b, hb, f, hd.file_of_headerOk hf hh, hh⟩

theorem dropped (h : StartsBelow l d) (hd : Dropped config d d') : StartsBelow l d' := by
  obtain ⟨base, g, hlast, hg, hi, hs⟩ := hd
  exact ofFiles _ _ ((SameFiles.syncDir _).symm.trans hs) (h.discards (.drop hlast hg hi))

/-- A file that is rewritten behind its header. -/
theorem rewritten {n : FileName} {x : ℕ} (h : StartsBelow l d) (hf : d.file n = some f)
    (hx : headerSize ≤ x) (hr : RewrittenFrom n x f d d') : StartsBelow l d' := by
  obtain ⟨b, hb, g, hg, hh⟩ := h
  obtain ⟨hd, f', hf', hs⟩ := hr
  by_cases hn : filenameFor b = n
  · subst hn
    obtain rfl := Option.some.inj (hf.symm.trans hg)
    exact ⟨b, hb, f', hf', hh.congr (hs.data.mono le_rfl hx)⟩
  · exact ⟨b, hb, g, (hd.others _ hn).trans hg, hh⟩

/-- A file that was not there before. -/
theorem added {n : FileName} (h : StartsBelow l d) (hn : d.file n = none) (hd : DiffersAt n d d') :
    StartsBelow l d' := by
  obtain ⟨b, hb, g, hg, hh⟩ := h
  refine ⟨b, hb, g, (hd.others _ ?_).trans hg, hh⟩
  rintro rfl
  simp [hn] at hg

end StartsBelow

theorem openSeeded_startsBelow (h : StartsBelow l d) (seed : ℕ) :
    Triple (OnDisk (· = d)) (openSeeded config seed) (fun _ => OnDisk (StartsBelow l))
      (fun _ => OnDisk (StartsBelow l)) (OnDisk (StartsBelow l)) := by
  have hacq : StartsBelow l (acquired d) := StartsBelow.ofFiles _ _ ⟨fun _ => rfl, rfl⟩ h
  refine (openSeeded_triple seed StartsBelow.ofFiles h (fun _ _ _ hd => h.dropped hd) ?_ ?_).conseq
    (fun _ hw => hw) (fun _ _ hw => hw) (fun _ _ hw => hw.1) fun _ hw => hw
  · rintro - - d₀ d' hd hnil - -
    obtain ⟨b, -, g, hg, hh⟩ := hacq.discards hd
    simpa [hnil] using mem_basesOf.mpr ⟨hh.le_u64Max, g, hg⟩
  · rintro - - d₀ base f ps d' hd - hf - hz
    exact (hacq.discards hd).rewritten hf (Nat.le_add_right _ _) hz.1

theorem commitRule_startsBelow (config : WalConfig) (l oldest : ℕ) :
    CommitRule config oldest (fun _ _ _ _ _ => StartsBelow l) fun _ _ _ => StartsBelow l where
  cut _ hc hj _ := hj.rewritten hc.file (Nat.le_add_right _ _)
    ⟨⟨fun _ hm => Disk.put_file_ne _ _ hm, rfl⟩, _, Disk.put_file_self _ _ _,
      .write _ hc.le_length le_rfl⟩
  store hc hj _ := hj.rewritten hc.file (Nat.le_add_right _ _)
    ⟨⟨fun _ hm => Disk.put_file_ne _ _ hm, rfl⟩, _, Disk.put_file_self _ _ _,
      (SameBefore.write _ hc.le_length le_rfl).trans (.sync (SameBefore.write _ hc.le_length le_rfl).length)⟩
  begun hc hj hr ha _ hb := hj.added (hc.next_free ha (hc.next_le_u64Max hr)) hb.1.toDiffersAt
  rolled hc hj hr ha _ honly _ := StartsBelow.ofFiles _ _ (.syncDir _)
    (hj.added (hc.next_free ha (hc.next_le_u64Max hr)) honly.toDiffersAt)

/-- A checkpoint below `l` leaves the segment that `l` lies in. -/
theorem checkpoint_startsBelow {upTo : ℕ} {observed : List ℕ} {staged : List Bytes}
    (hc : Carries config d oldest sealed active f) (h : StartsBelow l d) (hlt : upTo < l)
    (fates : List Fate) :
    Ends (fun _ s => StartsBelow l s.world.disk) (fun _ s => StartsBelow l s.world.disk)
      (fun s => StartsBelow l s.world.disk)
      (checkpoint upTo ⟨handleOn config oldest sealed active observed staged, ⟨d, fates⟩⟩) := by
  obtain ⟨xs, ys, rfl, hx, -, hends⟩ := checkpoint_triple hc observed staged upTo fates
  have hsome : ∀ k ≤ xs.length,
      StartsBelow l (removeAll ((basesFrom oldest (xs ++ ys)).take k) d) := by
    intro k hk
    have hsplit : xs ++ ys = xs.take k ++ (xs.drop k ++ ys) := by
      rw [← List.append_assoc, List.take_append_drop]
    have hleft := (hsplit ▸ hc : Carries config d oldest (xs.take k ++ (xs.drop k ++ ys)) active f).removeAll
    rw [← hsplit, List.length_take_of_le hk] at hleft
    refine .of_carries hleft ?_
    rcases hx with rfl | hx
    · simpa using h.oldest_le hc
    · have hall : activeBase oldest xs = activeBase (activeBase oldest (xs.take k)) (xs.drop k) := by
        rw [← activeBase_append, List.take_append_drop]
      have := le_activeBase (activeBase oldest (xs.take k)) (xs.drop k)
      omega
  refine hends.imp ?_ ?_ ?_
  · rintro _ s ⟨-, ⟨-, hs⟩ | ⟨-, hs⟩⟩
    · rwa [hs]
    · rw [hs]
      exact StartsBelow.ofFiles _ _ (.syncDir _) (hsome _ le_rfl)
  · rintro _ s ⟨-, -, k, hk, hs⟩
    rw [hs]
    exact hsome k hk
  · rintro s ⟨-, k, hk, hs⟩
    rw [hs]
    exact hsome k hk

theorem commit_startsBelow {observed : List ℕ} {staged : List Bytes} (hv : config.Valid)
    (hc : Committing config d oldest sealed active f staged) (h : StartsBelow l d) (fates : List Fate) :
    Ends (fun _ s => StartsBelow l s.world.disk) (fun _ s => StartsBelow l s.world.disk)
      (fun s => StartsBelow l s.world.disk)
      (commit ⟨handleOn config oldest sealed active observed staged, ⟨d, fates⟩⟩) := by
  by_cases hs : staged = []
  · subst hs
    exact h
  · refine (commit_triple (commitRule_startsBelow config l oldest) hv hs fates hc h).imp ?_ ?_ ?_
    · rintro _ s ⟨-, _, _, _, _, -, -, -, hs⟩
      exact hs
    · rintro _ s ⟨-, _, _, _, -, hs⟩
      exact hs
    · rintro s ⟨_, _, _, -, hs⟩
      exact hs

omit [Crc32c] in
/-- What a method of the handle leaves of the files. -/
theorem execOn_ofFiles {α : Type} {prog : Prog Sys WalError α} {reply : α → Reply} {I : Disk → Prop}
    (hfiles : OfFiles I) (he : m.execOn wal fates (reply <$> prog) = (o, m'))
    (h : Ends (fun _ s => I s.world.disk) (fun _ s => I s.world.disk) (fun s => I s.world.disk)
      (prog ⟨wal, ⟨m.disk, fates⟩⟩)) : I m'.disk := by
  obtain ⟨a, s, -, hs, rfl⟩ | ⟨e, s, -, hs, rfl⟩ | ⟨s, -, hs, rfl⟩ := Machine.execOn_ends h he
  · exact hs
  · exact hs
  · exact hfiles s.world.disk _ ⟨fun _ => rfl, rfl⟩ hs

/-- Every call keeps a segment from `l` or below; a checkpoint has to be of records below `l`. -/
theorem startsBelow_step
    (hu : Upholds config (fun _ => True) (fun _ _ => True) (fun _ _ _ _ _ => True) m.disk m.handle)
    (h : StartsBelow l m.disk) (hlt : ∀ upTo, op = .checkpoint upTo → upTo < l)
    (he : m.exec config op fates = some (o, m')) : StartsBelow l m'.disk := by
  have hopen : ∀ {seed}, m.execOpen config seed fates = (o, m') → StartsBelow l m'.disk := by
    intro seed he
    have hends : Ends (fun _ => OnDisk (StartsBelow l)) (fun _ => OnDisk (StartsBelow l))
        (OnDisk (StartsBelow l)) (openSeeded config seed ⟨m.disk, fates⟩) :=
      openSeeded_startsBelow h seed _ rfl
    unfold Machine.execOpen at he
    rcases hopen : openSeeded config seed ⟨m.disk, fates⟩ with ⟨r, w⟩
    rw [hopen] at he hends
    cases r with
    | ret _ =>
      obtain ⟨-, rfl⟩ := Prod.mk.inj he
      exact hends
    | err _ =>
      obtain ⟨-, rfl⟩ := Prod.mk.inj he
      exact hends
    | crashed =>
      obtain ⟨-, rfl⟩ := Prod.mk.inj he
      exact StartsBelow.ofFiles _ _ ⟨fun _ => rfl, rfl⟩ hends
    | diverged => exact hends.elim
  rcases hh : m.handle with _ | wal
  · cases op with
    | openLog seed => exact hopen (Option.some.inj he)
    | _ => simp [Machine.exec_none hh] at he
  rw [hh] at hu
  cases op with
  | openLog seed => exact hopen (Option.some.inj he)
  | append payload =>
    rw [Machine.exec_append hh, Option.some.injEq] at he
    exact execOn_ofFiles StartsBelow.ofFiles he ((append_sameDisk wal m.disk fates payload).imp
      (fun _ s hs => hs ▸ h) (fun _ s hs => hs ▸ h) fun s hs => hs ▸ h)
  | commit =>
    rw [Machine.exec_commit hh, Option.some.injEq] at he
    refine execOn_ofFiles StartsBelow.ofFiles he ?_
    cases hu with
    | live hv _ _ hc => exact commit_startsBelow hv hc h fates
    | stuck _ _ hp =>
      rw [commit_poisoned hp]
      exact h
  | checkpoint upTo =>
    rw [Machine.exec_checkpoint hh, Option.some.injEq] at he
    refine execOn_ofFiles StartsBelow.ofFiles he ?_
    cases hu with
    | live _ _ _ hc => exact checkpoint_startsBelow hc.toCarries h (hlt upTo rfl) fates
    | stuck _ _ hp =>
      rw [checkpoint_poisoned hp]
      exact h
  | replay start =>
    rw [Machine.exec_replay hh, Option.some.injEq] at he
    obtain ⟨-, rfl⟩ := Prod.mk.inj he
    exact h
  | close =>
    rw [Machine.exec_close hh, Option.some.injEq] at he
    obtain ⟨-, rfl⟩ := Prod.mk.inj he
    exact StartsBelow.ofFiles _ _ ⟨fun _ => rfl, rfl⟩ h

omit [Crc32c] in
theorem NotCut.of_entries (h : d.entries.entries.all fun g =>
    decide (g.2.data = [] ∨ headerSize ≤ g.2.data.length)) (b : ℕ) : NotCut b d := fun _ hg =>
  of_decide_eq_true (List.all_eq_true.mp h _ (AList.mem_lookup_iff.mp hg))

theorem Upholds.forget {rest : Disk → Prop} {stuck : ℕ → Disk → Prop}
    {live : ℕ → List (List Bytes) → List Bytes → File → Disk → Prop} {handle : Option Wal}
    (h : Upholds config rest stuck live d handle) :
    Upholds config (fun _ => True) (fun _ _ => True) (fun _ _ _ _ _ => True) d handle := by
  cases h with
  | rest hl _ => exact .rest hl trivial
  | live hv hl hd hc hobs _ => exact .live hv hl hd hc hobs trivial
  | stuck hl hd hp hobs _ => exact .stuck hl hd hp hobs trivial

theorem startsBelow_run
    (hu : Upholds config (fun _ => True) (fun _ _ => True) (fun _ _ _ _ _ => True) m.disk m.handle)
    (h : StartsBelow l m.disk)
    (hok : ∀ {m upTo fates}, ok m (.checkpoint upTo) fates → upTo < l)
    (hm' : Machine.Reaches config ok m m') : StartsBelow l m'.disk := by
  induction hm' with
  | start => exact h
  | step hr _ hcall he ih =>
    refine startsBelow_step ((Upheld.trivially config ok).run hu hr) ih ?_ he
    rintro upTo rfl
    exact hok hcall

omit [Crc32c] in
theorem stable_true : Stable Q fun _ _ => True := ⟨fun _ _ => trivial, fun _ => trivial⟩

omit [Crc32c] in
/-- A record stays in the log as long as the log reaches down to it. -/
theorem stable_record (l : ℕ) (p : Bytes) :
    Stable Q fun oldest ps => oldest ≤ l → (l, p) ∈ numbered oldest ps where
  append h _ hle := by
    rw [numbered_append]
    exact List.mem_append_left _ (h hle)
  drop {oldest ps qs} h hle := by
    have hmem := h ((Nat.le_add_right _ _).trans hle)
    rw [numbered_append] at hmem
    refine (List.mem_append.mp hmem).resolve_left fun hps => ?_
    exact absurd (mem_numbered_bounds hps).2 (Nat.not_lt.mpr hle)

/-- The log has the record: an open handle replays it, and where none is open, any `open` that
meets no failing call recovers it. -/
structure HasRecord (config : WalConfig) (m : Machine) (l : ℕ) (p : Bytes) : Prop where
  replayed : ∀ wal, m.handle = some wal → wal.poisoned = false →
    ∃ rs, m.replayed wal 0 = .ret (.records rs none) ∧ (l, p) ∈ rs
  recovered : m.handle = none → (∀ b, NotCut b m.disk) → ∀ seed, (Op.openLog seed).Legal →
    ∃ wal rep rs, Recovers config m.disk seed wal rep rs ∧ (l, p) ∈ rs

def BenignBelow (config : WalConfig) (l : ℕ) (m : Machine) (op : Op) (fates : List Fate) : Prop :=
  Benign config m op fates ∧ ∀ upTo, op = .checkpoint upTo → upTo < l

/-- What the runs from a log with the record keep, where they do not delete it. -/
theorem hasRecord_of_holding
    (hu : Holding config (fun oldest ps => oldest ≤ l → (l, p) ∈ numbered oldest ps) m.disk m.handle)
    (hbelow : StartsBelow l m.disk) (hv : config.Valid) : HasRecord config m l p := by
  refine ⟨fun wal hw hp => ?_, fun hnone hcut seed hseed => ?_⟩
  · rw [hw] at hu
    cases hu with
    | stuck _ _ hpois => simp [hp] at hpois
    | live _ _ _ hc _ h =>
      exact ⟨_, replayed_of_tidy hc.toCarries h _ _ (Or.inl rfl),
        List.mem_filter.mpr ⟨h.holds (hbelow.oldest_le hc.toCarries), by simp⟩⟩
  · rw [hnone] at hu
    cases hu with
    | rest hl h =>
      obtain ⟨wal, rep, oldest, ps, hps, hrec, -, -, hfloor⟩ := (h hcut).recovers hv hl hseed
      obtain ⟨b, hbl, g, hg, hheader⟩ := hbelow
      exact ⟨wal, rep, _, hrec, hps ((hfloor b g hg hheader).trans hbl)⟩

theorem holding_reaches (hh : m₀.handle = none) (hl : m₀.disk.locked = false) (hb : basesOf m₀.disk = [])
    (hm : Machine.Reaches config (Benign config) m₀ m) :
    Holding config (fun _ _ => True) m.disk m.handle :=
  (upheld_benign (Q := fun _ _ => True) (Benign config) stable_true (fun h => h) fun _ _ _ _ _ _ _ _ => trivial).run
    (holding_start hh hl hb fun _ _ => trivial) hm

/-- A record that was once replayed stays in the log, whatever calls fail and whenever the
process dies, until a checkpoint is asked to delete it. -/
theorem record_survives (hh : m₀.handle = none) (hl : m₀.disk.locked = false) (hb : basesOf m₀.disk = [])
    (hm : Machine.Reaches config (Benign config) m₀ m) (hw : m.handle = some wal)
    (hp : wal.poisoned = false) {failure : Option WalError}
    (hr : m.replayed wal start = .ret (.records rs failure)) (hmem : (l, p) ∈ rs)
    (hm' : Machine.Reaches config (BenignBelow config l) m m') : HasRecord config m' l p := by
  have hfirst := holding_reaches hh hl hb hm
  have hforget := hfirst.forget
  rw [hw] at hfirst
  cases hfirst with
  | stuck _ _ hpois => simp [hp] at hpois
  | live hv hlock hdir hc hobs h =>
    rename_i oldest sealed active observed staged f
    have hlog : (l, p) ∈ numbered oldest (sealed.flatten ++ active) :=
      mem_of_replayed hc.toCarries h hr _ hmem
    -- the record is in the log from here on, and so is a segment at or below it
    have hstart : Holding config (fun oldest ps => oldest ≤ l → (l, p) ∈ numbered oldest ps) m.disk
        m.handle := by
      rw [hw]
      exact .live hv hlock hdir hc hobs ⟨h.clean, h.zero, fun _ => hlog⟩
    have hrecord := upheld_benign (Q := fun _ _ => True) (BenignBelow config l) (stable_record l p)
      (fun h => h.1) fun _ _ _ _ _ _ _ _ => trivial
    have hbelow := startsBelow_run hforget (.of_carries hc.toCarries (mem_numbered_bounds hlog).1)
      (fun hcall => hcall.2 _ rfl) hm'
    exact hasRecord_of_holding (hrecord.run hstart hm') hbelow hv

/-- Whatever calls failed and whenever the process died, an `open` that meets no failing call
recovers a log without gaps, if no segment file ends inside its header. -/
theorem crash_run_recovers (hv : config.Valid) (hh : m₀.handle = none) (hl : m₀.disk.locked = false)
    (hb : basesOf m₀.disk = []) (hm : Machine.Reaches config (Benign config) m₀ m)
    (hnone : m.handle = none) (hcut : ∀ b, NotCut b m.disk) (hseed : (Op.openLog seed).Legal) :
    ∃ wal rep ps, Recovers config m.disk seed wal rep (numbered rep.oldestLsn ps) ∧
      rep.durableLsn + 1 = rep.oldestLsn + ps.length := by
  have hu := holding_reaches hh hl hb hm
  rw [hnone] at hu
  cases hu with
  | rest hl' h =>
    obtain ⟨wal, rep, oldest, ps, -, hrec, rfl, hd, -⟩ := (h hcut).recovers hv hl' hseed
    exact ⟨wal, rep, ps, hrec, hd⟩

/-- A commit of the records that the bytes of the batch say. -/
theorem benign_commit {x : ℕ} {staged : List Bytes}
    (hm : m.handle.map (fun wal => (wal.durableLsn + 1, wal.writeOffset, wal.staging)) =
      some (l, x, encodeRun l staged))
    (hb : Batch config.maxRecordSize l staged)
    (hc : CutsHarmless config.segmentSize config.maxRecordSize x l staged) :
    Benign config m .commit fates := by
  intro wal staged' hw hst hb'
  rw [hw] at hm
  obtain ⟨rfl, rfl, hst'⟩ : wal.durableLsn + 1 = l ∧ wal.writeOffset = x ∧ _ := by simpa using hm
  rwa [← hb.eq_of_encodeRun hb' config.maxRecordSize_lt (hst'.symm.trans hst)]

end

def committedOne : List (Op × List Fate) :=
  [(.openLog 1, []), (.append (zeros 20), []), (.commit, [])]

/-- The process dies when ten bytes of the next one are stored. -/
def cutSecond : List (Op × List Fate) := [(.append [7], []), (.commit, [.crash 10])]

def CutSecondOk (m : Machine) (op : Op) (fates : List Fate) : Prop :=
  Benign tightConfig m op fates ∧ (∀ upTo, op ≠ .checkpoint upTo) ∧
    ∀ wal payload, m.handle = some wal → op = .append payload →
      (wal.lastLsn + 1, payload) ∈ [(1, zeros 20), (2, [7])]

theorem cutSecond_reaches : ∃ m m' wal,
    Machine.Reaches tightConfig CutSecondOk (Machine.fresh true fun _ => 0) m ∧
    Machine.Reaches tightConfig CutSecondOk m m' ∧ m.handle = some wal ∧ wal.poisoned = false ∧
    m.replayed wal 0 = .ret (.records [(1, zeros 20)] none) ∧ m'.handle = none ∧
    ∀ b, NotCut b m'.disk := by
  have hrun : ((Machine.fresh true fun _ => 0).runFated tightConfig (committedOne ++ cutSecond)).map
      (fun r => (r.2.handle.isNone, r.2.disk.entries.entries.all fun g =>
        decide (g.2.data = [] ∨ headerSize ≤ g.2.data.length))) = some (true, true) := by decide +kernel
  obtain ⟨⟨os, m'⟩, hrun, hres⟩ := Option.map_eq_some_iff.mp hrun
  obtain ⟨o₁, os₁, m₁, rfl, h₁, hrest⟩ := Machine.runFated_cons hrun
  obtain ⟨o₂, os₂, m₂, rfl, h₂, hrest⟩ := Machine.runFated_cons hrest
  obtain ⟨o₃, os₃, m₃, rfl, h₃, hrest⟩ := Machine.runFated_cons hrest
  obtain ⟨o₄, os₄, m₄, rfl, h₄, hrest⟩ := Machine.runFated_cons hrest
  obtain ⟨o₅, os₅, m₅, rfl, h₅, hrest⟩ := Machine.runFated_cons hrest
  obtain ⟨-, rfl⟩ := Prod.mk.inj (Option.some.inj hrest)
  -- the state each call is made in
  have hopened : ((Machine.fresh true fun _ => 0).runFated tightConfig (committedOne.take 1)).map
      (fun r => r.2.handle.map fun wal => wal.lastLsn) = some (some 0) := by decide +kernel
  have hstaged : ((Machine.fresh true fun _ => 0).runFated tightConfig (committedOne.take 2)).map
      (fun r => r.2.handle.map fun wal => (wal.durableLsn + 1, wal.writeOffset, wal.staging)) =
        some (some (1, 64, encodeRun 1 [zeros 20])) := by decide +kernel
  have hcommitted : ((Machine.fresh true fun _ => 0).runFated tightConfig committedOne).map
      (fun r => r.2.handle.map fun wal => (wal.lastLsn, wal.poisoned, r.2.replayed wal 0)) =
        some (some (1, false, .ret (.records [(1, zeros 20)] none))) := by decide +kernel
  have hnext : ((Machine.fresh true fun _ => 0).runFated tightConfig
      (committedOne ++ cutSecond.take 1)).map
      (fun r => r.2.handle.map fun wal => (wal.durableLsn + 1, wal.writeOffset, wal.staging)) =
        some (some (2, 104, encodeRun 2 [[7]])) := by decide +kernel
  simp only [committedOne, cutSecond, List.take_succ_cons, List.take_zero, List.cons_append, List.nil_append,
    Machine.runFated, h₁, h₂, h₃, h₄, Option.map_some, Option.some.injEq] at hopened hstaged hcommitted hnext
  obtain ⟨wal₁, hw₁, hlast₁⟩ := Option.map_eq_some_iff.mp hopened
  obtain ⟨wal, hw, hwal⟩ := Option.map_eq_some_iff.mp hcommitted
  simp only [Prod.mk.injEq] at hwal hres
  obtain ⟨hlast, hp, hreplayed⟩ := hwal
  have hopen : CutSecondOk (Machine.fresh true fun _ => 0) (.openLog 1) [] := by
    refine ⟨fun _ => ⟨fun b g hg => ?_, fun b f g _ hf => ?_⟩, by simp, by simp⟩
    · simp [Machine.fresh] at hg
    · simp [Machine.fresh] at hf
  have hfirst : CutSecondOk m₂ .commit [] := ⟨benign_commit hstaged ⟨by decide, by decide⟩
    ⟨by decide +kernel, trivial⟩, by simp, by simp⟩
  have hsecond : CutSecondOk m₄ .commit [.crash 10] := ⟨benign_commit hnext ⟨by decide, by decide⟩
    ⟨by decide +kernel, trivial⟩, by simp, by simp⟩
  have happend : ∀ {m : Machine} {wal : Wal} {p : Bytes}, m.handle = some wal →
      (wal.lastLsn + 1, p) ∈ [(1, zeros 20), (2, [7])] → CutSecondOk m (.append p) [] := by
    refine fun hw hmem => ⟨trivial, by simp, ?_⟩
    rintro _ _ hw' ⟨⟩
    obtain rfl := Option.some.inj (hw.symm.trans hw')
    exact hmem
  have hlegal : (Op.openLog 1).Legal ∧ Op.commit.Legal ∧ ∀ p, (Op.append p).Legal :=
    ⟨⟨le_rfl, by decide⟩, trivial, fun _ => trivial⟩
  have hm₁ := Machine.Reaches.start.step hlegal.1 hopen h₁
  have hm₂ := hm₁.step (hlegal.2.2 _) (happend hw₁ (by rw [hlast₁]; decide)) h₂
  have hm₃ := hm₂.step hlegal.2.1 hfirst h₃
  have hm₄ := Machine.Reaches.start.step (hlegal.2.2 _) (happend hw (by rw [hlast]; decide)) h₄
  exact ⟨m₃, m₅, wal, hm₃, hm₄.step hlegal.2.1 hsecond h₅, hw, hp, hreplayed,
    Option.isNone_iff_eq_none.mp hres.1, NotCut.of_entries hres.2⟩

/-- The record that was committed outlives the process. -/
theorem record_survives_cut : ∃ m m' wal,
    Machine.Reaches tightConfig (Benign tightConfig) (Machine.fresh true fun _ => 0) m ∧
    m.handle = some wal ∧ m.replayed wal 0 = .ret (.records [(1, zeros 20)] none) ∧
    Machine.Reaches tightConfig (BenignBelow tightConfig 1) m m' ∧ m'.handle = none ∧
    HasRecord tightConfig m' 1 (zeros 20) := by
  obtain ⟨m, m', wal, hm, hm', hw, hp, hr, hnone, -⟩ := cutSecond_reaches
  have hm := hm.mono fun h => h.1
  have hm' : Machine.Reaches tightConfig (BenignBelow tightConfig 1) m m' :=
    hm'.mono fun h => ⟨h.1, fun upTo hop => absurd hop (h.2.1 upTo)⟩
  exact ⟨m, m', wal, hm, hw, hr, hm', hnone,
    record_survives rfl rfl (by decide) hm hw hp hr List.mem_cons_self hm'⟩

/-- The directory of the process that died is opened. -/
theorem crash_run_recovers_cut : ∃ m,
    Machine.Reaches tightConfig (Benign tightConfig) (Machine.fresh true fun _ => 0) m ∧
    m.handle = none ∧ ∃ wal rep ps,
      Recovers tightConfig m.disk 1 wal rep (numbered rep.oldestLsn ps) ∧
        rep.durableLsn + 1 = rep.oldestLsn + ps.length := by
  obtain ⟨m, m', wal, hm, hm', -, -, -, hnone, hcut⟩ := cutSecond_reaches
  have hall := (hm.trans hm').mono fun h => h.1
  exact ⟨m', hall, hnone,
    crash_run_recovers (by decide) rfl rfl (by decide) hall hnone hcut ⟨le_rfl, by decide⟩⟩

end OpenWal
