import OpenWal.Model.Oracle
import OpenWal.Results.Refinement
import OpenWal.Theory.Growth

namespace OpenWal.Harness
open ByteSeq Posix CrashProg

theorem check_of {p : Prop} [Decidable p] (h : p) : check p = some () := if_pos h

theorem insert_numbered (e : ℕ) (ps : List Bytes) (p : Bytes) :
    Entries.insert (e + ps.length) p (numbered e ps) = numbered e (ps ++ [p]) := by
  induction ps generalizing e with
  | nil => rfl
  | cons q ps ih =>
    rw [numbered_cons, Entries.insert, if_neg (by simp), if_neg (by simp)]
    rw [List.length_cons, ← Nat.add_assoc, Nat.add_right_comm, ih]
    rfl

theorem foldl_insert_numbered (e : ℕ) (ps qs : List Bytes) :
    (numbered (e + ps.length) qs).foldl (fun m r => Entries.insert r.1 r.2 m) (numbered e ps) =
      numbered e (ps ++ qs) := by
  induction qs generalizing ps with
  | nil => rw [numbered_nil, List.foldl_nil, List.append_nil]
  | cons q qs ih =>
    have hnext : e + ps.length + 1 = e + (ps ++ [q]).length := by
      rw [List.length_append, List.length_singleton, Nat.add_assoc]
    rw [numbered_cons, List.foldl_cons, insert_numbered, hnext, ih, List.append_assoc]
    rfl

theorem lookup_numbered {e lsn : ℕ} {ps : List Bytes} {p : Bytes} (h : (lsn, p) ∈ numbered e ps) :
    lookup (numbered e ps) lsn = some p := by
  induction ps generalizing e with
  | nil => simp at h
  | cons q ps ih =>
    rw [numbered_cons, List.mem_cons] at h
    rcases h with heq | hmem
    · obtain ⟨rfl, rfl⟩ := Prod.mk.inj heq
      simp [lookup, numbered_cons]
    · have hlt : e ≠ lsn := by
        have hfst := List.mem_map_of_mem (f := Prod.fst) hmem
        rw [numbered_map_fst, List.mem_range'_1] at hfst
        exact fun heq => by omega
      rw [← ih hmem]
      simp [lookup, numbered_cons, hlt]

theorem isDense_numbered {e : ℕ} {ps : List Bytes} (h : e + ps.length ≤ u64Max + 1) :
    isDense (numbered e ps) = true := by
  induction ps generalizing e with
  | nil => rfl
  | cons p ps ih =>
    cases ps with
    | nil => rfl
    | cons q ps =>
      rw [List.length_cons, List.length_cons] at h
      have hnext : checkedNext e = some (e + 1) := if_pos (by omega)
      have hrest := ih (e := e + 1) (by rw [List.length_cons]; omega)
      rw [numbered_cons, numbered_cons] at *
      rw [isDense, hrest, hnext]
      simp

theorem getLast?_numbered (e : ℕ) {ps : List Bytes} (h : ps ≠ []) :
    (numbered e ps).getLast?.map Prod.fst = some (e + ps.length - 1) := by
  have hlen := List.length_pos_iff.mpr h
  rw [← List.getLast?_map, numbered_map_fst, List.getLast?_range', if_neg hlen.ne']

/-- A record that was placed is in the active segment, or in one that is filled. -/
theorem pack_active_ne_nil {ss : ℕ} (log : List (List Bytes) × List Bytes) {ps : List Bytes}
    (h : ps ≠ []) :
    (pack ss log ps).2 ≠ [] := by
  obtain ⟨init, p, rfl⟩ := List.eq_nil_or_concat ps |>.resolve_left h
  rw [List.concat_eq_append, pack_append]
  change (place ss (pack ss log init) p).2 ≠ []
  unfold place
  split_ifs <;> simp

section

variable [Crc32c]

structure Stands (config : WalConfig) (m : Machine) (oldest : ℕ) (sealed : List (List Bytes))
    (active staged : List Bytes) : Prop where
  handle : ∃ observed, m.handle = some (handleOn config oldest sealed active observed staged)
  locked : m.disk.locked = true
  stored : ∃ f, StoredLog config False m.disk oldest sealed active f
  batch : Batch config.maxRecordSize (activeBase oldest sealed + active.length) staged

variable {config : WalConfig} {m : Machine} {oldest : ℕ} {sealed : List (List Bytes)}
  {active staged : List Bytes}

def nextOf (oldest : ℕ) (sealed : List (List Bytes)) (active staged : List Bytes) : ℕ :=
  activeBase oldest sealed + active.length + staged.length

namespace Stands

theorem activeBase_pos (h : Stands config m oldest sealed active staged) :
    1 ≤ activeBase oldest sealed := by
  obtain ⟨f, hf⟩ := h.stored
  exact hf.activeBase_pos

theorem append (h : Stands config m oldest sealed active staged) {p : Bytes}
    (hp : p.length ≤ config.maxRecordSize) (hx : nextOf oldest sealed active staged ≤ u64Max) :
    ∃ m', Harness.append config m p = some (m', nextOf oldest sealed active staged) ∧
      Stands config m' oldest sealed active (staged ++ [p]) := by
  obtain ⟨observed, hh⟩ := h.handle
  obtain ⟨m', hrun, hd, hh'⟩ : ∃ m', m.exec config (.append p) [] =
        some (.ret (.appended (nextOf oldest sealed active staged)), m') ∧ m'.disk = m.disk ∧
      m'.handle = some (handleOn config oldest sealed active observed (staged ++ [p])) :=
    ⟨_, Machine.calmStep_append hh (append_staged hp h.activeBase_pos hx), rfl, rfl⟩
  refine ⟨m', ?_, ⟨observed, hh'⟩, hd ▸ h.locked, hd ▸ h.stored, Batch.append_iff.mpr ⟨h.batch, ?_⟩⟩
  · rw [Harness.append, hrun]
  · exact ⟨by simpa using hp, by simpa [nextOf] using hx⟩

theorem checkpoint (h : Stands config m oldest sealed active staged) (upTo : ℕ) :
    ∃ m' xs ys, Harness.checkpoint config m upTo = some m' ∧ sealed = xs ++ ys ∧
      (xs = [] ∨ activeBase oldest xs - 1 ≤ upTo) ∧
      Stands config m' (activeBase oldest xs) ys active staged := by
  obtain ⟨observed, hh⟩ := h.handle
  obtain ⟨f, hf⟩ := h.stored
  obtain ⟨xs, ys, d', rfl, hx, hc, hlog, hl⟩ := checkpoint_calm observed staged upTo hf
  obtain ⟨m', hrun, hd, hh'⟩ : ∃ m', m.exec config (.checkpoint upTo) [] =
        some (.ret .checkpointed, m') ∧ m'.disk = d' ∧
      m'.handle = some (handleOn config (activeBase oldest xs) ys active observed staged) :=
    ⟨_, Machine.calmStep_checkpoint hh hc, rfl, rfl⟩
  subst hd
  refine ⟨m', xs, ys, ?_, rfl, hx, ⟨observed, hh'⟩, hl.trans h.locked, ⟨f, hlog⟩, ?_⟩
  · rw [Harness.checkpoint, hrun]
  · rw [← activeBase_append]
    exact h.batch

theorem commit (h : Stands config m oldest sealed active staged) (hv : config.Valid) :
    ∃ m' segs active', Harness.commit config m =
        some (m', nextOf oldest sealed active staged - 1) ∧
      (sealed ++ segs).flatten ++ active' = sealed.flatten ++ active ++ staged ∧
      (active ≠ [] ∨ staged ≠ [] → active' ≠ []) ∧ Stands config m' oldest (sealed ++ segs) active' [] := by
  obtain ⟨observed, hh⟩ := h.handle
  obtain ⟨f, hf⟩ := h.stored
  have hpos := h.activeBase_pos
  by_cases hs : staged = []
  · subst hs
    obtain ⟨m', hrun, hd, hh'⟩ : ∃ m', m.exec config .commit [] =
          some (.ret (.committed (activeBase oldest sealed + active.length - 1)), m') ∧ m'.disk = m.disk ∧
        m'.handle = some (handleOn config oldest sealed active observed []) :=
      ⟨_, Machine.calmStep_commit hh (commit_nothing m.disk), rfl, rfl⟩
    refine ⟨m', [], active, ?_, by simp, fun ha => ha.resolve_right fun h => h rfl, ?_⟩
    · rw [Harness.commit, hrun]
      rfl
    · rw [List.append_nil]
      exact ⟨⟨observed, hh'⟩, hd ▸ h.locked, hd ▸ h.stored, h.batch⟩
  · obtain ⟨segs, active', observed', f', d', hc, hflat, hext, -⟩ :=
      commit_calm False observed hs hf.file hf.written (fun _ => hf.logOn.free) hv h.batch False.elim
    have hlog := hf.extend hext
    obtain ⟨m', hrun, hd, hh'⟩ : ∃ m', m.exec config .commit [] = some (.ret (.committed
          (activeBase oldest sealed + active.length - 1 + staged.length)), m') ∧ m'.disk = d' ∧
        m'.handle = some (handleOn config oldest (sealed ++ segs) active' observed' []) :=
      ⟨_, Machine.calmStep_commit hh hc, rfl, rfl⟩
    subst hd
    have hlast : activeBase oldest sealed + active.length - 1 + staged.length =
        nextOf oldest sealed active staged - 1 := by
      unfold nextOf
      omega
    refine ⟨m', segs, active', ?_, ?_, fun _ => ?_, ⟨observed', hh'⟩, hext.locked.trans h.locked,
      ⟨f', hlog⟩, Batch.nil_of_le hlog.next_le⟩
    · rw [Harness.commit, hrun, hlast]
    · rw [List.append_assoc, ← hflat, List.flatten_append, List.append_assoc]
    · -- the other account of the same commit says where each record went
      have hc₀ : Committing config m.disk oldest (sealed ++ []) active f staged :=
        ⟨by rw [List.append_nil]; exact hf.carries, by rw [List.append_nil]; exact h.batch⟩
      have hg : Grown (fun _ _ _ => True) m.disk m.disk (activeBase oldest sealed) [] active f.data :=
        ⟨trivial, trivial, fun _ _ => rfl⟩
      obtain ⟨segs', active'', observed'', f'', d'', hrun', hpack, -⟩ :=
        commit_grows sealed hv ⟨fun _ _ => trivial, fun _ _ => trivial⟩ rfl observed hs hc₀ hg
      rw [List.append_nil, hc, Prod.mk.injEq, Sys.mk.injEq] at hrun'
      have hoffset : headerSize + runSize active' = headerSize + runSize active'' :=
        congrArg Wal.writeOffset hrun'.2.1
      have hne : active'' ≠ [] := by
        rw [← (Prod.mk.inj hpack).2]
        exact pack_active_ne_nil _ hs
      intro hnil
      rw [hnil, runSize_nil, Nat.add_left_cancel_iff] at hoffset
      exact hne (runSize_eq_zero.mp hoffset.symm)

/-- Dropping the handle and opening the log again brings back what was committed. -/
theorem reopen (h : Stands config m oldest sealed active staged) (hv : config.Valid) :
    ∃ m₁ m₂, Harness.drop config m = some m₁ ∧
      openLog config m₁ = some (m₂, reportOn oldest sealed active .clean) ∧
      Stands config m₂ oldest sealed active [] := by
  obtain ⟨observed, hh⟩ := h.handle
  obtain ⟨f, hf⟩ := h.stored
  have hclosed : StoredLog config False m.die.disk oldest sealed active f :=
    ⟨hf.bases, hf.chain.congr fun _ _ _ _ => rfl, hf.file, hf.written⟩
  obtain ⟨d', hopen, hset⟩ := openSeeded_of_logOn hv (le_refl lsnFirst) rfl hclosed.logOn
    (.clean hclosed.written.cleanAt)
  have hlog : StoredLog config False d' oldest sealed active f :=
    hclosed.acquired.setActive hset hclosed.written
  have hdrop : m.exec config .close [] = some (.ret .closed, m.die) := Machine.calmStep_close hh
  obtain ⟨m', hrun, hd, hh'⟩ : ∃ m', m.die.exec config (.openLog lsnFirst) [] =
        some (.ret (.opened (reportOn oldest sealed active .clean)), m') ∧ m'.disk = d' ∧
      m'.handle = some (handleOn config oldest sealed active [] []) :=
    ⟨_, Machine.calmStep_open hopen, rfl, rfl⟩
  subst hd
  refine ⟨m.die, m', ?_, ?_, ⟨[], hh'⟩, hset.locked, ⟨f, hlog⟩, Batch.nil_of_le hlog.next_le⟩
  · rw [Harness.drop, hdrop]
  · rw [openLog, hrun]

theorem replayAll (h : Stands config m oldest sealed active staged) :
    Harness.replayAll config m = some (numbered oldest (sealed.flatten ++ active)) := by
  obtain ⟨observed, hh⟩ := h.handle
  obtain ⟨f, hf⟩ := h.stored
  obtain ⟨r, hr, hdrain⟩ := drain_readerFrom observed staged hf.logOn (Or.inl (rfl : 0 = 0))
  have hrun := Machine.calmStep_replay config 0 hh
  rw [Nat.max_zero, Nat.zero_sub, List.drop_zero] at hdrain
  rw [Harness.replayAll, (hrun : m.exec config _ [] = _), Machine.replayed, hr]
  simp only [hdrain]

theorem refuses (h : Stands config m oldest sealed active staged) {start : ℕ} (hpos : 0 < start)
    (hlt : start < oldest) : Harness.refuses config m start = true := by
  obtain ⟨observed, hh⟩ := h.handle
  have hrun := Machine.calmStep_replay config start hh
  rw [Harness.refuses, (hrun : m.exec config _ [] = _), Machine.replayed, readerFrom_below hpos hlt]

/-- An empty directory becomes an empty log. -/
theorem create (hv : config.Valid) (hl : m.disk.locked = false) (hb : basesOf m.disk = []) :
    ∃ m', openLog config m = some (m', reportOn 1 [] [] .clean) ∧ Stands config m' 1 [] [] [] := by
  obtain ⟨created, d', hopen, hset⟩ :=
    openSeeded_of_none hv (le_refl lsnFirst) (by decide) hl hb
  have hlog : StoredLog config False d' 1 [] [] _ :=
    storedLog_fresh (d := acquired m.disk) le_rfl (by decide) hv hb hset
  obtain ⟨m', hrun, hd, hh'⟩ : ∃ m', m.exec config (.openLog lsnFirst) [] =
        some (.ret (.opened (reportOn 1 [] [] .clean)), m') ∧ m'.disk = d' ∧
      m'.handle = some (handleOn config 1 [] [] [] []) :=
    ⟨_, Machine.calmStep_open hopen, rfl, rfl⟩
  subst hd
  refine ⟨m', ?_, ⟨[], hh'⟩, hset.locked, ⟨_, hlog⟩, Batch.nil_of_le hlog.next_le⟩
  rw [openLog, hrun]

end Stands

/-- The oracle has seen the records `gone ++ kept` committed, from number `first` on, the
first of which a checkpoint has removed since. -/
structure Knows (o : Oracle) (first : ℕ) (gone kept : List Bytes) : Prop where
  first_pos : 1 ≤ first
  committed : o.committed = numbered first (gone ++ kept)
  durable : o.durableLsn + 1 = first + gone.length + kept.length
  oldest : first + gone.length ≤ o.maxCkptUpTo + 1
  bounded : o.maxCkptUpTo ≤ o.durableLsn

variable {o : Oracle} {first : ℕ} {gone kept : List Bytes}

namespace Knows

omit [Crc32c] in
theorem lookup_committed (h : Knows o first gone kept) {r : ℕ × Bytes}
    (hr : r ∈ numbered (first + gone.length) kept) : lookup o.committed r.1 = some r.2 := by
  rw [h.committed]
  apply lookup_numbered
  rw [numbered_append]
  exact List.mem_append_right _ hr

omit [Crc32c] in
theorem checkReplayed (h : Knows o first gone kept) :
    checkReplayed o (numbered (first + gone.length) kept) = some () := by
  apply check_of
  rw [List.all_eq_true]
  intro r hr
  rw [h.lookup_committed hr]
  simp

omit [Crc32c] in
theorem checkCommitted (h : Knows o first gone kept) {report : RecoveryReport}
    (hr : report.oldestLsn = first + gone.length) :
    checkCommitted o report (numbered (first + gone.length) kept) = some () := by
  have hbound := h.oldest
  apply check_of
  rw [List.all_eq_true, h.committed, numbered_append]
  intro r hmem
  rw [hr]
  rcases List.mem_append.mp hmem with hmem | hmem
  · have hlt := (mem_numbered_bounds hmem).2
    rw [if_neg (by omega)]
    exact decide_eq_true (by omega)
  · rw [if_pos (mem_numbered_bounds hmem).1, lookup_numbered hmem]
    exact beq_self_eq_true _

omit [Crc32c] in
theorem checkSuffix (h : Knows o first gone kept) {report : RecoveryReport}
    (hr : report.oldestLsn = first + gone.length) (hd : report.durableLsn = o.durableLsn)
    (hmax : o.durableLsn < u64Max) :
    checkSuffix report (numbered (first + gone.length) kept) = some () := by
  have hdurable := h.durable
  cases kept with
  | nil =>
    rw [List.length_nil] at hdurable
    apply check_of
    rw [hd, hr]
    exact checkedNext_eq_some.mpr ⟨hmax, by omega⟩
  | cons p ps =>
    have hlast := getLast?_numbered (first + gone.length) (List.cons_ne_nil p ps)
    have hdense : isDense (numbered (first + gone.length) (p :: ps)) = true :=
      isDense_numbered (by omega)
    rw [numbered_cons] at hlast hdense ⊢
    have hreport : first + gone.length + (p :: ps).length - 1 = report.durableLsn := by omega
    rw [Harness.checkSuffix, check_of hr.symm, check_of hdense, hlast, hreport]
    exact check_of rfl

omit [Crc32c] in
/-- What recovery found is what the oracle goes on with. -/
theorem resync (h : Knows o first gone kept) {report : RecoveryReport}
    (hr : report.oldestLsn = first + gone.length) (hd : report.durableLsn = o.durableLsn)
    (hmax : o.durableLsn < u64Max) :
    ∃ o', resync o report (numbered (first + gone.length) kept) = some o' ∧
      Knows o' (first + gone.length) [] kept ∧ o'.staged = [] ∧ o'.nextLsn = o.durableLsn + 1 ∧
      o'.durableLsn = o.durableLsn := by
  have hdurable := h.durable
  have hpos := h.first_pos
  have hnone : ∀ (m : Entries) (rs : Entries), (∀ r ∈ rs, r.1 ≤ o.durableLsn) →
      rs.foldl (fun m r => if o.durableLsn < r.1 then m.insert r.1 r.2 else m) m = m := by
    intro m rs hrs
    induction rs with
    | nil => rfl
    | cons r rs ih =>
      rw [List.foldl_cons, if_neg (Nat.not_lt.mpr (hrs r List.mem_cons_self))]
      exact ih fun r hr => hrs r (List.mem_cons_of_mem _ hr)
  have hsame := hnone o.committed (numbered (first + gone.length) kept) fun r hr => by
    have := (mem_numbered_bounds hr).2
    omega
  have hnext : checkedNext o.durableLsn = some (o.durableLsn + 1) := if_pos hmax
  have hpruned : o.committed.filter (fun r => decide (report.oldestLsn ≤ r.1)) =
      numbered (first + gone.length) kept := by
    rw [h.committed, hr, numbered_filter, Nat.max_eq_right (Nat.le_add_right _ _),
      Nat.add_sub_cancel_left, List.drop_left]
  refine ⟨{ o with
    durableLsn := o.durableLsn
    oldestLsn := report.oldestLsn
    nextLsn := o.durableLsn + 1
    staged := []
    committed := numbered (first + gone.length) kept }, ?_, ⟨?_, rfl, hdurable, h.oldest, h.bounded⟩,
    rfl, rfl, rfl⟩
  · simp only [Harness.resync, hsame, hnext, hpruned, hd]
    rfl
  · exact hpos.trans (Nat.le_add_right _ _)

end Knows

omit [Crc32c] in
theorem reportOn_durable (h : Knows o first gone (sealed.flatten ++ active))
    (hold : oldest = first + gone.length) :
    (reportOn oldest sealed active .clean).durableLsn = o.durableLsn := by
  have hdurable := h.durable
  rw [List.length_append] at hdurable
  simp only [reportOn, activeBase]
  omega

/-- What is recovered of the log passes every assertion. -/
theorem recoverAndCheck_passes {m' : Machine} {prev : RecoveryReport} {dirty : Bool}
    (hopen : openLog config m = some (m', reportOn oldest sealed active .clean))
    (hs : Stands config m' oldest sealed active []) (hk : Knows o first gone (sealed.flatten ++ active))
    (hold : oldest = first + gone.length) (hmax : o.durableLsn < u64Max) (hprev : prev.oldestLsn = first)
    (hdurable : prev.durableLsn ≤ o.durableLsn)
    (hclean : dirty = false → gone = [] ∧ prev.durableLsn = o.durableLsn) :
    ∃ o', recoverAndCheck config m o prev dirty = some (m', o', reportOn oldest sealed active .clean) ∧
      Knows o' oldest [] (sealed.flatten ++ active) ∧ o'.staged = [] ∧
      o'.nextLsn = o.durableLsn + 1 ∧ o'.durableLsn = o.durableLsn := by
  have hreport := reportOn_durable hk hold
  have hfirst := hk.first_pos
  have hbound := hk.oldest
  have hbounded := hk.bounded
  obtain ⟨report, hr⟩ : ∃ report, report = reportOn oldest sealed active .clean := ⟨_, rfl⟩
  have hro : report.oldestLsn = first + gone.length := by rw [hr, ← hold]; rfl
  rw [← hr] at hopen hreport ⊢
  have hreplay := hs.replayAll
  obtain ⟨o', hresync, hk', hstaged, hnext, hsame⟩ := hk.resync hro hreport hmax
  have hsuffix := hk.checkSuffix hro hreport hmax
  have hcommitted := hk.checkCommitted hro
  have hreplayed := hk.checkReplayed
  rw [← hold] at hro hresync hk' hsuffix hcommitted hreplayed
  have hreports : checkReports prev report dirty = some () := by
    rw [checkReports, check_of (by omega), check_of (by omega)]
    cases dirty with
    | true => rfl
    | false =>
      obtain ⟨rfl, heq⟩ := hclean rfl
      rw [check_of (by simp [hro, hold, hprev]), check_of (by rw [hreport, heq])]
      rfl
  have hckpt : checkedNext o.maxCkptUpTo = some (o.maxCkptUpTo + 1) := if_pos (by omega)
  have hlast : m'.handle.map Wal.lastLsn = some report.durableLsn := by
    obtain ⟨observed, hh⟩ := hs.handle
    rw [hh, hr]
    rfl
  have hgap : 1 < report.oldestLsn → refuses config m' (report.oldestLsn - 1) = true := by
    intro hlt
    rw [hro]
    exact hs.refuses (by omega) (by omega)
  refine ⟨o', ?_, hk', hstaged, hnext, hsame⟩
  simp only [recoverAndCheck, hopen, Option.bind_eq_bind, Option.bind_some, hreports,
    check_of (show 1 ≤ report.oldestLsn by omega), hckpt,
    check_of (show report.oldestLsn ≤ o.maxCkptUpTo + 1 by omega),
    check_of (show o.durableLsn ≤ report.durableLsn by omega), check_of hlast, hreplay, hsuffix,
    hcommitted, hreplayed, check_of hgap, hresync]
  rfl

/-- What a reader sees after a checkpoint passes every assertion. -/
theorem liveProbe_passes (hs : Stands config m oldest sealed active staged)
    (hk : Knows o first gone (sealed.flatten ++ active)) (hold : oldest = first + gone.length)
    (hmax : o.durableLsn < u64Max) (hfilled : active ≠ [] ∨ o.durableLsn = 0) :
    liveProbe config m o = some () := by
  have hdurable := hk.durable
  have hfirst := hk.first_pos
  have hwatermark : m.handle.map Wal.durableLsn = some o.durableLsn := by
    obtain ⟨observed, hh⟩ := hs.handle
    rw [hh, ← reportOn_durable hk hold]
    rfl
  have hreplayed := hk.checkReplayed
  rw [← hold] at hreplayed
  simp only [liveProbe, check_of hwatermark, Option.bind_eq_bind, Option.bind_some, hs.replayAll]
  by_cases h0 : o.durableLsn = 0
  · have hnil : sealed.flatten ++ active = [] := List.length_eq_zero_iff.mp (by omega)
    rw [if_pos h0, hnil]
    exact check_of rfl
  · have hne : sealed.flatten ++ active ≠ [] := fun h =>
      hfilled.resolve_right h0 (List.append_eq_nil_iff.mp h).2
    have hlast : (numbered oldest (sealed.flatten ++ active)).getLast?.map Prod.fst =
        some o.durableLsn := by
      rw [getLast?_numbered _ hne]
      congr 1
      omega
    rw [if_neg h0, check_of (isDense_numbered (by omega)), check_of hlast, hreplayed]
    rfl

omit [Crc32c] in
theorem commitStaged_of_nil (h : o.staged = []) : o.commitStaged = (o, o.durableLsn) := by
  rw [Oracle.commitStaged, h]
  rfl

omit [Crc32c] in
theorem commitStaged_of_ne (hs : o.staged = numbered (first + kept.length) staged) (hne : staged ≠ [])
    (hc : o.committed = numbered first kept) :
    o.commitStaged =
      ({ o with
          committed := numbered first (kept ++ staged)
          staged := []
          durableLsn := first + kept.length + staged.length - 1 },
        first + kept.length + staged.length - 1) := by
  obtain ⟨r, hr, hlast⟩ := Option.map_eq_some_iff.mp (getLast?_numbered (first + kept.length) hne)
  obtain ⟨last, p⟩ := r
  obtain rfl : last = _ := hlast
  rw [Oracle.commitStaged, hs, hr]
  simp only [hc, foldl_insert_numbered]

structure InStep (config : WalConfig) (b : Bench) (n : ℕ) (gone : List Bytes)
    (sealed : List (List Bytes)) (active staged : List Bytes) : Prop where
  stands : Stands config b.machine (b.prevReport.oldestLsn + gone.length) sealed active staged
  knows : Knows b.oracle b.prevReport.oldestLsn gone (sealed.flatten ++ active)
  pending : b.oracle.staged = numbered (b.oracle.durableLsn + 1) staged
  next : b.oracle.nextLsn = b.oracle.durableLsn + 1 + staged.length
  count : b.oracle.nextLsn ≤ n + 1
  /-- Only a log without a record has an active segment without one. -/
  filled : active ≠ [] ∨ b.oracle.durableLsn = 0
  durable : b.prevReport.durableLsn ≤ b.oracle.durableLsn
  clean : b.dirty = false → gone = [] ∧ b.prevReport.durableLsn = b.oracle.durableLsn

variable {b : Bench} {n : ℕ}

namespace InStep

/-- The next record gets the number both expect. -/
theorem nextOf (h : InStep config b n gone sealed active staged) :
    nextOf (b.prevReport.oldestLsn + gone.length) sealed active staged = b.oracle.nextLsn := by
  have hdurable := h.knows.durable
  rw [List.length_append] at hdurable
  rw [h.next, Harness.nextOf, activeBase]
  omega

theorem commit (h : InStep config b n gone sealed active staged) (hv : config.Valid) :
    ∃ b' segs active', commitBoth config b = some b' ∧ b'.prevReport = b.prevReport ∧
      InStep config b' n gone (sealed ++ segs) active' [] := by
  have hdurable := h.knows.durable
  have hbounded := h.knows.bounded
  obtain ⟨m', segs, active', hc, hflat, hne, hs⟩ := h.stands.commit hv
  rw [h.nextOf] at hc
  -- an empty batch changes nothing, and the others move to what is committed
  by_cases hst : staged = []
  · subst hst
    have hempty : b.oracle.staged = [] := h.pending
    have hwatermark : b.oracle.nextLsn - 1 = b.oracle.durableLsn := by
      rw [h.next, List.length_nil]
      rfl
    rw [List.append_nil] at hflat
    refine ⟨{ b with machine := m' }, segs, active', ?_, rfl, hs, ?_, h.pending, h.next, h.count, ?_,
      h.durable, h.clean⟩
    · simp only [commitBoth, hc, commitStaged_of_nil hempty, Option.bind_eq_bind, Option.bind_some,
        check_of hwatermark, hempty, List.isEmpty_nil, Bool.not_true, Bool.or_false]
      rfl
    · rw [hflat]
      exact h.knows
    · exact h.filled.imp_left fun ha => hne (Or.inl ha)
  · have hpos := List.length_pos_iff.mpr hst
    have hnext : b.prevReport.oldestLsn + (gone ++ (sealed.flatten ++ active)).length =
        b.oracle.durableLsn + 1 := by
      rw [List.length_append, ← Nat.add_assoc, hdurable]
    have hpending := h.pending
    rw [← hnext] at hpending
    have hstaged := commitStaged_of_ne hpending hst h.knows.committed
    rw [hnext] at hstaged
    have hwatermark : b.oracle.nextLsn - 1 = b.oracle.durableLsn + 1 + staged.length - 1 := by
      rw [h.next]
    have hsome : b.oracle.staged.isEmpty = false := by
      obtain ⟨p, ps, rfl⟩ := List.exists_cons_of_ne_nil hst
      rw [h.pending]
      rfl
    have hlen := congrArg List.length hflat
    simp only [List.length_append] at hlen hdurable
    refine ⟨{ b with
      machine := m'
      oracle := { b.oracle with
        committed := numbered b.prevReport.oldestLsn (gone ++ (sealed.flatten ++ active) ++ staged)
        staged := []
        durableLsn := b.oracle.durableLsn + 1 + staged.length - 1 }
      dirty := true }, segs, active', ?_, rfl, hs, ⟨h.knows.first_pos, ?_, ?_, h.knows.oldest, ?_⟩, rfl, ?_,
      h.count, Or.inl (hne (Or.inr hst)), ?_, fun h => absurd h Bool.noConfusion⟩
    · simp only [commitBoth, hc, hstaged, Option.bind_eq_bind, Option.bind_some, check_of hwatermark, hsome,
        Bool.not_false, Bool.or_true]
      rfl
    · simp only [hflat, List.append_assoc]
    · simp only [List.length_append]
      omega
    · exact hbounded.trans (by simp only; omega)
    · simp only [h.next, List.length_nil]
      omega
    · exact h.durable.trans (by simp only; omega)

/-- A record is staged in both. -/
theorem append (h : InStep config b n gone sealed active staged) (hn : n + 1 < u64Max) {p : Bytes}
    (hp : p.length ≤ config.maxRecordSize) :
    ∃ b', step config b (.append p) = some b' ∧
      InStep config b' (n + 1) gone sealed active (staged ++ [p]) := by
  have hcount := h.count
  have hnext : checkedNext b.oracle.nextLsn = some (b.oracle.nextLsn + 1) := if_pos (by omega)
  obtain ⟨m', ha, hs⟩ := h.stands.append hp (by rw [h.nextOf]; omega)
  rw [h.nextOf] at ha
  refine ⟨{ b with
    machine := m'
    oracle := { b.oracle with
      staged := b.oracle.staged ++ [(b.oracle.nextLsn, p)]
      nextLsn := b.oracle.nextLsn + 1 }
    dirty := true }, ?_, hs, ⟨h.knows.first_pos, h.knows.committed, h.knows.durable, h.knows.oldest,
      h.knows.bounded⟩, ?_, ?_, Nat.succ_le_succ hcount, h.filled, h.durable,
    fun h => absurd h Bool.noConfusion⟩
  · simp only [step, ha, Option.bind_eq_bind, Option.bind_some, check_of, hnext]
    rfl
  · simp only [numbered_append, ← h.pending, ← h.next]
    rfl
  · simp only [h.next, List.length_append, List.length_singleton, Nat.add_assoc]

/-- A checkpoint removes segments, and what is left is still seen by a reader. -/
theorem checkpoint (h : InStep config b n gone sealed active staged) (hn : n + 1 < u64Max) (raw : ℕ) :
    ∃ b' gone' sealed', step config b (.checkpoint raw) = some b' ∧
      InStep config b' (n + 1) gone' sealed' active staged := by
  have hcount := h.next ▸ h.count
  have hdurable := h.knows.durable
  have hfirst := h.knows.first_pos
  have hbounded := h.knows.bounded
  obtain ⟨observed, hh⟩ := h.stands.handle
  obtain ⟨w, hw⟩ : ∃ w,
      w = handleOn config (b.prevReport.oldestLsn + gone.length) sealed active observed staged :=
    ⟨_, rfl⟩
  have hwatermark : w.durableLsn = b.oracle.durableLsn := by
    rw [hw, ← reportOn_durable h.knows rfl]
    rfl
  rw [← hw] at hh
  obtain ⟨upTo, hup⟩ : ∃ upTo, upTo = min raw w.durableLsn := ⟨_, rfl⟩
  obtain ⟨m', xs, ys, hc, rfl, hx, hs⟩ := h.stands.checkpoint upTo
  have hbase : activeBase (b.prevReport.oldestLsn + gone.length) xs =
      b.prevReport.oldestLsn + (gone ++ xs.flatten).length := by
    rw [activeBase, List.length_append, Nat.add_assoc]
  have hk : Knows { b.oracle with maxCkptUpTo := max b.oracle.maxCkptUpTo upTo } b.prevReport.oldestLsn
      (gone ++ xs.flatten) (ys.flatten ++ active) := by
    refine ⟨hfirst, ?_, ?_, ?_, ?_⟩
    · simp only [h.knows.committed, List.flatten_append, List.append_assoc]
    · simp only [hdurable, List.flatten_append, List.length_append]
      omega
    · rw [← hbase]
      rcases hx with rfl | hx
      · simp only [activeBase_nil]
        have := h.knows.oldest
        omega
      · simp only
        omega
    · simp only
      omega
  rw [hbase] at hs
  have hprobe := liveProbe_passes hs hk rfl (show b.oracle.durableLsn < u64Max by omega) h.filled
  refine ⟨{ b with
    machine := m'
    oracle := { b.oracle with maxCkptUpTo := max b.oracle.maxCkptUpTo upTo }
    dirty := true }, gone ++ xs.flatten, ys, ?_, hs, hk, h.pending, h.next,
    h.count.trans (Nat.le_succ _), h.filled, h.durable, fun h => absurd h Bool.noConfusion⟩
  simp only [step, hh, Option.bind_eq_bind, Option.bind_some, ← hup, hc, hprobe]
  rfl

/-- The log is opened again, with the same records, and both go on from there. -/
theorem restart (h : InStep config b n gone sealed active staged) (hv : config.Valid)
    (hn : b.oracle.durableLsn < u64Max) {o : Oracle} (hc : o.committed = b.oracle.committed)
    (hd : o.durableLsn = b.oracle.durableLsn) (hm : o.maxCkptUpTo = b.oracle.maxCkptUpTo) :
    ∃ b', Harness.restart config b o b.dirty = some b' ∧ InStep config b' n [] sealed active [] := by
  obtain ⟨m₁, m₂, hdrop, hopen, hs⟩ := h.stands.reopen hv
  have hk : Knows o b.prevReport.oldestLsn gone (sealed.flatten ++ active) :=
    ⟨h.knows.first_pos, hc.trans h.knows.committed, hd ▸ h.knows.durable, hm ▸ h.knows.oldest,
      hm ▸ hd ▸ h.knows.bounded⟩
  rw [← hd] at hn
  have hclean : b.dirty = false → gone = [] ∧ b.prevReport.durableLsn = o.durableLsn := hd ▸ h.clean
  obtain ⟨o', hcheck, hk', hstaged, hnext, hsame⟩ :=
    recoverAndCheck_passes hopen hs hk rfl hn rfl (hd ▸ h.durable) hclean
  have hreport := reportOn_durable hk rfl
  have hcount := h.next ▸ h.count
  refine ⟨⟨m₂, o', reportOn (b.prevReport.oldestLsn + gone.length) sealed active .clean, false⟩, ?_, hs,
    hk', ?_, ?_, ?_, ?_, ?_, fun _ => ⟨rfl, ?_⟩⟩
  · simp only [Harness.restart, hdrop, Option.bind_eq_bind, Option.bind_some, hcheck]
    rfl
  · exact hstaged
  · exact hnext.trans (by rw [hsame]; rfl)
  · change o'.nextLsn ≤ n + 1
    omega
  · exact h.filled.imp_right fun h0 => hsame.trans (hd.trans h0)
  · exact (hreport.trans hsame.symm).le
  · exact hreport.trans hsame.symm

/-- Which directory and oracle these are does not matter between two calls. -/
theorem mono (h : InStep config b n gone sealed active staged) {n' : ℕ} (hn : n ≤ n') :
    InStep config b n' gone sealed active staged :=
  ⟨h.stands, h.knows, h.pending, h.next, h.count.trans (Nat.succ_le_succ hn), h.filled, h.durable, h.clean⟩

theorem crash (h : InStep config b n gone sealed active staged) (hn : n < u64Max) :
    b.oracle.durableLsn < u64Max ∧ b.oracle.crash =
      some { b.oracle with staged := [], nextLsn := b.oracle.durableLsn + 1 } := by
  have hcount := h.next ▸ h.count
  have hlt : b.oracle.durableLsn < u64Max := by omega
  have hnext : checkedNext b.oracle.durableLsn = some (b.oracle.durableLsn + 1) := if_pos hlt
  refine ⟨hlt, ?_⟩
  rw [Oracle.crash, hnext]
  rfl

/-- One call of the script, whatever it is. -/
theorem step (h : InStep config b n gone sealed active staged) (hv : config.Valid) (hn : n + 1 < u64Max)
    {op : Op} (hop : ∀ p, op = .append p → p.length ≤ config.maxRecordSize) :
    ∃ b' gone' sealed' active' staged', Harness.step config b op = some b' ∧
      InStep config b' (n + 1) gone' sealed' active' staged' := by
  cases op with
  | append p =>
    obtain ⟨b', hstep, h'⟩ := h.append hn (hop p rfl)
    exact ⟨b', _, _, _, _, hstep, h'⟩
  | commit =>
    obtain ⟨b', segs, active', hstep, -, h'⟩ := h.commit hv
    exact ⟨b', _, _, _, _, hstep, h'.mono (Nat.le_succ n)⟩
  | checkpoint raw =>
    obtain ⟨b', gone', sealed', hstep, h'⟩ := h.checkpoint hn raw
    exact ⟨b', _, _, _, _, hstep, h'⟩
  | crashAndRecover =>
    obtain ⟨hlt, hcrash⟩ := h.crash (Nat.lt_of_succ_lt hn)
    obtain ⟨b', hstep, h'⟩ := h.restart hv hlt (o := { b.oracle with
      staged := [], nextLsn := b.oracle.durableLsn + 1 }) rfl rfl rfl
    refine ⟨b', _, _, _, _, ?_, h'.mono (Nat.le_succ n)⟩
    rw [Harness.step, hcrash]
    exact hstep
  | reopen =>
    obtain ⟨b₁, segs, active', hcommit, -, h₁⟩ := h.commit hv
    obtain ⟨b', hstep, h'⟩ := h₁.restart hv (h₁.crash (Nat.lt_of_succ_lt hn)).1 rfl rfl rfl
    refine ⟨b', _, _, _, _, ?_, h'.mono (Nat.le_succ n)⟩
    rw [Harness.step, hcommit]
    exact hstep

/-- The whole script. -/
theorem foldlM (hv : config.Valid) {ops : List Op} (hn : n + ops.length < u64Max)
    (hops : ∀ p, Op.append p ∈ ops → p.length ≤ config.maxRecordSize)
    (h : InStep config b n gone sealed active staged) :
    ∃ b' gone' sealed' active' staged', ops.foldlM (Harness.step config) b = some b' ∧
      InStep config b' (n + ops.length) gone' sealed' active' staged' := by
  induction ops generalizing b n gone sealed active staged with
  | nil => exact ⟨b, _, _, _, _, rfl, h⟩
  | cons op ops ih =>
    rw [List.length_cons] at hn
    obtain ⟨b₁, gone₁, sealed₁, active₁, staged₁, hstep, h₁⟩ := h.step hv (by omega)
      fun p heq => hops p (heq ▸ List.mem_cons_self)
    obtain ⟨b', gone', sealed', active', staged', hrun, h'⟩ := ih (by omega)
      (fun p hp => hops p (List.mem_cons_of_mem _ hp)) h₁
    refine ⟨b', gone', sealed', active', staged', ?_, ?_⟩
    · rw [List.foldlM_cons, hstep]
      exact hrun
    · rwa [List.length_cons, Nat.add_comm ops.length, ← Nat.add_assoc]

end InStep

/-- Every script passes: in a directory without segments, whatever the calls, no assertion of
the test fails, no call of the log returns an error, and no number overflows. -/
theorem run_passes (hv : config.Valid) (hl : m.disk.locked = false) (hb : basesOf m.disk = [])
    {ops : List Op} (hops : ∀ p, Op.append p ∈ ops → p.length ≤ config.maxRecordSize)
    (hlen : ops.length < u64Max) : run config m ops = some () := by
  obtain ⟨m', hopen, hs⟩ := Stands.create hv hl hb
  have hinit : walCheckInitial (reportOn 1 [] [] .clean) = some () := by decide
  have hstart : InStep config ⟨m', Oracle.new, reportOn 1 [] [] .clean, false⟩ 0 [] [] [] [] :=
    ⟨hs, ⟨le_rfl, rfl, rfl, le_rfl, le_rfl⟩, rfl, rfl, le_rfl, Or.inr rfl, le_rfl, fun _ => ⟨rfl, rfl⟩⟩
  obtain ⟨b, gone, sealed, active, staged, hfold, h⟩ := hstart.foldlM hv (by omega) hops
  obtain ⟨hlt, hcrash⟩ := h.crash (by omega)
  obtain ⟨b', hrestart, -⟩ := h.restart hv hlt (o := { b.oracle with
    staged := [], nextLsn := b.oracle.durableLsn + 1 }) rfl rfl rfl
  simp only [run, hopen, Option.bind_eq_bind, Option.bind_some, hinit, hfold, hcrash, hrestart]
  rfl

end

/-- Two segments, a checkpoint, a crash with a staged record, a clean restart. -/
theorem run_passes_script : run tightConfig (Machine.fresh true fun _ => 0)
    [.append (zeros 20), .append (zeros 20), .commit, .checkpoint u64Max, .append [7], .crashAndRecover,
      .append [8], .reopen] = some () :=
  run_passes (by decide) rfl rfl (by
    intro p hp
    simp only [List.mem_cons, Op.append.injEq, reduceCtorEq, List.not_mem_nil, or_false, false_or] at hp
    rcases hp with rfl | rfl | rfl | rfl <;> decide) (by decide)

end OpenWal.Harness
