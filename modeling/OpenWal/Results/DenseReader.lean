import OpenWal.Theory.FailingRuns
import OpenWal.Theory.Reading

namespace OpenWal
open ByteSeq Posix CrashProg

section

variable [Crc32c]

def Wal.BasesLegal (wal : Wal) : Prop := ∀ b ∈ wal.segments, 1 ≤ b ∧ b ≤ u64Max

variable {config : WalConfig} {ok : Machine → Op → List Fate → Prop} {m₀ m m' : Machine} {wal : Wal}
  {op : Op} {fates : List Fate} {o : Outcome WalError Reply}

omit [Crc32c] in
theorem basesLegal_of_segments {oldest : ℕ} {sealed : List (List Bytes)} (h : 1 ≤ oldest)
    (hle : activeBase oldest sealed ≤ u64Max) (hs : wal.segments = basesFrom oldest sealed) :
    wal.BasesLegal := by
  intro b hb
  rw [hs] at hb
  have hm := mem_basesFrom_le hb
  exact ⟨h.trans hm.1, hm.2.trans hle⟩

theorem append_basesLegal (payload : Bytes) : Keeps (fun s : Sys => s.wal.BasesLegal) (append payload) := by
  apply Keeps.bind Keeps.state
  intro s
  simp only
  split_ifs
  · exact Keeps.raise _
  · exact Keeps.raise _
  · split
    · exact Keeps.raise _
    · exact Keeps.seq (Keeps.update fun s hs => hs) (Keeps.ret _)

theorem commit_basesLegal (hu : Upholds config (fun _ => True) (fun _ _ => True) (fun _ _ _ _ _ => True)
      m.disk (some wal)) (hpos : wal.BasesLegal) (fates : List Fate) :
    Ends (fun _ s => s.wal.BasesLegal) (fun _ s => s.wal.BasesLegal) (fun _ => True)
      (commit ⟨wal, ⟨m.disk, fates⟩⟩) := by
  cases hu with
  | live hv hl hd hc hobs hlive =>
    rename_i oldest sealed active observed staged f
    by_cases hs : staged = []
    · subst hs
      exact hpos
    have ho := hc.oldest_pos
    have hrule : CommitRule config oldest (fun _ _ _ _ _ _ => True)
        fun sealed _ _ _ => activeBase oldest sealed ≤ u64Max :=
      ⟨fun _ hc _ _ => hc.activeBase_le, fun _ _ _ => trivial, fun hc _ _ _ _ _ => hc.activeBase_le,
        fun _ _ _ _ _ _ _ => trivial⟩
    refine (commit_triple hrule hv hs fates hc trivial).imp ?_ ?_ fun _ _ => trivial
    · rintro durable s ⟨-, sealed', active', observed', f', -, hwal, hc', -⟩
      exact basesLegal_of_segments ho hc'.activeBase_le (by rw [hwal]; rfl)
    · rintro e s ⟨-, sealed', active', observed', hwal, hle⟩
      exact basesLegal_of_segments ho hle (by rw [hwal]; rfl)
  | stuck _ _ hp =>
    rw [commit_poisoned hp]
    exact hpos

theorem checkpoint_basesLegal (hu : Upholds config (fun _ => True) (fun _ _ => True)
      (fun _ _ _ _ _ => True) m.disk (some wal)) (hpos : wal.BasesLegal) (upTo : ℕ) (fates : List Fate) :
    Ends (fun _ s => s.wal.BasesLegal) (fun _ s => s.wal.BasesLegal) (fun _ => True)
      (checkpoint upTo ⟨wal, ⟨m.disk, fates⟩⟩) := by
  cases hu with
  | live hv hl hd hc hobs hlive =>
    rename_i oldest sealed active observed staged f
    have ho := hc.oldest_pos
    obtain ⟨xs, ys, rfl, -, -, hends⟩ := checkpoint_triple hc.toCarries observed staged upTo fates
    refine hends.imp ?_ ?_ fun _ _ => trivial
    · rintro _ s ⟨hwal, -⟩
      exact basesLegal_of_segments (ho.trans (le_activeBase oldest xs))
        (activeBase_append oldest xs ys ▸ hc.activeBase_le) (by rw [hwal]; rfl)
    · rintro e s ⟨-, hwal, -⟩
      exact basesLegal_of_segments ho hc.activeBase_le (by rw [hwal]; rfl)
  | stuck _ _ hp =>
    rw [checkpoint_poisoned hp]
    exact hpos

theorem basesLegal_of_exec (hu : Upholds config (fun _ => True) (fun _ _ => True)
      (fun _ _ _ _ _ => True) m.disk m.handle) (hpos : ∀ wal, m.handle = some wal → wal.BasesLegal)
    (hlegal : op.Legal) (he : m.exec config op fates = some (o, m')) :
    ∀ wal, m'.handle = some wal → wal.BasesLegal := by
  -- what a method of the handle leaves, it leaves to the machine
  have hcall : ∀ {α : Type} {wal : Wal} {prog : Prog Sys WalError α} {reply : α → Reply},
      Ends (fun _ s => s.wal.BasesLegal) (fun _ s => s.wal.BasesLegal) (fun _ => True)
        (prog ⟨wal, ⟨m.disk, fates⟩⟩) →
      m.execOn wal fates (reply <$> prog) = (o, m') → ∀ wal', m'.handle = some wal' → wal'.BasesLegal := by
    intro α wal prog reply hends he wal' hw
    obtain ⟨a, s, -, hs, rfl⟩ | ⟨e, s, -, hs, rfl⟩ | ⟨s, -, -, rfl⟩ := Machine.execOn_ends hends he
    · rwa [← Option.some.inj hw]
    · rwa [← Option.some.inj hw]
    · simp [Machine.die] at hw
  intro wal' hw
  cases op with
  | openLog seed =>
    have hopen := he
    rw [Machine.exec_openLog, Machine.execOpen, Option.some.injEq] at hopen
    split at hopen
    · obtain ⟨rfl, -⟩ := Prod.mk.inj hopen
      obtain ⟨-, -, -, oldest, sealed, active, ts, f, hhandle, -, hlog, -⟩ := Machine.opened hlegal.2 he
      rw [hhandle] at hw
      rw [← Option.some.inj hw]
      exact basesLegal_of_segments hlog.oldest_pos hlog.activeBase_le rfl
    · obtain ⟨-, rfl⟩ := Prod.mk.inj hopen
      exact hpos wal' hw
    · obtain ⟨-, rfl⟩ := Prod.mk.inj hopen
      simp [Machine.die] at hw
    · obtain ⟨-, rfl⟩ := Prod.mk.inj hopen
      exact hpos wal' hw
  | append payload =>
    obtain ⟨wal, hh⟩ := Machine.handle_of_exec (by simp) he
    rw [Machine.exec_append hh, Option.some.injEq] at he
    exact hcall ((append_basesLegal payload _ (hpos wal hh)).imp (fun _ _ hs => hs) (fun _ _ hs => hs)
      fun _ _ => trivial) he wal' hw
  | commit =>
    obtain ⟨wal, hh⟩ := Machine.handle_of_exec (by simp) he
    rw [Machine.exec_commit hh, Option.some.injEq] at he
    exact hcall (commit_basesLegal (hh ▸ hu) (hpos wal hh) fates) he wal' hw
  | checkpoint upTo =>
    obtain ⟨wal, hh⟩ := Machine.handle_of_exec (by simp) he
    rw [Machine.exec_checkpoint hh, Option.some.injEq] at he
    exact hcall (checkpoint_basesLegal (hh ▸ hu) (hpos wal hh) upTo fates) he wal' hw
  | replay start =>
    obtain ⟨wal, hh⟩ := Machine.handle_of_exec (by simp) he
    rw [Machine.exec_replay hh, Option.some.injEq] at he
    obtain ⟨-, rfl⟩ := Prod.mk.inj he
    exact hpos wal' hw
  | close =>
    obtain ⟨wal, hh⟩ := Machine.handle_of_exec (by simp) he
    rw [Machine.exec_close hh, Option.some.injEq] at he
    obtain ⟨-, rfl⟩ := Prod.mk.inj he
    simp [Machine.die] at hw

/-- The bases a handle lists are record numbers, whatever calls failed. -/
theorem basesLegal_of_reaches (hh : m₀.handle = none) (hl : m₀.disk.locked = false)
    (hm : Machine.Reaches config ok m₀ m) : ∀ wal, m.handle = some wal → wal.BasesLegal := by
  have h₀ : Upholds config (fun _ => True) (fun _ _ => True) (fun _ _ _ _ _ => True) m₀.disk m₀.handle :=
    hh ▸ .rest hl trivial
  induction hm with
  | start => simp [hh]
  | step hm hlegal _ he ih => exact basesLegal_of_exec ((Upheld.trivially config ok).run h₀ hm) ih hlegal he

omit [Crc32c] in
def Reader.finding (b : Bytes) (r : Reader) : Reader := { r with file := r.file.map fun _ => b }

/-- What successive calls of `next` return, each finding its own bytes in the open file and
its own directory. -/
def nexts : List (Disk × Bytes) → Reader → List (Option (Except WalError (ℕ × Bytes)))
  | [], _ => []
  | (d, b) :: finds, r => ((r.finding b).next d).1 :: nexts finds ((r.finding b).next d).2

def yielded (results : List (Option (Except WalError (ℕ × Bytes)))) : List (ℕ × Bytes) :=
  results.filterMap fun
    | some (.ok r) => some r
    | _ => none

/-- The call found a frame that holds the record in the open file or in one of the log. -/
def FrameFound (wal : Wal) (finds : List (Disk × Bytes)) (r : ℕ × Bytes) : Prop :=
  ∃ find ∈ finds, ∃ b x, FrameAt wal.segmentSize wal.maxRecordSize b x r.1 r.2 ∧
    (b = find.2 ∨ ∃ base ∈ wal.segments, ∃ f, find.1.file (filenameFor base) = some f ∧ f.data = b)

theorem nexts_of_done {finds : List (Disk × Bytes)} {r : Reader} (h : r.done = true) :
    nexts finds r = List.replicate finds.length none := by
  induction finds generalizing r with
  | nil => rfl
  | cons find finds ih =>
    obtain ⟨d, b⟩ := find
    have hn : (r.finding b).next d = (none, r.finding b) := next_of_done h
    rw [nexts, hn, ih (r := r.finding b) h]
    rfl

/-- From a reader that expects `e`. -/
theorem nexts_dense (wal : Wal) (finds : List (Disk × Bytes)) {r : Reader} {e : ℕ}
    (he : r.expectedLsn = expectedOf e) (hsegs : r.segments = wal.segments)
    (hss : r.segmentSize = wal.segmentSize) (hmx : r.maxRecordSize = wal.maxRecordSize) :
    (yielded (nexts finds r)).map Prod.fst =
        List.range' (max r.start e) (yielded (nexts finds r)).length ∧
      (∀ x ∈ yielded (nexts finds r), FrameFound wal finds x) ∧
      (nexts finds r).Pairwise fun a b => (∀ x, a ≠ some (.ok x)) → b = none := by
  induction finds generalizing r e with
  | nil => simp [nexts, yielded]
  | cons find finds ih =>
    obtain ⟨d, b⟩ := find
    rcases hn : (r.finding b).next d with ⟨res, r'⟩
    rw [nexts, hn]
    by_cases hres : ∃ x, res = some (.ok x)
    · obtain ⟨⟨lsn, payload⟩, rfl⟩ := hres
      obtain ⟨hsame, hlsn, hnext, c, x, hsees, hf⟩ := next_yields hn (e := e) he
      obtain ⟨hrange, hfound, hpair⟩ := ih hnext (hsame.segments.trans hsegs)
        (hsame.segmentSize.trans hss) (hsame.maxRecordSize.trans hmx)
      have hstart : r'.start = r.start := hsame.start
      have hlsn : lsn = max r.start e := hlsn
      rw [hstart, show max r.start (lsn + 1) = lsn + 1 by omega] at hrange
      have hy : yielded (some (.ok (lsn, payload)) :: nexts finds r') =
          (lsn, payload) :: yielded (nexts finds r') := rfl
      rw [hy]
      refine ⟨?_, List.forall_mem_cons.mpr ⟨?_, fun x hx => ?_⟩, List.pairwise_cons.mpr ⟨?_, hpair⟩⟩
      · rw [List.map_cons, hrange, List.length_cons, List.range'_succ, hlsn]
      · refine ⟨(d, b), List.mem_cons_self, c, x, hss ▸ hmx ▸ hf, ?_⟩
        rcases hsees with hfile | ⟨base, hm, hg⟩
        · left
          rcases hr : r.file with _ | file <;> simp [Reader.finding, hr] at hfile
          exact hfile.symm
        · exact Or.inr ⟨base, hsegs ▸ hm, hg⟩
      · obtain ⟨find, hmem, hrest⟩ := hfound x hx
        exact ⟨find, List.mem_cons_of_mem _ hmem, hrest⟩
      · exact fun _ _ hne => absurd rfl (hne (lsn, payload))
    · -- the reader has ended
      have hdone := next_ends hn fun x hx => hres ⟨x, hx⟩
      have hy : yielded (res :: nexts finds r') = [] := by
        rw [nexts_of_done hdone, yielded, List.filterMap_eq_nil_iff]
        intro a ha
        rcases List.mem_cons.mp ha with rfl | ha
        · rcases a with _ | _ | x
          · rfl
          · rfl
          · exact absurd ⟨x, rfl⟩ hres
        · rw [(List.mem_replicate.mp ha).2]
      rw [hy, nexts_of_done hdone]
      refine ⟨rfl, by simp, List.pairwise_cons.mpr ⟨fun a ha _ => (List.mem_replicate.mp ha).2, ?_⟩⟩
      exact List.pairwise_replicate.mpr (Or.inr fun _ => rfl)

/-- Whatever bytes the files hold at each call, and whether they are there at all, a reader
of an open log yields consecutive records, each from a valid frame, and nothing after the
first call that yields none. -/
theorem reader_is_dense (hh : m₀.handle = none) (hl : m₀.disk.locked = false)
    (hm : Machine.Reaches config ok m₀ m) (hw : m.handle = some wal) {start : ℕ} {d : Disk} {r : Reader}
    (hr : readerFrom wal d start = .ok r) (finds : List (Disk × Bytes)) :
    ∃ base, wal.segments[r.segIdx]? = some base ∧
      (yielded (nexts finds r)).map Prod.fst =
        List.range' (max start base) (yielded (nexts finds r)).length ∧
      (∀ x ∈ yielded (nexts finds r), x.1 ≤ u64Max ∧ x.2.length ≤ wal.maxRecordSize ∧
        FrameFound wal finds x) ∧
      (nexts finds r).Pairwise fun a b => (∀ x, a ≠ some (.ok x)) → b = none := by
  have hlegal := basesLegal_of_reaches hh hl hm wal hw
  obtain ⟨effective, heff⟩ : ∃ n, n = if start = 0 then lsnFirst else start := ⟨_, rfl⟩
  -- the reader starts at the base of the segment that may hold `start`
  obtain ⟨base, first, hbase, rfl⟩ : ∃ base first,
      wal.segments[containingSegmentIdx wal.segments effective]? = some base ∧
      r = Reader.new wal.segments (containingSegmentIdx wal.segments effective) first effective
        wal.segmentSize wal.maxRecordSize := by
    simp only [readerFrom, ← heff] at hr
    split_ifs at hr
    split at hr
    · simp at hr
    · rename_i base hb
      split at hr
      · simp at hr
      · exact ⟨base, _, hb, (Except.ok.inj hr).symm⟩
  obtain ⟨hpos, hle⟩ := hlegal base (List.mem_of_getElem? hbase)
  set r := Reader.new wal.segments (containingSegmentIdx wal.segments effective) first effective
    wal.segmentSize wal.maxRecordSize with hr
  obtain ⟨hrange, hfound, hpair⟩ := nexts_dense wal finds (r := r) (e := base)
    (hbase.trans (expectedOf_of_le hle).symm) rfl rfl rfl
  have hmax : max r.start base = max start base := by
    have hs : r.start = effective := rfl
    rw [hs, heff]
    split_ifs with h0
    · simp only [lsnFirst]
      omega
    · rfl
  refine ⟨base, hbase, hmax ▸ hrange, fun x hx => ?_, hpair⟩
  obtain ⟨find, hmem, b, y, hf, hb⟩ := hfound x hx
  exact ⟨hf.lsn_le, hf.le_max, find, hmem, b, y, hf, hb⟩

end

/-- One record is committed; the first call finds its segment as it was written, the second
zeros and an empty directory. -/
theorem reader_is_dense_wiped : ∃ m wal r,
    Machine.Reaches tightConfig (fun _ _ _ => True) (Machine.fresh true fun _ => 0) m ∧
    m.handle = some wal ∧ readerFrom wal m.disk 0 = .ok r ∧ ∃ base, wal.segments[r.segIdx]? = some base ∧
      (yielded (nexts [(m.disk, encodeHeader 1 0 ++ (encodeFrame 1 [7] ++ zeros 48)),
          (Disk.holding [], zeros 136)] r)).map Prod.fst =
        List.range' (max 0 base) (yielded (nexts [(m.disk, encodeHeader 1 0 ++
          (encodeFrame 1 [7] ++ zeros 48)), (Disk.holding [], zeros 136)] r)).length := by
  have hrun : ((Machine.fresh true fun _ => 0).runFated tightConfig
      [(.openLog 1, []), (.append [7], []), (.commit, [])]).map
        (fun r => r.2.handle.map fun wal => (readerFrom wal r.2.disk 0).toOption.isSome) =
      some (some true) := by decide +kernel
  obtain ⟨⟨os, m⟩, hrun, hres⟩ := Option.map_eq_some_iff.mp hrun
  obtain ⟨wal, hh, hreader⟩ := Option.map_eq_some_iff.mp hres
  rcases hr : readerFrom wal m.disk 0 with e | r
  · simp [hr, Except.toOption] at hreader
  have hm : Machine.Reaches tightConfig (fun _ _ _ => True) (Machine.fresh true fun _ => 0) m :=
    Machine.Reaches.start.runFated (by simp [Op.Legal]; decide) hrun
  obtain ⟨base, hbase, hrange, -⟩ := reader_is_dense rfl rfl hm hh hr
    [(m.disk, encodeHeader 1 0 ++ (encodeFrame 1 [7] ++ zeros 48)), (Disk.holding [], zeros 136)]
  exact ⟨m, wal, r, hm, hh, hr, base, hbase, hrange⟩

end OpenWal
