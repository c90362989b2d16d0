import OpenWal.Model.PowerPull
import OpenWal.Results.PowerCuts

namespace OpenWal.PowerPull
open ByteSeq Posix CrashProg

def written (p : Workload) (next : ℕ) : List Bytes := (List.range' 1 (next - 1)).map p.payload

variable {p : Workload} {l n high seen e : ℕ}

theorem written_length (p : Workload) (n : ℕ) : (written p n).length = n - 1 := by simp [written]

theorem written_succ (h : 1 ≤ n) : written p (n + 1) = written p n ++ [p.payload n] := by
  have hpred : n + 1 - 1 = n - 1 + 1 := by omega
  rw [written, hpred, List.range'_1_concat, List.map_append, Nat.add_sub_cancel' h]
  rfl

theorem mem_written (h1 : 1 ≤ l) (hn : l < n) : (l, p.payload l) ∈ numbered 1 (written p n) := by
  have hall : ∀ e k, numbered e ((List.range' e k).map p.payload) =
      (List.range' e k).map fun l => (l, p.payload l) := by
    intro e k
    induction k generalizing e with
    | zero => rfl
    | succ k ih => rw [List.range'_succ, List.map_cons, numbered_cons, ih, List.map_cons]
  rw [written, hall, List.mem_map]
  exact ⟨l, List.mem_range'_1.mpr ⟨h1, by omega⟩, rfl⟩

theorem recordName_length (l : ℕ) : (recordName l).length = 4 + max 16 (Nat.digits 10 l).length := by
  simp only [recordName, paddedName, List.length_map, List.length_append, List.length_cons, List.length_nil,
    decimalDigits_length]

/-- The payload starts with the name, unless it is too short for it. -/
theorem recordName_isPrefix (hl : l ≤ u64Max) (h : 24 ≤ p.payloadBytes ∨ l < 10 ^ 16) :
    recordName l <+: p.payload l := by
  have hlen := recordName_length l
  have hfits : (recordName l).length ≤ max p.payloadBytes 20 := by
    rcases h with h | h
    · have hdigits : (Nat.digits 10 l).length ≤ 20 := by
        rw [Nat.digits_length_le_iff (by decide)]
        exact hl.trans_lt (by decide)
      omega
    · have hdigits : (Nat.digits 10 l).length ≤ 16 := (Nat.digits_length_le_iff (by decide) _).mpr h
      omega
  rw [Workload.payload, resize, List.take_append, List.take_of_length_le hfits]
  exact List.prefix_append _ _

theorem mem_insertLine {line line' : Line} {ls : List Line} (h : line' ∈ insertLine line ls) :
    line' = line ∨ line' ∈ ls := by
  induction ls with
  | nil => exact Or.inl (List.mem_singleton.mp h)
  | cons l ls ih =>
    rw [insertLine] at h
    split_ifs at h
    · exact List.mem_cons.mp h
    · exact (List.mem_cons.mp h).imp_right (List.mem_cons_of_mem _)
    · rcases List.mem_cons.mp h with rfl | h
      · exact Or.inr List.mem_cons_self
      · exact (ih h).imp_right (List.mem_cons_of_mem _)

theorem mem_of_mem_bySeq {line : Line} {lines : List Line} (h : line ∈ bySeq lines) : line ∈ lines := by
  have hfold : ∀ lines ls : List Line, line ∈ lines.foldl (fun ls line => insertLine line ls) ls →
      line ∈ lines ∨ line ∈ ls := by
    intro lines
    induction lines with
    | nil => exact fun ls h => Or.inr h
    | cons l lines ih =>
      intro ls h
      rcases ih _ h with h | h
      · exact Or.inl (List.mem_cons_of_mem _ h)
      · rcases mem_insertLine h with rfl | h
        · exact Or.inl List.mem_cons_self
        · exact Or.inr h
  exact (hfold lines [] h).resolve_right List.not_mem_nil

theorem highWater_mem {ls : List Line} (h : highWater e seen ls = some high) :
    high = seen ∨ ∃ line ∈ ls, high = line.2 := by
  induction ls generalizing e seen with
  | nil => exact Or.inl (Option.some.inj h).symm
  | cons line ls ih =>
    rw [highWater] at h
    split_ifs at h
    rcases ih h with rfl | ⟨line', hmem, rfl⟩
    · exact Or.inr ⟨line, List.mem_cons_self, rfl⟩
    · exact Or.inr ⟨line', List.mem_cons_of_mem _ hmem, rfl⟩

theorem insertLine_last {line : Line} {ls : List Line} (h : ∀ l ∈ ls, l.1 < line.1) :
    insertLine line ls = ls ++ [line] := by
  induction ls with
  | nil => rfl
  | cons l ls ih =>
    have hlt := h l List.mem_cons_self
    rw [insertLine, if_neg (by omega), if_neg (by omega), ih fun l' hl' => h l' (List.mem_cons_of_mem _ hl')]
    rfl

/-- Lines that came in order stay in it. -/
theorem bySeq_of_numbered {lines : List Line} {k : ℕ} (h : lines.map Prod.fst = List.range' 1 k) :
    bySeq lines = lines := by
  have hfold : ∀ (lines ls : List Line) (e k : ℕ), (∀ l ∈ ls, l.1 < e) →
      lines.map Prod.fst = List.range' e k →
      lines.foldl (fun ls line => insertLine line ls) ls = ls ++ lines := by
    intro lines
    induction lines with
    | nil => exact fun ls _ _ _ _ => (List.append_nil ls).symm
    | cons line lines ih =>
      intro ls e k hls hfst
      obtain _ | k := k
      · simp at hfst
      rw [List.range'_succ, List.map_cons] at hfst
      obtain ⟨he, hrest⟩ := List.cons_eq_cons.mp hfst
      rw [List.foldl_cons, insertLine_last fun l hl => he ▸ hls l hl,
        ih (ls ++ [line]) (e + 1) k ?_ hrest, List.append_assoc]
      · rfl
      · intro l hl
        rcases List.mem_append.mp hl with hl | hl
        · exact Nat.lt_succ_of_lt (hls l hl)
        · rw [List.mem_singleton.mp hl, he]
          exact Nat.lt_succ_self e
  exact hfold lines [] 1 k (fun l hl => absurd hl List.not_mem_nil) h

theorem highWater_of_numbered {ls : List Line} {k : ℕ} (seen : ℕ)
    (h : ls.map Prod.fst = List.range' e k) : ∃ high, highWater e seen ls = some high := by
  induction ls generalizing e seen k with
  | nil => exact ⟨seen, rfl⟩
  | cons line ls ih =>
    obtain _ | k := k
    · simp at h
    rw [List.range'_succ, List.map_cons] at h
    obtain ⟨he, hrest⟩ := List.cons_eq_cons.mp h
    obtain ⟨high, hhigh⟩ := ih line.2 hrest
    exact ⟨high, by rw [highWater, if_pos he, hhigh]⟩

/-- Records without gaps that start with their names pass, if they go as far as the watermark. -/
theorem checkRecords_pass {ps : List Bytes}
    (hnames : ∀ r ∈ numbered e ps, r.1 ≤ high → recordName r.1 <+: r.2) (hseen : seen < e)
    (hhigh : high ≤ seen ∨ ps ≠ [] ∧ high < e + ps.length) :
    checkRecords high none e seen (numbered e ps) = .pass := by
  induction ps generalizing e seen with
  | nil =>
    have hle : high ≤ seen := hhigh.elim id fun h => absurd rfl h.1
    simp [checkRecords, Nat.not_lt.mpr hle]
  | cons q ps ih =>
    have hname : ¬ (e ≤ high ∧ ¬ recordName e <+: q) :=
      fun h => h.2 (hnames (e, q) List.mem_cons_self h.1)
    rw [numbered_cons, checkRecords]
    simp only [ne_eq, not_true_eq_false, if_false, hname]
    refine ih (fun r hr => hnames r (List.mem_cons_of_mem _ hr)) (Nat.lt_succ_self e) ?_
    rw [List.length_cons] at hhigh
    by_cases hnil : ps = []
    · subst hnil
      simp only [List.length_nil] at hhigh
      omega
    · by_cases hle : high ≤ e
      · exact Or.inl hle
      · exact Or.inr ⟨hnil, by omega⟩

section

variable [Crc32c] {config : WalConfig} {m₀ m m' : Machine} {s s' : Session} {t : Turn} {q : Bytes}
  {op : OpenWal.Op} {fates : List Fate} {o : Outcome WalError Reply} {w : ℕ}

/-- Whatever happens from now on, an `open` that succeeds recovers the record. -/
def Outlives (config : WalConfig) (m : Machine) (l : ℕ) (q : Bytes) : Prop :=
  ∀ m' seed wal rep rs, Machine.Endures config (KeepsFrom l) m m' → (Op.openLog seed).Legal →
    Recovers config m'.die.disk seed wal rep rs → (l, q) ∈ rs

theorem Outlives.endures (h : Outlives config m l q) (hm : Machine.Endures config (KeepsFrom l) m m') :
    Outlives config m' l q :=
  fun m'' seed wal rep rs hm' => h m'' seed wal rep rs (hm.trans hm')

def Acked (config : WalConfig) (p : Workload) (s : Session) : Prop :=
  ∀ line ∈ s.captured, ∀ l, 1 ≤ l → l ≤ line.2 → Outlives config s.machine l (p.payload l)

structure Going (config : WalConfig) (p : Workload) (m₀ : Machine) (s : Session) : Prop where
  reached : Machine.Endures config (OpensFirm config) m₀ s.machine
  pos : 1 ≤ s.nextLsn
  acked : Acked config p s
  log : ∃ sealed active observed staged f,
    s.machine.handle = some (handleOn config 1 sealed active observed staged) ∧ config.Valid ∧
    Committing config s.machine.disk 1 sealed active f staged ∧
    FirmLog config 1 sealed active f s.machine.disk ∧
    sealed.flatten ++ (active ++ staged) = written p s.nextLsn

/-- The calls of the workload. -/
theorem Acked.call (h : Acked config p s) (hlegal : op.Legal) (hop : ∀ upTo, op ≠ .checkpoint upTo)
    (he : s.machine.exec config op fates = some (o, m)) : Acked config p { s with machine := m } :=
  fun line hline l h1 hl =>
    (h line hline l h1 hl).endures (.call .start hlegal (fun upTo heq => absurd heq (hop upTo)) he)

theorem append_going (h : Going config p m₀ s) {lsn : ℕ}
    (he : s.machine.exec config (.append (p.payload s.nextLsn)) [] = some (.ret (.appended lsn), m)) :
    Going config p m₀
      { s with machine := m, nextLsn := s.nextLsn + 1, sinceCommit := s.sinceCommit + 1 } := by
  have hlegal : (Op.append (p.payload s.nextLsn)).Legal := trivial
  refine ⟨h.reached.call hlegal (fun _ hop => by simp at hop) he, Nat.le_add_left _ _,
    h.acked.call hlegal (fun _ => by simp) he, ?_⟩
  obtain ⟨sealed, active, observed, staged, f, hw, hv, hc, hfirm, hlog⟩ := h.log
  rw [Machine.exec_append hw, Option.some.injEq] at he
  have hpos := hc.activeBase_pos
  have hends : Ends (fun _ s' => s'.world.disk = s.machine.disk ∧
      s'.wal = handleOn config 1 sealed active observed (staged ++ [p.payload s.nextLsn]) ∧
      Committing config s.machine.disk 1 sealed active f (staged ++ [p.payload s.nextLsn]))
      (fun _ _ => True) (fun _ => True)
      (append (p.payload s.nextLsn)
        ⟨handleOn config 1 sealed active observed staged, ⟨s.machine.disk, []⟩⟩) := by
    by_cases hlen : config.maxRecordSize < (p.payload s.nextLsn).length
    · rw [append_tooLarge hlen]
      trivial
    have hlen := Nat.not_lt.mp hlen
    by_cases hx : u64Max < activeBase 1 sealed + active.length + staged.length
    · rw [append_exhausted hlen hx]
      trivial
    have hx := Nat.not_lt.mp hx
    rw [append_staged hlen hpos hx]
    refine ⟨rfl, rfl, hc.toCarries, Batch.append_iff.mpr ⟨hc.batch, by simpa using hlen, ?_⟩⟩
    simp only [List.length_singleton]
    omega
  obtain ⟨a, s', -, ⟨hdisk, hwal, hc'⟩, rfl⟩ | ⟨e, s', ho, -⟩ | ⟨s', ho, -⟩ := Machine.execOn_ends hends he
  · rw [← hdisk] at hc' hfirm
    refine ⟨sealed, active, observed, _, f, congrArg some hwal, hv, hc', hfirm, ?_⟩
    rw [written_succ h.pos, ← hlog]
    simp only [List.append_assoc]
  · simp at ho
  · simp at ho

theorem upholds_of_endures (hh : m₀.handle = none) (hl : m₀.disk.locked = false)
    (hm : Machine.Endures config (OpensFirm config) m₀ m) :
    Upholds config (fun _ => True) (fun _ _ => True) (fun _ _ _ _ _ => True) m.disk m.handle :=
  (Upheld.trivially config _).endures (hh ▸ .rest hl trivial) hm

/-- A commit that returns leaves the records up to its watermark on the disk. -/
theorem commit_going (hh : m₀.handle = none) (hl : m₀.disk.locked = false) (h : Going config p m₀ s)
    (he : s.machine.exec config .commit fates = some (.ret (.committed w), m)) :
    Going config p m₀ { s with machine := m } ∧ ∀ l, 1 ≤ l → l ≤ w → Outlives config m l (p.payload l) := by
  have hlegal : Op.commit.Legal := trivial
  have hreached := h.reached.call hlegal (fun _ hop => by simp at hop) he
  have hacked := h.acked.call hlegal (fun _ => by simp) he
  have hu := upholds_of_endures hh hl hreached
  obtain ⟨sealed, active, observed, staged, f, hw, hv, hc, hfirm, hlog⟩ := h.log
  rw [Machine.exec_commit hw, Option.some.injEq] at he
  obtain ⟨a, s', ho, hs, rfl⟩ | ⟨e, s', ho, -⟩ | ⟨s', ho, -⟩ :=
    Machine.execOn_ends (commit_firmLog hv hc hfirm fates) he
  · obtain ⟨sealed', active', observed', f', hdurable, hwal, hc', hfirm', hlog'⟩ := hs
    obtain rfl : w = a := by simpa using ho
    have hall := hlog'.trans hlog
    have hbatch : Committing config s'.world.disk 1 sealed' active' f' [] := ⟨hc', .nil_of_le hc'.next_le⟩
    refine ⟨⟨hreached, h.pos, hacked, sealed', active', observed', [], f', congrArg some hwal, hv, hbatch,
      hfirm', by rw [List.append_nil, hall]⟩, fun l h1 hle m' seed wal rep rs hm' hseed hrec => ?_⟩
    have hlen := congrArg List.length hall
    rw [List.length_append, written_length] at hlen
    have hmem : (l, p.payload l) ∈ numbered 1 (sealed'.flatten ++ active') := by
      rw [hall]
      refine mem_written h1 ?_
      simp only [activeBase] at hdurable
      omega
    obtain ⟨b, ps, hseg, hstays⟩ := hfirm'.firm hc' observed' [] hmem
    rw [← hwal] at hstays
    exact firm_outlives hu hstays hseg hm' hseed hrec
  · simp at ho
  · simp at ho

/-- The log that is found holds what was written before, all of it synced under durable names. -/
structure Resumes (config : WalConfig) (p : Workload) (d : Disk) : Prop where
  firm : FoundFirm config d
  log : ∀ wal rep rs, Recovers config d lsnFirst wal rep rs →
    rep.oldestLsn = 1 ∧ ∃ n, rs = numbered 1 (written p (n + 1))

theorem resumes_of_empty {d : Disk} (hdir : DirNamed d) (hb : basesOf d = []) : Resumes config p d := by
  refine ⟨⟨hdir, fun b hmem => by simp [hb] at hmem, fun b f ps hf hheader => ?_⟩, fun wal rep rs hrec => ?_⟩
  · have hmem := mem_basesOf.mpr ⟨hheader.le_u64Max, f, hf⟩
    simp [hb] at hmem
  · have hnil : basesOf (acquired d) = [] := hb
    obtain ⟨-, -, -, d₀, hdis, oldest, sealed, active, _, -, rfl, rfl, hfound⟩ := hrec.cases (by decide)
    rcases hfound with ⟨-, rfl, rfl, rfl⟩ | ⟨f, -, hlog, -⟩
    · exact ⟨rfl, 0, rfl⟩
    · exact absurd (hdis.unique (.nothing hnil) ▸ hnil) hlog.bases_ne_nil

theorem start_going (hfound : Resumes config p m₀.disk) (he : start config m₀ fates = (s, true)) :
    Going config p m₀ s := by
  have hlegal : (Op.openLog lsnFirst).Legal := ⟨le_rfl, by decide⟩
  unfold start at he
  split at he
  · rename_i report m hexec
    obtain ⟨rfl, -⟩ := Prod.mk.inj he
    have hreached : Machine.Endures config (OpensFirm config) m₀ m :=
      .call .start hlegal (fun _ _ _ => hfound.firm) hexec
    rw [Machine.exec_openLog, Machine.execOpen, Option.some.injEq] at hexec
    rcases hopen : openSeeded config lsnFirst ⟨m₀.disk, fates⟩ with ⟨r, w⟩
    rw [hopen] at hexec
    cases r with
    | ret r =>
      obtain ⟨wal, rep⟩ := r
      obtain ⟨hrep, rfl⟩ := Prod.mk.inj hexec
      obtain rfl : rep = report := by simpa using hrep
      have hcalm : openSeeded config lsnFirst ⟨m₀.disk, []⟩ = _ := openSeeded_steady lsnFirst _ _ _ hopen
      obtain ⟨hv, h1, d', hw, hopens⟩ := openSeeded_opens hlegal.2 hcalm
      obtain rfl : w.disk = d' := congrArg Env.disk hw
      obtain ⟨hdir, hnamed⟩ := openSeeded_durable ⟨hfound.firm.dir, Or.inl hfound.firm.named⟩ lsnFirst hopen
      obtain ⟨oldest, sealed, active, ts, f, rfl, rfl, hlog, -⟩ := hopens.log hv h1 hlegal.2
      obtain ⟨reader, hreader, hdrain⟩ := drain_of_logOn hlog
      obtain ⟨hone, n, hrs⟩ := hfound.log _ _ _ ⟨_, reader, hcalm, hreader, hdrain⟩
      obtain rfl : oldest = 1 := hone
      have hfirm := FirmLog.of_opens hfound.firm hv h1 hlegal.2 hopens hdir hnamed hlog
      have hall : sealed.flatten ++ active = written p (n + 1) := by
        rw [← numbered_map_snd 1 (sealed.flatten ++ active), hrs, numbered_map_snd]
      have hnext : activeBase 1 sealed + active.length - 1 + 1 = n + 1 := by
        have hlen := congrArg List.length hall
        rw [List.length_append, written_length] at hlen
        simp only [activeBase]
        omega
      refine ⟨hreached, Nat.le_add_left _ _, fun _ hline => by simp at hline, sealed, active, [], [], f,
        rfl, hv, ⟨hlog.carries, .nil_of_le hlog.next_le⟩, hfirm, ?_⟩
      rw [List.append_nil, hall]
      exact congrArg (written p) hnext.symm
    | err e => simp at hexec
    | crashed => simp at hexec
    | diverged => simp at hexec
  · simp at he
  · simp at he

theorem start_captured : (start config m fates).1.captured = [] := by
  unfold start
  split <;> rfl

theorem Acked.congr (h : Acked config p s) (hm : s'.machine = s.machine) (hc : s'.captured = s.captured) :
    Acked config p s' := by
  rw [Acked, hm, hc]
  exact h

/-- A watermark may be told when its records are there to stay. -/
theorem Acked.record (h : Acked config p { s with machine := m }) (seq : ℕ) (captured : Bool)
    (hw : ∀ l, 1 ≤ l → l ≤ w → Outlives config m l (p.payload l)) :
    Acked config p ({ s with machine := m, seq := seq }.record captured w) := by
  intro line hline
  cases captured with
  | false => exact h line hline
  | true =>
    rcases List.mem_append.mp hline with hline | hline
    · exact h line hline
    · obtain rfl := List.mem_singleton.mp hline
      exact hw

/-- What one turn keeps. -/
theorem turn_keeps (hh : m₀.handle = none) (hl : m₀.disk.locked = false) (h : Going config p m₀ s) :
    Acked config p (turn config p s t).1 ∧
      ((turn config p s t).2 = true → Going config p m₀ (turn config p s t).1) := by
  have hcommit : Op.commit.Legal := trivial
  unfold turn
  split_ifs
  · refine ⟨?_, fun hgoes => by simp at hgoes⟩
    unfold finish
    split
    · rename_i w m he
      obtain ⟨hgoing, hrecords⟩ := commit_going hh hl h he
      split_ifs
      · exact hgoing.acked.record (s.seq + 1) t.captured hrecords
      · exact hgoing.acked
    · rename_i m _ he
      exact h.acked.call hcommit (by simp) he
    · exact h.acked
  · split
    · rename_i lsn m he
      have hgoing := append_going h he
      simp only
      split_ifs
      · unfold commitBatch
        split
        · rename_i w m' he'
          obtain ⟨hgoing', hrecords⟩ := commit_going hh hl hgoing he'
          have hacked := (hgoing'.acked.record (s.seq + 1) t.captured hrecords).congr rfl rfl
          exact ⟨hacked, fun _ => ⟨hgoing'.reached, hgoing'.pos, hacked, hgoing'.log⟩⟩
        · rename_i m' _ he'
          exact ⟨hgoing.acked.call hcommit (by simp) he', fun hgoes => by simp at hgoes⟩
        · exact ⟨hgoing.acked, fun hgoes => by simp at hgoes⟩
      · exact ⟨hgoing.acked, fun _ => hgoing⟩
    · rename_i m _ he
      have happend : (Op.append (p.payload s.nextLsn)).Legal := trivial
      exact ⟨h.acked.call happend (by simp) he, fun hgoes => by simp at hgoes⟩
    · exact ⟨h.acked, fun hgoes => by simp at hgoes⟩

theorem turns_keep (hh : m₀.handle = none) (hl : m₀.disk.locked = false) (h : Going config p m₀ s)
    (ts : List Turn) : Acked config p (turns config p ts s) := by
  induction ts generalizing s with
  | nil => exact h.acked
  | cons t ts ih =>
    have hturn := turn_keeps (t := t) hh hl h
    rw [turns]
    split
    · rename_i s' heq
      rw [heq] at hturn
      exact ih (hturn.2 rfl)
    · rename_i s' heq
      rw [heq] at hturn
      exact hturn.1

/-- Wherever the workload is cut off, what it told stays. -/
theorem workload_acked (hh : m₀.handle = none) (hl : m₀.disk.locked = false)
    (hfound : Resumes config p m₀.disk) (ts : List Turn) : Acked config p (workload config p m₀ fates ts) := by
  have hnone : (start config m₀ fates).1.captured = [] := start_captured
  unfold workload
  split
  · rename_i s heq
    exact turns_keep hh hl (start_going hfound heq) ts
  · rename_i s heq
    rw [heq] at hnone
    exact fun line hline => absurd (hnone ▸ hline) List.not_mem_nil

omit [Crc32c] in
def Told (s : Session) : Prop := s.captured.map Prod.fst = List.range' 1 s.seq

omit [Crc32c] in
theorem Told.record (h : Told s) (m : Machine) :
    Told ({ s with machine := m, seq := s.seq + 1 }.record true w) := by
  have hseq : ({ s with machine := m, seq := s.seq + 1 }.record true w).captured =
      s.captured ++ [(s.seq + 1, w)] := rfl
  rw [Told, hseq, List.map_append, h]
  exact (List.range'_1_concat ..).trans (by rw [Nat.add_comm]; rfl) |>.symm

theorem turn_told (h : Told s) (ht : t.captured = true) : Told (turn config p s t).1 := by
  unfold turn
  split_ifs
  · unfold finish
    rw [ht]
    split
    · split_ifs
      · exact h.record _
      · exact h
    · exact h
    · exact h
  · split
    · simp only
      split_ifs
      · unfold commitBatch
        rw [ht]
        split
        · rename_i w m' _
          exact h.record m'
        · exact h
        · exact h
      · exact h
    · exact h
    · exact h

theorem turns_told {ts : List Turn} (h : Told s) (hts : ∀ t ∈ ts, t.captured = true) :
    Told (turns config p ts s) := by
  induction ts generalizing s with
  | nil => exact h
  | cons t ts ih =>
    have hturn : Told (turn config p s t).1 := turn_told h (hts t List.mem_cons_self)
    rw [turns]
    split
    · rename_i s' heq
      rw [heq] at hturn
      exact ih hturn fun t ht => hts t (List.mem_cons_of_mem _ ht)
    · rename_i s' heq
      rw [heq] at hturn
      exact hturn

theorem workload_told {ts : List Turn} (hts : ∀ t ∈ ts, t.captured = true) :
    Told (workload config p m fates ts) := by
  have hstart : Told (start config m fates).1 := by
    unfold start
    split <;> rfl
  unfold workload
  split
  · rename_i s heq
    rw [heq] at hstart
    exact turns_told hstart hts
  · rename_i s heq
    rw [heq] at hstart
    exact hstart

/-- An `open` that succeeds recovers what a replay then yields. -/
theorem opened_replay {seed : ℕ} {rep : RecoveryReport} (hlegal : (Op.openLog seed).Legal)
    (he : m.exec config (.openLog seed) fates = some (.ret (.opened rep), m')) :
    ∃ wal ps, Recovers config m.die.disk seed wal rep (numbered rep.oldestLsn ps) ∧
      1 ≤ rep.oldestLsn ∧ rep.oldestLsn + ps.length ≤ u64Max + 1 ∧
      m'.exec config (.replay 0) [] = some (.ret (.records (numbered rep.oldestLsn ps) none), m') := by
  obtain ⟨-, -, -, oldest, sealed, active, ts, f, hh, rfl, hlog, -⟩ := Machine.opened hlegal.2 he
  obtain ⟨r, hreader, hdrain⟩ := drain_of_logOn hlog
  have hreplay : m'.exec config (.replay 0) [] =
      some (.ret (.records (numbered oldest (sealed.flatten ++ active)) none), m') := by
    rw [Machine.exec_replay hh, Machine.replayed, hreader]
    simp only [hdrain]
  rw [Machine.exec_openLog, Machine.execOpen, Option.some.injEq] at he
  rcases hopen : openSeeded config seed ⟨m.disk, fates⟩ with ⟨o, w⟩
  rw [hopen] at he
  cases o with
  | ret a =>
    obtain ⟨wal, rep'⟩ := a
    obtain ⟨hrep, rfl⟩ := Prod.mk.inj he
    obtain rfl : wal = handleOn config oldest sealed active [] [] := Option.some.inj hh
    obtain rfl : rep' = reportOn oldest sealed active ts := by simpa using hrep
    have hcalm : openSeeded config seed ⟨m.disk, []⟩ = _ := openSeeded_steady seed _ _ _ hopen
    obtain ⟨-, -, hlock, -⟩ := openSeeded_eq_ret_recovered hcalm
    have hdie : m.die.disk = m.disk := by simp [Machine.die, ← hlock]
    refine ⟨_, sealed.flatten ++ active, ⟨Env.calm w, r, by rw [hdie, hcalm], hreader, hdrain⟩,
      hlog.oldest_pos, ?_, hreplay⟩
    have hle := hlog.next_le
    simp only [reportOn, activeBase, List.length_append] at hle ⊢
    omega
  | err e => simp at he
  | crashed => simp at he
  | diverged => simp at he

variable {lines : List Line} {fates' : List Fate}

/-- What was told of is on the disk, under its names. -/
theorem checkRecords_of_outlives {rep : RecoveryReport} (hm : Machine.Endures config (KeepsFrom 1) m m')
    (hhigh : ∀ l, 1 ≤ l → l ≤ high → Outlives config m l (p.payload l))
    (hdigits : 24 ≤ p.payloadBytes ∨ high < 10 ^ 16) {m'' : Machine}
    (he : m'.exec config (.openLog lsnFirst) fates = some (.ret (.opened rep), m'')) :
    ∃ rs, m''.exec config (.replay 0) [] = some (.ret (.records rs none), m'') ∧
      checkRecords high none (max rep.oldestLsn 1) 0 rs = .pass := by
  have hlegal : (Op.openLog lsnFirst).Legal := ⟨le_rfl, by decide⟩
  obtain ⟨wal, ps, hrec, hpos, hle, hreplay⟩ := opened_replay hlegal he
  have hin : ∀ l, 1 ≤ l → l ≤ high → (l, p.payload l) ∈ numbered rep.oldestLsn ps := by
    intro l h1 hl
    have hkeeps : Machine.Endures config (KeepsFrom l) m m' :=
      hm.mono fun hok upTo hop => (hok upTo hop).trans_le h1
    exact hhigh l h1 hl m' _ _ _ _ hkeeps hlegal hrec
  refine ⟨_, hreplay, ?_⟩
  rw [Nat.max_eq_left hpos]
  refine checkRecords_pass (fun r hr hl => ?_) hpos ?_
  · obtain ⟨hfirst, hlast⟩ := mem_numbered_bounds hr
    rw [numbered_unique hr (hin r.1 (hpos.trans hfirst) hl)]
    exact recordName_isPrefix (by omega) (hdigits.imp_right hl.trans_lt)
  · by_cases hzero : high ≤ 0
    · exact Or.inl hzero
    · have hmem := hin high (by omega) le_rfl
      refine Or.inr ⟨?_, (mem_numbered_bounds hmem).2⟩
      rintro rfl
      simp at hmem

/-- The verifier looks for no more than was told. -/
theorem Acked.highWater (h : Acked config p s)
    (hlines : ∀ line ∈ lines, ∃ told ∈ s.captured, line.2 ≤ told.2)
    (hdigits : 24 ≤ p.payloadBytes ∨ ∀ line ∈ lines, line.2 < 10 ^ 16)
    (hhigh : PowerPull.highWater 1 0 (bySeq lines) = some high) :
    (∀ l, 1 ≤ l → l ≤ high → Outlives config s.machine l (p.payload l)) ∧
      (24 ≤ p.payloadBytes ∨ high < 10 ^ 16) := by
  rcases highWater_mem hhigh with rfl | ⟨line, hmem, rfl⟩
  · exact ⟨fun l h1 hl => absurd (h1.trans hl) (by decide), Or.inr (by decide)⟩
  · have hmem := mem_of_mem_bySeq hmem
    obtain ⟨told, htold, hle⟩ := hlines line hmem
    exact ⟨fun l h1 hl => h told htold l h1 (hl.trans hle), hdigits.imp_right fun h => h line hmem⟩

/-- Whatever the workload has told before it is cut off, and however often the power fails before
the verifier runs, the verifier does not fail, and it panics only where the log cannot be opened. -/
theorem verify_never_fails (hh : m₀.handle = none) (hl : m₀.disk.locked = false)
    (hfound : Resumes config p m₀.disk) (ts : List Turn)
    (hm : Machine.Endures config (KeepsFrom 1) (workload config p m₀ fates ts).machine m')
    (hlines : ∀ line ∈ lines, ∃ told ∈ (workload config p m₀ fates ts).captured, line.2 ≤ told.2)
    (hdigits : 24 ≤ p.payloadBytes ∨ ∀ line ∈ lines, line.2 < 10 ^ 16) :
    verify config lines m' fates' ≠ .fail ∧
      (verify config lines m' fates' = .panicked → ∀ rep m'',
        m'.exec config (.openLog lsnFirst) fates' ≠ some (.ret (.opened rep), m'')) := by
  have hacked : Acked config p (workload config p m₀ fates ts) := workload_acked hh hl hfound ts
  unfold verify
  split
  · simp
  · split
    · simp
    · rename_i high hhigh
      obtain ⟨hrecords, hnames⟩ := hacked.highWater hlines hdigits hhigh
      split
      · rename_i rep m'' he
        obtain ⟨rs, hreplay, hpass⟩ := checkRecords_of_outlives hm hrecords hnames he
        simp [hreplay, hpass]
      · rename_i hnone
        exact ⟨by simp, fun _ rep m'' he => hnone rep m'' he⟩

/-- Where the side channel loses no line and the log can be opened, the verifier passes. -/
theorem verify_passes (hh : m₀.handle = none) (hl : m₀.disk.locked = false)
    (hfound : Resumes config p m₀.disk) {ts : List Turn} (hts : ∀ t ∈ ts, t.captured = true)
    (hm : Machine.Endures config (KeepsFrom 1) (workload config p m₀ fates ts).machine m')
    (hsome : (workload config p m₀ fates ts).captured ≠ [])
    (hdigits : 24 ≤ p.payloadBytes ∨ ∀ line ∈ (workload config p m₀ fates ts).captured, line.2 < 10 ^ 16)
    {rep : RecoveryReport} {m'' : Machine}
    (he : m'.exec config (.openLog lsnFirst) fates' = some (.ret (.opened rep), m'')) :
    verify config (workload config p m₀ fates ts).captured m' fates' = .pass := by
  have hacked : Acked config p (workload config p m₀ fates ts) := workload_acked hh hl hfound ts
  have htold : Told (workload config p m₀ fates ts) := workload_told hts
  obtain ⟨high, hhigh⟩ := highWater_of_numbered 0 htold
  have hsorted := bySeq_of_numbered htold
  obtain ⟨hrecords, hnames⟩ := hacked.highWater (fun line hline => ⟨line, hline, le_rfl⟩) hdigits
    (hsorted.symm ▸ hhigh)
  obtain ⟨rs, hreplay, hpass⟩ := checkRecords_of_outlives hm hrecords hnames he
  rw [verify, hsorted]
  split
  · rename_i hnil
    exact absurd hnil hsome
  · simp only [hhigh, he, hreplay, hpass]

end

/-- Its first record is told of, and the power fails with ten bytes of the second one stored. -/
def cutWorkload : Session :=
  workload tightConfig ⟨0, 1, 20⟩ (Machine.onDisk (Disk.holding [])) []
    [⟨[], true, true⟩, ⟨[.crash 10], true, true⟩]

theorem cutWorkload_captured : cutWorkload.captured = [(1, 1)] := by decide +kernel

def cutMachine : Machine := ⟨cutWorkload.machine.disk.powerOff, none, cutWorkload.machine.reported⟩

theorem cutMachine_endures :
    Machine.Endures tightConfig (KeepsFrom 1) cutWorkload.machine cutMachine :=
  .cut .start (Disk.powerCut_powerOff _)

theorem cutMachine_opens : ∃ rep m,
    cutMachine.exec tightConfig (.openLog lsnFirst) [] = some (.ret (.opened rep), m) := by
  have hopen : (cutMachine.exec tightConfig (.openLog lsnFirst) []).map Prod.fst =
      some (.ret (.opened ⟨1, 1, .clean, 1⟩)) := by decide +kernel
  obtain ⟨⟨o, m⟩, he, ho⟩ := Option.map_eq_some_iff.mp hopen
  exact ⟨_, m, by rw [he, ← ho]⟩

theorem verify_never_fails_cut : verify tightConfig [(1, 1)] cutMachine [] ≠ .fail := by
  have hfound : Resumes tightConfig ⟨0, 1, 20⟩ (Disk.holding []) := resumes_of_empty ⟨rfl, rfl⟩ rfl
  have hlines : ∀ line ∈ [(1, 1)], ∃ told ∈ cutWorkload.captured, line.2 ≤ told.2 := by
    simp [cutWorkload_captured]
  have hnone : (Machine.onDisk (Disk.holding [])).handle = none := rfl
  exact (verify_never_fails hnone rfl hfound _ cutMachine_endures hlines (Or.inr (by simp))).1

theorem verify_passes_cut : verify tightConfig [(1, 1)] cutMachine [] = .pass := by
  have hfound : Resumes tightConfig ⟨0, 1, 20⟩ (Disk.holding []) := resumes_of_empty ⟨rfl, rfl⟩ rfl
  have hsome : cutWorkload.captured ≠ [] := by simp [cutWorkload_captured]
  have hdigits : ∀ line ∈ cutWorkload.captured, line.2 < 10 ^ 16 := by simp [cutWorkload_captured]
  have hnone : (Machine.onDisk (Disk.holding [])).handle = none := rfl
  obtain ⟨rep, m, he⟩ := cutMachine_opens
  rw [← cutWorkload_captured]
  exact verify_passes hnone rfl hfound (by simp) cutMachine_endures hsome (Or.inr hdigits) he

end OpenWal.PowerPull
