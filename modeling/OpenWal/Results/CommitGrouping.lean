import OpenWal.Theory.Adopted
import OpenWal.Theory.Growth

namespace OpenWal
open ByteSeq Posix CrashProg

def admitted (mx : ℕ) : ℕ → List Bytes → List Bytes
  | _, [] => []
  | e, p :: ps =>
    if p.length ≤ mx ∧ e ≤ u64Max then p :: admitted mx (e + 1) ps else admitted mx e ps

theorem admitted_append (mx e : ℕ) (ps qs : List Bytes) :
    admitted mx e (ps ++ qs) = admitted mx e ps ++ admitted mx (e + (admitted mx e ps).length) qs := by
  induction ps generalizing e with
  | nil => rfl
  | cons p ps ih =>
    rw [List.cons_append, admitted, admitted]
    split_ifs
    · rw [ih, List.length_cons, List.cons_append, Nat.add_assoc e 1, Nat.add_comm 1]
    · exact ih e

structure Round where
  payloads : List Bytes
  reopens : List ℕ

def Round.ops (r : Round) : List Op :=
  r.payloads.map .append ++ .commit :: r.reopens.flatMap fun seed => [.close, .openLog seed]

def Round.Legal (r : Round) : Prop := ∀ seed ∈ r.reopens, (Op.openLog seed).Legal

/-- The strings differ where a header has its creation time and its checksum, at most. -/
def SameButCreated (b b' : Bytes) : Prop :=
  b.length = b'.length ∧ ∀ i, ¬ (createdOff ≤ i ∧ i < createdOff + 8) →
    ¬ (headerCrcOff ≤ i ∧ i < headerCrcOff + 4) → b[i]? = b'[i]?

/-- Nothing but creation times and what the observers were told tells two machines apart. -/
structure Alike (m m' : Machine) : Prop where
  bases : basesOf m.disk = basesOf m'.disk
  files : ∀ b ∈ basesOf m.disk, ∃ f f', m.disk.file (filenameFor b) = some f ∧
    m'.disk.file (filenameFor b) = some f' ∧ SameButCreated f.data f'.data
  handles : ∃ wal wal', m.handle = some wal ∧ m'.handle = some wal' ∧
    { wal with observed := [] } = { wal' with observed := [] }

section

variable [Crc32c]

theorem SegmentBytes.sameButCreated {ss base : ℕ} {ps : List Bytes} {b b' : Bytes}
    (h : SegmentBytes ss base ps b) (h' : SegmentBytes ss base ps b') : SameButCreated b b' := by
  obtain ⟨created, rfl⟩ := h
  obtain ⟨created', rfl⟩ := h'
  have hlen : ∀ c, headerSize ≤ (encodeHeader base c ++ zeros (ss - headerSize)).length := by
    intro c
    rw [List.length_append, encodeHeader_length]
    omega
  refine ⟨?_, fun i hi hi' => ?_⟩
  · rw [overwrite_length _ (hlen _), overwrite_length _ (hlen _)]
    simp only [List.length_append, encodeHeader_length]
  · rw [overwrite_getElem? _ (hlen _), overwrite_getElem? _ (hlen _), List.getElem?_append,
      List.getElem?_append, encodeHeader_length, encodeHeader_length, encodeHeader_getElem? base hi hi']

/-- The handle is on a log of what commits wrote: its segments hold `log`, and `staged` is yet
to be committed. -/
def Built (config : WalConfig) (seed : ℕ) (log : List (List Bytes) × List Bytes) (staged : List Bytes)
    (m : Machine) : Prop :=
  ∃ observed d₀ f, m.handle = some (handleOn config seed log.1 log.2 observed staged) ∧
    Committing config m.disk seed log.1 log.2 f staged ∧
    Grown (SegmentBytes config.segmentSize) d₀ m.disk seed log.1 log.2 f.data

variable {config : WalConfig} {seed : ℕ} {log : List (List Bytes) × List Bytes} {staged : List Bytes}
  {m m' : Machine}

def nextOn (seed : ℕ) (log : List (List Bytes) × List Bytes) (staged : List Bytes) : ℕ :=
  activeBase seed log.1 + log.2.length + staged.length

omit [Crc32c] in
theorem nextOn_append (seed : ℕ) (log : List (List Bytes) × List Bytes) (staged ps : List Bytes) :
    nextOn seed log (staged ++ ps) = nextOn seed log staged + ps.length := by
  simp only [nextOn, List.length_append, Nat.add_assoc]

omit [Crc32c] in
theorem nextOn_pack (ss seed : ℕ) (log : List (List Bytes) × List Bytes) (staged : List Bytes) :
    nextOn seed (pack ss log staged) [] = nextOn seed log staged := by
  have hlen := congrArg List.length (pack_flatten ss log staged)
  simp only [List.length_append] at hlen
  simp only [nextOn, activeBase, List.length_nil]
  omega

def appendReply (config : WalConfig) (e : ℕ) (p : Bytes) : Outcome WalError Reply :=
  if config.maxRecordSize < p.length then .err .recordTooLarge
  else if u64Max < e then .err .lsnExhausted
  else .ret (.appended e)

theorem Built.append (h : Built config seed log staged m) (p : Bytes) :
    ∃ m', Machine.CalmStep config m (.append p) (appendReply config (nextOn seed log staged) p) m' ∧
      Built config seed log (staged ++ admitted config.maxRecordSize (nextOn seed log staged) [p]) m' := by
  obtain ⟨observed, d₀, f, hh, hc, hg⟩ := h
  have hpos := hc.activeBase_pos
  by_cases hp : config.maxRecordSize < p.length
  · rw [appendReply, if_pos hp, admitted, if_neg (by omega), admitted, List.append_nil]
    exact ⟨_, Machine.calmStep_append_err hh (append_tooLarge hp), observed, d₀, f, rfl, hc, hg⟩
  rw [appendReply, if_neg hp]
  by_cases hx : u64Max < nextOn seed log staged
  · rw [if_pos hx, admitted, if_neg (by omega), admitted, List.append_nil]
    exact ⟨_, Machine.calmStep_append_err hh (append_exhausted (Nat.not_lt.mp hp) hx), observed, d₀, f,
      rfl, hc, hg⟩
  · have hle := Nat.not_lt.mp hx
    rw [if_neg hx, admitted, if_pos ⟨Nat.not_lt.mp hp, hle⟩, admitted]
    refine ⟨_, Machine.calmStep_append hh (append_staged (Nat.not_lt.mp hp) hpos hle), observed, d₀, f,
      rfl, ⟨hc.toCarries, Batch.append_iff.mpr ⟨hc.batch, ?_, ?_⟩⟩, hg⟩
    · simpa using hp
    · simpa [nextOn] using hle

theorem Built.commit (hv : config.Valid) (h : Built config seed log staged m) :
    ∃ m', Machine.CalmStep config m .commit (.ret (.committed (nextOn seed log staged - 1))) m' ∧
      Built config seed (pack config.segmentSize log staged) [] m' := by
  obtain ⟨observed, d₀, f, hh, hc, hg⟩ := h
  have hpos := hc.activeBase_pos
  by_cases hs : staged = []
  · subst hs
    exact ⟨_, Machine.calmStep_commit hh (commit_nothing m.disk), observed, d₀, f, rfl, hc, hg⟩
  · obtain ⟨segs, active, observed', f', d', hrun, hpack, hc', hg'⟩ :=
      commit_grows [] hv (segmentBytes_growsBy config seed) rfl observed hs hc hg
    have hnext : activeBase seed ([] ++ log.1) + log.2.length - 1 + staged.length =
        nextOn seed log staged - 1 := by
      simp only [nextOn, List.nil_append]
      omega
    rw [hnext] at hrun
    refine ⟨_, Machine.calmStep_commit hh hrun, observed', d₀, f', ?_⟩
    rw [show pack config.segmentSize log staged = (segs, active) from hpack]
    exact ⟨rfl, ⟨hc', Batch.nil_of_le hc'.next_le⟩, hg'⟩

theorem Built.reopen (hv : config.Valid) (h : Built config seed log [] m) {s : ℕ}
    (hs : (Op.openLog s).Legal) :
    ∃ os m', m.runCalm config [.close, .openLog s] = some (os, m') ∧ Built config seed log [] m' := by
  obtain ⟨observed, d₀, f, hh, hc, hg⟩ := h
  have hsame : SameFiles m.disk m.die.disk := ⟨fun _ => rfl, rfl⟩
  have hlog : StoredLog config False m.die.disk seed log.1 log.2 f :=
    (hc.toCarries.congr hsame).storedLog (hg.congr hsame.file) ((Nat.le_add_right _ _).trans hv.room)
  obtain ⟨d', hopen, hset⟩ := openSeeded_of_logOn hv hs.1 rfl hlog.logOn (.clean hlog.written.cleanAt)
  have hfile : ∀ n, d'.file n = m.disk.file n := by
    intro n
    by_cases hn : n = filenameFor (activeBase seed log.1)
    · rw [hn, hset.self]
      exact hc.file.symm
    · exact hset.others n hn
  have hc' : Carries config d' seed log.1 log.2 f := (hlog.acquired.setActive hset hlog.written).carries
  refine ⟨_, _, Machine.runCalm_eq_some.mpr (.cons (Machine.calmStep_close hh)
    (.cons (Machine.calmStep_open hopen) (.nil _))), [], d₀, f, rfl,
    ⟨hc', Batch.nil_of_le hc'.next_le⟩, hg.congr hfile⟩

/-- What the first open leaves of a directory without a segment. -/
theorem built_open (hv : config.Valid) (hseed : (Op.openLog seed).Legal) (hl : m.disk.locked = false)
    (hb : basesOf m.disk = []) :
    ∃ o m', Machine.CalmStep config m (.openLog seed) o m' ∧ Built config seed ([], []) [] m' := by
  obtain ⟨created, d', hopen, hset⟩ := openSeeded_of_none hv hseed.1 hseed.2 hl hb
  have hlog : StoredLog config False d' seed [] [] _ :=
    storedLog_fresh (d := acquired m.disk) hseed.1 hseed.2 hv hb hset
  have hc := hlog.carries
  refine ⟨_, _, Machine.calmStep_open hopen, [], d', _, rfl, ⟨hc, Batch.nil_of_le hc.next_le⟩, trivial,
    .fresh _ _ created, fun _ _ => rfl⟩

theorem Built.appends (h : Built config seed log staged m) (ps : List Bytes) :
    ∃ os m', m.runCalm config (ps.map .append) = some (os, m') ∧
      Built config seed log (staged ++ admitted config.maxRecordSize (nextOn seed log staged) ps) m' := by
  induction ps generalizing m staged with
  | nil => exact ⟨[], m, rfl, by rwa [admitted, List.append_nil]⟩
  | cons p ps ih =>
    obtain ⟨m₁, hstep, h₁⟩ := h.append p
    obtain ⟨os, m', hrun, h'⟩ := ih h₁
    refine ⟨_, m', Machine.runCalm_eq_some.mpr (.cons hstep (Machine.runCalm_eq_some.mp hrun)), ?_⟩
    rwa [nextOn_append, List.append_assoc, ← admitted_append, List.singleton_append] at h'

theorem Built.reopens (hv : config.Valid) (h : Built config seed log [] m) {seeds : List ℕ}
    (hs : ∀ s ∈ seeds, (Op.openLog s).Legal) :
    ∃ os m', m.runCalm config (seeds.flatMap fun s => [.close, .openLog s]) = some (os, m') ∧
      Built config seed log [] m' := by
  induction seeds generalizing m with
  | nil => exact ⟨[], m, rfl, h⟩
  | cons s seeds ih =>
    obtain ⟨os₁, m₁, hrun₁, h₁⟩ := h.reopen hv (hs s List.mem_cons_self)
    obtain ⟨os₂, m₂, hrun₂, h₂⟩ := ih h₁ fun s' hs' => hs s' (List.mem_cons_of_mem _ hs')
    refine ⟨os₁ ++ os₂, m₂, ?_, h₂⟩
    rw [List.flatMap_cons, Machine.runCalm_append hrun₁, hrun₂]
    rfl

theorem Built.round (hv : config.Valid) (h : Built config seed log [] m) {r : Round} (hr : r.Legal) :
    ∃ os m', m.runCalm config r.ops = some (os, m') ∧ Built config seed
      (pack config.segmentSize log (admitted config.maxRecordSize (nextOn seed log []) r.payloads)) [] m' := by
  obtain ⟨os₁, m₁, hrun₁, h₁⟩ := h.appends r.payloads
  obtain ⟨m₂, hstep, h₂⟩ := h₁.commit hv
  obtain ⟨os₃, m₃, hrun₃, h₃⟩ := h₂.reopens hv hr
  have hrun₂ := Machine.runCalm_eq_some.mpr (.cons hstep (Machine.runCalm_eq_some.mp hrun₃))
  exact ⟨_, m₃, (Machine.runCalm_append hrun₁ _).trans (congrArg (Option.map _) hrun₂), h₃⟩

/-- All that counts of the rounds is the sequence of their payloads. -/
theorem Built.rounds (hv : config.Valid) (h : Built config seed log [] m) {rounds : List Round}
    (hr : ∀ r ∈ rounds, r.Legal) :
    ∃ os m', m.runCalm config (rounds.flatMap Round.ops) = some (os, m') ∧ Built config seed
      (pack config.segmentSize log
        (admitted config.maxRecordSize (nextOn seed log []) (rounds.flatMap Round.payloads))) [] m' := by
  induction rounds generalizing m log with
  | nil => exact ⟨[], m, rfl, h⟩
  | cons r rounds ih =>
    obtain ⟨os₁, m₁, hrun₁, h₁⟩ := h.round hv (hr r List.mem_cons_self)
    obtain ⟨os₂, m₂, hrun₂, h₂⟩ := ih h₁ fun r' hr' => hr r' (List.mem_cons_of_mem _ hr')
    refine ⟨os₁ ++ os₂, m₂, ?_, ?_⟩
    · rw [List.flatMap_cons, Machine.runCalm_append hrun₁, hrun₂]
      rfl
    · have hnext := nextOn_append seed log []
        (admitted config.maxRecordSize (nextOn seed log []) r.payloads)
      rw [List.nil_append] at hnext
      rwa [nextOn_pack, hnext, ← pack_append, ← admitted_append, ← List.flatMap_cons] at h₂

/-- Appends and commits, answered alike and to the same end. -/
theorem Built.writes (hv : config.Valid) {ops : List Op} (hops : ∀ op ∈ ops, op.IsWrite)
    (h : Built config seed log staged m) (h' : Built config seed log staged m') :
    ∃ os m₁ m₁' log₁ staged₁, m.runCalm config ops = some (os, m₁) ∧
      m'.runCalm config ops = some (os, m₁') ∧ Built config seed log₁ staged₁ m₁ ∧
      Built config seed log₁ staged₁ m₁' := by
  induction ops generalizing log staged m m' with
  | nil => exact ⟨[], m, m', log, staged, rfl, rfl, h, h'⟩
  | cons op ops ih =>
    obtain ⟨o, m₁, m₁', log₁, staged₁, hstep, hstep', h₁, h₁'⟩ : ∃ o m₁ m₁' log₁ staged₁,
        Machine.CalmStep config m op o m₁ ∧ Machine.CalmStep config m' op o m₁' ∧
        Built config seed log₁ staged₁ m₁ ∧ Built config seed log₁ staged₁ m₁' := by
      have hop := hops op List.mem_cons_self
      cases op with
      | append p =>
        obtain ⟨m₁, hstep, h₁⟩ := h.append p
        obtain ⟨m₁', hstep', h₁'⟩ := h'.append p
        exact ⟨_, m₁, m₁', _, _, hstep, hstep', h₁, h₁'⟩
      | commit =>
        obtain ⟨m₁, hstep, h₁⟩ := h.commit hv
        obtain ⟨m₁', hstep', h₁'⟩ := h'.commit hv
        exact ⟨_, m₁, m₁', _, _, hstep, hstep', h₁, h₁'⟩
      | _ => exact hop.elim
    obtain ⟨os, m₂, m₂', log₂, staged₂, hrun, hrun', h₂, h₂'⟩ :=
      ih (fun op' hop' => hops op' (List.mem_cons_of_mem _ hop')) h₁ h₁'
    exact ⟨o :: os, m₂, m₂', log₂, staged₂,
      Machine.runCalm_eq_some.mpr (.cons hstep (Machine.runCalm_eq_some.mp hrun)),
      Machine.runCalm_eq_some.mpr (.cons hstep' (Machine.runCalm_eq_some.mp hrun')), h₂, h₂'⟩

theorem Built.alike (h : Built config seed log staged m) (h' : Built config seed log staged m') :
    Alike m m' := by
  obtain ⟨observed, d₀, f, hh, hc, hg⟩ := h
  obtain ⟨observed', d₀', f', hh', hc', hg'⟩ := h'
  refine ⟨hc.bases.trans hc'.bases.symm, ?_, _, _, hh, hh', rfl⟩
  rw [hc.bases]
  refine (hg.chain.and hg'.chain).of_mem_basesFrom (R := fun b => ∃ f f',
    m.disk.file (filenameFor b) = some f ∧ m'.disk.file (filenameFor b) = some f' ∧
      SameButCreated f.data f'.data) ?_ ?_
  · rintro b ps ⟨⟨-, g, hgf, hb⟩, -, g', hgf', hb'⟩
    exact ⟨g, g', hgf, hgf', hb.sameButCreated hb'⟩
  · exact ⟨f, f', hc.file, hc'.file, hg.active.sameButCreated hg'.active⟩

/-- Any two ways of cutting the same appends into commits, with any number of clean closes and
opens between them, leave logs alike, and those answer the next calls alike. -/
theorem grouping_leaves_no_trace (hv : config.Valid) (hseed : (Op.openLog seed).Legal)
    (hl : m.disk.locked = false) (hl' : m'.disk.locked = false) (hb : basesOf m.disk = [])
    (hb' : basesOf m'.disk = []) {rounds rounds' : List Round} (hr : ∀ r ∈ rounds, r.Legal)
    (hr' : ∀ r ∈ rounds', r.Legal)
    (hps : rounds.flatMap Round.payloads = rounds'.flatMap Round.payloads) :
    ∃ os os' m₁ m₁', m.runCalm config (.openLog seed :: rounds.flatMap Round.ops) = some (os, m₁) ∧
      m'.runCalm config (.openLog seed :: rounds'.flatMap Round.ops) = some (os', m₁') ∧
      Alike m₁ m₁' ∧ ∀ ops : List Op, (∀ op ∈ ops, op.IsWrite) → ∃ os m₂ m₂',
        m₁.runCalm config ops = some (os, m₂) ∧ m₁'.runCalm config ops = some (os, m₂') ∧ Alike m₂ m₂' := by
  obtain ⟨o, m₀, hstep, h₀⟩ := built_open hv hseed hl hb
  obtain ⟨o', m₀', hstep', h₀'⟩ := built_open hv hseed hl' hb'
  obtain ⟨os, m₁, hrun, h₁⟩ := h₀.rounds hv hr
  obtain ⟨os', m₁', hrun', h₁'⟩ := h₀'.rounds hv hr'
  rw [← hps] at h₁'
  refine ⟨_, _, m₁, m₁', Machine.runCalm_eq_some.mpr (.cons hstep (Machine.runCalm_eq_some.mp hrun)),
    Machine.runCalm_eq_some.mpr (.cons hstep' (Machine.runCalm_eq_some.mp hrun')), h₁.alike h₁', ?_⟩
  intro ops hops
  obtain ⟨os, m₂, m₂', log, staged, hrun, hrun', h₂, h₂'⟩ := h₁.writes hv hops h₁'
  exact ⟨os, m₂, m₂', hrun, hrun', h₂.alike h₂'⟩

end

/-- Four payloads committed at once, and one by one with two clean reopens. -/
theorem grouping_leaves_no_trace_four : ∃ os os' m m',
    (Machine.fresh true fun _ => 7).runCalm tightConfig
      (.openLog 1 :: [Round.mk [[1], [2], [3], [4]] []].flatMap Round.ops) = some (os, m) ∧
    (Machine.fresh false fun t => t).runCalm tightConfig
      (.openLog 1 :: [Round.mk [[1]] [5, 9], Round.mk [[2], [3]] [], Round.mk [[4]] []].flatMap Round.ops) =
      some (os', m') ∧ Alike m m' := by
  obtain ⟨os, os', m, m', hrun, hrun', halike, -⟩ := @grouping_leaves_no_trace _ tightConfig 1
    (Machine.fresh true fun _ => 7) (Machine.fresh false fun t => t) (by decide)
    (by simp only [Op.Legal]; decide) rfl rfl rfl rfl
    [⟨[[1], [2], [3], [4]], []⟩] [⟨[[1]], [5, 9]⟩, ⟨[[2], [3]], []⟩, ⟨[[4]], []⟩]
    (by simp [Round.Legal]) (by simp [Round.Legal, Op.Legal, u64Max]) rfl
  exact ⟨os, os', m, m', hrun, hrun', halike⟩

end OpenWal
