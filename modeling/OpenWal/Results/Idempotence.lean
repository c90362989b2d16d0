import OpenWal.Theory.CalmRuns

namespace OpenWal
open ByteSeq Posix CrashProg Simulation

section

variable [Crc32c]

variable {config : WalConfig} {m m₁ : Machine}

/-- Replays of one log agree wherever the handle was opened. -/
theorem replayed_congr {d' : Disk} {oldest start : ℕ} {sealed : List (List Bytes)} {active : List Bytes}
    {f f' : File} {m m' : Machine}
    (h : LogOn config.segmentSize config.maxRecordSize m.disk oldest sealed active f)
    (h' : LogOn config.segmentSize config.maxRecordSize d' oldest sealed active f') (hd : m'.disk = d') :
    m'.replayed (handleOn config oldest sealed active [] []) start =
      m.replayed (handleOn config oldest sealed active [] []) start := by
  subst hd
  by_cases hstart : start = 0 ∨ oldest ≤ start
  · obtain ⟨r, hr, hdrain⟩ := drain_readerFrom [] [] h hstart
    obtain ⟨r', hr', hdrain'⟩ := drain_readerFrom [] [] h' hstart
    simp only [Machine.replayed, hr, hr', hdrain, hdrain']
  · obtain ⟨h0, hlt⟩ := not_or.mp hstart
    have hlt := Nat.not_le.mp hlt
    simp only [Machine.replayed, readerFrom_below (Nat.pos_of_ne_zero h0) hlt]

/-- Once an `open` has succeeded, dropping the handle and opening again, with any
seed, reports the same log with a clean tail, replays it alike, and leaves every
file as it is. -/
theorem reopen_changes_nothing {s₁ s₂ : ℕ} {rep : RecoveryReport} (hs₁ : (Op.openLog s₁).Legal)
    (hs₂ : (Op.openLog s₂).Legal)
    (h : m.runCalm config [.openLog s₁] = some ([.ret (.opened rep)], m₁)) :
    ∃ rep₂ m₂, m₁.runCalm config [.close, .openLog s₂] =
        some ([.ret .closed, .ret (.opened rep₂)], m₂) ∧
      rep₂.oldestLsn = rep.oldestLsn ∧ rep₂.durableLsn = rep.durableLsn ∧
      rep₂.segmentsScanned = rep.segmentsScanned ∧ rep₂.tailState = .clean ∧
      (∀ n, m₂.disk.file n = m₁.disk.file n) ∧ m₂.disk.unlinked = m₁.disk.unlinked ∧
      ∀ start, (m₂.runCalm config [.replay start]).map Prod.fst =
        (m₁.runCalm config [.replay start]).map Prod.fst := by
  rw [Machine.runCalm_eq_some] at h
  cases h with
  | cons hopen hnil =>
  cases hnil
  obtain ⟨wal, w, ho, hw, hdisk⟩ := Machine.calmStep_open_eq_ret hopen
  obtain ⟨hv, h1, d', rfl, hopens⟩ := openSeeded_opens hs₁.2 ho
  obtain ⟨oldest, sealed, active, ts, f, rfl, rfl, hlog, hclean, -, -⟩ := hopens.log hv h1 hs₁.2
  have hlog₁ : LogOn config.segmentSize config.maxRecordSize m₁.disk oldest sealed active f :=
    hdisk ▸ hlog
  -- the lock is free once the handle is gone, and the tail is clean
  have hdie : LogOn config.segmentSize config.maxRecordSize m₁.die.disk oldest sealed active f :=
    ⟨hlog₁.bases, hlog₁.chain.congr fun _ _ _ _ => rfl, hlog₁.file, hlog₁.holds⟩
  obtain ⟨d₂, hopen₂, hset⟩ := openSeeded_of_logOn hv hs₂.1 rfl hdie (.clean hclean)
  have hfile : ∀ n, d₂.file n = m₁.disk.file n := by
    intro n
    by_cases hn : n = filenameFor (activeBase oldest sealed)
    · rw [hn, hset.self, hlog₁.file]
    · exact hset.others n hn
  set m₂ : Machine := ⟨d₂, some (handleOn config oldest sealed active [] []),
    m₁.die.reported ++ [(reportOn oldest sealed active .clean).durableLsn]⟩ with hm₂
  have hrun : m₁.runCalm config [.close, .openLog s₂] =
      some ([.ret .closed, .ret (.opened (reportOn oldest sealed active .clean))], m₂) :=
    Machine.runCalm_eq_some.mpr
      (.cons (Machine.calmStep_close hw) (.cons (Machine.calmStep_open hopen₂) (.nil _)))
  have hlog₂ := (logOn_acquired.mpr hdie).setActive hset hdie.holds
  refine ⟨_, m₂, hrun, rfl, rfl, rfl, rfl, hfile, hset.unlinked, fun start => ?_⟩
  have hreplay₁ := Machine.runCalm_eq_some.mpr
    (.cons (Machine.calmStep_replay config start hw) (.nil _))
  have hreplay₂ := Machine.runCalm_eq_some.mpr
    (.cons (Machine.calmStep_replay (m := m₂) config start rfl) (.nil _))
  rw [hreplay₁, hreplay₂, Option.map_some, Option.map_some, replayed_congr hlog₁ hlog₂ rfl]

end

/-- A record followed by a torn one, opened with one seed and then with another. -/
theorem reopen_changes_nothing_torn : ∃ m₁ rep rep₂ m₂,
    (Machine.onDisk (.holding [(filenameFor 3,
        encodeHeader 3 0 ++ encodeFrame 3 [7] ++ 1 :: zeros 40)])).runCalm tightConfig [.openLog 1] =
      some ([.ret (.opened rep)], m₁) ∧
    m₁.runCalm tightConfig [.close, .openLog 9] =
      some ([.ret .closed, .ret (.opened rep₂)], m₂) ∧
    rep.tailState = .truncatedAt 3 88 ∧ rep₂.durableLsn = rep.durableLsn ∧ rep₂.tailState = .clean ∧
    ∀ n, m₂.disk.file n = m₁.disk.file n := by
  obtain ⟨m₁, h⟩ := Machine.runCalm_of_fst tightConfig (.onDisk (.holding [(filenameFor 3,
      encodeHeader 3 0 ++ encodeFrame 3 [7] ++ 1 :: zeros 40)])) [.openLog 1]
    [.ret (.opened ⟨3, 3, .truncatedAt 3 88, 1⟩)] (by decide +kernel)
  obtain ⟨rep₂, m₂, h₂, -, hd, -, ht, hfile, -⟩ :=
    reopen_changes_nothing ⟨by decide, by decide⟩ (⟨by decide, by decide⟩ : (Op.openLog 9).Legal) h
  exact ⟨m₁, _, rep₂, m₂, h, h₂, rfl, hd, ht, hfile⟩

end OpenWal
