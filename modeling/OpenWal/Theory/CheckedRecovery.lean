import OpenWal.Model.CheckedWal
import OpenWal.Theory.CheckedScan
import OpenWal.Theory.Headers

namespace OpenWal
open ByteSeq Posix CrashProg

namespace Checked

variable [Crc32c] {ε : Type} {file buf : Bytes} {ss mx : ℕ}

/-- An invalid record has room for a header. -/
theorem invalid_bounds {offset : ℕ} {buf' : Bytes}
    (h : OpenWal.readRecordAt file offset ss mx buf = (.invalid, buf')) :
    offset + recordHeaderSize ≤ ss := by
  unfold OpenWal.readRecordAt at h
  dsimp only at h
  split_ifs at h with hrem
  · simp at h
  · unfold recordHeaderSize at *
    omega

omit [Crc32c] in
theorem atCapacityInvalid_audits (ctx : RecoverCtx) (name : FileName) {offset : ℕ} (lastValid : ℕ)
    (hin : offset + recordHeaderSize ≤ ctx.segmentSize) (hss : ctx.segmentSize ≤ u64Max) :
    Audits (Within ctx.segmentSize mx) (atCapacityInvalid ctx name file offset lastValid)
      (OpenWal.atCapacityInvalid ctx name file offset lastValid) := by
  refine .cond (fun _ => .raise _) fun hshort => ?_
  have hn : file.length - offset ≤ recordHeaderSize := by
    have hlt : ¬ saturatingAdd offset recordHeaderSize ≤ file.length := fun h => hshort (Or.inl h)
    rw [saturatingAdd, Nat.min_eq_left (hin.trans hss)] at hlt
    omega
  have htail : (ByteSeq.slice (zeros recordHeaderSize) 0 (file.length - offset)).length =
      file.length - offset := by
    rw [slice_length, zeros_length]
    omega
  rw [slice_bind (Nat.zero_le _) (hn.trans_eq (zeros_length _).symm), htail]
  refine .enter (show _ ≤ _ by omega) ?_
  have hslice : ByteSeq.slice file offset (offset + (file.length - offset)) =
      ByteSeq.slice file offset file.length := by
    rw [ByteSeq.slice, Nat.add_sub_cancel_left, ByteSeq.slice]
  rw [hslice]
  exact .cond (fun _ => .raise _) fun _ => (zeroToEof_audits name offset hss).bind fun _ => .ret _

variable [ShortReads]

theorem forwardScanLoop_audits (ctx : RecoverCtx) (x expected : ℕ) {stop turns p : ℕ} (buf : Bytes)
    (hmx : ctx.maxRecordSize < 2 ^ 32) (hss : ctx.segmentSize ≤ u64Max) (hp : x + 8 ≤ p)
    (hstop : stop ≤ x + 8 + ctx.maxRecordSize + 28) (hword : stop + 8 ≤ u64Max)
    (ht : stop + 1 - p < turns) :
    Audits (Within ctx.segmentSize ctx.maxRecordSize)
      (forwardScanLoop ctx file x expected stop turns p buf : Guarded ε (Bool × Bytes))
      (pure (OpenWal.forwardScanLoop ctx file expected stop p buf)) := by
  induction turns generalizing p buf with
  | zero => exact absurd ht (Nat.not_lt_zero _)
  | succ turns ih =>
    rw [forwardScanLoop, OpenWal.forwardScanLoop]
    refine .cond_pure (fun hle => ?_) fun _ => .ret _
    refine .enter ⟨hp, hle.trans hstop⟩ ((readRecordAt_audits p hmx hss).bind_pure ?_)
    rcases OpenWal.readRecordAt file p ctx.segmentSize ctx.maxRecordSize buf with ⟨outcome, buf'⟩
    have hnext (buf' : Bytes) := ih buf' (p := p + 8) (by omega) (by omega)
    have hsum : p + 8 ≤ u64Max := by omega
    cases outcome with
    | record lsn payloadLen framedLen =>
      refine .cond_pure (fun _ => .ret _) fun _ => ?_
      rw [addU64_eq hsum, CheckedProg.pure_bind]
      exact hnext buf'
    | cleanEnd =>
      dsimp only
      rw [addU64_eq hsum, CheckedProg.pure_bind]
      exact hnext buf'
    | invalid =>
      dsimp only
      rw [addU64_eq hsum, CheckedProg.pure_bind]
      exact hnext buf'

variable {ctx : RecoverCtx}

theorem forwardScanFindsValid_audits {x : ℕ} (expected : ℕ) (buf : Bytes)
    (hmx : ctx.maxRecordSize < 2 ^ 32) (hss : ctx.segmentSize ≤ 2 ^ 63 - 1) (hx : x ≤ ctx.segmentSize) :
    Audits (Within ctx.segmentSize ctx.maxRecordSize)
      (forwardScanFindsValid ctx file x expected buf : Guarded ε (Bool × Bytes))
      (pure (OpenWal.forwardScanFindsValid ctx file x expected buf)) := by
  have hstart : saturatingAdd x 8 = x + 8 := saturatingAdd_of_lt (by omega)
  have hstop : saturatingAdd (x + 8) (ctx.maxRecordSize + 28) = x + 8 + (ctx.maxRecordSize + 28) :=
    saturatingAdd_of_lt (by omega)
  rw [forwardScanFindsValid, OpenWal.forwardScanFindsValid, scanBound,
    addU64_eq (le_u64Max_of_small (by omega)), CheckedProg.pure_bind]
  dsimp only [OpenWal.scanBound]
  rw [hstart, hstop]
  exact forwardScanLoop_audits ctx x expected buf hmx (le_u64Max_of_small (by omega)) le_rfl
    (by omega) (le_u64Max_of_small (by omega)) (by omega)

theorem classify_audits (name : FileName) {x : ℕ} (expected lastValid : ℕ) (buf : Bytes)
    (hmx : ctx.maxRecordSize < 2 ^ 32) (hss : ctx.segmentSize ≤ 2 ^ 63 - 1) (hx : x ≤ ctx.segmentSize) :
    Audits (Within ctx.segmentSize ctx.maxRecordSize)
      (classify ctx name file x expected lastValid buf)
      (OpenWal.classify ctx name file x expected lastValid buf) := by
  refine .cond (fun _ => .raise _) fun _ => ?_
  refine (forwardScanFindsValid_audits expected buf hmx hss hx).bind_pure ?_
  exact .cond (fun _ => .raise _) fun _ =>
    (zeroToEof_audits name x (le_u64Max_of_small (by omega))).bind fun _ => .ret _

variable (ctx) in
theorem recoverLoop_audits (name : FileName) {turns offset : ℕ} (expected : Option ℕ) (lastValid : ℕ)
    (buf : Bytes) (hmx : ctx.maxRecordSize < 2 ^ 32) (hss : ctx.segmentSize ≤ 2 ^ 63 - 1)
    (ht : ctx.segmentSize - offset < turns) :
    Audits (Within ctx.segmentSize ctx.maxRecordSize)
      (recoverLoop ctx name file turns offset expected lastValid buf)
      (OpenWal.recoverLoop ctx name file offset expected lastValid buf) := by
  have hword : ctx.segmentSize ≤ u64Max := le_u64Max_of_small (by omega)
  induction turns generalizing offset expected lastValid buf with
  | zero => exact absurd ht (Nat.not_lt_zero _)
  | succ turns ih =>
    rw [recoverLoop, OpenWal.recoverLoop]
    refine (readRecordAt_audits offset hmx hword).bind_pure ?_
    rcases hr : OpenWal.readRecordAt file offset ctx.segmentSize ctx.maxRecordSize buf with
      ⟨outcome, buf'⟩
    cases outcome with
    | record lsn payloadLen framedLen =>
      obtain ⟨hleast, hmost⟩ := readRecordAt_record_bounds hr
      cases expected with
      | none => exact .raise _
      | some want =>
        refine .cond (fun _ => classify_audits name want lastValid buf' hmx hss (by omega)) fun _ => ?_
        rw [addU64_eq (by omega), CheckedProg.pure_bind]
        exact ih _ _ _ (by omega)
    | cleanEnd => exact .ret _
    | invalid =>
      have hin := invalid_bounds hr
      cases expected with
      | none => exact atCapacityInvalid_audits ctx name lastValid hin hword
      | some want => exact classify_audits name want lastValid buf' hmx hss (by omega)

theorem recoverSegment_audits (name : FileName) (file : Bytes) {base : ℕ} (isActive : Bool)
    (hb : 1 ≤ base) (hmx : mx < 2 ^ 32) (hss : ss ≤ 2 ^ 63 - 1) :
    Audits (Within ss mx) (recoverSegment name file base isActive ss mx)
      (OpenWal.recoverSegment name file base isActive ss mx) := by
  have hturns : ss - headerSize < ss + 1 := by omega
  rw [recoverSegment, CheckedProg.sub_eq hb, CheckedProg.pure_bind]
  exact recoverLoop_audits ⟨base, isActive, ss, mx⟩ name _ _ _ hmx hss hturns

omit [Crc32c] [ShortReads] in
/-- A valid segment holds a header, and its offsets fit in a `u64`. -/
theorem segmentSize_bounds {config : WalConfig} (hv : config.Valid) (hss : config.segmentSize ≤ 2 ^ 63 - 1) :
    headerSize ≤ config.segmentSize ∧ config.segmentSize ≤ u64Max := by
  have : config.maxRecordSize + 91 ≤ config.segmentSize := hv
  refine ⟨?_, le_u64Max_of_small (by omega)⟩
  unfold headerSize
  omega

variable {config : WalConfig}

theorem isIncompleteCreate_audits (hv : config.Valid) (hss : config.segmentSize ≤ 2 ^ 63 - 1)
    (file : Bytes) (base : ℕ) :
    Audits (Within config.segmentSize config.maxRecordSize) (isIncompleteCreate file base config)
      (pure (OpenWal.isIncompleteCreate file base config)) := by
  obtain ⟨hheader, hword⟩ := segmentSize_bounds hv hss
  refine (readHeader_audits hheader file).bind_pure ?_
  rw [OpenWal.isIncompleteCreate]
  cases OpenWal.readHeader file with
  | none => exact .cond_pure (fun _ => .ret _) fun _ => .ret _
  | some header =>
    dsimp only
    rw [decodeHeader_eq, CheckedProg.pure_bind]
    refine .cond_pure (fun _ => .ret _) fun _ => ?_
    refine (readRecordAt_audits headerSize config.maxRecordSize_lt hword).bind_pure ?_
    rcases OpenWal.readRecordAt file headerSize config.segmentSize config.maxRecordSize [] with
      ⟨outcome, buf'⟩
    cases outcome <;> exact .ret _

theorem discardIncompleteHighest_audits (hv : config.Valid) (hss : config.segmentSize ≤ 2 ^ 63 - 1)
    (bases : List ℕ) :
    Audits (Within config.segmentSize config.maxRecordSize) (discardIncompleteHighest bases config)
      (OpenWal.discardIncompleteHighest bases config) := by
  rw [discardIncompleteHighest, OpenWal.discardIncompleteHighest]
  cases bases.getLast? with
  | none => exact .ret _
  | some highest =>
    refine (Audits.lift _).bind fun file => (isIncompleteCreate_audits hv hss file highest).bind_pure ?_
    rcases OpenWal.isIncompleteCreate file highest config with e | incomplete
    · exact .raise e
    · cases incomplete with
      | false => exact .ret _
      | true => exact (Audits.lift _).bind fun _ => (Audits.lift _).bind fun _ => .ret _

theorem recoverOne_audits (hv : config.Valid) (hss : config.segmentSize ≤ 2 ^ 63 - 1)
    (prevMax : Option ℕ) (base : ℕ) (isActive : Bool) :
    Audits (Within config.segmentSize config.maxRecordSize) (recoverOne config prevMax base isActive)
      (OpenWal.recoverOne config prevMax base isActive) := by
  obtain ⟨hheader, hword⟩ := segmentSize_bounds hv hss
  refine (Audits.lift _).bind fun file => (readHeader_audits hheader file).bind_pure ?_
  cases OpenWal.readHeader file with
  | none => exact .raise _
  | some header =>
    dsimp only
    rw [decodeHeader_eq, CheckedProg.pure_bind]
    rcases hd : OpenWal.decodeHeader header with e | parsed
    · exact .raise e
    · refine .cond (fun _ => .raise _) fun hne => .cond (fun _ => .raise _) fun _ => ?_
      have hb : 1 ≤ base := not_not.mp hne ▸ (decodeHeader_ok_pos hd).1
      exact recoverSegment_audits _ file isActive hb config.maxRecordSize_lt hss

def activeLocals (base : ℕ) (seg : SegmentRecovery) : Locals :=
  ⟨some (filenameFor base), seg.writeOffset, seg.maxLsn, seg.tailState⟩

/-- The loop, and what is made of its locals. -/
theorem recoverTurns_audits (hv : config.Valid) (hss : config.segmentSize ≤ 2 ^ 63 - 1) {lastIdx i : ℕ}
    (prevMax : Option ℕ) (locals : Locals) (base : ℕ) {rest : List ℕ} (hi : i + rest.length = lastIdx)
    {α : Type} {f : Locals → Guarded WalError α} {g : SegmentRecovery → Prog World WalError α}
    (hf : ∀ seg, Audits (Within config.segmentSize config.maxRecordSize)
      (f (activeLocals (rest.getLastD base) seg)) (g seg)) :
    Audits (Within config.segmentSize config.maxRecordSize)
      (recoverTurns config lastIdx prevMax locals i (base :: rest) >>= f)
      (recoverSegments config prevMax base rest >>= g) := by
  induction rest generalizing prevMax i base with
  | nil =>
    rw [recoverTurns, recoverSegments, decide_eq_true (by simpa using hi), Prog.bind_assoc]
    exact (recoverOne_audits hv hss prevMax base true).bind hf
  | cons next rest ih =>
    rw [List.length_cons] at hi
    simp only [List.getLastD_cons] at hf
    rw [recoverTurns, recoverSegments, decide_eq_false (by omega), Prog.bind_assoc, Prog.bind_assoc]
    refine (recoverOne_audits hv hss prevMax base false).bind fun seg => ?_
    rw [if_neg Bool.false_ne_true]
    split_ifs with hempty
    · exact .raise _
    · exact ih (some seg.maxLsn) next (by omega) hf

theorem recoverAll_audits (hv : config.Valid) (hss : config.segmentSize ≤ 2 ^ 63 - 1) (base : ℕ)
    (rest : List ℕ) :
    Audits (Within config.segmentSize config.maxRecordSize) (recoverAll (base :: rest) config)
      (OpenWal.recoverAll base rest config) := by
  rw [recoverAll, CheckedProg.index_eq (x := base) rfl, CheckedProg.pure_bind,
    CheckedProg.sub_eq (by simp), CheckedProg.pure_bind]
  exact recoverTurns_audits hv hss none _ base (by simp) fun seg => .ret _

omit [ShortReads] in
theorem coldStart_audits {seed : ℕ} (hseed : 1 ≤ seed) (hss : ss ≤ u64Max) :
    Audits (Within ss mx) (coldStart ss seed) (OpenWal.coldStart ss seed) := by
  refine (create_audits seed hss).bind fun active => (Audits.lift _).bind fun _ => ?_
  rw [CheckedProg.sub_eq hseed, CheckedProg.pure_bind]
  exact .ret _

theorem recoverDirectory_audits (hv : config.Valid) (hss : config.segmentSize ≤ 2 ^ 63 - 1) {seed : ℕ}
    (hseed : 1 ≤ seed) :
    Audits (Within config.segmentSize config.maxRecordSize) (recoverDirectory config seed)
      (OpenWal.recoverDirectory config seed) := by
  refine (Audits.lift _).bind fun found => ?_
  refine (discardIncompleteHighest_audits hv hss found).bind fun bases => ?_
  cases bases with
  | nil => exact coldStart_audits hseed (segmentSize_bounds hv hss).2
  | cons base rest => exact recoverAll_audits hv hss base rest

theorem openSeeded_audits (hss : config.segmentSize ≤ 2 ^ 63 - 1) (seed : ℕ) :
    Audits (Within config.segmentSize config.maxRecordSize) (openSeeded config seed)
      (OpenWal.openSeeded config seed) := by
  have hmx := config.maxRecordSize_lt
  rw [openSeeded, addU64_eq (le_u64Max_of_small (by omega)), CheckedProg.pure_bind]
  refine .cond (fun _ => .raise _) fun hv => .cond (fun _ => .raise _) fun hseed => ?_
  have hpos : 1 ≤ seed := by
    simp only [isNone, beq_iff_eq] at hseed
    omega
  exact (Audits.lift _).bind fun _ =>
    (recoverDirectory_audits (Nat.not_lt.mp hv) hss hpos).onError.bind fun _ => .ret _

end Checked

end OpenWal
