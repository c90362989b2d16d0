import OpenWal.Model.Checked

namespace OpenWal
open ByteSeq Posix CrashProg

/-- What may be touched in segments of `ss` bytes, of records of at most `mx`. -/
def Within (ss mx : ℕ) : Touch → Prop
  | .read _ past => past ≤ ss
  | .sized n => n ≤ mx + 27
  | .examined x p => x + 8 ≤ p ∧ p ≤ x + 8 + mx + 28

namespace Checked

variable {ε : Type} {buf file : Bytes} {ss mx : ℕ}

theorem addU64_eq {a b : ℕ} (h : a + b ≤ u64Max) : (addU64 a b : Guarded ε ℕ) = pure (a + b) :=
  CheckedProg.add_eq h

theorem slice_eq {i j : ℕ} (hij : i ≤ j) (hj : j ≤ buf.length) :
    (slice buf i j : Guarded ε Bytes) = pure (ByteSeq.slice buf i j) := by
  rw [slice, CheckedProg.require_eq ⟨hij, hj⟩, CheckedProg.pure_bind]

theorem slice_bind {α : Type} {i j : ℕ} {f : Bytes → Guarded ε α} (hij : i ≤ j) (hj : j ≤ buf.length) :
    (slice buf i j >>= f) = f (ByteSeq.slice buf i j) := by
  rw [slice_eq hij hj, CheckedProg.pure_bind]

theorem copyInto_eq {i j : ℕ} {bytes : Bytes} (hj : j ≤ buf.length) (hb : i + bytes.length = j) :
    (copyInto buf i j bytes : Guarded ε Bytes) = pure (overwrite buf i bytes) := by
  rw [copyInto, CheckedProg.require_eq (by omega), CheckedProg.pure_bind]

/-- Small sums stay in their word. -/
theorem le_u64Max_of_small {n : ℕ} (h : n ≤ 2 ^ 63 + 2 ^ 33) : n ≤ u64Max :=
  le_u64Max_of_lt (h.trans_lt (by norm_num))

theorem paddingForU64_eq (n : ℕ) :
    (paddingForU64 n : Guarded ε ℕ) = pure (OpenWal.paddingForU64 n) := by
  have hsum : recordHeaderSize % 8 + n % 8 ≤ u64Max := le_u64Max_of_small (by omega)
  rw [paddingForU64, addU64_eq hsum, CheckedProg.pure_bind,
    CheckedProg.sub_eq (Nat.mod_lt _ (by norm_num)).le]
  rfl

theorem paddingForU64_le (n : ℕ) : OpenWal.paddingForU64 n ≤ 7 :=
  Nat.le_of_lt_succ (Nat.mod_lt _ (by norm_num))

theorem framedSizeU64_le {n : ℕ} (hn : n < 2 ^ 32) :
    recordHeaderSize + n + OpenWal.paddingForU64 n ≤ u64Max := by
  have hpad := paddingForU64_le n
  apply le_u64Max_of_small
  unfold recordHeaderSize
  omega

theorem framedSizeU64_eq {n : ℕ} (hn : n < 2 ^ 32) :
    (framedSizeU64 n : Guarded ε ℕ) = pure (OpenWal.framedSizeU64 n) := by
  have hframed := framedSizeU64_le hn
  rw [framedSizeU64, addU64_eq (by omega), CheckedProg.pure_bind, paddingForU64_eq,
    CheckedProg.pure_bind, addU64_eq hframed]
  rfl

/-- The same sums inside a longer computation. -/
theorem framedSize_bind {α : Type} {n : ℕ} {f : ℕ → Guarded ε α} (hn : n < 2 ^ 32) :
    (do
      let size ← addU64 recordHeaderSize n
      let pad ← paddingForU64 n
      let framed ← addU64 size pad
      f framed) = f (OpenWal.framedSizeU64 n) := by
  have hframed := framedSizeU64_le hn
  rw [addU64_eq (by omega), CheckedProg.pure_bind, paddingForU64_eq, CheckedProg.pure_bind,
    addU64_eq hframed]
  rfl

theorem leNat_slice_lt_u32 (buf : Bytes) (i : ℕ) : leNat (ByteSeq.slice buf i (i + 4)) < 2 ^ 32 :=
  (leNat_slice_lt buf i 4).trans_eq (by norm_num)

section

variable [Crc32c]

theorem decode_eq (buf : Bytes) (mx : ℕ) :
    (decode buf mx : Guarded ε Decoded) = pure (OpenWal.decode buf mx) := by
  refine CheckedProg.ite_eq_pure (fun _ => rfl) fun hlen => ?_
  have h20 : recordHeaderSize ≤ buf.length := Nat.not_lt.mp hlen
  have htype : buf[recTypeOff]? = some (buf.getD recTypeOff 0) := by
    rw [List.getD_eq_getElem?_getD, List.getElem?_eq_getElem (lt_of_lt_of_le (by decide) h20)]
    rfl
  rw [CheckedProg.index_eq htype, CheckedProg.pure_bind, slice_bind (Nat.zero_le _) h20]
  refine CheckedProg.ite_eq_pure (fun _ => rfl) fun _ => ?_
  rw [slice_bind (by decide) (le_trans (by decide) h20)]
  refine CheckedProg.ite_eq_pure (fun _ => rfl) fun _ => ?_
  have hlength := leNat_slice_lt_u32 buf lenOff
  rw [framedSize_bind hlength]
  refine CheckedProg.ite_eq_pure (fun _ => rfl) fun hfits => ?_
  set length := leNat (ByteSeq.slice buf lenOff (lenOff + 4))
  have hframed : OpenWal.framedSizeU64 length ≤ buf.length := Nat.not_lt.mp hfits
  have hstart : payloadOff + length ≤ OpenWal.framedSizeU64 length := Nat.le_add_right _ _
  have hlenOff : lenOff ≤ OpenWal.framedSizeU64 length :=
    le_trans (show lenOff ≤ payloadOff by decide) ((Nat.le_add_right _ _).trans hstart)
  rw [slice_bind (by decide) (le_trans (by decide) h20), slice_bind hlenOff hframed]
  refine CheckedProg.ite_eq_pure (fun _ => rfl) fun _ => ?_
  refine CheckedProg.ite_eq_pure (fun _ => rfl) fun _ => ?_
  have hstop : payloadOff + length ≤ u64Max := hstart.trans (framedSizeU64_le hlength)
  rw [slice_bind (by decide) (le_trans (by decide) h20), addU64_eq hstop, CheckedProg.pure_bind,
    slice_bind (Nat.le_add_right _ _) (hstart.trans hframed)]
  rfl

omit [Crc32c] in
theorem overwrite_header {h bytes : Bytes} {i j : ℕ} (hh : h.length = headerSize)
    (hb : i + bytes.length = j) (hj : j ≤ headerSize) : (overwrite h i bytes).length = headerSize := by
  rw [overwrite_length _ (by omega), hh, hb, max_eq_left hj]

theorem encodeHeader_eq (base created : ℕ) :
    (encodeHeader base created : Guarded ε Bytes) = pure (OpenWal.encodeHeader base created) := by
  have hle (n w i : ℕ) : i + (leBytes n w).length = i + n := by rw [leBytes_length]
  have h₀ := zeros_length headerSize
  have h₁ := overwrite_header h₀ (show 0 + magic.length = 8 by decide) (by decide)
  have h₂ := overwrite_header h₁ (hle 2 formatVersion versionOff) (by decide)
  have h₃ := overwrite_header h₂ (hle 8 base baseLsnOff) (by decide)
  have h₄ := overwrite_header h₃ (hle 8 created createdOff) (by decide)
  rw [encodeHeader, copyInto_eq (le_of_le_of_eq (by decide) h₀.symm) (by decide),
    CheckedProg.pure_bind,
    copyInto_eq (le_of_le_of_eq (by decide) h₁.symm) (hle ..), CheckedProg.pure_bind,
    copyInto_eq (le_of_le_of_eq (by decide) h₂.symm) (hle ..), CheckedProg.pure_bind,
    copyInto_eq (le_of_le_of_eq (by decide) h₃.symm) (hle ..), CheckedProg.pure_bind,
    slice_bind (by decide) (le_of_le_of_eq (by decide) h₄.symm),
    copyInto_eq (le_of_le_of_eq (by decide) h₄.symm) (hle ..)]
  rfl

theorem decodeHeader_eq (bytes : Bytes) :
    (decodeHeader bytes : Guarded ε (Except WalError ℕ)) = pure (OpenWal.decodeHeader bytes) := by
  refine CheckedProg.ite_eq_pure (fun _ => rfl) fun hlen => ?_
  have h64 : headerSize ≤ bytes.length := Nat.not_lt.mp hlen
  rw [slice_bind (by decide) (le_trans (by decide) h64)]
  refine CheckedProg.ite_eq_pure (fun _ => rfl) fun _ => ?_
  rw [slice_bind (by decide) (le_trans (by decide) h64),
    slice_bind (by decide) (le_trans (by decide) h64)]
  refine CheckedProg.ite_eq_pure (fun _ => rfl) fun _ => ?_
  rw [slice_bind (by decide) (le_trans (by decide) h64)]
  refine CheckedProg.ite_eq_pure (fun _ => rfl) fun _ => ?_
  rw [slice_bind (by decide) (le_trans (by decide) h64)]
  exact CheckedProg.ite_eq_pure (fun _ => rfl) fun _ => rfl

variable {P : Touch → Prop}

omit [Crc32c] in
theorem readHeader_audits (hss : headerSize ≤ ss) (file : Bytes) :
    Audits (Within ss mx) (readHeader file : Guarded ε (Option Bytes))
      (pure (OpenWal.readHeader file)) :=
  .enter hss (.ret _)

omit [Crc32c] in
theorem writeZerosLoop_audits (name : FileName) {stop : ℕ} (hstop : stop ≤ u64Max) {turns off : ℕ}
    (h : stop - off < turns) :
    Audits P (writeZerosLoop name stop turns off) (OpenWal.writeZeros name off stop) := by
  induction turns generalizing off with
  | zero => exact absurd h (Nat.not_lt_zero _)
  | succ turns ih =>
    rw [writeZerosLoop, OpenWal.writeZeros]
    refine .cond (fun hlt => ?_) fun _ => .ret _
    have hchunk : min chunk (stop - off) ≤ (zeros chunk).length := by
      rw [zeros_length]
      exact Nat.min_le_left _ _
    have hslice : ByteSeq.slice (zeros chunk) 0 (min chunk (stop - off)) =
        zeros (min chunk (stop - off)) := by
      simp [ByteSeq.slice, zeros, List.take_replicate]
    have hpos : 0 < chunk := by decide
    rw [CheckedProg.sub_eq hlt.le, CheckedProg.pure_bind, slice_bind (Nat.zero_le _) hchunk, hslice]
    refine (Audits.lift _).bind fun _ => ?_
    have hmin := Nat.min_le_right chunk (stop - off)
    rw [addU64_eq (by omega), CheckedProg.pure_bind]
    exact ih (by omega)

omit [Crc32c] in
theorem writeZeros_audits (name : FileName) (start : ℕ) {stop : ℕ} (hstop : stop ≤ u64Max) :
    Audits P (writeZeros name start stop) (OpenWal.writeZeros name start stop) :=
  writeZerosLoop_audits name hstop (Nat.lt_succ_self _)

omit [Crc32c] in
theorem preallocate_audits (name : FileName) (hss : ss ≤ u64Max) :
    Audits P (preallocate name ss) (OpenWal.preallocate name ss) :=
  (Audits.lift _).bind fun _ => .cond (fun _ => .lift _) fun _ => writeZeros_audits name 0 hss

theorem create_audits (base : ℕ) (hss : ss ≤ u64Max) :
    Audits P (create base ss) (OpenWal.create base ss) := by
  refine .mapErr ((Audits.lift _).bind fun _ => (preallocate_audits _ hss).bind fun _ =>
    (Audits.lift _).bind fun created => ?_)
  rw [encodeHeader_eq, CheckedProg.pure_bind]
  exact (Audits.lift _).bind fun _ => (Audits.lift _).bind fun _ => .ret _

omit [Crc32c] in
theorem zeroToEof_audits (name : FileName) (x : ℕ) (hss : ss ≤ u64Max) :
    Audits P (zeroToEof name x ss) (OpenWal.zeroToEof name x ss) :=
  (writeZeros_audits name x hss).mapErr.bind fun _ => .lift _

variable [ShortReads]

def filledTo (total buf : Bytes) (filled : ℕ) : Bytes := total.take filled ++ buf.drop filled

omit [Crc32c] [ShortReads] in
theorem overwrite_filledTo {total got : Bytes} {filled : ℕ} (h : filled + got.length ≤ total.length)
    (hgot : ByteSeq.slice total filled (filled + got.length) = got) :
    overwrite (filledTo total buf filled) filled got = filledTo total buf (filled + got.length) := by
  have hlen : (total.take filled).length = filled := List.length_take_of_le (by omega)
  rw [overwrite_eq _ (by rw [filledTo, List.length_append, hlen]; omega)]
  have hhead : (filledTo total buf filled).take filled = total.take filled :=
    List.take_left' hlen
  have htail : (filledTo total buf filled).drop (filled + got.length) =
      buf.drop (filled + got.length) := by
    rw [filledTo, ← List.drop_drop, List.drop_left' hlen, List.drop_drop]
  have htake : total.take filled ++ got = total.take (filled + got.length) := by
    have := slice_append_slice total (Nat.zero_le filled) (Nat.le_add_right filled got.length)
    rw [hgot] at this
    exact this
  rw [hhead, htail, htake, filledTo]

omit [Crc32c] in
/-- A read is a part of the file, and is empty at its end only. -/
theorem readAt_spec (file : Bytes) (offset : ℕ) {want : ℕ} (hw : 0 < want) :
    (readAt file offset want = [] ↔ file.length ≤ offset) ∧
      (readAt file offset want).length ≤ want ∧
      readAt file offset want =
        ByteSeq.slice file offset (offset + (readAt file offset want).length) := by
  have hlen : (readAt file offset want).length =
      min (min want (max 1 (ShortReads.ready offset want))) (file.length - offset) := by
    rw [readAt, slice_length, Nat.add_sub_cancel_left]
  refine ⟨?_, ?_, ?_⟩
  · rw [← List.length_eq_zero_iff, hlen]
    omega
  · omega
  · rw [hlen, readAt, slice_eq_take_drop, slice_eq_take_drop, ← List.length_drop, ← List.take_eq_take_min]

omit [Crc32c] in
theorem readFullAtLoop_audits {offset turns filled : ℕ} {total : Bytes}
    (htotal : total = ByteSeq.slice file offset (offset + buf.length))
    (hin : offset + buf.length ≤ ss) (hss : ss ≤ u64Max) (hf : filled ≤ total.length)
    (ht : total.length - filled < turns) :
    Audits (Within ss mx)
      (readFullAtLoop file offset turns (filledTo total buf filled) filled : Guarded ε (Bool × Bytes))
      (pure (decide (total.length = buf.length), filledTo total buf total.length)) := by
  have hle : total.length = min buf.length (file.length - offset) := by
    rw [htotal, slice_length, Nat.add_sub_cancel_left]
  induction turns generalizing filled with
  | zero => exact absurd ht (Nat.not_lt_zero _)
  | succ turns ih =>
    have hlen : (filledTo total buf filled).length = buf.length := by
      rw [filledTo, List.length_append, List.length_take_of_le hf, List.length_drop]
      omega
    rw [readFullAtLoop, hlen]
    split_ifs with hlt
    · have hrest : (ByteSeq.slice (filledTo total buf filled) filled buf.length).length =
          buf.length - filled := by
        rw [slice_length_of_le hlen.ge]
      rw [slice_bind hlt.le hlen.ge, addU64_eq (by omega), CheckedProg.pure_bind, hrest]
      have hwant : 0 < buf.length - filled := Nat.sub_pos_of_lt hlt
      obtain ⟨hnil, hmost, hgot⟩ := readAt_spec file (offset + filled) hwant
      refine .enter (show _ ≤ _ by omega) ?_
      dsimp only
      split_ifs with hend
      -- the file has ended: nothing more will be read
      · have hall : filled = total.length := by
          have := hnil.mp hend
          omega
        rw [hall, decide_eq_false (by omega)]
        exact .ret _
      · have hpos := List.length_pos_of_ne_nil hend
        set got := readAt file (offset + filled) (buf.length - filled)
        have hpast : filled + got.length ≤ total.length := by
          have := congrArg List.length hgot
          rw [slice_length] at this
          omega
        rw [addU64_eq (by omega), CheckedProg.pure_bind, overwrite_filledTo hpast]
        · exact ih hpast (by omega)
        · rw [htotal, slice_slice _ (by omega), ← Nat.add_assoc]
          exact hgot.symm
    · have hall : filled = total.length := by omega
      rw [hall, decide_eq_true (by omega)]
      exact .ret _

omit [Crc32c] in
theorem readFullAt_audits {offset : ℕ} (hin : offset + buf.length ≤ ss) (hss : ss ≤ u64Max) :
    Audits (Within ss mx) (readFullAt file buf offset : Guarded ε (Bool × Bytes))
      (pure (OpenWal.readFullAt file buf offset)) := by
  have hturns : (ByteSeq.slice file offset (offset + buf.length)).length - 0 < buf.length + 1 := by
    rw [slice_length]
    omega
  have hloop : Audits (Within ss mx) (_ : Guarded ε (Bool × Bytes)) _ :=
    readFullAtLoop_audits rfl hin hss (Nat.zero_le _) hturns
  have hfull (total : Bytes) : filledTo total buf total.length = total ++ buf.drop total.length := by
    rw [filledTo, List.take_length]
  rw [hfull] at hloop
  exact hloop

omit [Crc32c] in
/-- What is read into a part of the buffer. -/
theorem readInto_audits {i j offset : ℕ} (hij : i ≤ j) (hj : j ≤ buf.length)
    (hin : offset + (j - i) ≤ ss) (hss : ss ≤ u64Max) :
    Audits (Within ss mx) (readInto file buf i j offset : Guarded ε (Bool × Bytes))
      (pure ((OpenWal.readFullAt file (ByteSeq.slice buf i j) offset).1,
        buf.take i ++ (OpenWal.readFullAt file (ByteSeq.slice buf i j) offset).2 ++ buf.drop j)) := by
  rw [readInto, slice_bind hij hj]
  exact (readFullAt_audits (by rwa [slice_length_of_le hj]) hss).bind_pure (.ret _)

omit [Crc32c] [ShortReads] in
theorem resize_length (buf : Bytes) (n : ℕ) : (OpenWal.resize buf n).length = n := by
  rw [OpenWal.resize, List.length_append, List.length_take, zeros_length]
  omega

omit [Crc32c] [ShortReads] in
theorem resize_audits {n : ℕ} (hn : n ≤ mx + 27) :
    Audits (Within ss mx) (resize buf n : Guarded ε Bytes) (pure (OpenWal.resize buf n)) :=
  .enter hn (.ret _)

omit [Crc32c] [ShortReads] in
theorem framedSizeU64_bound (n : ℕ) :
    recordHeaderSize ≤ OpenWal.framedSizeU64 n ∧ OpenWal.framedSizeU64 n ≤ n + 27 := by
  have := paddingForU64_le n
  unfold OpenWal.framedSizeU64 recordHeaderSize
  omega

omit [Crc32c] [ShortReads] in
theorem slice_all {n : ℕ} (h : buf.length = n) : ByteSeq.slice buf 0 n = buf := by
  rw [← h, ByteSeq.slice, Nat.sub_zero, List.drop_zero, List.take_length]

omit [Crc32c] [ShortReads] in
theorem readFullAt_length (file buf : Bytes) (offset : ℕ) :
    (OpenWal.readFullAt file buf offset).2.length = buf.length := by
  rw [OpenWal.readFullAt, List.length_append, List.length_drop, slice_length, Nat.add_sub_cancel_left]
  omega

omit [Crc32c] in
/-- The whole buffer is read into. -/
theorem readInto_all_audits {n offset : ℕ} (hn : buf.length = n) (hin : offset + n ≤ ss)
    (hss : ss ≤ u64Max) :
    Audits (Within ss mx) (readInto file buf 0 n offset : Guarded ε (Bool × Bytes))
      (pure (OpenWal.readFullAt file buf offset)) := by
  have h : Audits (Within ss mx) (_ : Guarded ε (Bool × Bytes))
      (pure ((OpenWal.readFullAt file (ByteSeq.slice buf 0 n) offset).1, _)) :=
    readInto_audits (Nat.zero_le n) hn.ge hin hss
  rw [slice_all hn, List.drop_of_length_le hn.le] at h
  simpa using h

theorem readRecordAt_audits (offset : ℕ) (hmx : mx < 2 ^ 32) (hss : ss ≤ u64Max) :
    Audits (Within ss mx) (readRecordAt file offset ss mx buf : Guarded ε (ScanOutcome × Bytes))
      (pure (OpenWal.readRecordAt file offset ss mx buf)) := by
  refine .cond_pure (fun _ => .ret _) fun hrem => ?_
  have hin : offset + recordHeaderSize ≤ ss := by
    unfold recordHeaderSize at *
    omega
  refine (resize_audits (by unfold recordHeaderSize; omega)).bind_pure ?_
  refine (readInto_all_audits (resize_length _ _) hin hss).bind_pure ?_
  have hlen := readFullAt_length file (OpenWal.resize buf recordHeaderSize) offset
  rw [resize_length] at hlen
  rcases hread : OpenWal.readFullAt file (OpenWal.resize buf recordHeaderSize) offset with ⟨full, head⟩
  rw [hread] at hlen
  dsimp only at hlen ⊢
  cases full with
  | false => exact .ret _
  | true =>
    rw [if_neg (by simp), slice_bind (Nat.zero_le _) hlen.ge, decode_eq, CheckedProg.pure_bind]
    refine .cond_pure (fun _ => .ret _) fun _ => ?_
    rw [slice_bind (by decide) (le_of_le_of_eq (by decide) hlen.symm)]
    refine .cond_pure (fun _ => .ret _) fun hlength => ?_
    -- the length passed its check, so its framed size is a word
    have hlength' := Nat.not_lt.mp hlength
    rw [framedSizeU64_eq (hlength'.trans_lt hmx), CheckedProg.pure_bind]
    refine .cond_pure (fun _ => .ret _) fun hfits => ?_
    obtain ⟨hleast, hmost⟩ := framedSizeU64_bound (leNat (ByteSeq.slice head 4 8))
    set framed := OpenWal.framedSizeU64 (leNat (ByteSeq.slice head 4 8))
    refine (resize_audits (by omega)).bind_pure ?_
    rw [addU64_eq (hin.trans hss), CheckedProg.pure_bind]
    refine (readInto_audits hleast (resize_length _ _).ge ?_ hss).bind_pure ?_
    · unfold recordHeaderSize at *
      omega
    have hlen' := resize_length head framed
    have htail := readFullAt_length file
      (ByteSeq.slice (OpenWal.resize head framed) recordHeaderSize framed) (offset + recordHeaderSize)
    rw [slice_length_of_le hlen'.ge] at htail
    rcases hrest : OpenWal.readFullAt file
      (ByteSeq.slice (OpenWal.resize head framed) recordHeaderSize framed) (offset + recordHeaderSize)
      with ⟨full, tail⟩
    rw [hrest] at htail
    rw [List.drop_of_length_le hlen'.le, List.append_nil]
    dsimp only at htail ⊢
    cases full with
    | false => exact .ret _
    | true =>
      have hall : ((OpenWal.resize head framed).take recordHeaderSize ++ tail).length = framed := by
        rw [List.length_append, List.length_take_of_le (hleast.trans_eq hlen'.symm), htail]
        exact Nat.add_sub_cancel' hleast
      rw [if_neg (by simp), slice_bind (Nat.zero_le _) hall.ge, decode_eq, CheckedProg.pure_bind,
        slice_all hall]
      dsimp only
      rw [List.take_of_length_le hall.le]
      cases OpenWal.decode ((OpenWal.resize head framed).take recordHeaderSize ++ tail) mx <;>
        exact .ret _

end

end Checked

end OpenWal
