import OpenWal.Theory.Frames

namespace OpenWal
open ByteSeq

/-- `f'` is `f` with some of the four bytes from `i` on changed. -/
structure Burst (f f' : Bytes) (i : ℕ) : Prop where
  length : f'.length = f.length
  ne : f' ≠ f
  others : ∀ k, k < i ∨ i + 4 ≤ k → f'[k]? = f[k]?

def flipBit (k : ℕ) (x : UInt8) : UInt8 := x ^^^ (1 <<< UInt8.ofNat k)

theorem flipBit_ne {k : ℕ} (hk : k < 8) (x : UInt8) : flipBit k x ≠ x := by
  intro h
  have h1 : ∀ k < 8, (1 : UInt8) <<< UInt8.ofNat k ≠ 0 := by decide
  refine h1 k hk ?_
  rw [flipBit] at h
  rwa [← UInt8.xor_right_inj (a := 1 <<< UInt8.ofNat k) (b := 0) x, UInt8.xor_zero]

variable {f f' payload : Bytes} {lsn mx i k : ℕ}

namespace Burst

theorem agreeOn_before (h : Burst f f' i) (x : ℕ) : AgreeOn f' f x i :=
  fun k _ hk => h.others k (Or.inl hk)

theorem agreeOn_after (h : Burst f f' i) (y : ℕ) : AgreeOn f' f (i + 4) y :=
  fun k hk _ => h.others k (Or.inr hk)

theorem lt_length (h : Burst f f' i) : i < f.length := by
  by_contra hi
  apply h.ne
  apply List.ext_getElem?
  intro k
  by_cases hk : k < i
  · exact h.others k (Or.inl hk)
  · rw [List.getElem?_eq_none (by rw [h.length]; omega), List.getElem?_eq_none (by omega)]

/-- The burst shows in any range that holds what it may have changed. -/
theorem slice_ne (h : Burst f f' i) {x y : ℕ} (hx : x ≤ i) (hy : i + 4 ≤ y ∨ f.length ≤ y) :
    slice f' x y ≠ slice f x y := by
  intro heq
  have ha := agreeOn_of_slice_eq heq
  apply h.ne
  apply List.ext_getElem?
  intro k
  by_cases hk : k < i ∨ i + 4 ≤ k
  · exact h.others k hk
  · rcases lt_or_ge k y with hky | hky
    · exact ha k (by omega) hky
    · rw [List.getElem?_eq_none (by rw [h.length]; omega), List.getElem?_eq_none (by omega)]

/-- One changed byte is a burst in every window that holds it. -/
theorem modify (hk : k < f.length) {g : UInt8 → UInt8} (hg : g f[k] ≠ f[k]) (hi : i ≤ k ∧ k < i + 4) :
    Burst f (f.modify k g) i where
  length := List.length_modify ..
  ne heq := by
    have h := congrArg (fun l : Bytes => l[k]?) heq
    simp only [List.getElem?_modify_eq, List.getElem?_eq_getElem hk] at h
    exact hg (Option.some.inj h)
  others j hj := by
    rw [List.getElem?_modify]
    simp [show k ≠ j by omega]

/-- A burst behind the checksum's first byte changes the checksum. -/
theorem checksum_ne (h : Burst f f' i) {x : ℕ} (hx : x ≤ i) :
    Castagnoli.checksum (slice f' x f.length) ≠ Castagnoli.checksum (slice f x f.length) := by
  have hi := h.lt_length
  have hl := h.length
  obtain ⟨j, hj⟩ : ∃ j, j = min (i + 4) f.length := ⟨_, rfl⟩
  have hsplit : ∀ b : Bytes, slice b x f.length = slice b x i ++ (slice b i j ++ slice b j f.length) := by
    intro b
    rw [slice_append_slice b (show i ≤ j by omega) (show j ≤ f.length by omega),
      slice_append_slice b hx (by omega)]
  have hbefore : slice f' x i = slice f x i := (h.agreeOn_before x).slice_eq
  have hafter : slice f' j f.length = slice f j f.length := by
    rcases Nat.le_total (i + 4) f.length with h4 | h4
    · rw [hj, Nat.min_eq_left h4]
      exact (h.agreeOn_after f.length).slice_eq
    · rw [hj, Nat.min_eq_right h4, slice_self, slice_self]
  rw [hsplit f', hsplit f, hbefore, hafter]
  apply Castagnoli.checksum_burst_ne
  · rw [slice_length, slice_length, hl]
  · rw [slice_length]
    omega
  · exact h.slice_ne le_rfl (by omega)

end Burst

theorem Burst.decode_encodeFrame (h : Burst (encodeFrame lsn payload) f' i) (hw : i + 4 ≤ 4 ∨ 8 ≤ i)
    (hlsn : lsn ≤ u64Max) (hmx : mx < 2 ^ 32) (hp : payload.length ≤ mx) (hz : ¬ ZeroOn f' 0 20) :
    decode f' mx = .invalid .badCrc := by
  have hv := encodeFrame_validFrame (lt_two_pow_of_le_u64Max hlsn) (hp.trans_lt hmx)
  have hlen : leNat (slice f' 4 8) = payload.length := by
    rw [← hv.lengthField]
    congr 1
    rcases hw with hw | hw
    · exact ((h.agreeOn_after 8).mono (by omega) le_rfl).slice_eq
    · exact ((h.agreeOn_before 4).mono le_rfl hw).slice_eq
  have hsize : f'.length = framedSize payload.length := h.length.trans (encodeFrame_length lsn payload)
  apply decode_eq_badCrc hz
  · rw [hlen]
    exact hp
  · rw [hlen, hsize]
  have hcrc := hv.crc
  rw [hlen, ← encodeFrame_length lsn payload]
  rcases hw with hw | hw
  · -- only the stored checksum was hit
    rw [show slice f' 4 (encodeFrame lsn payload).length = slice (encodeFrame lsn payload) 4
      (encodeFrame lsn payload).length from ((h.agreeOn_after _).mono (by omega) le_rfl).slice_eq]
    rw [show lenOff = 4 from rfl] at hcrc
    rw [hcrc]
    intro heq
    refine h.slice_ne (Nat.zero_le i) (Or.inl hw) (leNat_injective ?_ heq.symm)
    rw [slice_length, slice_length, h.length]
  · rw [show slice f' 0 4 = slice (encodeFrame lsn payload) 0 4 from
      ((h.agreeOn_before 0).mono le_rfl (by omega)).slice_eq, ← hcrc]
    intro heq
    exact h.checksum_ne (show 4 ≤ i by omega) (UInt32.toNat_inj.mp heq)

theorem Burst.not_record (h : Burst (encodeFrame lsn payload) f' i) (hw : i + 4 ≤ 4 ∨ 8 ≤ i)
    (hlsn : lsn ≤ u64Max) (hmx : mx < 2 ^ 32) (hp : payload.length ≤ mx) (lsn' : ℕ) (payload' : Bytes)
    (n : ℕ) : decode f' mx ≠ .record lsn' payload' n := by
  by_cases hz : ZeroOn f' 0 20
  · simp [decode_eq_sentinel_iff.mpr hz]
  · simp [h.decode_encodeFrame hw hlsn hmx hp hz]

/-- A frame with a changed byte is not read back as the record it was, whatever follows. -/
theorem decode_modify_ne (hk : k < (encodeFrame lsn payload).length) {g : UInt8 → UInt8}
    (hg : g (encodeFrame lsn payload)[k] ≠ (encodeFrame lsn payload)[k]) (hlsn : lsn ≤ u64Max)
    (hmx : mx < 2 ^ 32) (hp : payload.length ≤ mx) (rest : Bytes) (n : ℕ) :
    decode ((encodeFrame lsn payload).modify k g ++ rest) mx ≠ .record lsn payload n := by
  intro hd
  obtain ⟨f', hf'⟩ : ∃ f', f' = (encodeFrame lsn payload).modify k g := ⟨_, rfl⟩
  have hl : f'.length = framedSize payload.length := by
    rw [hf', List.length_modify, encodeFrame_length]
  rw [← hf'] at hd
  obtain ⟨hn, _, _, hv'⟩ := decode_eq_record_iff.mp hd
  rw [hn, ← hl, List.take_left] at hv'
  by_cases hfield : 4 ≤ k ∧ k < 8
  · -- the length field states another length than the payload has
    have hv := encodeFrame_validFrame (lt_two_pow_of_le_u64Max hlsn) (hp.trans_lt hmx)
    have hb : Burst (encodeFrame lsn payload) f' 4 := hf' ▸ .modify hk hg hfield
    refine hb.slice_ne le_rfl (Or.inl le_rfl) (leNat_injective ?_ ?_)
    · rw [slice_length, slice_length, hb.length]
    · exact hv'.lengthField.trans hv.lengthField.symm
  · have hd' : decode f' mx = .record lsn payload f'.length := by
      rw [decode_eq_record_iff, List.take_length]
      exact ⟨hl, le_rfl, hp, hv'⟩
    rcases lt_or_ge k 4 with h4 | h4
    · have hb : Burst (encodeFrame lsn payload) f' 0 := hf' ▸ .modify hk hg ⟨Nat.zero_le k, by omega⟩
      exact hb.not_record (Or.inl le_rfl) hlsn hmx hp _ _ _ hd'
    · have hb : Burst (encodeFrame lsn payload) f' k := hf' ▸ .modify hk hg ⟨le_rfl, by omega⟩
      exact hb.not_record (Or.inr (by omega)) hlsn hmx hp _ _ _ hd'

/-- A short burst off the length field never reads as a record, and fails the checksum
unless it leaves a sentinel; no flipped bit gives the record back. -/
theorem short_bursts_detected (hlsn : 1 ≤ lsn ∧ lsn ≤ u64Max) (hmx : mx < 2 ^ 32)
    (hp : payload.length ≤ mx) :
    (∀ f' i, Burst (encodeInto [] lsn payload).1 f' i → (i + 4 ≤ 4 ∨ 8 ≤ i) →
      (∀ lsn' payload' n, decode f' mx ≠ .record lsn' payload' n) ∧
      (¬ ZeroOn f' 0 20 → decode f' mx = .invalid .badCrc)) ∧
    ∀ k < (encodeInto [] lsn payload).1.length, ∀ bit < 8, ∀ rest n,
      decode ((encodeInto [] lsn payload).1.modify k (flipBit bit) ++ rest) mx ≠
        .record lsn payload n := by
  rw [encodeInto_eq, List.nil_append]
  refine ⟨fun f' i hb hw => ⟨?_, ?_⟩, fun k hk bit hbit rest n => ?_⟩
  · exact hb.not_record hw hlsn.2 hmx hp
  · exact hb.decode_encodeFrame hw hlsn.2 hmx hp
  · exact decode_modify_ne hk (flipBit_ne hbit _) hlsn.2 hmx hp rest n

/-- A flipped bit of the only payload byte of a record. -/
theorem short_bursts_detected_oneByte :
    decode ((encodeInto [] 1 [7]).1.modify 20 (flipBit 3)) 16 = .invalid .badCrc ∧
      decode ((encodeInto [] 1 [7]).1.modify 4 (flipBit 0) ++ zeros 8) 16 ≠ .record 1 [7] 24 := by
  obtain ⟨hburst, hflip⟩ := @short_bursts_detected [7] 1 16 (by decide) (by decide) (by decide)
  have hl : (encodeInto [] 1 [7]).1.length = 24 := by
    rw [encodeInto_eq, List.nil_append, encodeFrame_length]
    rfl
  refine ⟨(hburst _ 20 (.modify (by omega) (flipBit_ne (by decide) _) (by decide)) (by decide)).2 ?_,
    hflip 4 (by omega) 0 (by decide) (zeros 8) 24⟩
  intro hz
  exact absurd (hz 16 (by decide) (by decide)) (by decide +kernel)

end OpenWal
