import OpenWal.Theory.CalmCalls
import OpenWal.Theory.Names
import OpenWal.Theory.SegmentRecovery

namespace OpenWal
open ByteSeq Posix CrashProg

/-- The bases of the segment files, ascending. -/
def basesOf (d : Disk) : List ℕ := (d.names.filterMap parseBaseLsn).insertionSort (· ≤ ·)

variable {d d' : Disk}

theorem mem_basesOf {b : ℕ} :
    b ∈ basesOf d ↔ b ≤ u64Max ∧ ∃ f, d.file (filenameFor b) = some f := by
  rw [basesOf, List.mem_insertionSort, List.mem_filterMap]
  constructor
  · rintro ⟨n, hn, hp⟩
    have hname := parseBaseLsn_eq_some hp
    rw [hname.1] at hn
    exact ⟨hname.2, Disk.exists_file_of_mem_names hn⟩
  · rintro ⟨hb, f, hf⟩
    exact ⟨_, Disk.mem_names_of_file hf, parseBaseLsn_filenameFor hb⟩

theorem basesOf_sorted (d : Disk) : (basesOf d).Pairwise (· < ·) := by
  have hnd : (basesOf d).Nodup := by
    rw [basesOf, (List.perm_insertionSort _ _).nodup_iff]
    apply d.names_nodup.filterMap
    intro n n' b h h'
    rw [Option.mem_def] at h h'
    rw [(parseBaseLsn_eq_some h).1, (parseBaseLsn_eq_some h').1]
  have hle : (basesOf d).Pairwise (· ≤ ·) := List.pairwise_insertionSort (· ≤ ·) _
  exact (hle.and hnd).imp fun h => lt_of_le_of_ne h.1 h.2

theorem le_highest_basesOf {b base : ℕ} (hb : b ∈ basesOf d)
    (hlast : (basesOf d).getLast? = some base) : b ≤ base := by
  have hsplit := List.dropLast_append_getLast? base hlast
  have hsorted := basesOf_sorted d
  rw [← hsplit, List.pairwise_append] at hsorted
  rw [← hsplit, List.mem_append, List.mem_singleton] at hb
  rcases hb with hb | rfl
  · exact (hsorted.2.2 b hb base List.mem_cons_self).le
  · exact le_rfl

/-- An ascending list with the right members is the list of bases. -/
theorem basesOf_eq {l : List ℕ} (hl : l.Pairwise (· < ·))
    (hm : ∀ b, b ∈ l ↔ b ≤ u64Max ∧ ∃ f, d.file (filenameFor b) = some f) : basesOf d = l := by
  have hlt : ∀ {l : List ℕ}, l.Pairwise (· < ·) → l.Nodup := fun h => h.imp ne_of_lt
  have hp : (basesOf d).Perm l :=
    (List.perm_ext_iff_of_nodup (hlt (basesOf_sorted d)) (hlt hl)).mpr fun b => by
      rw [mem_basesOf, hm]
  exact hp.eq_of_pairwise (fun a b _ _ h h' => absurd h (Nat.lt_asymm h')) (basesOf_sorted d) hl

theorem basesOf_congr (h : ∀ b ≤ u64Max, (∃ f, d'.file (filenameFor b) = some f) ↔
    ∃ f, d.file (filenameFor b) = some f) : basesOf d' = basesOf d := by
  apply basesOf_eq (basesOf_sorted d)
  intro b
  rw [mem_basesOf]
  exact and_congr_right fun hb => (h b hb).symm

/-- Replacing a segment's file keeps the bases. -/
theorem basesOf_setTo {b : ℕ} {f f' : File} (hb : b ≤ u64Max) (hf : d.file (filenameFor b) = some f)
    (hset : SetTo d (filenameFor b) f' d') : basesOf d' = basesOf d := by
  apply basesOf_congr
  intro c hc
  by_cases hcb : c = b
  · subst hcb
    simp [hset.self, hf]
  · rw [hset.others _ (filenameFor_ne hc hb hcb)]

theorem discoverSegments_calm (d : Disk) :
    discoverSegments ⟨d, []⟩ = (.ret (basesOf d), ⟨d, []⟩) := by
  rw [discoverSegments, Prog.bind_of_ret (Prog.mapErr_of_ret (readDir_calm d))]
  rfl

def basesFrom : ℕ → List (List Bytes) → List ℕ
  | base, [] => [base]
  | base, ps :: rest => base :: basesFrom (base + ps.length) rest

def activeBase (base : ℕ) (sealed : List (List Bytes)) : ℕ := base + sealed.flatten.length

@[simp] theorem activeBase_nil (base : ℕ) : activeBase base [] = base := rfl

@[simp] theorem activeBase_cons (base : ℕ) (ps : List Bytes) (rest : List (List Bytes)) :
    activeBase base (ps :: rest) = activeBase (base + ps.length) rest := by
  simp [activeBase, Nat.add_assoc]

theorem activeBase_append (base : ℕ) (xs ys : List (List Bytes)) :
    activeBase base (xs ++ ys) = activeBase (activeBase base xs) ys := by
  simp [activeBase, Nat.add_assoc]

theorem le_activeBase (base : ℕ) (sealed : List (List Bytes)) : base ≤ activeBase base sealed :=
  Nat.le_add_right _ _

theorem basesFrom_eq_cons (base : ℕ) (sealed : List (List Bytes)) :
    ∃ rest, basesFrom base sealed = base :: rest := by
  cases sealed with
  | nil => exact ⟨[], rfl⟩
  | cons ps rest => exact ⟨_, rfl⟩

theorem basesFrom_length (base : ℕ) (sealed : List (List Bytes)) :
    (basesFrom base sealed).length = sealed.length + 1 := by
  induction sealed generalizing base with
  | nil => rfl
  | cons ps rest ih => rw [basesFrom, List.length_cons, ih, List.length_cons]

theorem basesFrom_getLast? (base : ℕ) (sealed : List (List Bytes)) :
    (basesFrom base sealed).getLast? = some (activeBase base sealed) := by
  induction sealed generalizing base with
  | nil => rfl
  | cons ps rest ih => rw [basesFrom, List.getLast?_cons, ih, activeBase_cons, Option.getD_some]

theorem basesFrom_getLastD (base c : ℕ) (sealed : List (List Bytes)) :
    (basesFrom base sealed).getLastD c = activeBase base sealed := by
  induction sealed generalizing base c with
  | nil => rfl
  | cons ps rest ih => rw [basesFrom, List.getLastD_cons, ih, activeBase_cons]

theorem basesFrom_append_singleton (base : ℕ) (sealed : List (List Bytes)) (ps : List Bytes) :
    basesFrom base (sealed ++ [ps]) =
      basesFrom base sealed ++ [activeBase base sealed + ps.length] := by
  induction sealed generalizing base with
  | nil => rfl
  | cons qs rest ih => simp only [List.cons_append, basesFrom, ih, activeBase_cons]

theorem mem_basesFrom_le {base b : ℕ} {sealed : List (List Bytes)} (h : b ∈ basesFrom base sealed) :
    base ≤ b ∧ b ≤ activeBase base sealed := by
  induction sealed generalizing base with
  | nil =>
    rw [basesFrom, List.mem_singleton] at h
    simp [h]
  | cons ps rest ih =>
    rw [activeBase_cons]
    rcases List.mem_cons.mp h with rfl | h
    · have := le_activeBase (b + ps.length) rest
      omega
    · have := ih h
      omega

theorem mem_basesFrom_append {base b : ℕ} {xs ys : List (List Bytes)} :
    b ∈ basesFrom base (xs ++ ys) ↔ b ∈ basesFrom base xs ∨ b ∈ basesFrom (activeBase base xs) ys := by
  induction xs generalizing base with
  | nil =>
    obtain ⟨rest, hr⟩ := basesFrom_eq_cons base ys
    simp [basesFrom, hr]
  | cons ps xs ih =>
    simp only [List.cons_append, basesFrom, List.mem_cons, ih, activeBase_cons, or_assoc]

/-- Two neighbouring bases enclose the records of one sealed segment. -/
theorem basesFrom_eq_append {base b b' : ℕ} {sealed : List (List Bytes)} {pre post : List ℕ}
    (h : basesFrom base sealed = pre ++ b :: b' :: post) : ∃ xs ps ys, sealed = xs ++ ps :: ys ∧
      pre.length = xs.length ∧ b = activeBase base xs ∧ b' = b + ps.length := by
  induction sealed generalizing base pre with
  | nil =>
    have hlen := congrArg List.length h
    simp only [basesFrom, List.length_append, List.length_cons, List.length_nil] at hlen
    omega
  | cons ps rest ih =>
    rw [basesFrom] at h
    obtain ⟨rest', hr⟩ := basesFrom_eq_cons (base + ps.length) rest
    cases pre with
    | nil =>
      rw [hr, List.nil_append, List.cons.injEq, List.cons.injEq] at h
      obtain ⟨rfl, rfl, -⟩ := h
      exact ⟨[], ps, rest, rfl, rfl, rfl, rfl⟩
    | cons c pre =>
      obtain ⟨xs, qs, ys, rfl, hlen, hb, hb'⟩ := ih (List.cons.inj h).2
      exact ⟨ps :: xs, qs, ys, rfl, by simp [hlen], by rw [activeBase_cons, hb], hb'⟩

/-- A base is the active one or that of a sealed segment. -/
theorem mem_basesFrom_cases {base b : ℕ} {sealed : List (List Bytes)} (h : b ∈ basesFrom base sealed) :
    b = activeBase base sealed ∨ ∃ xs ps ys, sealed = xs ++ ps :: ys ∧ b = activeBase base xs := by
  induction sealed generalizing base with
  | nil => exact Or.inl (List.mem_singleton.mp h)
  | cons ps rest ih =>
    rcases List.mem_cons.mp h with rfl | h
    · exact Or.inr ⟨[], ps, rest, rfl, rfl⟩
    · rcases ih h with hb | ⟨xs, qs, ys, rfl, hb⟩
      · exact Or.inl (by rw [activeBase_cons, hb])
      · exact Or.inr ⟨ps :: xs, qs, ys, rfl, by rw [activeBase_cons, hb]⟩

theorem activeBase_mem_basesFrom (base : ℕ) (sealed : List (List Bytes)) :
    activeBase base sealed ∈ basesFrom base sealed := by
  induction sealed generalizing base with
  | nil => simp [basesFrom]
  | cons ps rest ih => rw [activeBase_cons, basesFrom]; exact List.mem_cons_of_mem _ (ih _)

theorem basesFrom_sorted (base : ℕ) {sealed : List (List Bytes)} (h : ∀ ps ∈ sealed, ps ≠ []) :
    (basesFrom base sealed).Pairwise (· < ·) := by
  induction sealed generalizing base with
  | nil => simp [basesFrom]
  | cons ps rest ih =>
    rw [basesFrom, List.pairwise_cons]
    refine ⟨fun b hb => ?_, ih _ fun qs hqs => h qs (List.mem_cons_of_mem _ hqs)⟩
    have := (mem_basesFrom_le hb).1
    have := List.length_pos_iff.mpr (h ps List.mem_cons_self)
    omega

/-- `P` holds of every sealed segment, the first of them based at `base`. -/
def ChainFrom (P : ℕ → List Bytes → Prop) : ℕ → List (List Bytes) → Prop
  | _, [] => True
  | base, ps :: rest => P base ps ∧ ChainFrom P (base + ps.length) rest

namespace ChainFrom

variable {P Q : ℕ → List Bytes → Prop} {base : ℕ}

theorem append_iff {xs ys : List (List Bytes)} : ChainFrom P base (xs ++ ys) ↔
    ChainFrom P base xs ∧ ChainFrom P (activeBase base xs) ys := by
  induction xs generalizing base with
  | nil => simp [ChainFrom]
  | cons ps xs ih => rw [List.cons_append, ChainFrom, ih, ChainFrom, activeBase_cons, and_assoc]

theorem and {sealed : List (List Bytes)} (h : ChainFrom P base sealed) (h' : ChainFrom Q base sealed) :
    ChainFrom (fun b ps => P b ps ∧ Q b ps) base sealed := by
  induction sealed generalizing base with
  | nil => trivial
  | cons ps rest ih => exact ⟨⟨h.1, h'.1⟩, ih h.2 h'.2⟩

theorem imp {sealed : List (List Bytes)} (h : ChainFrom P base sealed)
    (hpq : ∀ b ps, base ≤ b → b + ps.length ≤ activeBase base sealed → P b ps → Q b ps) :
    ChainFrom Q base sealed := by
  induction sealed generalizing base with
  | nil => trivial
  | cons ps rest ih =>
    rw [activeBase_cons] at hpq
    refine ⟨hpq base ps le_rfl (le_activeBase _ _) h.1, ih h.2 fun b qs hb => hpq b qs (by omega)⟩

theorem of_mem_basesFrom {R : ℕ → Prop} {sealed : List (List Bytes)} (h : ChainFrom P base sealed)
    (hpr : ∀ b ps, P b ps → R b) (hlast : R (activeBase base sealed)) :
    ∀ b ∈ basesFrom base sealed, R b := by
  induction sealed generalizing base with
  | nil => simpa [basesFrom] using hlast
  | cons ps rest ih =>
    intro b hb
    rcases List.mem_cons.mp hb with rfl | hb
    · exact hpr _ _ h.1
    · exact ih h.2 (by rwa [← activeBase_cons]) b hb

theorem forall_mem {R : List Bytes → Prop} {sealed : List (List Bytes)} (h : ChainFrom P base sealed)
    (hpr : ∀ b ps, P b ps → R ps) : ∀ ps ∈ sealed, R ps := by
  induction sealed generalizing base with
  | nil => simp
  | cons ps rest ih =>
    intro qs hqs
    rcases List.mem_cons.mp hqs with rfl | hqs
    · exact hpr _ _ h.1
    · exact ih h.2 qs hqs

/-- The bases of a chain tell how its segments divide the records. -/
theorem eq_of_basesFrom {xs ys : List (List Bytes)} (h : ChainFrom P base xs) (h' : ChainFrom Q base ys)
    (hb : basesFrom base xs = basesFrom base ys)
    (hpq : ∀ c ps qs, P c ps → Q c qs → ps.length = qs.length → ps = qs) : xs = ys := by
  induction xs generalizing base ys with
  | nil =>
    have hl := congrArg List.length hb
    rw [basesFrom_length, basesFrom_length] at hl
    exact (List.eq_nil_of_length_eq_zero (by simpa using hl.symm)).symm
  | cons ps xs ih =>
    cases ys with
    | nil =>
      have hl := congrArg List.length hb
      simp [basesFrom_length] at hl
    | cons qs ys =>
      have htail := (List.cons.inj hb).2
      obtain ⟨l, hl⟩ := basesFrom_eq_cons (base + ps.length) xs
      obtain ⟨l', hl'⟩ := basesFrom_eq_cons (base + qs.length) ys
      have hhead : base + ps.length = base + qs.length := by
        rw [hl, hl'] at htail
        exact (List.cons.inj htail).1
      obtain rfl := hpq base ps qs h.1 h'.1 (Nat.add_left_cancel hhead)
      rw [ih h.2 h'.2 htail]

end ChainFrom

section

variable [Crc32c]

structure SegmentHolds (ss mx : ℕ) (file : Bytes) (base : ℕ) (ps : List Bytes) : Prop where
  header : HeaderOk file base
  run : Run ss mx file headerSize base ps
  stops : Stops ss mx file (headerSize + runSize ps) (base + ps.length)

def SegmentAt (ss mx : ℕ) (d : Disk) (base : ℕ) (ps : List Bytes) : Prop :=
  ∃ f, d.file (filenameFor base) = some f ∧ SegmentHolds ss mx f.data base ps

def SealedAt (ss mx : ℕ) (d : Disk) (base : ℕ) (ps : List Bytes) : Prop :=
  ps ≠ [] ∧ ∃ f, d.file (filenameFor base) = some f ∧ SegmentHolds ss mx f.data base ps ∧
    CleanAt ss f.data (headerSize + runSize ps)

abbrev SealedFrom (ss mx : ℕ) (d : Disk) : ℕ → List (List Bytes) → Prop := ChainFrom (SealedAt ss mx d)

variable {ss mx : ℕ}

theorem SealedFrom.ne_nil {base : ℕ} {sealed : List (List Bytes)}
    (h : SealedFrom ss mx d base sealed) : ∀ ps ∈ sealed, ps ≠ [] :=
  ChainFrom.forall_mem h fun _ _ hs => hs.1

theorem SealedFrom.mono {base : ℕ} {sealed : List (List Bytes)} (h : SealedFrom ss mx d base sealed)
    (hd : ∀ n g, d.file n = some g → d'.file n = some g) : SealedFrom ss mx d' base sealed := by
  apply ChainFrom.imp h
  rintro b ps - - ⟨hne, f, hf, hs, hc⟩
  exact ⟨hne, f, hd _ _ hf, hs, hc⟩

/-- Sealed segments are read alike where their files are the same. -/
theorem SealedFrom.congr {base : ℕ} {sealed : List (List Bytes)} (h : SealedFrom ss mx d base sealed)
    (hd : ∀ b, base ≤ b → b < activeBase base sealed → b ≤ u64Max →
      d'.file (filenameFor b) = d.file (filenameFor b)) : SealedFrom ss mx d' base sealed := by
  apply ChainFrom.imp h
  rintro b ps hb hle ⟨hne, f, hf, hs, hc⟩
  have := List.length_pos_iff.mpr hne
  exact ⟨hne, f, by rw [hd b hb (by omega) hs.header.le_u64Max, hf], hs, hc⟩

end

end OpenWal
