import OpenWal.Library.CrashProg

namespace CrashProg

/-- The state of a checked program: the one it works on, and what it entered so far. -/
structure Audited (σ η : Type) where
  world : σ
  audit : List η

inductive Stop (ε : Type) where
  | fault
  | error (e : ε)
  deriving DecidableEq, Repr

abbrev CheckedProg (σ η ε : Type) : Type → Type := Prog (Audited σ η) (Stop ε)

def Outcome.faultless {ε α : Type} : Outcome ε α → Outcome (Stop ε) α
  | .ret a => .ret a
  | .err e => .err (.error e)
  | .crashed => .crashed
  | .diverged => .diverged

theorem Prog.bind_assoc {σ ε α β γ : Type} (m : Prog σ ε α) (f : α → Prog σ ε β) (g : β → Prog σ ε γ) :
    (m >>= f) >>= g = m >>= fun a => f a >>= g := by
  funext s
  rw [bind_run, andThen, bind_run, andThen, bind_run, andThen]
  rcases m s with ⟨o, t⟩
  cases o <;> rfl

namespace CheckedProg

variable {σ η ε ε' α β : Type}

def fault : CheckedProg σ η ε α := Prog.raise .fault

def raise (e : ε) : CheckedProg σ η ε α := Prog.raise (.error e)

def enter (e : η) : CheckedProg σ η ε Unit := Prog.update fun s => { s with audit := s.audit ++ [e] }

def lift (m : Prog σ ε α) : CheckedProg σ η ε α := fun s =>
  ((m s.world).1.faultless, { s with world := (m s.world).2 })

def mapErr (g : ε → ε') (c : CheckedProg σ η ε α) : CheckedProg σ η ε' α :=
  Prog.mapErr (fun | .fault => .fault | .error e => .error (g e)) c

def onError (f : σ → σ) (c : CheckedProg σ η ε α) : CheckedProg σ η ε α :=
  Prog.onError (fun s => { s with world := f s.world }) c

def require (p : Prop) [Decidable p] : CheckedProg σ η ε Unit := if p then pure () else fault

def add (most a b : ℕ) : CheckedProg σ η ε ℕ := do
  require (a + b ≤ most)
  return a + b

def sub (a b : ℕ) : CheckedProg σ η ε ℕ := do
  require (b ≤ a)
  return a - b

def index (l : List β) (i : ℕ) : CheckedProg σ η ε β :=
  match l[i]? with
  | some x => pure x
  | none => fault

@[simp] theorem pure_bind (a : α) (f : α → CheckedProg σ η ε β) : (pure a >>= f) = f a := rfl

theorem ite_eq_pure {p : Prop} [Decidable p] {c c' : CheckedProg σ η ε α} {a b : α} (ht : p → c = pure a)
    (hf : ¬ p → c' = pure b) : (if p then c else c') = pure (if p then a else b) := by
  split_ifs with h
  · exact ht h
  · exact hf h

theorem require_eq {p : Prop} [Decidable p] (h : p) :
    (require p : CheckedProg σ η ε Unit) = pure () := if_pos h

theorem add_eq {most a b : ℕ} (h : a + b ≤ most) :
    (add most a b : CheckedProg σ η ε ℕ) = pure (a + b) := by
  rw [add, require_eq h, pure_bind]

theorem sub_eq {a b : ℕ} (h : b ≤ a) : (sub a b : CheckedProg σ η ε ℕ) = pure (a - b) := by
  rw [sub, require_eq h, pure_bind]

theorem index_eq {l : List β} {i : ℕ} {x : β} (h : l[i]? = some x) :
    (index l i : CheckedProg σ η ε β) = pure x := by
  rw [index, h]

end CheckedProg

section Audits

variable {σ η ε ε' α β : Type}

def Audits (P : η → Prop) (c : CheckedProg σ η ε α) (m : Prog σ ε α) : Prop :=
  ∀ s, ∃ es, (∀ e ∈ es, P e) ∧ c s = ((m s.world).1.faultless, ⟨(m s.world).2, s.audit ++ es⟩)

variable {P : η → Prop}

namespace Audits

theorem ret (a : α) : Audits P (pure a : CheckedProg σ η ε α) (pure a) := by
  intro s
  exact ⟨[], by simp, by simp [Outcome.faultless]⟩

theorem raise (e : ε) : Audits P (CheckedProg.raise e : CheckedProg σ η ε α) (Prog.raise e) := by
  intro s
  exact ⟨[], by simp, by simp [CheckedProg.raise, Outcome.faultless]⟩

theorem lift (m : Prog σ ε α) : Audits P (CheckedProg.lift m : CheckedProg σ η ε α) m := by
  intro s
  exact ⟨[], by simp, by simp [CheckedProg.lift]⟩

theorem bind {c : CheckedProg σ η ε α} {m : Prog σ ε α} {f : α → CheckedProg σ η ε β}
    {g : α → Prog σ ε β} (hc : Audits P c m) (hf : ∀ a, Audits P (f a) (g a)) :
    Audits P (c >>= f) (m >>= g) := by
  intro s
  obtain ⟨es, hes, hs⟩ := hc s
  rw [Prog.bind_run, Prog.andThen, hs, Prog.bind_run, Prog.andThen]
  rcases hm : m s.world with ⟨o, w⟩
  cases o with
  | ret a =>
    obtain ⟨es', hes', hs'⟩ := hf a ⟨w, s.audit ++ es⟩
    refine ⟨es ++ es', List.forall_mem_append.mpr ⟨hes, hes'⟩, ?_⟩
    rw [← List.append_assoc]
    exact hs'
  | err e => exact ⟨es, hes, rfl⟩
  | crashed => exact ⟨es, hes, rfl⟩
  | diverged => exact ⟨es, hes, rfl⟩

/-- A part that computes `a`, whatever it enters. -/
theorem bind_pure {c : CheckedProg σ η ε α} {a : α} {f : α → CheckedProg σ η ε β} {m : Prog σ ε β}
    (hc : Audits P c (pure a)) (hf : Audits P (f a) m) : Audits P (c >>= f) m := by
  intro s
  obtain ⟨es, hes, hs⟩ := hc s
  obtain ⟨es', hes', hs'⟩ := hf ⟨s.world, s.audit ++ es⟩
  refine ⟨es ++ es', List.forall_mem_append.mpr ⟨hes, hes'⟩, ?_⟩
  rw [← List.append_assoc, ← hs']
  exact Prog.bind_of_ret hs

theorem enter {e : η} {c : CheckedProg σ η ε β} {m : Prog σ ε β} (he : P e) (hc : Audits P c m) :
    Audits P (do CheckedProg.enter e; c) m := by
  have h : Audits P (CheckedProg.enter e : CheckedProg σ η ε Unit) (pure ()) :=
    fun s => ⟨[e], by simpa using he, rfl⟩
  exact h.bind_pure hc

theorem mapErr {c : CheckedProg σ η ε α} {m : Prog σ ε α} {g : ε → ε'} (hc : Audits P c m) :
    Audits P (CheckedProg.mapErr g c) (Prog.mapErr g m) := by
  intro s
  obtain ⟨es, hes, hs⟩ := hc s
  refine ⟨es, hes, ?_⟩
  rw [CheckedProg.mapErr, Prog.mapErr, hs, Prog.mapErr]
  rcases hm : m s.world with ⟨o, w⟩
  cases o <;> rfl

theorem onError {c : CheckedProg σ η ε α} {m : Prog σ ε α} {f : σ → σ} (hc : Audits P c m) :
    Audits P (CheckedProg.onError f c) (Prog.onError f m) := by
  intro s
  obtain ⟨es, hes, hs⟩ := hc s
  refine ⟨es, hes, ?_⟩
  rw [CheckedProg.onError, Prog.onError, hs, Prog.onError]
  rcases hm : m s.world with ⟨o, w⟩
  cases o <;> rfl

theorem cond {b : Prop} [Decidable b] {c c' : CheckedProg σ η ε α} {m m' : Prog σ ε α}
    (ht : b → Audits P c m) (hf : ¬ b → Audits P c' m') :
    Audits P (if b then c else c') (if b then m else m') := by
  split_ifs with h
  · exact ht h
  · exact hf h

theorem cond_pure {b : Prop} [Decidable b] {c c' : CheckedProg σ η ε α} {x y : α}
    (ht : b → Audits P c (pure x)) (hf : ¬ b → Audits P c' (pure y)) :
    Audits P (if b then c else c') (pure (if b then x else y)) := by
  split_ifs with h
  · exact ht h
  · exact hf h

/-- A checked program is faultless where the program it runs as is known. -/
theorem run {c : CheckedProg σ η ε α} {m : Prog σ ε α} (h : Audits P c m) {s s' : σ}
    {o : Outcome ε α} (hm : m s = (o, s')) :
    ∃ es, (∀ e ∈ es, P e) ∧ c ⟨s, []⟩ = (o.faultless, ⟨s', es⟩) := by
  obtain ⟨es, hes, hs⟩ := h ⟨s, []⟩
  simp only [hm, List.nil_append] at hs
  exact ⟨es, hes, hs⟩

end Audits

end Audits

end CrashProg
