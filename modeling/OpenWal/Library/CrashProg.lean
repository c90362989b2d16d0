import Mathlib.Tactic

namespace CrashProg

inductive Outcome (ε α : Type) where
  | ret (a : α)
  | err (e : ε)
  | crashed
  | diverged
  deriving DecidableEq, Repr

/-- The state a program leaves is kept however it ends, since a later process finds it. -/
def Prog (σ ε α : Type) : Type := σ → Outcome ε α × σ

namespace Prog

variable {σ τ ε ε' α β : Type}

def ret (a : α) : Prog σ ε α := fun s => (.ret a, s)

def andThen (m : Prog σ ε α) (f : α → Prog σ ε β) : Prog σ ε β := fun s =>
  match m s with
  | (.ret a, s') => f a s'
  | (.err e, s') => (.err e, s')
  | (.crashed, s') => (.crashed, s')
  | (.diverged, s') => (.diverged, s')

instance : Monad (Prog σ ε) where
  pure := ret
  bind := andThen

def raise (e : ε) : Prog σ ε α := fun s => (.err e, s)

def diverge : Prog σ ε α := fun s => (.diverged, s)

def state : Prog σ ε σ := fun s => (.ret s, s)

def update (f : σ → σ) : Prog σ ε Unit := fun s => (.ret (), f s)

def mapErr (g : ε → ε') (m : Prog σ ε α) : Prog σ ε' α := fun s =>
  match m s with
  | (.ret a, s') => (.ret a, s')
  | (.err e, s') => (.err (g e), s')
  | (.crashed, s') => (.crashed, s')
  | (.diverged, s') => (.diverged, s')

def onError (f : σ → σ) (m : Prog σ ε α) : Prog σ ε α := fun s =>
  match m s with
  | (.err e, s') => (.err e, f s')
  | r => r

def attempt (m : Prog σ ε α) : Prog σ ε' (Except ε α) := fun s =>
  match m s with
  | (.ret a, s') => (.ret (.ok a), s')
  | (.err e, s') => (.ret (.error e), s')
  | (.crashed, s') => (.crashed, s')
  | (.diverged, s') => (.diverged, s')

def zoom (part : σ → τ) (put : τ → σ → σ) (m : Prog τ ε α) : Prog σ ε α := fun s =>
  ((m (part s)).1, put (m (part s)).2 s)

@[simp] theorem pure_run (a : α) (s : σ) : (pure a : Prog σ ε α) s = (.ret a, s) := rfl

@[simp] theorem raise_run (e : ε) (s : σ) : (raise e : Prog σ ε α) s = (.err e, s) := rfl

@[simp] theorem state_run (s : σ) : (state : Prog σ ε σ) s = (.ret s, s) := rfl

@[simp] theorem update_run (f : σ → σ) (s : σ) :
    (update f : Prog σ ε Unit) s = (.ret (), f s) := rfl

theorem bind_run (m : Prog σ ε α) (f : α → Prog σ ε β) (s : σ) : (m >>= f) s = andThen m f s := rfl

theorem bind_of_ret {m : Prog σ ε α} {f : α → Prog σ ε β} {s s' : σ} {a : α}
    (h : m s = (.ret a, s')) : (m >>= f) s = f a s' := by
  rw [bind_run, andThen, h]

theorem bind_of_err {m : Prog σ ε α} {f : α → Prog σ ε β} {s s' : σ} {e : ε}
    (h : m s = (.err e, s')) : (m >>= f) s = (.err e, s') := by
  rw [bind_run, andThen, h]

theorem seq_of_ret {m : Prog σ ε Unit} {f : Prog σ ε β} {s s' : σ}
    (h : m s = (.ret (), s')) : (do m; f) s = f s' := bind_of_ret h

theorem map_of_ret {m : Prog σ ε α} {f : α → β} {s s' : σ} {a : α} (h : m s = (.ret a, s')) :
    (f <$> m) s = (.ret (f a), s') := bind_of_ret (f := fun a => pure (f a)) h

theorem map_of_err {m : Prog σ ε α} {f : α → β} {s s' : σ} {e : ε} (h : m s = (.err e, s')) :
    (f <$> m) s = (.err e, s') := bind_of_err (f := fun a => pure (f a)) h

theorem map_eq_err {m : Prog σ ε α} {f : α → β} {s s' : σ} {e : ε}
    (h : (f <$> m) s = (.err e, s')) : m s = (.err e, s') := by
  have h' : andThen m (fun a => pure (f a)) s = (.err e, s') := h
  rw [andThen] at h'
  rcases hm : m s with ⟨o, t⟩
  rw [hm] at h'
  cases o <;> simp_all

/-- What a run of `m >>= f` that returns did in between. -/
theorem bind_eq_ret {m : Prog σ ε α} {f : α → Prog σ ε β} {s s' : σ} {b : β}
    (h : (m >>= f) s = (.ret b, s')) : ∃ a t, m s = (.ret a, t) ∧ f a t = (.ret b, s') := by
  rw [bind_run, andThen] at h
  rcases hm : m s with ⟨o, t⟩
  rw [hm] at h
  cases o with
  | ret a => exact ⟨a, t, rfl, h⟩
  | err e => simp at h
  | crashed => simp at h
  | diverged => simp at h

theorem mapErr_of_ret {g : ε → ε'} {m : Prog σ ε α} {s s' : σ} {a : α}
    (h : m s = (.ret a, s')) : mapErr g m s = (.ret a, s') := by
  rw [mapErr, h]

theorem mapErr_eq_ret {g : ε → ε'} {m : Prog σ ε α} {s s' : σ} {a : α}
    (h : mapErr g m s = (.ret a, s')) : m s = (.ret a, s') := by
  rw [mapErr] at h
  rcases hm : m s with ⟨o, t⟩
  rw [hm] at h
  cases o <;> simp_all

theorem onError_of_ret {f : σ → σ} {m : Prog σ ε α} {s s' : σ} {a : α}
    (h : m s = (.ret a, s')) : onError f m s = (.ret a, s') := by
  rw [onError, h]

theorem onError_of_err {f : σ → σ} {m : Prog σ ε α} {s s' : σ} {e : ε}
    (h : m s = (.err e, s')) : onError f m s = (.err e, f s') := by
  rw [onError, h]

theorem onError_eq_ret {f : σ → σ} {m : Prog σ ε α} {s s' : σ} {a : α}
    (h : onError f m s = (.ret a, s')) : m s = (.ret a, s') := by
  rw [onError] at h
  rcases hm : m s with ⟨o, t⟩
  rw [hm] at h
  cases o <;> simp_all

theorem zoom_run {part : σ → τ} {put : τ → σ → σ} {m : Prog τ ε α} {s : σ} {t : τ}
    {o : Outcome ε α} (h : m (part s) = (o, t)) : zoom part put m s = (o, put t s) := by
  rw [zoom, h]

end Prog

section Triples

variable {σ τ ε ε' α β : Type}

def Ends (Q : α → σ → Prop) (E : ε → σ → Prop) (C : σ → Prop) : Outcome ε α × σ → Prop
  | (.ret a, s) => Q a s
  | (.err e, s) => E e s
  | (.crashed, s) => C s
  | (.diverged, _) => False

def Triple (P : σ → Prop) (m : Prog σ ε α) (Q : α → σ → Prop) (E : ε → σ → Prop)
    (C : σ → Prop) : Prop :=
  ∀ s, P s → Ends Q E C (m s)

variable {P P' : σ → Prop} {Q Q' : α → σ → Prop} {E E' : ε → σ → Prop} {C C' : σ → Prop}

theorem Ends.imp {r : Outcome ε α × σ} (h : Ends Q E C r) (hQ : ∀ a s, Q a s → Q' a s)
    (hE : ∀ e s, E e s → E' e s) (hC : ∀ s, C s → C' s) : Ends Q' E' C' r := by
  rcases r with ⟨o, s⟩
  cases o with
  | ret a => exact hQ a s h
  | err e => exact hE e s h
  | crashed => exact hC s h
  | diverged => exact h

theorem Ends.map {m : Prog σ ε α} {f : α → β} {R : β → σ → Prop} {s : σ}
    (h : Ends (fun a => R (f a)) E C (m s)) : Ends R E C ((f <$> m) s) := by
  have hrun : (f <$> m) s = Prog.andThen m (fun a => pure (f a)) s := rfl
  rw [hrun, Prog.andThen]
  rcases hm : m s with ⟨o, t⟩
  rw [hm] at h
  cases o <;> exact h

namespace Triple

theorem conseq {m : Prog σ ε α} (h : Triple P m Q E C) (hP : ∀ s, P' s → P s)
    (hQ : ∀ a s, Q a s → Q' a s) (hE : ∀ e s, E e s → E' e s) (hC : ∀ s, C s → C' s) :
    Triple P' m Q' E' C' :=
  fun s hs => (h s (hP s hs)).imp hQ hE hC

theorem pre {m : Prog σ ε α} (h : Triple P m Q E C) (hP : ∀ s, P' s → P s) : Triple P' m Q E C :=
  fun s hs => h s (hP s hs)

theorem post {m : Prog σ ε α} (h : Triple P m Q E C) (hQ : ∀ a s, Q a s → Q' a s) :
    Triple P m Q' E C :=
  fun s hs => (h s hs).imp hQ (fun _ _ he => he) (fun _ hc => hc)

theorem ret (a : α) (h : ∀ s, P s → Q a s) : Triple P (pure a : Prog σ ε α) Q E C :=
  fun s hs => h s hs

theorem raise (e : ε) (h : ∀ s, P s → E e s) : Triple P (Prog.raise e : Prog σ ε α) Q E C :=
  fun s hs => h s hs

theorem state {Q : σ → σ → Prop} (h : ∀ s, P s → Q s s) :
    Triple P (Prog.state : Prog σ ε σ) Q E C :=
  fun s hs => h s hs

theorem update {Q : Unit → σ → Prop} (f : σ → σ) (h : ∀ s, P s → Q () (f s)) :
    Triple P (Prog.update f : Prog σ ε Unit) Q E C :=
  fun s hs => h s hs

theorem bind {m : Prog σ ε α} {f : α → Prog σ ε β} {R : β → σ → Prop}
    (hm : Triple P m Q E C) (hf : ∀ a, Triple (Q a) (f a) R E C) : Triple P (m >>= f) R E C := by
  intro s hs
  have h := hm s hs
  rw [Prog.bind_run, Prog.andThen]
  rcases hr : m s with ⟨o, t⟩
  rw [hr] at h
  cases o with
  | ret a => exact hf a t h
  | err e => exact h
  | crashed => exact h
  | diverged => exact h

theorem seq {m : Prog σ ε Unit} {f : Prog σ ε β} {Q : Unit → σ → Prop} {R : β → σ → Prop}
    (hm : Triple P m Q E C) (hf : Triple (Q ()) f R E C) : Triple P (do m; f) R E C :=
  bind hm fun _ => hf

theorem mapErr {m : Prog σ ε α} {g : ε → ε'} {E : ε' → σ → Prop}
    (h : Triple P m Q (fun e => E (g e)) C) : Triple P (Prog.mapErr g m) Q E C := by
  intro s hs
  have h' := h s hs
  rw [Prog.mapErr]
  rcases hr : m s with ⟨o, t⟩
  rw [hr] at h'
  cases o <;> exact h'

theorem onError {m : Prog σ ε α} {f : σ → σ} (h : Triple P m Q (fun e s => E e (f s)) C) :
    Triple P (Prog.onError f m) Q E C := by
  intro s hs
  have h' := h s hs
  rw [Prog.onError]
  rcases hr : m s with ⟨o, t⟩
  rw [hr] at h'
  cases o <;> exact h'

/-- A program over a part of the state, whose pre- and postconditions may speak
of the rest of it through the state `s` it was started in. -/
theorem zoom {part : σ → τ} {put : τ → σ → σ} {m : Prog τ ε α}
    (h : ∀ s, P s → Ends (fun a t => Q a (put t s)) (fun e t => E e (put t s))
      (fun t => C (put t s)) (m (part s))) : Triple P (Prog.zoom part put m) Q E C := by
  intro s hs
  have h' := h s hs
  rw [Prog.zoom]
  rcases hr : m (part s) with ⟨o, t⟩
  rw [hr] at h'
  cases o <;> exact h'

/-- What a program raises is a value to the one that attempts it. -/
theorem attempt {m : Prog σ ε α} (h : Triple P m Q E C) :
    Triple P (Prog.attempt m : Prog σ ε' (Except ε α))
      (fun r s => (∃ a, r = .ok a ∧ Q a s) ∨ ∃ e, r = .error e ∧ E e s) (fun _ _ => False) C := by
  intro s hs
  have h' := h s hs
  rw [Prog.attempt]
  rcases hr : m s with ⟨o, t⟩
  rw [hr] at h'
  cases o with
  | ret a => exact Or.inl ⟨a, rfl, h'⟩
  | err e => exact Or.inr ⟨e, rfl, h'⟩
  | crashed => exact h'
  | diverged => exact h'

theorem cond {b : Prop} [Decidable b] {m m' : Prog σ ε α} (ht : b → Triple P m Q E C)
    (hf : ¬ b → Triple P m' Q E C) : Triple P (if b then m else m') Q E C := by
  split_ifs with h
  · exact ht h
  · exact hf h

/-- Two things that hold of every outcome hold of it together. -/
theorem both {m : Prog σ ε α} (h : Triple P m Q E C) (h' : Triple P' m Q' E' C') :
    Triple (fun s => P s ∧ P' s) m (fun a s => Q a s ∧ Q' a s) (fun e s => E e s ∧ E' e s)
      (fun s => C s ∧ C' s) := by
  rintro s ⟨hs, hs'⟩
  have hr := h s hs
  have hr' := h' s hs'
  rcases hm : m s with ⟨o, t⟩
  rw [hm] at hr hr'
  cases o with
  | ret a => exact ⟨hr, hr'⟩
  | err e => exact ⟨hr, hr'⟩
  | crashed => exact ⟨hr, hr'⟩
  | diverged => exact hr

/-- What does not depend on the state may be assumed. -/
theorem of_fact {p : Prop} {m : Prog σ ε α} (hp : ∀ s, P s → p) (h : p → Triple P m Q E C) :
    Triple P m Q E C :=
  fun s hs => h (hp s hs) s hs

end Triple

end Triples

section Keeping

variable {σ τ ε ε' α β : Type}

/-- However the program ends, `I` holds afterwards if it did before. -/
def Keeps (I : σ → Prop) (m : Prog σ ε α) : Prop := Triple I m (fun _ => I) (fun _ => I) I

variable {I : σ → Prop}

namespace Keeps

theorem ret (a : α) : Keeps I (pure a : Prog σ ε α) := Triple.ret a fun _ h => h

theorem raise (e : ε) : Keeps I (Prog.raise e : Prog σ ε α) := Triple.raise e fun _ h => h

theorem state : Keeps I (Prog.state : Prog σ ε σ) := Triple.state fun _ h => h

theorem update {f : σ → σ} (h : ∀ s, I s → I (f s)) : Keeps I (Prog.update f : Prog σ ε Unit) :=
  Triple.update f h

theorem bind {m : Prog σ ε α} {f : α → Prog σ ε β} (hm : Keeps I m) (hf : ∀ a, Keeps I (f a)) :
    Keeps I (m >>= f) :=
  Triple.bind hm hf

theorem seq {m : Prog σ ε Unit} {f : Prog σ ε β} (hm : Keeps I m) (hf : Keeps I f) :
    Keeps I (do m; f) :=
  Triple.seq hm hf

theorem mapErr {m : Prog σ ε α} {g : ε → ε'} (hm : Keeps I m) : Keeps I (Prog.mapErr g m) :=
  Triple.mapErr hm

end Keeps

/-- From a state with `P`, a program that keeps `I` ends with `I`. -/
theorem Keeps.ends {P : σ → Prop} {m : Prog σ ε α} (h : Keeps I m) (hP : ∀ s, P s → I s) :
    Triple P m (fun _ => I) (fun _ => I) I :=
  Triple.pre h hP

/-- Whatever becomes of the program, be it that its budget runs out, `I` holds afterwards if it
did before. -/
def Leaves (I : σ → Prop) (m : Prog σ ε α) : Prop := ∀ s, I s → I (m s).2

theorem Keeps.leaves {m : Prog σ ε α} (h : Keeps I m) : Leaves I m := by
  intro s hs
  have hends := h s hs
  rcases hm : m s with ⟨o, t⟩
  rw [hm] at hends
  cases o with
  | diverged => exact hends.elim
  | _ => exact hends

namespace Leaves

theorem ret (a : α) : Leaves I (pure a : Prog σ ε α) := Keeps.leaves (Keeps.ret a)

theorem raise (e : ε) : Leaves I (Prog.raise e : Prog σ ε α) := Keeps.leaves (Keeps.raise e)

theorem diverge : Leaves I (Prog.diverge : Prog σ ε α) := fun _ hs => hs

theorem update {f : σ → σ} (h : ∀ s, I s → I (f s)) : Leaves I (Prog.update f : Prog σ ε Unit) :=
  Keeps.leaves (Keeps.update h)

theorem bind {m : Prog σ ε α} {f : α → Prog σ ε β} (hm : Leaves I m) (hf : ∀ a, Leaves I (f a)) :
    Leaves I (m >>= f) := by
  intro s hs
  have ht := hm s hs
  rw [Prog.bind_run, Prog.andThen]
  rcases hr : m s with ⟨o, t⟩
  rw [hr] at ht
  cases o with
  | ret a => exact hf a t ht
  | _ => exact ht

theorem seq {m : Prog σ ε Unit} {f : Prog σ ε β} (hm : Leaves I m) (hf : Leaves I f) :
    Leaves I (do m; f) :=
  bind hm fun _ => hf

/-- A program may rely on what holds of the state it looks at. -/
theorem state_bind {f : σ → Prog σ ε α} (h : ∀ s, I s → Leaves I (f s)) :
    Leaves I (Prog.state >>= f) :=
  fun s hs => h s hs s hs

theorem cond {b : Prop} [Decidable b] {m m' : Prog σ ε α} (h : b → Leaves I m)
    (h' : ¬ b → Leaves I m') : Leaves I (if b then m else m') := by
  split_ifs with hb
  · exact h hb
  · exact h' hb

theorem onError {m : Prog σ ε α} {f : σ → σ} (hm : Leaves I m) (hf : ∀ s, I s → I (f s)) :
    Leaves I (Prog.onError f m) := by
  intro s hs
  have ht := hm s hs
  rw [Prog.onError]
  rcases hr : m s with ⟨o, t⟩
  rw [hr] at ht
  cases o with
  | err e => exact hf t ht
  | _ => exact ht

theorem zoom {part : σ → τ} {put : τ → σ → σ} {J : τ → Prop} {m : Prog τ ε α} (hm : Leaves J m)
    (hpart : ∀ s, I s → J (part s)) (hput : ∀ s t, I s → J t → I (put t s)) :
    Leaves I (Prog.zoom part put m) :=
  fun s hs => hput s _ hs (hm _ (hpart s hs))

end Leaves

end Keeping

section Steadiness

variable {σ τ ε ε' α β : Type} {calm : σ → σ}

def Steady (calm : σ → σ) (m : Prog σ ε α) : Prop :=
  ∀ s a t, m s = (.ret a, t) → m (calm s) = (.ret a, calm t)

namespace Steady

theorem ret (a : α) : Steady calm (pure a : Prog σ ε α) := by
  intro s b t h
  obtain ⟨rfl, rfl⟩ : a = b ∧ s = t := by simpa using h
  rfl

theorem raise (e : ε) : Steady calm (Prog.raise e : Prog σ ε α) := by
  intro s a t h
  simp at h

theorem update {f : σ → σ} (h : ∀ s, calm (f s) = f (calm s)) :
    Steady calm (Prog.update f : Prog σ ε Unit) := by
  intro s a t ht
  obtain ⟨-, rfl⟩ : () = a ∧ f s = t := by simpa using ht
  rw [Prog.update_run, h]

theorem bind {m : Prog σ ε α} {f : α → Prog σ ε β} (hm : Steady calm m)
    (hf : ∀ a, Steady calm (f a)) : Steady calm (m >>= f) := by
  intro s b t h
  obtain ⟨a, u, hma, hfa⟩ := Prog.bind_eq_ret h
  rw [Prog.bind_of_ret (hm _ _ _ hma)]
  exact hf a _ _ _ hfa

theorem seq {m : Prog σ ε Unit} {f : Prog σ ε β} (hm : Steady calm m) (hf : Steady calm f) :
    Steady calm (do m; f) :=
  bind hm fun _ => hf

/-- A program may look at the state, but not at what `calm` takes out of it. -/
theorem state_bind {f : σ → Prog σ ε α} (hc : ∀ s, f (calm s) = f s) (hf : ∀ s, Steady calm (f s)) :
    Steady calm (Prog.state >>= f) := by
  intro s a t h
  rw [Prog.bind_of_ret (Prog.state_run s)] at h
  rw [Prog.bind_of_ret (Prog.state_run (calm s)), hc]
  exact hf s _ _ _ h

theorem mapErr {m : Prog σ ε α} {g : ε → ε'} (hm : Steady calm m) :
    Steady calm (Prog.mapErr g m) := by
  intro s a t h
  exact Prog.mapErr_of_ret (hm _ _ _ (Prog.mapErr_eq_ret h))

theorem onError {m : Prog σ ε α} {f : σ → σ} (hm : Steady calm m) :
    Steady calm (Prog.onError f m) := by
  intro s a t h
  exact Prog.onError_of_ret (hm _ _ _ (Prog.onError_eq_ret h))

theorem zoom {part : σ → τ} {put : τ → σ → σ} {calm' : τ → τ} {m : Prog τ ε α}
    (hm : Steady calm' m) (hpart : ∀ s, part (calm s) = calm' (part s))
    (hput : ∀ t s, put (calm' t) (calm s) = calm (put t s)) : Steady calm (Prog.zoom part put m) := by
  intro s a t h
  obtain ⟨ho, rfl⟩ : (m (part s)).1 = .ret a ∧ put (m (part s)).2 s = t := by simpa [Prog.zoom] using h
  have hc := hm (part s) a (m (part s)).2 (Prod.ext ho rfl)
  rw [← hpart] at hc
  rw [Prog.zoom_run hc, hput]

/-- What a calm run is known to return is what any run that returns does. -/
theorem result {m : Prog σ ε α} (hm : Steady calm m) {s t t' : σ} {a a' : α}
    (h : m s = (.ret a, t)) (hc : m (calm s) = (.ret a', t')) : a = a' ∧ calm t = t' := by
  have := (hm _ _ _ h).symm.trans hc
  simpa using this

/-- The calm run may be read off whatever a triple says of the failures. -/
theorem triple {m : Prog σ ε α} {P : σ → Prop} {E : ε → σ → Prop} {C : σ → Prop} (hm : Steady calm m)
    (h : Triple P m (fun _ _ => True) E C) :
    Triple P m (fun a t => ∃ s, P s ∧ m (calm s) = (.ret a, calm t)) E C := by
  intro s hs
  have hends := h s hs
  rcases hr : m s with ⟨o, t⟩
  rw [hr] at hends
  cases o with
  | ret a => exact ⟨s, hs, hm _ _ _ hr⟩
  | err e => exact hends
  | crashed => exact hends
  | diverged => exact hends

end Steady

end Steadiness

/-- What becomes of a system call: it succeeds, or it fails, or the process dies
in it, in both of the latter after `stored` units of its effect took place. -/
inductive Fate where
  | ok
  | fail (stored : ℕ)
  | crash (stored : ℕ)
  deriving DecidableEq, Repr

/-- The state of the disk and the fates of the calls to come: once the list is
used up, every further call succeeds. -/
structure Env (δ : Type) where
  disk : δ
  fates : List Fate

section Calls

variable {δ ε : Type}

/-- A call with effect `full`, of which `part n` is the first `n` units. -/
def syscall (full : δ → δ) (part : ℕ → δ → δ) (e : ε) : Prog (Env δ) ε Unit := fun w =>
  match w.fates with
  | [] => (.ret (), ⟨full w.disk, []⟩)
  | .ok :: fs => (.ret (), ⟨full w.disk, fs⟩)
  | .fail n :: fs => (.err e, ⟨part n w.disk, fs⟩)
  | .crash n :: fs => (.crashed, ⟨part n w.disk, fs⟩)

@[simp] theorem syscall_calm (full : δ → δ) (part : ℕ → δ → δ) (e : ε) (d : δ) :
    syscall full part e ⟨d, []⟩ = (.ret (), ⟨full d, []⟩) := rfl

theorem Triple.syscall {P : δ → Prop} {full : δ → δ} {part : ℕ → δ → δ} {e : ε}
    {Q : δ → Prop} {E : ε → δ → Prop} {C : δ → Prop} (hQ : ∀ d, P d → Q (full d))
    (hE : ∀ d n, P d → E e (part n d)) (hC : ∀ d n, P d → C (part n d)) :
    Triple (fun w => P w.disk) (CrashProg.syscall full part e) (fun _ w => Q w.disk)
      (fun e w => E e w.disk) (fun w => C w.disk) := by
  intro w hw
  unfold CrashProg.syscall
  split
  · exact hQ _ hw
  · exact hQ _ hw
  · exact hE _ _ hw
  · exact hC _ _ hw

def Env.calm (w : Env δ) : Env δ := ⟨w.disk, []⟩

theorem Steady.syscall (full : δ → δ) (part : ℕ → δ → δ) (e : ε) :
    Steady Env.calm (CrashProg.syscall full part e) := by
  intro w a w' h
  unfold CrashProg.syscall at h ⊢
  split at h
  · obtain ⟨-, rfl⟩ := Prod.mk.inj h
    rfl
  · obtain ⟨-, rfl⟩ := Prod.mk.inj h
    rfl
  · simp at h
  · simp at h

theorem Keeps.syscall {I : δ → Prop} {full : δ → δ} {part : ℕ → δ → δ} {e : ε}
    (hfull : ∀ d, I d → I (full d)) (hpart : ∀ n d, I d → I (part n d)) :
    Keeps (fun w : Env δ => I w.disk) (CrashProg.syscall full part e) :=
  Triple.syscall hfull (fun d n => hpart n d) fun d n => hpart n d

end Calls

section Pacing

variable {σ τ ε ε' α β : Type} {sched : List Fate → σ → σ}

/-- A run in which no call fails makes some number of calls, and leaves the fates behind theirs
to what comes after it. -/
def Paced (sched : List Fate → σ → σ) (m : Prog σ ε α) : Prop :=
  ∀ s a t, m (sched [] s) = (.ret a, t) → sched [] t = t ∧
    ∃ n, ∀ fates, m (sched (List.replicate n .ok ++ fates) s) = (.ret a, sched fates t)

/-- The process may die in a call of `m`, and leave `t`. -/
def Dies (sched : List Fate → σ → σ) (m : Prog σ ε α) (s t : σ) : Prop :=
  ∃ fates, m (sched fates s) = (.crashed, t)

def Replaces (sched : List Fate → σ → σ) : Prop := ∀ fs gs s, sched fs (sched gs s) = sched fs s

namespace Paced

theorem ret (hs : Replaces sched) (a : α) : Paced sched (pure a : Prog σ ε α) := by
  intro s b t h
  obtain ⟨rfl, rfl⟩ : a = b ∧ sched [] s = t := by simpa using h
  refine ⟨hs _ _ _, 0, fun fates => ?_⟩
  rw [hs]
  rfl

theorem raise (e : ε) : Paced sched (Prog.raise e : Prog σ ε α) := by
  intro s a t h
  simp at h

theorem update (hs : Replaces sched) {f : σ → σ} (hf : ∀ fs s, f (sched fs s) = sched fs (f s)) :
    Paced sched (Prog.update f : Prog σ ε Unit) := by
  intro s a t h
  obtain ⟨-, rfl⟩ : () = a ∧ f (sched [] s) = t := by simpa using h
  refine ⟨by rw [hf, hs], 0, fun fates => ?_⟩
  rw [hf, hs, ← hf]
  rfl

theorem bind {m : Prog σ ε α} {f : α → Prog σ ε β} (hm : Paced sched m)
    (hf : ∀ a, Paced sched (f a)) : Paced sched (m >>= f) := by
  intro s b t h
  obtain ⟨a, u, hma, hfa⟩ := Prog.bind_eq_ret h
  obtain ⟨hu, n, hn⟩ := hm s a u hma
  rw [← hu] at hfa
  obtain ⟨ht, k, hk⟩ := hf a u b t hfa
  refine ⟨ht, n + k, fun fates => ?_⟩
  rw [List.replicate_add, List.append_assoc, Prog.bind_of_ret (hn _)]
  exact hk fates

theorem seq {m : Prog σ ε Unit} {f : Prog σ ε β} (hm : Paced sched m) (hf : Paced sched f) :
    Paced sched (do m; f) :=
  bind hm fun _ => hf

/-- A program may look at the state, but not at the fates to come. -/
theorem state_bind {f : σ → Prog σ ε α} (hc : ∀ fs s, f (sched fs s) = f s)
    (hf : ∀ s, Paced sched (f s)) : Paced sched (Prog.state >>= f) := by
  intro s a t h
  rw [Prog.bind_of_ret (Prog.state_run _), hc] at h
  obtain ⟨ht, n, hn⟩ := hf s s a t h
  refine ⟨ht, n, fun fates => ?_⟩
  rw [Prog.bind_of_ret (Prog.state_run _), hc]
  exact hn fates

theorem mapErr {m : Prog σ ε α} {g : ε → ε'} (hm : Paced sched m) : Paced sched (Prog.mapErr g m) := by
  intro s a t h
  obtain ⟨ht, n, hn⟩ := hm s a t (Prog.mapErr_eq_ret h)
  exact ⟨ht, n, fun fates => Prog.mapErr_of_ret (hn fates)⟩

theorem onError {m : Prog σ ε α} {f : σ → σ} (hm : Paced sched m) :
    Paced sched (Prog.onError f m) := by
  intro s a t h
  obtain ⟨ht, n, hn⟩ := hm s a t (Prog.onError_eq_ret h)
  exact ⟨ht, n, fun fates => Prog.onError_of_ret (hn fates)⟩

theorem zoom {part : σ → τ} {put : τ → σ → σ} {sched' : List Fate → τ → τ} {m : Prog τ ε α}
    (hm : Paced sched' m) (hs : Replaces sched) (hpart : ∀ fs s, part (sched fs s) = sched' fs (part s))
    (hput : ∀ fs gs t s, put (sched' fs t) (sched gs s) = sched fs (put t s)) :
    Paced sched (Prog.zoom part put m) := by
  intro s a t h
  rcases hrun : m (part (sched [] s)) with ⟨o, u⟩
  rw [Prog.zoom_run hrun] at h
  obtain ⟨rfl, rfl⟩ := Prod.mk.inj h
  rw [hpart] at hrun
  obtain ⟨hu, n, hn⟩ := hm (part s) a u hrun
  rw [← hu, hput]
  refine ⟨hs _ _ _, n, fun fates => ?_⟩
  have hrun := hn fates
  rw [← hpart] at hrun
  rw [Prog.zoom_run hrun, hput, hs]

end Paced

namespace Dies

variable {s t u : σ}

theorem left {m : Prog σ ε α} (h : Dies sched m s t) (f : α → Prog σ ε β) :
    Dies sched (m >>= f) s t := by
  obtain ⟨fates, h⟩ := h
  exact ⟨fates, by rw [Prog.bind_run, Prog.andThen, h]⟩

/-- The calls of `m` succeed, and one behind them does not. -/
theorem right {m : Prog σ ε α} {f : α → Prog σ ε β} {a : α} (hm : Paced sched m)
    (hret : m (sched [] s) = (.ret a, u)) (h : Dies sched (f a) u t) : Dies sched (m >>= f) s t := by
  obtain ⟨fates, h⟩ := h
  obtain ⟨-, n, hn⟩ := hm s a u hret
  exact ⟨List.replicate n .ok ++ fates, (Prog.bind_of_ret (hn fates)).trans h⟩

theorem state_bind {f : σ → Prog σ ε α} (hc : ∀ fs s, f (sched fs s) = f s)
    (h : Dies sched (f s) s t) : Dies sched (Prog.state >>= f) s t := by
  obtain ⟨fates, h⟩ := h
  exact ⟨fates, by rw [Prog.bind_of_ret (Prog.state_run _), hc, h]⟩

theorem mapErr {m : Prog σ ε α} {g : ε → ε'} (h : Dies sched m s t) :
    Dies sched (Prog.mapErr g m) s t := by
  obtain ⟨fates, h⟩ := h
  exact ⟨fates, by rw [Prog.mapErr, h]⟩

theorem onError {m : Prog σ ε α} {f : σ → σ} (h : Dies sched m s t) :
    Dies sched (Prog.onError f m) s t := by
  obtain ⟨fates, h⟩ := h
  exact ⟨fates, by rw [Prog.onError, h]⟩

theorem zoom {part : σ → τ} {put : τ → σ → σ} {sched' : List Fate → τ → τ} {m : Prog τ ε α} {v : τ}
    (hpart : ∀ fs s, part (sched fs s) = sched' fs (part s)) (hput : ∀ gs, put v (sched gs s) = t)
    (h : Dies sched' m (part s) v) : Dies sched (Prog.zoom part put m) s t := by
  obtain ⟨fates, h⟩ := h
  rw [← hpart] at h
  exact ⟨fates, by rw [Prog.zoom_run h, hput]⟩

end Dies

variable {δ : Type}

def Env.withFates (fates : List Fate) (w : Env δ) : Env δ := ⟨w.disk, fates⟩

theorem Env.withFates_replaces : Replaces (Env.withFates (δ := δ)) := fun _ _ _ => rfl

theorem Paced.syscall (full : δ → δ) (part : ℕ → δ → δ) (e : ε) :
    Paced Env.withFates (CrashProg.syscall full part e) := by
  intro w a t h
  obtain ⟨-, rfl⟩ := Prod.mk.inj h
  exact ⟨rfl, 1, fun fates => rfl⟩

theorem Dies.syscall (full : δ → δ) (part : ℕ → δ → δ) (e : ε) (k : ℕ) (w : Env δ) :
    Dies Env.withFates (CrashProg.syscall full part e) w ⟨part k w.disk, []⟩ :=
  ⟨[.crash k], rfl⟩

end Pacing

end CrashProg
