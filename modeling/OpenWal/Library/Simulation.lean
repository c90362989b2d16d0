import Mathlib.Data.List.Basic

namespace Simulation

variable {σ τ ι ω : Type}

inductive Runs (step : σ → ι → ω → σ → Prop) : σ → List ι → List ω → σ → Prop
  | nil (s : σ) : Runs step s [] [] s
  | cons {s s' s'' : σ} {i : ι} {o : ω} {is : List ι} {os : List ω} :
      step s i o s' → Runs step s' is os s'' → Runs step s (i :: is) (o :: os) s''

/-- What every step on admissible requests with admissible answers keeps, a run keeps. -/
theorem Runs.invariant {step : σ → ι → ω → σ → Prop} {inv : σ → Prop} (req : ι → Prop) (ans : ω → Prop)
    (hstep : ∀ s i o s', inv s → req i → ans o → step s i o s' → inv s') {s s' : σ} {is : List ι}
    {os : List ω} (h : Runs step s is os s') (hreq : ∀ i ∈ is, req i) (hans : ∀ o ∈ os, ans o)
    (hs : inv s) : inv s' := by
  induction h with
  | nil s => exact hs
  | cons hi _ ih =>
    exact ih (fun i hm => hreq i (List.mem_cons_of_mem _ hm))
      (fun o hm => hans o (List.mem_cons_of_mem _ hm))
      (hstep _ _ _ _ hs (hreq _ List.mem_cons_self) (hans _ List.mem_cons_self) hi)

/-- Where related states answer every admissible request alike and end up related,
admissible runs have the same answers. -/
theorem exists_runs_of_simulation {cstep : τ → ι → ω → τ → Prop} {astep : σ → ι → ω → σ → Prop}
    (rel : τ → σ → Prop) (ok : σ → List ι → Prop)
    (hsim : ∀ t s i is, rel t s → ok s (i :: is) →
      ∃ o t' s', cstep t i o t' ∧ astep s i o s' ∧ rel t' s' ∧ ok s' is)
    {t : τ} {s : σ} {is : List ι} (hrel : rel t s) (hok : ok s is) :
    ∃ os t' s', Runs cstep t is os t' ∧ Runs astep s is os s' ∧ rel t' s' := by
  induction is generalizing t s with
  | nil => exact ⟨[], t, s, .nil t, .nil s, hrel⟩
  | cons i is ih =>
    obtain ⟨o, t₁, s₁, hc, ha, hrel₁, hok₁⟩ := hsim t s i is hrel hok
    obtain ⟨os, t', s', hcs, has, hrel'⟩ := ih hrel₁ hok₁
    exact ⟨o :: os, t', s', .cons hc hcs, .cons ha has, hrel'⟩

end Simulation
