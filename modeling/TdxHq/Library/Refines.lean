import Mathlib

namespace TdxHq

variable {ε σ τ α β : Type} {R E : σ → τ → Prop}

inductive SameOutcome (R E : σ → τ → Prop) :
    EStateM.Result ε σ α → EStateM.Result ε τ α → Prop
  | ok {a : α} {s : σ} {t : τ} : R s t → SameOutcome R E (.ok a s) (.ok a t)
  | error {e : ε} {s : σ} {t : τ} : E s t → SameOutcome R E (.error e s) (.error e t)

theorem SameOutcome.of_ok {y : EStateM.Result ε τ α} {a : α} {s : σ}
    (h : SameOutcome R E (.ok a s) y) : ∃ t, y = .ok a t ∧ R s t := by
  cases h with
  | ok hR => exact ⟨_, rfl, hR⟩

theorem SameOutcome.to_ok {x : EStateM.Result ε σ α} {a : α} {t : τ}
    (h : SameOutcome R E x (.ok a t)) : ∃ s, x = .ok a s ∧ R s t := by
  cases h with
  | ok hR => exact ⟨_, rfl, hR⟩

theorem SameOutcome.to_error {x : EStateM.Result ε σ α} {e : ε} {t : τ}
    (h : SameOutcome R E x (.error e t)) : ∃ s, x = .error e s ∧ E s t := by
  cases h with
  | error hE => exact ⟨_, rfl, hE⟩

theorem exists_ok_of_run' {x : EStateM ε σ α} {s : σ} {a : α} (h : x.run' s = some a) :
    ∃ s', x s = .ok a s' := by
  rw [EStateM.run', EStateM.run] at h
  cases hx : x s <;> rw [hx] at h <;> cases h
  exact ⟨_, rfl⟩

/-- Programs that refine programs with the same outcome have the same outcome. -/
theorem SameOutcome.join {σ' : Type} {R' E' : σ' → τ → Prop} {x : EStateM.Result ε σ α}
    {x' : EStateM.Result ε σ' α} {y y' : EStateM.Result ε τ α} (hx : SameOutcome R E x y)
    (hy : SameOutcome Eq (fun _ _ => True) y y') (hx' : SameOutcome R' E' x' y') :
    SameOutcome (fun s s' => ∃ t, R s t ∧ R' s' t) (fun _ _ => True) x x' := by
  cases hx with
  | ok hR =>
    cases hy with
    | ok ht =>
      subst ht
      cases hx' with
      | ok hR' => exact .ok ⟨_, hR, hR'⟩
  | error hE =>
    cases hy with
    | error _ =>
      cases hx' with
      | error _ => exact .error trivial

/-- Two programs that refine a third have the same outcome. -/
theorem SameOutcome.meet {σ' : Type} {R' E' : σ' → τ → Prop} {x : EStateM.Result ε σ α}
    {x' : EStateM.Result ε σ' α} {y : EStateM.Result ε τ α} (hx : SameOutcome R E x y)
    (hx' : SameOutcome R' E' x' y) :
    SameOutcome (fun s s' => ∃ t, R s t ∧ R' s' t) (fun s s' => ∃ t, E s t ∧ E' s' t) x x' := by
  cases hx with
  | ok hR =>
    cases hx' with
    | ok hR' => exact .ok ⟨_, hR, hR'⟩
  | error hE =>
    cases hx' with
    | error hE' => exact .error ⟨_, hE, hE'⟩

/-- From states related by `R` both programs return the same value in states related by `R` again,
or throw the same in states related by `E`. -/
def Refines (R E : σ → τ → Prop) (x : EStateM ε σ α) (y : EStateM ε τ α) : Prop :=
  ∀ s t, R s t → SameOutcome R E (x s) (y t)

namespace Refines

theorem pure (a : α) :
    Refines R E (pure a : EStateM ε σ α) (pure a : EStateM ε τ α) := by
  intro s t h
  exact .ok h

theorem throw (hE : ∀ s t, R s t → E s t) (e : ε) :
    Refines R E (throw e : EStateM ε σ α) (throw e : EStateM ε τ α) := by
  intro s t h
  exact .error (hE s t h)

theorem bind {x : EStateM ε σ α} {y : EStateM ε τ α} {f : α → EStateM ε σ β}
    {g : α → EStateM ε τ β} (hxy : Refines R E x y) (hfg : ∀ a, Refines R E (f a) (g a)) :
    Refines R E (x >>= f) (y >>= g) := by
  intro s t h
  have hfirst := hxy s t h
  change SameOutcome R E (EStateM.bind x f s) (EStateM.bind y g t)
  rw [EStateM.bind, EStateM.bind]
  cases hx : x s <;> cases hy : y t <;> rw [hx, hy] at hfirst <;> cases hfirst
  case ok.ok.ok hR => exact hfg _ _ _ hR
  case error.error.error hE => exact .error hE

end Refines

end TdxHq
