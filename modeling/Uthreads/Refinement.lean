import Mathlib

namespace Uthreads.Refinement

variable {σ ε : Type}

inductive Exec (step : σ → ε → σ → Prop) : σ → List ε → σ → Prop
  | nil (s : σ) : Exec step s [] s
  | cons {s s' s'' : σ} {e : ε} {es : List ε} (h : step s e s') (hs : Exec step s' es s'') :
      Exec step s (e :: es) s''

def Within (P : σ → Prop) (step : σ → ε → σ → Prop) (s : σ) (e : ε) (s' : σ) : Prop :=
  step s e s' ∧ P s'

variable {step : σ → ε → σ → Prop} {P : σ → Prop} {s s' : σ} {es : List ε}

theorem Exec.mono {step₁ : σ → ε → σ → Prop} (hstep : ∀ s e s', step s e s' → step₁ s e s')
    (h : Exec step s es s') : Exec step₁ s es s' := by
  induction h with
  | nil s => exact .nil s
  | cons h _ ih => exact .cons (hstep _ _ _ h) ih

theorem Exec.within (hstep : ∀ s e s', P s → step s e s' → P s') (h : Exec step s es s') (hs : P s) :
    Exec (Within P step) s es s' := by
  induction h with
  | nil s => exact .nil s
  | cons h _ ih =>
      have hs' := hstep _ _ _ hs h
      exact .cons ⟨h, hs'⟩ (ih hs')

/-- What the steps gain is bounded by what they pay and by the potential. -/
theorem Exec.potential {φ : σ → Nat} {f g : ε → Nat}
    (hstep : ∀ s e s', P s → step s e s' → P s' → f e + φ s' ≤ g e + φ s)
    (h : Exec (Within P step) s es s') (hs : P s) :
    (es.map f).sum + φ s' ≤ (es.map g).sum + φ s := by
  induction h with
  | nil s => exact Nat.le_refl _
  | cons h _ ih =>
      have h₁ := hstep _ _ _ hs h.1 h.2
      have h₂ := ih h.2
      simp only [List.map_cons, List.sum_cons]
      omega

end Uthreads.Refinement
