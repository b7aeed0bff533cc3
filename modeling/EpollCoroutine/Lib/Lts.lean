import Mathlib.Tactic

/-!
# Guarded runs of a partial labelled step

A system is a partial step function `step : σ → ℓ → Option σ`: the label `l` resolves every
choice of the environment, and `none` means that the step is not possible.

* `Reach step ok s₀ s`: some run leads from `s₀` to `s` in which every step meets the guard `ok`;
* `Reach.inv`: what holds at the start and is preserved by every guarded step holds in every
  state reached;
* `exec`, `exists_reach`: the executable form, for runs written out label by label.
-/

namespace Lts

variable {σ ℓ : Type*}

/-- The states reached from `s₀` by steps that all meet the guard `ok`. -/
inductive Reach (step : σ → ℓ → Option σ) (ok : σ → ℓ → Prop) (s₀ : σ) : σ → Prop
  | refl : Reach step ok s₀ s₀
  | tail {s s' : σ} {l : ℓ} : Reach step ok s₀ s → ok s l → step s l = some s' →
      Reach step ok s₀ s'

variable {step : σ → ℓ → Option σ} {ok : σ → ℓ → Prop} {s₀ s s' : σ}

/-- The invariant rule. -/
theorem Reach.inv {I : σ → Prop} (h : Reach step ok s₀ s) (h0 : I s₀)
    (hs : ∀ s l s', I s → ok s l → step s l = some s' → I s') : I s := by
  induction h with
  | refl => exact h0
  | tail _ hok hst ih => exact hs _ _ _ ih hok hst

/-- The invariant rule relative to an invariant `J` already known of every state reached. -/
theorem Reach.inv_of {I J : σ → Prop} (h : Reach step ok s₀ s) (hJ : ∀ t, Reach step ok s₀ t → J t)
    (h0 : I s₀) (hs : ∀ s l s', J s → J s' → I s → ok s l → step s l = some s' → I s') : I s := by
  induction h with
  | refl => exact h0
  | tail hr hok hst ih => exact hs _ _ _ (hJ _ hr) (hJ _ (hr.tail hok hst)) ih hok hst

theorem Reach.trans (h : Reach step ok s₀ s) (h' : Reach step ok s s') : Reach step ok s₀ s' := by
  induction h' with
  | refl => exact h
  | tail _ hok hst ih => exact ih.tail hok hst

/-- Run the labels of a list in order, as long as they pass the test. -/
def exec (step : σ → ℓ → Option σ) (test : σ → ℓ → Bool) : σ → List ℓ → Option σ
  | s, [] => some s
  | s, l :: ls => if test s l then (step s l).bind fun s' => exec step test s' ls else none

/-- A run that is written out is a run. -/
theorem reach_exec {test : σ → ℓ → Bool} (htest : ∀ s l, test s l = true → ok s l) {ls : List ℓ}
    (h : exec step test s ls = some s') : Reach step ok s s' := by
  induction ls generalizing s with
  | nil => cases h; exact .refl
  | cons l ls ih =>
    rw [exec] at h
    split_ifs at h with hl
    obtain ⟨m, hm, hrest⟩ := Option.bind_eq_some_iff.1 h
    exact (Reach.refl.tail (htest s l hl) hm).trans (ih hrest)

/-- A run that is written out leads to a state with a property that can be computed. -/
theorem exists_reach (step : σ → ℓ → Option σ) (ok : σ → ℓ → Prop) (s : σ) (ls : List ℓ)
    (test : σ → ℓ → Bool) (htest : ∀ s l, test s l = true → ok s l) (p : σ → Bool)
    (h : (exec step test s ls).any p = true) :
    ∃ s', Reach step ok s s' ∧ p s' = true := by
  obtain ⟨s', hs', hp⟩ := (Option.any_eq_true _ _).1 h
  exact ⟨s', reach_exec htest hs', hp⟩

/-- The same for a run in three parts: under a guard, one step, under another guard. -/
theorem exists_reach_step_reach (step : σ → ℓ → Option σ) (ok ok₂ : σ → ℓ → Prop) (s : σ)
    (ls : List ℓ) (l : ℓ) (ls₂ : List ℓ) (test : σ → ℓ → Bool)
    (htest : ∀ s l, test s l = true → ok s l) (test₂ : σ → ℓ → Bool)
    (htest₂ : ∀ s l, test₂ s l = true → ok₂ s l) (p : σ → σ → σ → Bool)
    (h : (exec step test s ls).any (fun s₁ => (step s₁ l).any fun s₂ =>
      (exec step test₂ s₂ ls₂).any fun s₃ => p s₁ s₂ s₃) = true) :
    ∃ s₁ s₂ s₃, Reach step ok s s₁ ∧ step s₁ l = some s₂ ∧ Reach step ok₂ s₂ s₃ ∧
      p s₁ s₂ s₃ = true := by
  obtain ⟨s₁, h₁, h⟩ := (Option.any_eq_true _ _).1 h
  obtain ⟨s₂, h₂, h⟩ := (Option.any_eq_true _ _).1 h
  obtain ⟨s₃, h₃, h⟩ := (Option.any_eq_true _ _).1 h
  exact ⟨s₁, s₂, s₃, reach_exec htest h₁, h₂, reach_exec htest₂ h₃, h⟩

end Lts
