import Mathlib.Logic.Function.Iterate

/-!
# Bounded rounds

A deterministic system reaches a property within a number of rounds. Phases compose by
adding their bounds.
-/

namespace Rounds

variable {σ : Type} {step : σ → σ} {P Q : σ → Prop} {n m : Nat} {x : σ}

/-- The property holds after at most `n` rounds. -/
def Within (step : σ → σ) (P : σ → Prop) (n : Nat) (x : σ) : Prop := ∃ k ≤ n, P (step^[k] x)

namespace Within

theorem now (h : P x) : Within step P n x := ⟨0, Nat.zero_le _, h⟩

theorem mono (h : Within step P n x) (hle : n ≤ m) : Within step P m x := by
  obtain ⟨k, hk, hP⟩ := h
  exact ⟨k, Nat.le_trans hk hle, hP⟩

theorem imp (h : Within step P n x) (hPQ : ∀ y, P y → Q y) : Within step Q n x := by
  obtain ⟨k, hk, hP⟩ := h
  exact ⟨k, hk, hPQ _ hP⟩

/-- Phases follow one another. -/
theorem trans (h : Within step P n x) (hPQ : ∀ y, P y → Within step Q m y) :
    Within step Q (n + m) x := by
  obtain ⟨k, hk, hP⟩ := h
  obtain ⟨l, hl, hQ⟩ := hPQ _ hP
  refine ⟨l + k, by omega, ?_⟩
  rwa [Function.iterate_add_apply]

/-- One round, and what follows. -/
theorem next (h : Within step P n (step x)) : Within step P (n + 1) x := by
  obtain ⟨k, hk, hP⟩ := h
  exact ⟨k + 1, by omega, hP⟩

end Within

/-- What one round keeps, every run keeps. -/
theorem keep (hstep : ∀ x, P x → P (step x)) (h : P x) (k : Nat) : P (step^[k] x) := by
  induction k generalizing x with
  | zero => exact h
  | succ k ih => exact ih (hstep x h)

end Rounds
