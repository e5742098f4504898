import Mathlib.Init

/-!
# Runs

The states of a transition system that its transitions reach, each taken under a condition.
A list of transitions can be evaluated.
-/

namespace Runs

variable {σ ℓ : Type} {init s s' : σ} {next : σ → ℓ → Option σ}

/-- States reached by transitions that all meet a condition. -/
inductive ReachableIf (init : σ) (next : σ → ℓ → Option σ) (ok : σ → ℓ → Prop) : σ → Prop
  | init : ReachableIf init next ok init
  | next {s s' : σ} (label : ℓ) : ReachableIf init next ok s → ok s label →
    next s label = some s' → ReachableIf init next ok s'

/-- Run a list of transitions, as long as each meets the condition. -/
def executeIf (next : σ → ℓ → Option σ) (ok : σ → ℓ → Bool) (s : σ) : List ℓ → Option σ
  | [] => some s
  | label :: rest =>
    if ok s label then
      match next s label with
      | none => none
      | some s => executeIf next ok s rest
    else none

/-- A list of transitions that runs reaches its result. -/
theorem ReachableIf.executeIf {ok : σ → ℓ → Prop} {passes : σ → ℓ → Bool} {labels : List ℓ}
    (hok : ∀ s label, passes s label = true → ok s label) (h : ReachableIf init next ok s)
    (hrun : executeIf next passes s labels = some s') : ReachableIf init next ok s' := by
  induction labels generalizing s with
  | nil =>
    cases hrun
    exact h
  | cons label rest ih =>
    unfold Runs.executeIf at hrun
    split at hrun
    · rename_i hpasses
      split at hrun
      · cases hrun
      · rename_i hnext
        exact ih (h.next label (hok s label hpasses) hnext) hrun
    · cases hrun

/-- A weaker condition allows more runs. -/
theorem ReachableIf.mono {ok ok' : σ → ℓ → Prop} (hok : ∀ s label, ok s label → ok' s label)
    (h : ReachableIf init next ok s) : ReachableIf init next ok' s := by
  induction h with
  | init => exact .init
  | next label _ hlabel hnext ih => exact .next label ih (hok _ _ hlabel) hnext

end Runs
