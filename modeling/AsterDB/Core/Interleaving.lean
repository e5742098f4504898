import Mathlib.Data.List.Basic

/-!
# Interleavings

Tasks that share a state and take atomic steps in any order. A property that each step of
one task brings about for itself and leaves alone in the others holds in every run.
-/

namespace Interleaving

/-- A shared state and the tasks at work on it. -/
structure System (σ τ : Type) where
  shared : σ
  tasks : List τ

/-- What happens next: a request comes in, or one task takes a step. -/
inductive Event (ρ ε : Type) where
  | arrive (request : ρ)
  | advance (index : Nat) (input : ε)

section Runs

variable {σ τ ρ ε : Type} (start : ρ → τ) (next : ε → τ → σ → τ × σ)

namespace System

def step (system : System σ τ) : Event ρ ε → System σ τ
  | .arrive request => { system with tasks := system.tasks ++ [start request] }
  | .advance index input =>
    match system.tasks[index]? with
    | none => system
    | some task =>
      let (task, shared) := next input task system.shared
      { shared, tasks := system.tasks.set index task }

def run (events : List (Event ρ ε)) (system : System σ τ) : System σ τ :=
  events.foldl (step start next) system

/-- Every step of a run is taken under a condition on the task and the state before. -/
def Meets (condition : σ → τ → Prop) (events : List (Event ρ ε)) (system : System σ τ) : Prop :=
  ∀ before index input after, events = before ++ .advance index input :: after →
    ∀ task, (run start next before system).tasks[index]? = some task →
      condition (run start next before system).shared task

variable {start next} {condition : σ → τ → Prop} {events : List (Event ρ ε)} {system : System σ τ}

theorem meets_nil : system.Meets start next condition [] := by
  intro before index input after hevents
  cases before <;> cases hevents

theorem Meets.arrive {request : ρ}
    (h : (system.step start next (.arrive request)).Meets start next condition events) :
    system.Meets start next condition (.arrive request :: events) := by
  intro before index input after hevents
  cases before with
  | nil => cases hevents
  | cons event before =>
    cases hevents
    exact h before index input after rfl

theorem Meets.advance {index : Nat} {input : ε}
    (htask : ∀ task, system.tasks[index]? = some task → condition system.shared task)
    (h : (system.step start next (.advance index input)).Meets start next condition events) :
    system.Meets start next condition (.advance index input :: events) := by
  intro before index' input' after hevents
  cases before with
  | nil =>
    cases hevents
    exact htask
  | cons event before =>
    cases hevents
    exact h before index' input' after rfl

end System

/-- What holds of the shared state and of each task: the step of a task keeps both, for itself and
for the others. -/
structure Invariant (condition : σ → τ → Prop) (I : σ → Prop) (T : σ → τ → Prop) : Prop where
  arrive : ∀ {s} request, I s → T s (start request)
  shared : ∀ {s task} input, condition s task → I s → T s task → I (next input task s).2
  own : ∀ {s task} input, condition s task → I s → T s task →
    T (next input task s).2 (next input task s).1
  others : ∀ {s task other} input, condition s task → I s → T s task → T s other →
    T (next input task s).2 other

variable {start next} {condition : σ → τ → Prop} {I : σ → Prop} {T : σ → τ → Prop}
  {events : List (Event ρ ε)} {system : System σ τ}

/-- One step keeps an invariant. -/
theorem Invariant.step (h : Invariant start next condition I T) (event : Event ρ ε)
    (hcondition : ∀ index input, event = .advance index input → ∀ task,
      system.tasks[index]? = some task → condition system.shared task)
    (hshared : I system.shared) (htasks : ∀ task ∈ system.tasks, T system.shared task) :
    I (system.step start next event).shared ∧
      ∀ task ∈ (system.step start next event).tasks,
        T (system.step start next event).shared task := by
  cases event with
  | arrive request =>
    refine ⟨hshared, fun task hmem => ?_⟩
    rcases List.mem_append.mp hmem with hmem | hmem
    · exact htasks task hmem
    · rw [List.mem_singleton.mp hmem]
      exact h.arrive request hshared
  | advance index input =>
    rw [System.step]
    cases hindex : system.tasks[index]? with
    | none => exact ⟨hshared, htasks⟩
    | some task =>
      have hmay := hcondition index input rfl task hindex
      have htask := htasks task (List.mem_of_getElem? hindex)
      refine ⟨h.shared input hmay hshared htask, fun other hmem => ?_⟩
      rcases List.mem_or_eq_of_mem_set hmem with hmem | rfl
      · exact h.others input hmay hshared htask (htasks other hmem)
      · exact h.own input hmay hshared htask

/-- A whole run keeps it. -/
theorem Invariant.run (h : Invariant start next condition I T)
    (hmeets : system.Meets start next condition events) (hshared : I system.shared)
    (htasks : ∀ task ∈ system.tasks, T system.shared task) :
    I (system.run start next events).shared ∧
      ∀ task ∈ (system.run start next events).tasks,
        T (system.run start next events).shared task := by
  induction events generalizing system with
  | nil => exact ⟨hshared, htasks⟩
  | cons event events ih =>
    obtain ⟨hshared', htasks'⟩ := h.step event
      (fun index input hevent => hmeets [] index input events (by rw [hevent]; rfl)) hshared htasks
    refine ih (fun before index input after hevents => ?_) hshared' htasks'
    exact hmeets (event :: before) index input after (by rw [hevents]; rfl)

end Runs

end Interleaving
