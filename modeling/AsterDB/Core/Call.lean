import AsterDB.Core.Fallible

/-!
# Calls on a state

A call may fail, and a call that fails leaves the state as it was at that point.
-/

namespace Fallible

/-- Calls on a state of type `σ`. -/
abbrev Call (σ ε : Type) := ExceptT ε (StateM σ)

namespace Call

variable {σ ε α β : Type} {s t : σ}

variable {x : Call σ ε α}

theorem bind_of_ok {a : α} (h : x s = (.ok a, t)) (f : α → Call σ ε β) : (x >>= f) s = f a t := by
  change ExceptT.bindCont f (x s).1 (x s).2 = _
  rw [h]
  rfl

theorem bind_of_error {error : ε} (h : x s = (.error error, t))
    (f : α → Call σ ε β) : (x >>= f) s = (.error error, t) := by
  change ExceptT.bindCont f (x s).1 (x s).2 = _
  rw [h]
  rfl

variable {f : α → Call σ ε β} {result : Except ε β}

/-- The first step fails, or both steps are taken. -/
theorem bind_cases (h : (x >>= f) s = (result, t)) :
    (∃ error, x s = (.error error, t) ∧ result = .error error) ∨
      ∃ a middle, x s = (.ok a, middle) ∧ f a middle = (result, t) := by
  rcases hx : x s with ⟨error | a, middle⟩
  · rw [bind_of_error hx] at h
    cases h
    exact .inl ⟨error, rfl, rfl⟩
  · rw [bind_of_ok hx] at h
    exact .inr ⟨a, middle, rfl, h⟩

/-- A step that only looks fails, or the next one is taken. -/
theorem lift_bind_cases {x : Except ε α} (h : ((liftM x : Call σ ε α) >>= f) s = (result, t)) :
    (∃ error, x = .error error ∧ result = .error error ∧ t = s) ∨
      ∃ a, x = .ok a ∧ f a s = (result, t) := by
  rcases bind_cases h with ⟨error, hx, hresult⟩ | ⟨a, middle, hx, hf⟩
  · cases hx
    exact .inl ⟨error, rfl, hresult, rfl⟩
  · cases hx
    exact .inr ⟨a, rfl, hf⟩

/-- A property holds if it does where a step that only looks fails, and after the next one. -/
@[elab_as_elim]
theorem lift_bind_elim {P : Except ε β → σ → Prop} {x : Except ε α}
    (h : ((liftM x : Call σ ε α) >>= f) s = (result, t))
    (hs : ∀ error, x = .error error → P (.error error) s)
    (hf : ∀ a, x = .ok a → f a s = (result, t) → P result t) : P result t := by
  rcases lift_bind_cases h with ⟨error, hx, rfl, rfl⟩ | ⟨a, ha, h⟩
  · exact hs error hx
  · exact hf a ha h

@[simp]
theorem get_bind (f : σ → Call σ ε β) : (get >>= f) s = f s s := bind_of_ok rfl f

@[simp]
theorem set_bind (f : PUnit → Call σ ε β) : (set t >>= f) s = f ⟨⟩ t := bind_of_ok rfl f

@[simp]
theorem lift_ok_bind (a : α) (f : α → Call σ ε β) :
    ((liftM (Except.ok a : Except ε α) : Call σ ε α) >>= f) s = f a s := bind_of_ok rfl f

@[simp]
theorem lift_error_bind (error : ε) (f : α → Call σ ε β) :
    ((liftM (Except.error error : Except ε α) : Call σ ε α) >>= f) s = (.error error, s) :=
  bind_of_error rfl f

/-- Steps that only look, one after the other. -/
theorem lift_bind_lift (x : Except ε α) (f : α → Except ε β) :
    ((liftM x : Call σ ε α) >>= fun a => (liftM (f a) : Call σ ε β)) s = (x >>= f, s) := by
  cases x <;> rfl

/-- What comes of a failure that is taken up. -/
theorem tryCatch_of_ok {a : α} (h : x s = (.ok a, t)) (f : ε → Call σ ε α) :
    (tryCatch x f) s = (.ok a, t) := by
  change (match (x s).1 with
    | Except.ok a => (pure (Except.ok a) : StateM σ (Except ε α))
    | Except.error error => f error) (x s).2 = _
  rw [h]
  rfl

theorem tryCatch_of_error {error : ε} (h : x s = (.error error, t))
    (f : ε → Call σ ε α) : (tryCatch x f) s = f error t := by
  change (match (x s).1 with
    | Except.ok a => (pure (Except.ok a) : StateM σ (Except ε α))
    | Except.error error => f error) (x s).2 = _
  rw [h]

end Call

end Fallible
