import Mathlib.Data.List.Basic
import Mathlib.Data.Nat.Find

/-!
# Programs that may be cut by a crash

A program reads the state of a device and performs effects on it one after the
other. A crash may cut the effects after any number of them. `Spec` is a triple
with three postconditions: one for every point a crash can cut the program at,
one for a result and one for an error. `Emits` says of every effect where it may
be performed, and `Yields` what the result is as well.
-/

namespace Crash

/-- A device with states `σ` on which effects `ε` are performed. -/
class Device (σ : Type) (ε : outParam Type) where
  perform : σ → ε → σ

/-- What a program did and what it came to. -/
structure Outcome (ε χ α : Type) where
  effects : List ε
  result : Except χ α

/-- Programs on a device, which fail with errors `χ`. -/
def Program (σ ε χ α : Type) := σ → Outcome ε χ α

variable {σ ε χ α β : Type} [Device σ ε]

/-- The state after effects performed in order. -/
def after (s : σ) (effects : List ε) : σ := effects.foldl Device.perform s

@[simp]
theorem after_nil (s : σ) : after s ([] : List ε) = s := rfl

@[simp]
theorem after_cons (s : σ) (effect : ε) (effects : List ε) :
    after s (effect :: effects) = after (Device.perform s effect) effects := rfl

theorem after_append (s : σ) (first second : List ε) :
    after s (first ++ second) = after (after s first) second := by
  simp [after, List.foldl_append]

namespace Program

/-- Run a second program where the first one stopped. -/
def andThen (m : Program σ ε χ α) (f : α → Program σ ε χ β) : Program σ ε χ β := fun s =>
  match (m s).result with
  | .error e => { effects := (m s).effects, result := .error e }
  | .ok a =>
    let rest := f a (after s (m s).effects)
    { effects := (m s).effects ++ rest.effects, result := rest.result }

instance : Monad (Program σ ε χ) where
  pure a := fun _ => { effects := [], result := .ok a }
  bind := andThen

/-- Perform one effect. -/
def perform (effect : ε) : Program σ ε χ Unit := fun _ => { effects := [effect], result := .ok () }

/-- Look at the device, which may fail. -/
def query (f : σ → Except χ α) : Program σ ε χ α := fun s => { effects := [], result := f s }

/-- Stop with an error. -/
def fail (e : χ) : Program σ ε χ α := fun _ => { effects := [], result := .error e }

/-- The state a run leaves behind. -/
def final (m : Program σ ε χ α) (s : σ) : σ := after s (m s).effects

/-- The state a crash finds after `count` effects. -/
def cut (m : Program σ ε χ α) (s : σ) (count : Nat) : σ := after s ((m s).effects.take count)

/-- A program without effects hands over its result. -/
theorem bind_of_quiet {m : Program σ ε χ α} {s : σ} {a : α}
    (h : m s = { effects := [], result := .ok a }) (f : α → Program σ ε χ β) :
    (m >>= f) s = f a s := by
  simp only [Bind.bind, andThen, h, after_nil, List.nil_append]

variable {count : Nat}

/-- A cut inside the first of two programs. -/
theorem cut_bind (m : Program σ ε χ α) (f : α → Program σ ε χ β) (s : σ)
    (h : count ≤ (m s).effects.length) : (m >>= f).cut s count = m.cut s count := by
  unfold cut
  simp only [Bind.bind, andThen]
  cases (m s).result with
  | error e => rfl
  | ok a => simp only [List.take_append_of_le_length h]

theorem effects_bind_le (m : Program σ ε χ α) (f : α → Program σ ε χ β) (s : σ) :
    (m s).effects.length ≤ ((m >>= f) s).effects.length := by
  simp only [Bind.bind, andThen]
  cases (m s).result with
  | error e => exact Nat.le_refl _
  | ok a => simp

theorem cut_all (m : Program σ ε χ α) (s : σ) : m.cut s (m s).effects.length = m.final s := by
  rw [cut, List.take_length, final]

/-- A cut behind the first of two programs. -/
theorem cut_bind_add (m : Program σ ε χ α) (f : α → Program σ ε χ β) {s : σ} {a : α}
    (h : (m s).result = .ok a) (count : Nat) :
    (m >>= f).cut s ((m s).effects.length + count) = (f a).cut (m.final s) count := by
  unfold cut
  simp only [Bind.bind, andThen, h, final, List.take_length_add_append, after_append]

theorem getElem?_effects_bind_of_lt (m : Program σ ε χ α) (f : α → Program σ ε χ β) {s : σ}
    (h : count < (m s).effects.length) : ((m >>= f) s).effects[count]? = (m s).effects[count]? := by
  simp only [Bind.bind, andThen]
  cases (m s).result with
  | error e => rfl
  | ok a => exact List.getElem?_append_left h

theorem getElem?_effects_bind (m : Program σ ε χ α) (f : α → Program σ ε χ β) {s : σ} {a : α}
    (h : (m s).result = .ok a) (count : Nat) :
    ((m >>= f) s).effects[(m s).effects.length + count]? =
      (f a (m.final s)).effects[count]? := by
  simp only [Bind.bind, andThen, h, final]
  rw [List.getElem?_append_right (Nat.le_add_right ..), Nat.add_sub_cancel_left]

/-- One more effect. -/
theorem cut_succ {m : Program σ ε χ α} {s : σ} {effect : ε}
    (h : (m s).effects[count]? = some effect) :
    m.cut s (count + 1) = Device.perform (m.cut s count) effect := by
  rw [cut, List.take_add_one, h, Option.toList_some, after_append, after_cons, after_nil, cut]

/-- Between a state without a property and one with it there is an effect that brings it. -/
theorem exists_turn {m : Program σ ε χ α} {s : σ} {P : σ → Prop} (hstart : ¬P s)
    (hend : P (m.final s)) : ∃ count effect, (m s).effects[count]? = some effect ∧
      ¬P (m.cut s count) ∧ P (m.cut s (count + 1)) := by
  classical
  rw [← cut_all] at hend
  have hexists : ∃ count, P (m.cut s count) := ⟨_, hend⟩
  obtain ⟨count, hcount⟩ : ∃ count, Nat.find hexists = count + 1 := by
    refine Nat.exists_eq_succ_of_ne_zero fun hzero => hstart ?_
    have hfirst := Nat.find_spec hexists
    rwa [hzero, cut, List.take_zero] at hfirst
  have hle : count + 1 ≤ (m s).effects.length := hcount ▸ Nat.find_min' hexists hend
  refine ⟨count, _, List.getElem?_eq_getElem hle, ?_, ?_⟩
  · exact Nat.find_min hexists (by omega)
  · exact hcount ▸ Nat.find_spec hexists

end Program

/-- Run from `s`, a program keeps `C` between its effects, `Q` holds of a result and `E` of an
error. -/
structure Spec (m : Program σ ε χ α) (s : σ) (C : σ → Prop) (Q : α → σ → Prop)
    (E : χ → σ → Prop) : Prop where
  crash : ∀ count, C (m.cut s count)
  ok : ∀ a, (m s).result = .ok a → Q a (m.final s)
  error : ∀ e, (m s).result = .error e → E e (m.final s)

namespace Spec

variable {m : Program σ ε χ α} {s : σ} {C C' : σ → Prop} {Q Q' : α → σ → Prop} {E E' : χ → σ → Prop}

theorem start (h : Spec m s C Q E) : C s := by
  simpa [Program.cut] using h.crash 0

theorem mono (h : Spec m s C Q E) (hC : ∀ s, C s → C' s) (hQ : ∀ a s, Q a s → Q' a s)
    (hE : ∀ e s, E e s → E' e s) : Spec m s C' Q' E' where
  crash count := hC _ (h.crash count)
  ok a ha := hQ _ _ (h.ok a ha)
  error e he := hE _ _ (h.error e he)

theorem imp (h : Spec m s C Q E) (hQ : ∀ a s, Q a s → Q' a s) : Spec m s C Q' E :=
  h.mono (fun _ hC => hC) hQ fun _ _ hE => hE

theorem imp_error (h : Spec m s C Q E) (hE : ∀ e s, E e s → E' e s) : Spec m s C Q E' :=
  h.mono (fun _ hC => hC) (fun _ _ hQ => hQ) hE

theorem pure {a : α} (hC : C s) (hQ : Q a s) : Spec (Pure.pure a : Program σ ε χ α) s C Q E where
  crash count := by simpa [Program.cut, Pure.pure] using hC
  ok b hb := by
    cases hb
    exact hQ
  error e he := by cases he

theorem fail {e : χ} (hC : C s) (hE : E e s) : Spec (Program.fail e : Program σ ε χ α) s C Q E where
  crash count := by simpa [Program.cut, Program.fail] using hC
  ok a ha := by cases ha
  error e' he := by
    cases he
    exact hE

theorem query {f : σ → Except χ α} (hC : C s) (hQ : ∀ a, f s = .ok a → Q a s)
    (hE : ∀ e, f s = .error e → E e s) : Spec (Program.query f) s C Q E where
  crash count := by simpa [Program.cut, Program.query] using hC
  ok a ha := hQ a ha
  error e he := hE e he

/-- A look at the device that succeeds. -/
theorem query_ok {f : σ → Except χ α} {a : α} (hf : f s = .ok a) (hC : C s) (hQ : Q a s) :
    Spec (Program.query f) s C Q E := by
  refine query hC ?_ ?_
  · intro b hb
    rw [hf] at hb
    cases hb
    exact hQ
  · intro e he
    rw [hf] at he
    cases he

theorem perform {effect : ε} {Q : Unit → σ → Prop} (hC : C s)
    (hC' : C (Device.perform s effect)) (hQ : Q () (Device.perform s effect)) :
    Spec (Program.perform effect : Program σ ε χ Unit) s C Q E where
  crash count := by
    cases count with
    | zero => exact hC
    | succ count => simpa [Program.cut, Program.perform] using hC'
  ok a ha := hQ
  error e he := by cases he

theorem bind {f : α → Program σ ε χ β} {R : β → σ → Prop} (hm : Spec m s C Q E)
    (hf : ∀ a s, Q a s → Spec (f a) s C R E) : Spec (m >>= f) s C R E := by
  cases hr : (m s).result with
  | error e =>
    have hrun : (m >>= f) s = { effects := (m s).effects, result := .error e } := by
      simp [Bind.bind, Program.andThen, hr]
    refine ⟨fun count => ?_, fun b hb => ?_, fun e' he => ?_⟩
    · simpa [Program.cut, hrun] using hm.crash count
    · rw [hrun] at hb
      cases hb
    · rw [hrun] at he
      cases he
      simpa [Program.final, hrun] using hm.error e hr
  | ok a =>
    have hrest := hf a _ (hm.ok a hr)
    have hrun : (m >>= f) s = { effects := (m s).effects ++ (f a (m.final s)).effects
                                result := (f a (m.final s)).result } := by
      simp [Bind.bind, Program.andThen, hr, Program.final]
    refine ⟨fun count => ?_, fun b hb => ?_, fun e he => ?_⟩
    · -- the cut falls into the first program or into the second one
      by_cases hcount : count ≤ (m s).effects.length
      · simpa [Program.cut, hrun, List.take_append_of_le_length hcount] using hm.crash count
      · have hcut := hrest.crash (count - (m s).effects.length)
        simpa [Program.cut, Program.final, hrun, List.take_append, after_append,
          List.take_of_length_le (Nat.le_of_lt (Nat.lt_of_not_le hcount))] using hcut
    · rw [hrun] at hb
      simpa [Program.final, hrun, after_append] using hrest.ok b hb
    · rw [hrun] at he
      simpa [Program.final, hrun, after_append] using hrest.error e he

/-- What holds between all effects holds at the end. -/
theorem keep (h : Spec m s C Q E) : Spec m s C (fun a t => C t ∧ Q a t) E where
  crash := h.crash
  ok a ha := by
    have hC := h.crash (m s).effects.length
    rw [Program.cut, List.take_length] at hC
    exact ⟨hC, h.ok a ha⟩
  error := h.error

/-- Change the result of a program. -/
theorem bind_pure {f : α → β} {R : β → σ → Prop} (h : Spec m s C Q E)
    (hR : ∀ a s, Q a s → R (f a) s) :
    Spec (m >>= fun a => (Pure.pure (f a) : Program σ ε χ β)) s C R E :=
  h.keep.bind fun a s hQ => .pure hQ.1 (hR a s hQ.2)

/-- A program that cannot fail has a result. -/
theorem exists_ok (h : Spec m s C Q E) (hE : ∀ e, ¬E e (m.final s)) :
    ∃ a, (m s).result = .ok a ∧ Q a (m.final s) := by
  cases hr : (m s).result with
  | error e => exact absurd (h.error e hr) (hE e)
  | ok a => exact ⟨a, rfl, h.ok a hr⟩

/-- A look at the device that succeeds, and what follows. -/
theorem query_bind {f : σ → Except χ α} {a : α} {k : α → Program σ ε χ β} {R : β → σ → Prop}
    (hf : f s = .ok a) (hk : Spec (k a) s C R E) : Spec (Program.query f >>= k) s C R E := by
  refine bind (Q := fun b t => b = a ∧ t = s) (query_ok hf hk.start ⟨rfl, rfl⟩) ?_
  rintro b t ⟨rfl, rfl⟩
  exact hk

/-- An effect, and what follows. -/
theorem perform_bind {effect : ε} {k : Unit → Program σ ε χ β} {R : β → σ → Prop} (hC : C s)
    (hk : Spec (k ()) (Device.perform s effect) C R E) :
    Spec (Program.perform effect >>= k) s C R E := by
  refine bind (Q := fun _ t => t = Device.perform s effect) (perform hC hk.start rfl) ?_
  rintro _ t rfl
  exact hk

end Spec

/-- Every effect of a program run from `s` is allowed in the state it is performed in. -/
def Emits (m : Program σ ε χ α) (s : σ) (P : σ → ε → Prop) : Prop :=
  ∀ count effect, (m s).effects[count]? = some effect → P (m.cut s count) effect

namespace Emits

variable {m : Program σ ε χ α} {f : α → Program σ ε χ β} {s : σ} {P P' : σ → ε → Prop}

theorem mono (h : Emits m s P) (hP : ∀ t effect, P t effect → P' t effect) : Emits m s P' :=
  fun count effect heffect => hP _ _ (h count effect heffect)

theorem perform {effect : ε} (h : P s effect) :
    Emits (Program.perform effect : Program σ ε χ Unit) s P := by
  intro count other hother
  cases count with
  | zero => exact Option.some.inj hother ▸ h
  | succ count => cases hother

theorem bind (hm : Emits m s P)
    (hf : ∀ a, (m s).result = .ok a → Emits (f a) (m.final s) P) : Emits (m >>= f) s P := by
  intro count effect heffect
  by_cases hcount : count < (m s).effects.length
  · rw [Program.cut_bind m f s (Nat.le_of_lt hcount)]
    exact hm count effect (Program.getElem?_effects_bind_of_lt m f hcount ▸ heffect)
  · obtain ⟨rest, rfl⟩ := Nat.exists_eq_add_of_le (Nat.le_of_not_lt hcount)
    cases hr : (m s).result with
    | error e => simp [Bind.bind, Program.andThen, hr] at heffect
    | ok a =>
      rw [Program.cut_bind_add m f hr]
      exact hf a hr rest effect (Program.getElem?_effects_bind m f hr rest ▸ heffect)

/-- The effects of the first of two programs. -/
theorem left (h : Emits (m >>= f) s P) : Emits m s P := by
  intro count effect heffect
  have hcount := (List.getElem?_eq_some_iff.mp heffect).1
  rw [← Program.cut_bind m f s (Nat.le_of_lt hcount)]
  exact h count effect ((Program.getElem?_effects_bind_of_lt m f hcount).trans heffect)

/-- The effects of the second of two programs. -/
theorem right (h : Emits (m >>= f) s P) {a : α} (hr : (m s).result = .ok a) :
    Emits (f a) (m.final s) P := by
  intro count effect heffect
  rw [← Program.cut_bind_add m f hr]
  exact h _ effect (Program.getElem?_effects_bind m f hr count ▸ heffect)

end Emits

/-- Run from `s`, a program only performs effects that are allowed, and `Q` holds of a result. -/
structure Yields (m : Program σ ε χ α) (s : σ) (P : σ → ε → Prop) (Q : α → Prop) : Prop where
  emits : Emits m s P
  ok : ∀ a, (m s).result = .ok a → Q a

namespace Yields

variable {m : Program σ ε χ α} {f : α → Program σ ε χ β} {s : σ} {P P' : σ → ε → Prop}
  {Q Q' : α → Prop} {R : β → Prop}

theorem mono (h : Yields m s P Q) (hP : ∀ t effect, P t effect → P' t effect)
    (hQ : ∀ a, Q a → Q' a) : Yields m s P' Q' :=
  ⟨h.emits.mono hP, fun a ha => hQ a (h.ok a ha)⟩

variable {g : σ → Except χ α}

theorem query (hQ : ∀ a, g s = .ok a → Q a) : Yields (Program.query g) s P Q where
  emits _ _ h := by cases h
  ok := hQ

theorem pure {a : α} (hQ : Q a) : Yields (Pure.pure a : Program σ ε χ α) s P Q :=
  query (g := fun _ => .ok a) fun _ h => Except.ok.inj h ▸ hQ

theorem fail {e : χ} : Yields (Program.fail e : Program σ ε χ α) s P Q :=
  query (g := fun _ => .error e) fun _ h => by cases h

/-- What follows knows what the first program leaves behind. -/
theorem bind_spec {C : σ → Prop} {Q : α → σ → Prop} {E : χ → σ → Prop} (hm : Emits m s P)
    (hspec : Spec m s C Q E) (hf : ∀ a t, Q a t → Yields (f a) t P R) : Yields (m >>= f) s P R where
  emits := hm.bind fun a ha => (hf a _ (hspec.ok a ha)).emits
  ok b hb := by
    cases hr : (m s).result with
    | error e => simp [Bind.bind, Program.andThen, hr] at hb
    | ok a =>
      simp only [Bind.bind, Program.andThen, hr] at hb
      exact (hf a _ (hspec.ok a hr)).ok b hb

theorem bind (hm : Yields m s P Q) (hf : ∀ a t, Q a → Yields (f a) t P R) :
    Yields (m >>= f) s P R :=
  bind_spec (C := fun _ => True) (E := fun _ _ => True) hm.emits
    ⟨fun _ => trivial, hm.ok, fun _ _ => trivial⟩ hf

/-- A look at the device, and what follows. -/
theorem query_bind (hf : ∀ a, g s = .ok a → Yields (f a) s P R) :
    Yields (Program.query g >>= f) s P R :=
  bind_spec (C := fun _ => True) (Q := fun a t => g s = .ok a ∧ t = s) (E := fun _ _ => True)
    (query fun _ h => h).emits ⟨fun _ => trivial, fun _ h => ⟨h, rfl⟩, fun _ _ => trivial⟩
    fun a _ h => h.2 ▸ hf a h.1

/-- An effect, and what follows. -/
theorem perform_bind {effect : ε} {k : Unit → Program σ ε χ β} (h : P s effect)
    (hk : Yields (k ()) (Device.perform s effect) P R) :
    Yields (Program.perform effect >>= k) s P R :=
  ⟨(Emits.perform h).bind fun _ _ => hk.emits, hk.ok⟩

end Yields

end Crash
