import AsterDB.Core.Maps
import Mathlib.Data.List.Forall2
import Mathlib.Data.List.Perm.Subperm

/-!
# Computations that may fail

Checks that fail with an error, and how a sequence of steps comes to a result.
-/

namespace Fallible

variable {ε α β : Type}

/-- Fail where a condition holds. -/
def failIf (condition : Prop) [Decidable condition] (error : ε) : Except ε Unit :=
  if condition then .error error else .ok ()

/-- The value of an option, or an error where there is none. -/
def orFail (option : Option α) (error : ε) : Except ε α :=
  match option with
  | some a => .ok a
  | none => .error error

@[simp]
theorem failIf_eq_ok {condition : Prop} [Decidable condition] {error : ε} {u : Unit} :
    failIf condition error = .ok u ↔ ¬condition := by
  unfold failIf
  split <;> simp_all

@[simp]
theorem orFail_eq_ok {option : Option α} {error : ε} {a : α} :
    orFail option error = .ok a ↔ option = some a := by
  cases option <;> simp [orFail]

variable {x : Except ε α}

/-- A sequence of two steps has a result if both have one. -/
theorem bind_eq_ok {f : α → Except ε β} {b : β} :
    (x >>= f) = .ok b ↔ ∃ a, x = .ok a ∧ f a = .ok b := by
  cases x <;> simp [Bind.bind, Except.bind]

theorem bind_mono {x y : Except ε α} {f : α → Except ε β} {b : β} (h : ∀ a, x = .ok a → y = .ok a)
    (hx : x >>= f = .ok b) : y >>= f = .ok b := by
  obtain ⟨a, ha, hb⟩ := bind_eq_ok.mp hx
  exact bind_eq_ok.mpr ⟨a, h a ha, hb⟩

theorem map_eq_ok {f : α → β} {b : β} : (f <$> x) = .ok b ↔ ∃ a, x = .ok a ∧ f a = b := by
  cases x <;> simp [Functor.map, Except.map]

theorem pure_eq_ok {a b : α} : (pure a : Except ε α) = .ok b ↔ a = b := by
  simp [pure, Except.pure]

theorem mapError_eq_ok {ε' : Type} {f : ε → ε'} {a : α} : x.mapError f = .ok a ↔ x = .ok a := by
  cases x <;> simp [Except.mapError]

/-- A check of each element passes if it passes everywhere. -/
theorem forM_eq_ok {f : α → Except ε Unit} {list : List α} {u : Unit} :
    list.forM f = .ok u ↔ ∀ a ∈ list, f a = .ok () := by
  induction list with
  | nil => simp [pure, Except.pure]
  | cons a list ih =>
    change (f a >>= fun _ => list.forM f) = .ok u ↔ _
    rw [bind_eq_ok, List.forall_mem_cons, ← ih]
    exact ⟨fun ⟨(), ha, hlist⟩ => ⟨ha, hlist⟩, fun ⟨ha, hlist⟩ => ⟨(), ha, hlist⟩⟩

variable {results : List β}

/-- A list of results, one for each element. -/
theorem mapM_eq_ok {f : α → Except ε β} {list : List α} :
    list.mapM f = .ok results ↔ List.Forall₂ (fun a b => f a = .ok b) list results := by
  induction list generalizing results with
  | nil => rw [List.mapM_nil, pure_eq_ok, List.forall₂_nil_left_iff, eq_comm]
  | cons a list ih =>
    simp only [List.mapM_cons, bind_eq_ok, pure_eq_ok, ih, List.forall₂_cons_left_iff]
    constructor
    · rintro ⟨b, hb, rest, hrest, rfl⟩
      exact ⟨b, rest, hb, hrest, rfl⟩
    · rintro ⟨b, rest, hb, hrest, rfl⟩
      exact ⟨b, hb, rest, hrest, rfl⟩

/-- Elements and results belong together, both ways. -/
theorem mem_of_mapM_eq_ok {f : α → Except ε β} {list : List α} (h : list.mapM f = .ok results) :
    (∀ a ∈ list, ∃ b ∈ results, f a = .ok b) ∧ ∀ b ∈ results, ∃ a ∈ list, f a = .ok b := by
  rw [mapM_eq_ok] at h
  induction h with
  | nil => simp
  | @cons a b list results hab _ ih =>
    constructor
    · rintro x (_ | ⟨_, hx⟩)
      · exact ⟨b, List.mem_cons_self, hab⟩
      · obtain ⟨y, hy, hxy⟩ := ih.1 x hx
        exact ⟨y, List.mem_cons_of_mem _ hy, hxy⟩
    · rintro y (_ | ⟨_, hy⟩)
      · exact ⟨a, List.mem_cons_self, hab⟩
      · obtain ⟨x, hx, hxy⟩ := ih.2 y hy
        exact ⟨x, List.mem_cons_of_mem _ hx, hxy⟩

theorem mapM_congr {f g : α → Except ε β} {list : List α} (h : ∀ a ∈ list, f a = g a) :
    list.mapM f = list.mapM g := by
  induction list with
  | nil => rfl
  | cons a list ih =>
    rw [List.forall_mem_cons] at h
    rw [List.mapM_cons, List.mapM_cons, h.1, ih h.2]

/-- Steps that correspond on corresponding elements have corresponding results. -/
theorem mapM_corresponds {α' β' : Type} {R : α → α' → Prop} {S : β → β' → Prop}
    {f : α → Except ε β} {g : α' → Except ε β'} {list : List α} {list' : List α'}
    (hlist : List.Forall₂ R list list')
    (hstep : ∀ a a', R a a' → ∀ b, f a = .ok b → ∃ b', g a' = .ok b' ∧ S b b')
    (h : list.mapM f = .ok results) :
    ∃ results', list'.mapM g = .ok results' ∧ List.Forall₂ S results results' := by
  induction hlist generalizing results with
  | nil =>
    cases h
    exact ⟨[], rfl, .nil⟩
  | cons hhead _ ih =>
    simp only [List.mapM_cons, bind_eq_ok, pure_eq_ok] at h
    obtain ⟨b, hb, rest, hrest, rfl⟩ := h
    obtain ⟨b', hb', hS⟩ := hstep _ _ hhead b hb
    obtain ⟨rest', hrest', hSs⟩ := ih hrest
    refine ⟨b' :: rest', ?_, .cons hS hSs⟩
    simp only [List.mapM_cons, bind_eq_ok, pure_eq_ok]
    exact ⟨b', hb', rest', hrest', rfl⟩

section Folds

variable {σ : Type} {f : σ → α → Except ε σ} {list : List α} {s s' : σ} {P : σ → Prop}

/-- What every step keeps holds at the end. -/
theorem foldlM_invariant (hstep : ∀ s, ∀ a ∈ list, ∀ s', f s a = .ok s' → P s → P s')
    (h : list.foldlM f s = .ok s') (hs : P s) : P s' := by
  induction list generalizing s with
  | nil =>
    cases h
    exact hs
  | cons a list ih =>
    rw [List.foldlM_cons, bind_eq_ok] at h
    obtain ⟨middle, hmiddle, h⟩ := h
    exact ih (fun s b hb => hstep s b (List.mem_cons_of_mem a hb)) h
      (hstep s a List.mem_cons_self middle hmiddle hs)

/-- What one step brings about, and the others keep, holds at the end. -/
theorem foldlM_reaches {Q : σ → Prop} {a : α} (hmem : a ∈ list)
    (hkeep : ∀ s, ∀ b ∈ list, ∀ s', f s b = .ok s' → Q s → Q s')
    (hstep : ∀ s, ∀ b ∈ list, ∀ s', f s b = .ok s' → P s → P s' ∨ Q s')
    (hreach : ∀ s s', f s a = .ok s' → P s → Q s')
    (h : list.foldlM f s = .ok s') (hs : P s) : Q s' := by
  induction list generalizing s with
  | nil => cases hmem
  | cons b list ih =>
    rw [List.foldlM_cons, bind_eq_ok] at h
    obtain ⟨middle, hmiddle, h⟩ := h
    have hkeep' := fun s c hc => hkeep s c (List.mem_cons_of_mem b hc)
    rcases List.mem_cons.mp hmem with rfl | hmem
    · exact foldlM_invariant hkeep' h (hreach s middle hmiddle hs)
    · rcases hstep s b List.mem_cons_self middle hmiddle hs with hP | hQ
      · exact ih hmem hkeep' (fun s c hc => hstep s c (List.mem_cons_of_mem b hc)) h hP
      · exact foldlM_invariant hkeep' h hQ

end Folds

/-- Every error of a computation is in `P`. -/
def Fails (P : ε → Prop) (x : Except ε α) : Prop := ∀ error, x = .error error → P error

section Errors

variable {P Q : ε → Prop}

theorem fails_ok (a : α) : Fails P (.ok a : Except ε α) := fun _ h => by cases h

theorem fails_pure (a : α) : Fails P (pure a : Except ε α) := fails_ok a

variable {error : ε}

theorem fails_error (h : P error) : Fails P (.error error : Except ε α) := by
  rintro _ ⟨⟩
  exact h

theorem fails_failIf {condition : Prop} [Decidable condition] (h : P error) :
    Fails P (failIf condition error) := by
  unfold failIf
  split
  · exact fails_error h
  · exact fails_ok ()

theorem fails_orFail {option : Option α} (h : P error) : Fails P (orFail option error) := by
  cases option with
  | none => exact fails_error h
  | some a => exact fails_ok a

theorem fails_mapError {ε' : Type} {R : ε' → Prop} {x : Except ε α} {f : ε → ε'}
    (h : Fails (fun error => R (f error)) x) : Fails R (x.mapError f) := by
  cases x with
  | error error => exact fails_error (h error rfl)
  | ok a => exact fails_ok a

/-- Errors of a sequence are those of its steps. -/
theorem Fails.bind {x : Except ε α} {f : α → Except ε β} (hx : Fails P x)
    (hf : ∀ a, x = .ok a → Fails P (f a)) : Fails P (x >>= f) := by
  cases x with
  | error error => exact fails_error (hx error rfl)
  | ok a => exact hf a rfl

theorem fails_mapM {f : α → Except ε β} {list : List α} (h : ∀ a ∈ list, Fails P (f a)) :
    Fails P (list.mapM f) := by
  induction list with
  | nil => exact fails_pure _
  | cons a list ih =>
    rw [List.mapM_cons]
    rw [List.forall_mem_cons] at h
    exact h.1.bind fun _ _ => (ih h.2).bind fun _ _ => fails_pure _

theorem fails_foldlM {σ : Type} {f : σ → α → Except ε σ} {list : List α} {s : σ}
    (h : ∀ s, ∀ a ∈ list, Fails P (f s a)) : Fails P (list.foldlM f s) := by
  induction list generalizing s with
  | nil => exact fails_pure _
  | cons a list ih =>
    exact (h s a List.mem_cons_self).bind fun _ _ =>
      ih fun s b hb => h s b (List.mem_cons_of_mem _ hb)

theorem fails_forM {f : α → Except ε Unit} {list : List α} (h : ∀ a ∈ list, Fails P (f a)) :
    Fails P (list.forM f) := by
  induction list with
  | nil => exact fails_pure _
  | cons a list ih =>
    rw [List.forall_mem_cons] at h
    exact h.1.bind fun _ _ => ih h.2

end Errors

section Results

/-! ### Results apart from errors -/

theorem toOption_eq_some {x : Except ε α} {a : α} : x.toOption = some a ↔ x = .ok a := by
  cases x <;> simp [Except.toOption]

theorem toOption_bind (x : Except ε α) (f : α → Except ε β) :
    (x >>= f).toOption = x.toOption.bind fun a => (f a).toOption := by
  cases x <;> rfl

theorem toOption_mapError {ε' : Type} (x : Except ε α) (f : ε → ε') :
    (x.mapError f).toOption = x.toOption := by
  cases x <;> rfl

theorem toOption_orFail (option : Option α) (error : ε) :
    (orFail option error).toOption = option := by
  cases option <;> rfl

theorem toOption_failIf (condition : Prop) [Decidable condition] (error : ε) :
    (failIf condition error).toOption = if condition then none else some () := by
  unfold failIf
  split <;> rfl

theorem toOption_mapM_congr {f g : α → Except ε β} {list : List α}
    (h : ∀ a ∈ list, (f a).toOption = (g a).toOption) :
    (list.mapM f).toOption = (list.mapM g).toOption := by
  induction list with
  | nil => rfl
  | cons a list ih =>
    rw [List.forall_mem_cons] at h
    simp only [List.mapM_cons, toOption_bind, h.1, ih h.2]

theorem toOption_foldlM_congr {σ : Type} {f g : σ → α → Except ε σ} {list : List α}
    (h : ∀ s, ∀ a ∈ list, (f s a).toOption = (g s a).toOption) (s : σ) :
    (list.foldlM f s).toOption = (list.foldlM g s).toOption := by
  induction list generalizing s with
  | nil => rfl
  | cons a list ih =>
    simp only [List.foldlM_cons, toOption_bind, h s a List.mem_cons_self,
      ih fun s b hb => h s b (List.mem_cons_of_mem a hb)]

end Results

section State

variable {σ : Type} {s s' : σ}

/-- A sequence of two steps on a state. -/
theorem stateBind_eq_ok {x : StateT σ (Except ε) α} {f : α → StateT σ (Except ε) β} {b : β} :
    (x >>= f) s = .ok (b, s') ↔ ∃ a t, x s = .ok (a, t) ∧ f a t = .ok (b, s') := by
  change (x s >>= fun pair => f pair.1 pair.2) = .ok (b, s') ↔ _
  rw [bind_eq_ok, Prod.exists]

theorem statePure_eq_ok {a b : α} :
    (pure a : StateT σ (Except ε) α) s = .ok (b, s') ↔ a = b ∧ s = s' := by
  change Except.ok (a, s) = .ok (b, s') ↔ _
  simp

/-- A step that leaves the state alone. -/
theorem stateLift_eq_ok {x : Except ε α} {a : α} :
    (liftM x : StateT σ (Except ε) α) s = .ok (a, s') ↔ x = .ok a ∧ s = s' := by
  change (x >>= fun a => pure (a, s)) = .ok (a, s') ↔ _
  simp only [bind_eq_ok, pure_eq_ok, Prod.mk.injEq]
  exact ⟨fun ⟨_, hx, rfl, hs⟩ => ⟨hx, hs⟩, fun ⟨hx, hs⟩ => ⟨a, hx, rfl, hs⟩⟩

theorem stateThrow_eq_ok {error : ε} {a : α} :
    (throw error : StateT σ (Except ε) α) s = .ok (a, s') ↔ False := by
  change Except.error error = Except.ok (a, s') ↔ False
  simp

/-- Each result of a list of steps comes from one of them. -/
theorem mem_of_stateMapM_eq_ok {f : α → StateT σ (Except ε) β} {list : List α} {results : List β}
    (h : list.mapM f s = .ok (results, s')) :
    ∀ b ∈ results, ∃ a ∈ list, ∃ t t', f a t = .ok (b, t') := by
  induction list generalizing s s' results with
  | nil =>
    rw [List.mapM_nil, statePure_eq_ok] at h
    rw [← h.1]
    nofun
  | cons a list ih =>
    simp only [List.mapM_cons, stateBind_eq_ok, statePure_eq_ok] at h
    obtain ⟨b, t, hb, rest, t', hrest, rfl, -⟩ := h
    rw [List.forall_mem_cons]
    refine ⟨⟨a, List.mem_cons_self, s, t, hb⟩, fun c hc => ?_⟩
    obtain ⟨a', ha', hc⟩ := ih hrest c hc
    exact ⟨a', List.mem_cons_of_mem a ha', hc⟩

end State

section Maps

open Std

variable {κ ν ι : Type} [Ord κ] [TransOrd κ] [LawfulEqOrd κ] {key : ι → κ} {value : ι → ν}
  {insert : ExtTreeMap κ ν → ι → Except ε (ExtTreeMap κ ν)}

/-- A map loaded from a list, each key once, holds what it held and what the list holds. -/
theorem getElem?_foldlM_insert (hinsert : ∀ map item map', insert map item = .ok map' →
      key item ∉ map ∧ map' = map.insert (key item) (value item)) {items : List ι}
    {map map' : ExtTreeMap κ ν} (h : items.foldlM insert map = .ok map') {k : κ} {v : ν} :
    map'[k]? = some v ↔ map[k]? = some v ∨ ∃ item ∈ items, key item = k ∧ value item = v := by
  induction items generalizing map with
  | nil =>
    cases h
    simp
  | cons item items ih =>
    rw [List.foldlM_cons, bind_eq_ok] at h
    obtain ⟨middle, hmiddle, h⟩ := h
    obtain ⟨hnew, rfl⟩ := hinsert map item middle hmiddle
    rw [ih h, ExtTreeMap.getElem?_insert]
    by_cases hk : key item = k
    · subst hk
      rw [ExtTreeMap.getElem?_eq_none hnew]
      simp
    · simp [hk]

/-- A map loaded from its own entries is the map. -/
theorem foldlM_insert_toList (key : ι → κ) (value : ι → ν)
    (hinsert : ∀ map item map', insert map item = .ok map' →
      key item ∉ map ∧ map' = map.insert (key item) (value item))
    {source result : ExtTreeMap κ ν} {image : κ × ν → ι}
    (hkey : ∀ entry, key (image entry) = entry.1) (hvalue : ∀ entry, value (image entry) = entry.2)
    (h : (source.toList.map image).foldlM insert ∅ = .ok result) : result = source := by
  apply ExtTreeMap.ext_getElem?
  intro k
  apply Option.ext
  intro v
  rw [getElem?_foldlM_insert hinsert h]
  simp [hkey, hvalue, ExtTreeMap.mem_toList_iff_getElem?_eq_some]

/-- A map made of a list with distinct keys holds the pairs of the list. -/
theorem getElem?_ofList {pairs : List (κ × ν)} (hdistinct : pairs.Pairwise fun a b => a.1 ≠ b.1)
    {k : κ} {v : ν} : (ExtTreeMap.ofList pairs)[k]? = some v ↔ (k, v) ∈ pairs := by
  have hpairwise : pairs.Pairwise fun a b => ¬compare a.1 b.1 = .eq :=
    hdistinct.imp fun hne heq => hne (LawfulEqCmp.compare_eq_iff_eq.mp heq)
  have hmem {v' : ν} (h : (k, v') ∈ pairs) : (ExtTreeMap.ofList pairs)[k]? = some v' :=
    ExtTreeMap.getElem?_ofList_of_mem (LawfulEqCmp.compare_eq_iff_eq.mpr rfl) hpairwise h
  constructor
  · intro h
    have hk : k ∈ ExtTreeMap.ofList pairs := ExtTreeMap.mem_iff_isSome_getElem?.mpr (by rw [h]; rfl)
    let : DecidableEq κ := fun a b =>
      decidable_of_iff (compare a b = .eq) LawfulEqCmp.compare_eq_iff_eq
    have hkeys := ExtTreeMap.mem_ofList.mp hk
    obtain ⟨⟨k', v'⟩, hpair, rfl⟩ := List.mem_map.mp (List.contains_iff_mem.mp hkeys)
    rw [hmem hpair] at h
    exact Option.some.inj h ▸ hpair
  · exact hmem

/-- The keys of a map's entries differ. -/
theorem toList_pairwise_ne (map : ExtTreeMap κ ν) : map.toList.Pairwise fun a b => a.1 ≠ b.1 :=
  ExtTreeMap.distinct_keys_toList.imp fun hne heq =>
    hne (LawfulEqCmp.compare_eq_iff_eq.mpr heq)

/-- A map with as many keys as a smaller one has no other keys. -/
theorem mem_of_size_eq {ν' : Type} {map : ExtTreeMap κ ν} {map' : ExtTreeMap κ ν'}
    (hsub : ∀ k ∈ map, k ∈ map') (hsize : map'.size = map.size) {k : κ} (hk : k ∈ map') :
    k ∈ map := by
  have hkeys : map.keys ⊆ map'.keys := fun k hk =>
    ExtTreeMap.mem_keys.mpr (hsub k (ExtTreeMap.mem_keys.mp hk))
  have hperm : map.keys.Perm map'.keys :=
    (List.subperm_of_subset ExtTreeMap.nodup_keys hkeys).perm_of_length_le (by simp [hsize])
  exact ExtTreeMap.mem_keys.mp (hperm.mem_iff.mpr (ExtTreeMap.mem_keys.mpr hk))

end Maps

section Fresh

variable {σ ι κ : Type} {step : σ → ι → Except ε σ} (holds : σ → κ → Prop) (key : ι → κ)
  {check : ι → Prop} {items : List ι} {s s' : σ}

/-- A list is taken up, each key once, if every item passes its check and the keys are new. -/
theorem exists_foldlM_fresh (hstep : ∀ s item, check item → ¬holds s (key item) →
      ∃ s', step s item = .ok s' ∧ ∀ k, holds s' k ↔ holds s k ∨ key item = k)
    (hcheck : ∀ item ∈ items, check item) (hdistinct : items.Pairwise fun a b => key a ≠ key b)
    (hnew : ∀ item ∈ items, ¬holds s (key item)) : ∃ s', items.foldlM step s = .ok s' := by
  induction items generalizing s with
  | nil => exact ⟨s, rfl⟩
  | cons item items ih =>
    rw [List.forall_mem_cons] at hcheck hnew
    rw [List.pairwise_cons] at hdistinct
    obtain ⟨middle, hmiddle, hholds⟩ := hstep s item hcheck.1 hnew.1
    obtain ⟨s', hs'⟩ := ih hcheck.2 hdistinct.2 fun other hother hheld =>
      ((hholds _).mp hheld).elim (hnew.2 other hother) (hdistinct.1 other hother)
    exact ⟨s', by rw [List.foldlM_cons, bind_eq_ok]; exact ⟨middle, hmiddle, hs'⟩⟩

/-- What was taken up passed its checks, each key once. -/
theorem of_foldlM_fresh (hstep : ∀ s item s', step s item = .ok s' →
      check item ∧ ¬holds s (key item) ∧ ∀ k, holds s' k ↔ holds s k ∨ key item = k)
    (h : items.foldlM step s = .ok s') :
    (∀ item ∈ items, check item) ∧ (items.Pairwise fun a b => key a ≠ key b) ∧
      ∀ item ∈ items, ¬holds s (key item) := by
  induction items generalizing s with
  | nil => simp
  | cons item items ih =>
    rw [List.foldlM_cons, bind_eq_ok] at h
    obtain ⟨middle, hmiddle, h⟩ := h
    obtain ⟨hcheck, hnew, hholds⟩ := hstep s item middle hmiddle
    obtain ⟨hchecks, hdistinct, hnews⟩ := ih h
    simp only [hholds, not_or] at hnews
    rw [List.forall_mem_cons, List.pairwise_cons, List.forall_mem_cons]
    exact ⟨⟨hcheck, hchecks⟩, ⟨fun other hother => (hnews other hother).2, hdistinct⟩,
      ⟨hnew, fun other hother => (hnews other hother).1⟩⟩

end Fresh

section Restore

open Std

variable {κ ν ι : Type} [Ord κ] [TransOrd κ] [LawfulEqOrd κ]
  {insert : ExtTreeMap κ ν → ι → Except ε (ExtTreeMap κ ν)} {check : ι → Prop} (key : ι → κ)
  (value : ι → ν)

variable (hinsert : ∀ map item map', insert map item = .ok map' ↔
  (check item ∧ key item ∉ map) ∧ map.insert (key item) (value item) = map')
include hinsert

/-- Restoring entries of a map gives the map. -/
theorem foldlM_restore {source : ExtTreeMap κ ν} {image : κ × ν → ι}
    (hkey : ∀ entry, key (image entry) = entry.1) (hvalue : ∀ entry, value (image entry) = entry.2)
    (hcheck : ∀ entry ∈ source.toList, check (image entry)) :
    (source.toList.map image).foldlM insert ∅ = Except.ok source := by
  have hinserted (map : ExtTreeMap κ ν) (item : ι) (k : κ) :
      k ∈ map.insert (key item) (value item) ↔ k ∈ map ∨ key item = k := by
    rw [ExtTreeMap.mem_insert, LawfulEqCmp.compare_eq_iff_eq, or_comm]
  obtain ⟨result, hresult⟩ :
      ∃ result, (source.toList.map image).foldlM insert ∅ = Except.ok result := by
    have hchecks : ∀ item ∈ source.toList.map image, check item := by
      simpa only [List.forall_mem_map] using hcheck
    refine exists_foldlM_fresh (fun map k => k ∈ map) key ?_ hchecks ?_
      fun _ _ => ExtTreeMap.not_mem_empty
    · intro map item hitem hnew
      exact ⟨_, (hinsert map item _).mpr ⟨⟨hitem, hnew⟩, rfl⟩, hinserted map item⟩
    · rw [List.pairwise_map]
      refine (toList_pairwise_ne source).imp fun hne => ?_
      rwa [hkey, hkey]
  have hsame : result = source := by
    refine foldlM_insert_toList key value ?_ hkey hvalue hresult
    intro map item map' h
    obtain ⟨⟨-, hnew⟩, rfl⟩ := (hinsert map item map').mp h
    exact ⟨hnew, rfl⟩
  rw [hresult, hsame]

/-- What was restored passed its check. -/
theorem checked_of_foldlM_restore {items : List ι}
    {result : ExtTreeMap κ ν} (h : items.foldlM insert ∅ = Except.ok result) {k : κ} {v : ν}
    (hget : result[k]? = some v) : ∃ item, check item ∧ key item = k ∧ value item = v := by
  have hnew (map : ExtTreeMap κ ν) (item : ι) (map' : ExtTreeMap κ ν)
      (hitem : insert map item = .ok map') :
      key item ∉ map ∧ map' = map.insert (key item) (value item) := by
    obtain ⟨⟨-, hnew⟩, rfl⟩ := (hinsert map item map').mp hitem
    exact ⟨hnew, rfl⟩
  have hchecks := (of_foldlM_fresh (fun map k => k ∈ map) key (fun map item map' hitem => by
    obtain ⟨⟨hcheck, hnew⟩, rfl⟩ := (hinsert map item map').mp hitem
    refine ⟨hcheck, hnew, fun k => ?_⟩
    rw [ExtTreeMap.mem_insert, LawfulEqCmp.compare_eq_iff_eq, or_comm]) h).1
  rcases (getElem?_foldlM_insert hnew h).mp hget with hempty | ⟨item, hmem, hkey, hvalue⟩
  · simp at hempty
  · exact ⟨item, hchecks item hmem, hkey, hvalue⟩

end Restore

end Fallible
