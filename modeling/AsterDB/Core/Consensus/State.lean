import Mathlib.Data.List.Basic
import Mathlib.Data.Set.Basic
import Mathlib.Logic.Function.Basic
import Mathlib.Tactic.Common

/-!
# Replicated logs under numbered leaders

One leader per term extends a log, followers copy prefixes of it, and terms
are entered through votes. The state below keeps the history that safety is
about: every vote ever cast, the log each candidate stood with, the complete
log of each term's leader, and how far each node acknowledged each leader.
Nodes, entries and the quorum system are arbitrary.
-/

namespace Consensus

/-- A family of node sets in which every two members meet. -/
structure QuorumSystem (N : Type*) where
  /-- The sets that may decide. -/
  IsQuorum : Set N → Prop
  /-- Two deciding sets share a node. -/
  meet : ∀ {P Q : Set N}, IsQuorum P → IsQuorum Q → ∃ v, v ∈ P ∧ v ∈ Q

/-- Durable protocol state of all nodes, with the history safety refers to. -/
structure State (N E : Type*) where
  /-- The highest term each node entered. -/
  term : N → ℕ
  /-- The candidate each node voted for, by term. -/
  vote : N → ℕ → Option N
  /-- The complete log of each node. -/
  log : N → List E
  /-- The log a candidate stood with, by term. -/
  stood : ℕ → N → List E
  /-- The elected node of each term. -/
  leader : ℕ → Option N
  /-- The log of the term's leader, as far as it was written. -/
  leaderLog : ℕ → List E
  /-- The length up to which a node acknowledged the leader of a term. -/
  acked : N → ℕ → ℕ

section Logs

variable {E : Type*} (τ : E → ℕ)

/-- The term of the last entry, `0` for the empty log. -/
def lastTerm (l : List E) : ℕ := (l.getLast?.map τ).getD 0

/-- The first log is at least as up to date as the second. -/
def UpToDate (l l' : List E) : Prop :=
  lastTerm τ l' < lastTerm τ l ∨ (lastTerm τ l = lastTerm τ l' ∧ l'.length ≤ l.length)

/-- Every entry lies in its own term's leader log, over the same prefix. -/
def Rooted (L : ℕ → List E) (l : List E) : Prop :=
  ∀ (i : ℕ) (e : E), l[i]? = some e → l.take (i + 1) = (L (τ e)).take (i + 1)

/-- Terms never decrease along a log. -/
def Ascending (l : List E) : Prop :=
  ∀ (i j : ℕ) (a b : E), i ≤ j → l[i]? = some a → l[j]? = some b → τ a ≤ τ b

variable {τ} {L : ℕ → List E}

theorem Rooted.nil : Rooted τ L [] := by
  intro i e h
  simp at h

variable {l : List E}

/-- A rooted log stays rooted when cut. -/
theorem Rooted.take (h : Rooted τ L l) (k : ℕ) : Rooted τ L (l.take k) := by
  intro i e he
  have hi : i < k := by
    by_contra hk
    rw [List.getElem?_take, if_neg hk] at he
    cases he
  rw [List.getElem?_take, if_pos hi] at he
  rw [List.take_take, Nat.min_eq_left hi]
  exact h i e he

/-- Equal terms at one index force equal prefixes: log matching. -/
theorem Rooted.matching {l' : List E} (h : Rooted τ L l)
    (h' : Rooted τ L l') {i : ℕ} {a b : E} (ha : l[i]? = some a) (hb : l'[i]? = some b)
    (hab : τ a = τ b) : l.take (i + 1) = l'.take (i + 1) := by
  rw [h i a ha, hab, h' i b hb]

/-- Growing leader logs keeps rooted logs rooted. -/
theorem Rooted.mono {L L' : ℕ → List E} (h : Rooted τ L l) (hL : ∀ t, L t <+: L' t) :
    Rooted τ L' l := by
  intro i e he
  have hlen : i + 1 ≤ l.length := (List.getElem?_eq_some_iff.mp he).1
  have hroot := h i e he
  have hle : i + 1 ≤ (L (τ e)).length := by
    have hl := congrArg List.length hroot
    simp only [List.length_take] at hl
    omega
  obtain ⟨rest, hrest⟩ := hL (τ e)
  rw [hroot, ← hrest, List.take_append_of_le_length hle]

/-- The entry at a rooted index is the leader's. -/
theorem Rooted.getElem? (h : Rooted τ L l) {i : ℕ} {e : E}
    (he : l[i]? = some e) : (L (τ e))[i]? = some e := by
  have hroot := congrArg (fun x : List E => x[i]?) (h i e he)
  simpa only [List.getElem?_take, Nat.lt_succ_self, ite_true, he] using hroot.symm

theorem Ascending.take (h : Ascending τ l) (k : ℕ) : Ascending τ (l.take k) := by
  intro i j a b hij ha hb
  rw [List.getElem?_take] at ha hb
  split at ha <;> split at hb <;> first | cases ha | cases hb | skip
  exact h i j a b hij ha hb

/-- A log rooted in ascending leader logs is ascending. -/
theorem Rooted.ascending (hL : ∀ t, Ascending τ (L t)) (h : Rooted τ L l) : Ascending τ l := by
  intro i j a b hij ha hb
  have hj := h j b hb
  have ha' : (l.take (j + 1))[i]? = some a := by
    rw [List.getElem?_take, if_pos (by omega)]
    exact ha
  have hb' : (l.take (j + 1))[j]? = some b := by
    rw [List.getElem?_take, if_pos (by omega)]
    exact hb
  rw [hj] at ha' hb'
  exact (hL (τ b)).take (j + 1) i j a b hij ha' hb'

/-- A log with a positive last term ends in an entry of that term. -/
theorem exists_last_of_lastTerm_pos (h : 0 < lastTerm τ l) :
    ∃ e, l[l.length - 1]? = some e ∧ τ e = lastTerm τ l ∧ 0 < l.length := by
  cases hl : l.getLast? with
  | none => simp [lastTerm, hl] at h
  | some e =>
    refine ⟨e, by rw [← List.getLast?_eq_getElem?, hl], by simp [lastTerm, hl], ?_⟩
    cases l with
    | nil => simp at hl
    | cons _ _ => simp

theorem lastTerm_of_getElem? {e : E} (h : l[l.length - 1]? = some e) : lastTerm τ l = τ e := by
  rw [lastTerm, List.getLast?_eq_getElem?, h]
  rfl

@[simp] theorem lastTerm_nil : lastTerm τ ([] : List E) = 0 := rfl

/-- The prefix of a rooted log carries over to a log that is at least as up to
date and ends in the same term. -/
theorem Rooted.take_eq_of_lastTerm_eq {l' : List E} (h : Rooted τ L l)
    (h' : Rooted τ L l') (hpos : 0 < lastTerm τ l') (ht : lastTerm τ l = lastTerm τ l')
    (hlen : l'.length ≤ l.length) : l.take l'.length = l' := by
  obtain ⟨a, ha, hat, hal⟩ := exists_last_of_lastTerm_pos (τ := τ) (l := l) (by omega)
  obtain ⟨b, hb, hbt, hbl⟩ := exists_last_of_lastTerm_pos hpos
  have hl := h _ a ha
  have hl' := h' _ b hb
  rw [Nat.sub_add_cancel hal, List.take_length] at hl
  rw [Nat.sub_add_cancel hbl, List.take_length] at hl'
  rw [hat, ht] at hl
  rw [hbt] at hl'
  rw [hl, List.take_take, Nat.min_eq_left hlen, ← hl']

end Logs

end Consensus
