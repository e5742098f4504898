import AsterDB.Core.Consensus.State
import AsterDB.Models.Raft.Native.Types

/-!
# Majorities as a quorum system

Two majorities of one member list share a member, so the sets that contain a
deciding vote set of a configuration form a quorum system. The index that the
leader computes from its progress table is reached by such a set.
-/

namespace AsterRaft

open Std

namespace Configuration

/-- Two selections that together exceed the list overlap. -/
theorem exists_both_of_length {α : Type} {p q : α → Bool} {l : List α}
    (h : l.length < (l.filter p).length + (l.filter q).length) :
    ∃ a ∈ l, p a = true ∧ q a = true := by
  induction l with
  | nil => simp at h
  | cons a l ih =>
    by_cases hp : p a = true
    · by_cases hq : q a = true
      · exact ⟨a, by simp, hp, hq⟩
      · rw [List.filter_cons_of_pos hp, List.filter_cons_of_neg hq] at h
        simp only [List.length_cons] at h
        obtain ⟨b, hb, hpq⟩ := ih (by omega)
        exact ⟨b, List.mem_cons_of_mem _ hb, hpq⟩
    · rw [List.filter_cons_of_neg hp] at h
      have hle : ((a :: l).filter q).length ≤ (l.filter q).length + 1 := by
        rw [List.filter_cons]
        split
        · simp
        · omega
      simp only [List.length_cons] at h
      obtain ⟨b, hb, hpq⟩ := ih (by omega)
      exact ⟨b, List.mem_cons_of_mem _ hb, hpq⟩

/-- Majorities of the same members share a voter. -/
theorem hasMajority_meet {members votes votes' : ExtTreeSet NodeId}
    (h : hasMajority members votes = true) (h' : hasMajority members votes' = true) :
    ∃ v ∈ members, v ∈ votes ∧ v ∈ votes' := by
  simp only [hasMajority, gt_iff_lt, decide_eq_true_eq] at h h'
  have hlen : members.toList.length = members.size := ExtTreeSet.length_toList
  obtain ⟨v, hmember, hv, hv'⟩ := exists_both_of_length
    (p := fun v => votes.contains v) (q := fun v => votes'.contains v) (l := members.toList)
    (by omega)
  exact ⟨v, ExtTreeSet.mem_toList.mp hmember, ExtTreeSet.mem_iff_contains.mpr hv,
    ExtTreeSet.mem_iff_contains.mpr hv'⟩

variable {c : Configuration}

theorem quorum_incoming {votes : ExtTreeSet NodeId}
    (h : c.quorum votes = true) : hasMajority c.incoming votes = true := by
  exact (Bool.and_eq_true _ _ ▸ h).1

/-- The node sets that contain a deciding vote set. -/
def quorumSystem (c : Configuration) : Consensus.QuorumSystem NodeId where
  IsQuorum Q := ∃ votes, c.quorum votes = true ∧ ∀ v ∈ votes, v ∈ Q
  meet := by
    rintro P Q ⟨votes, hq, hP⟩ ⟨votes', hq', hQ⟩
    obtain ⟨v, -, hv, hv'⟩ := hasMajority_meet (quorum_incoming hq) (quorum_incoming hq')
    exact ⟨v, hP v hv, hQ v hv'⟩

/-- The voters that match the leader's quorum index are a quorum. -/
theorem isQuorum_quorumIndex {matched : NodeId → Nat} (h : 0 < c.quorumIndex matched) :
    c.quorumSystem.IsQuorum {v | c.quorumIndex matched ≤ matched v} := by
  unfold quorumIndex at h ⊢
  simp only at h ⊢
  generalize hf : List.find? _ _ = found at h ⊢
  cases found with
  | none => simp at h
  | some index =>
    have hq := List.find?_some hf
    refine ⟨_, hq, fun v hv => ?_⟩
    rw [ExtTreeSet.mem_ofList, List.contains_iff_mem, List.mem_map] at hv
    obtain ⟨p, hp, rfl⟩ := hv
    rw [List.mem_filter, List.mem_map] at hp
    obtain ⟨⟨v, _, rfl⟩, hle⟩ := hp
    exact of_decide_eq_true hle

end Configuration

end AsterRaft
