import AsterDB.Models.Raft.Interpretation.Quorum
import Mathlib.Order.Bounds.Basic
import Mathlib.Order.WellFounded

/-!
# The quorum index

What a leader commits to is read off the indexes that its voters reported. Only reported
indexes are tried, yet no index between two of them is reached by more voters than the
next reported one, so the one found is the greatest that a quorum has reached.
-/

namespace AsterRaft

open Std

namespace Configuration

/-- A configuration comes from one of its two constructors. -/
def Valid (c : Configuration) : Prop :=
  (∃ voters, new voters = .ok c) ∨ ∃ outgoing incoming, joint outgoing incoming = .ok c

/-- The voters that have reached an index. -/
def reached (c : Configuration) (matched : NodeId → Nat) (index : Nat) : ExtTreeSet NodeId :=
  c.voters.filter fun voter => index ≤ matched voter

section Votes

variable {c : Configuration} {members votes votes' : ExtTreeSet NodeId}

/-- More votes do not lose a majority. -/
theorem hasMajority_mono (hsub : ∀ v ∈ members, v ∈ votes → v ∈ votes')
    (h : hasMajority members votes = true) : hasMajority members votes' = true := by
  simp only [hasMajority, gt_iff_lt, decide_eq_true_eq, ← List.countP_eq_length_filter] at h ⊢
  refine Nat.lt_of_lt_of_le h (List.countP_mono_left fun v hv hvote => ?_)
  exact ExtTreeSet.mem_iff_contains.mp
    (hsub v (ExtTreeSet.mem_toList.mp hv) (ExtTreeSet.mem_iff_contains.mpr hvote))

theorem quorum_mono (hsub : ∀ v ∈ votes, v ∈ votes') (h : c.quorum votes = true) :
    c.quorum votes' = true := by
  rw [quorum, Bool.and_eq_true] at h ⊢
  refine ⟨hasMajority_mono (fun v _ => hsub v) h.1, ?_⟩
  cases hout : c.outgoing with
  | none => rfl
  | some outgoing =>
    rw [hout] at h
    exact hasMajority_mono (fun v _ => hsub v) h.2

/-- All members are a majority, if there is one. -/
theorem hasMajority_of_subset (hmembers : members.isEmpty = false)
    (hsub : ∀ v ∈ members, v ∈ votes) : hasMajority members votes = true := by
  have hall : members.toList.filter (fun v => votes.contains v) = members.toList := by
    rw [List.filter_eq_self]
    intro v hv
    exact ExtTreeSet.mem_iff_contains.mp (hsub v (ExtTreeSet.mem_toList.mp hv))
  have hpos : members.size ≠ 0 := by
    rw [ExtTreeSet.isEmpty_eq_size_beq_zero, beq_eq_false_iff_ne] at hmembers
    exact hmembers
  rw [hasMajority, hall, ExtTreeSet.length_toList, decide_eq_true_eq]
  omega

/-- The voters of a configuration decide together. -/
theorem quorum_voters (h : c.Valid) : c.quorum c.voters = true := by
  rcases h with ⟨voters, h⟩ | ⟨outgoing, incoming, h⟩
  · unfold new at h
    dsimp only at h
    split at h
    next => cases h
    next hvoters =>
      cases h
      rw [Bool.not_eq_true] at hvoters
      rw [quorum, Bool.and_eq_true]
      exact ⟨hasMajority_of_subset hvoters fun _ => id, rfl⟩
  · unfold joint at h
    dsimp only at h
    split at h
    next => cases h
    next hsides =>
      cases h
      rw [Bool.not_eq_true, Bool.or_eq_false_iff] at hsides
      rw [quorum, Bool.and_eq_true]
      exact ⟨hasMajority_of_subset hsides.2 fun v hv => ExtTreeSet.mem_union_iff.mpr (.inr hv),
        hasMajority_of_subset hsides.1 fun v hv => ExtTreeSet.mem_union_iff.mpr (.inl hv)⟩

end Votes

/-- The members of both sides vote. -/
theorem mem_voters_of_mem_incoming {c : Configuration} (h : c.Valid) {voter : NodeId}
    (hvoter : voter ∈ c.incoming) : voter ∈ c.voters := by
  rcases h with ⟨voters, h⟩ | ⟨outgoing, incoming, h⟩
  · unfold new at h
    dsimp only at h
    split at h
    next => cases h
    next =>
      cases h
      exact hvoter
  · unfold joint at h
    dsimp only at h
    split at h
    next => cases h
    next =>
      cases h
      exact ExtTreeSet.mem_union_iff.mpr (.inr hvoter)

/-- A search from the end of an increasing list finds the greatest. -/
theorem le_of_find?_reverse {p : Nat → Bool} {l : List Nat} {a b : Nat}
    (hsorted : l.Pairwise (· < ·)) (h : l.reverse.find? p = some a) (hb : b ∈ l) (hp : p b = true) :
    b ≤ a := by
  obtain ⟨-, before, after, hsplit, hbefore⟩ := List.find?_eq_some_iff_append.mp h
  have hdescending : (before ++ a :: after).Pairwise (· > ·) :=
    hsplit ▸ List.pairwise_reverse.mpr hsorted
  have hb : b ∈ before ++ a :: after := hsplit ▸ List.mem_reverse.mpr hb
  rw [List.mem_append, List.mem_cons] at hb
  rcases hb with hb | rfl | hb
  · have hfails := hbefore b hb
    rw [hp] at hfails
    cases hfails
  · exact Nat.le_refl _
  · exact Nat.le_of_lt ((List.pairwise_cons.mp (List.pairwise_append.mp hdescending).2.1).1 b hb)

section Indexes

variable {c : Configuration} {matched : NodeId → Nat} {index : Nat} {voter : NodeId}

@[simp]
theorem mem_reached :
    voter ∈ c.reached matched index ↔ voter ∈ c.voters ∧ index ≤ matched voter := by
  simp [reached, ExtTreeSet.mem_filter]

/-- The reported indexes. -/
def reports (c : Configuration) (matched : NodeId → Nat) : ExtTreeSet Nat :=
  ExtTreeSet.ofList (c.voters.toList.map matched)

theorem mem_reports : index ∈ c.reports matched ↔ ∃ voter ∈ c.voters, matched voter = index := by
  simp [reports, ExtTreeSet.mem_ofList, ExtTreeSet.mem_toList]

/-- The index found is the last of the reported ones that a quorum has reached. -/
theorem quorumIndex_eq : c.quorumIndex matched =
    (((c.reports matched).toList.reverse).find? fun index => c.quorum
      (c.reached matched index)).getD 0 := by
  have hreports : (c.participants.toList.map fun voter => (voter, matched voter)).map (·.2) =
      c.voters.toList.map matched := by
    rw [List.map_map]
    rfl
  have hvotes (index : Nat) : ExtTreeSet.ofList (((c.participants.toList.map fun voter =>
      (voter, matched voter)).filter fun p => index ≤ p.2).map (·.1)) =
        c.reached matched index := by
    ext voter
    simp [ExtTreeSet.mem_ofList, ExtTreeSet.mem_toList, voters]
  simp only [quorumIndex, hreports, hvotes]
  rfl

/-- A quorum has reached a reported index that is no smaller. -/
theorem exists_report_of_quorum (h : c.Valid)
    (hquorum : c.quorum (c.reached matched index) = true) :
    ∃ report ∈ c.reports matched, index ≤ report ∧ c.quorum (c.reached matched report) = true := by
  obtain ⟨some, -, hsome, -⟩ := hasMajority_meet (quorum_incoming hquorum)
    (quorum_incoming (quorum_voters h))
  -- of the voters that reached the index, one that reported the least
  obtain ⟨voter, hvoter, hleast⟩ := (measure matched).wf.has_min
    {voter | voter ∈ c.reached matched index} ⟨some, hsome⟩
  rw [Set.mem_ofPred_eq, mem_reached] at hvoter
  refine ⟨matched voter, mem_reports.mpr ⟨voter, hvoter.1, rfl⟩, hvoter.2, ?_⟩
  refine quorum_mono (fun other hother => ?_) hquorum
  exact mem_reached.mpr ⟨(mem_reached.mp hother).1, Nat.le_of_not_lt (hleast other hother)⟩

end Indexes

/-- The index a leader takes is the greatest that a quorum has reached, and two quorums share a
voter. -/
theorem quorumIndex_isGreatest {c : Configuration} (h : c.Valid) (matched : NodeId → Nat) :
    IsGreatest {index | c.quorum (c.reached matched index) = true} (c.quorumIndex matched) ∧
      ∀ votes votes' : ExtTreeSet NodeId, c.quorum votes = true → c.quorum votes' = true →
        ∃ voter ∈ c.voters, voter ∈ votes ∧ voter ∈ votes' := by
  refine ⟨?_, fun votes votes' hvotes hvotes' => ?_⟩
  · -- the search meets a reported index that a quorum reached: the least of all, at least
    have hzero : c.quorum (c.reached matched 0) = true :=
      quorum_mono (fun v hv => mem_reached.mpr ⟨hv, Nat.zero_le _⟩) (quorum_voters h)
    obtain ⟨report, hreport, -, hquorum⟩ := exists_report_of_quorum h hzero
    rw [quorumIndex_eq]
    cases hfound : (c.reports matched).toList.reverse.find? fun index =>
        c.quorum (c.reached matched index) with
    | none =>
      rw [List.find?_eq_none] at hfound
      exact absurd hquorum
        (hfound report (List.mem_reverse.mpr (ExtTreeSet.mem_toList.mpr hreport)))
    | some found =>
      have hreached := List.find?_some hfound
      refine ⟨hreached, fun index hindex => ?_⟩
      obtain ⟨report, hreport, hle, hquorum⟩ := exists_report_of_quorum h hindex
      have hsorted : (c.reports matched).toList.Pairwise (· < ·) :=
        ExtTreeSet.ordered_toList.imp Nat.compare_eq_lt.mp
      exact hle.trans
        (le_of_find?_reverse hsorted hfound (ExtTreeSet.mem_toList.mpr hreport) hquorum)
  · obtain ⟨voter, hmember, hvoter, hvoter'⟩ :=
      hasMajority_meet (quorum_incoming hvotes) (quorum_incoming hvotes')
    exact ⟨voter, mem_voters_of_mem_incoming h hmember, hvoter, hvoter'⟩

/-- A joint configuration of three outgoing voters and one incoming voter. -/
def threeAndOne : Configuration where
  participants := ExtTreeSet.ofList [1, 2, 3] ∪ ExtTreeSet.ofList [4]
  incoming := ExtTreeSet.ofList [4]
  outgoing := some (ExtTreeSet.ofList [1, 2, 3])

/-- Two of the three and the one have reached index five. -/
theorem quorumIndex_threeAndOne : joint [1, 2, 3] [4] = .ok threeAndOne ∧
    IsGreatest {index | threeAndOne.quorum
      (threeAndOne.reached (fun voter => if voter = 3 then 0 else 5) index) = true} 5 := by
  have hfive : (threeAndOne.quorumIndex fun voter => if voter = 3 then 0 else 5) = 5 := by
    decide
  have hgreatest := (quorumIndex_isGreatest (.inr ⟨[1, 2, 3], [4], rfl⟩)
    fun voter => if voter = 3 then 0 else 5 : _ ∧ _).1
  exact ⟨rfl, hfive ▸ hgreatest⟩

end Configuration

end AsterRaft
