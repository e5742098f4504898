import AsterDB.Core.Consensus.State

/-!
# The protocol invariant and its consequences

An index of a term is blocked once every quorum contains a node that has left
the term without acknowledging it: it can then never be committed. Everything
a node acknowledged and that is not blocked stays in its log, and a vote
carries it into the log of the candidate. Election safety, log matching and
leader completeness follow without any induction over terms.
-/

namespace Consensus

variable {N E : Type*}

namespace State

/-- Position `i`, counted from one, of the leader log of `T` holds an entry of `T` itself. -/
def Own (τ : E → ℕ) (s : State N E) (T i : ℕ) : Prop :=
  ∃ e, 0 < i ∧ (s.leaderLog T)[i - 1]? = some e ∧ τ e = T

/-- Every quorum has a node past `T` that never acknowledged `i`. -/
def Blocked (qs : QuorumSystem N) (s : State N E) (T i : ℕ) : Prop :=
  ∀ Q, qs.IsQuorum Q → ∃ v ∈ Q, T < s.term v ∧ s.acked v T < i

/-- A quorum acknowledged an entry of the leader's own term. -/
def Committed (τ : E → ℕ) (qs : QuorumSystem N) (s : State N E) (T i : ℕ) : Prop :=
  s.Own τ T i ∧ ∃ Q, qs.IsQuorum Q ∧ ∀ v ∈ Q, i ≤ s.acked v T

/-- A committed index can no longer be blocked. -/
theorem Committed.not_blocked {τ : E → ℕ} {qs : QuorumSystem N} {s : State N E} {T i : ℕ}
    (h : s.Committed τ qs T i) : ¬ s.Blocked qs T i := by
  obtain ⟨_, Q, hQ, hacked⟩ := h
  intro hb
  obtain ⟨v, hv, _, hlt⟩ := hb Q hQ
  exact absurd (hacked v hv) (by omega)

/-- What holds of the protocol state in every run. -/
structure Inv (τ : E → ℕ) (qs : QuorumSystem N) (s : State N E) : Prop where
  leaderLog_rooted : ∀ T, Rooted τ s.leaderLog (s.leaderLog T)
  leaderLog_ascending : ∀ T, Ascending τ (s.leaderLog T)
  log_rooted : ∀ n, Rooted τ s.leaderLog (s.log n)
  stood_rooted : ∀ T n, Rooted τ s.leaderLog (s.stood T n)
  log_term_le : ∀ n, ∀ e ∈ s.log n, τ e ≤ s.term n
  stood_term_lt : ∀ T n, s.vote n T = some n → ∀ e ∈ s.stood T n, τ e < T
  vote_term : ∀ v T c, s.vote v T = some c → 0 < T ∧ T ≤ s.term v ∧ s.vote c T = some c
  leaderLog_nil : ∀ T, s.leader T = none → s.leaderLog T = []
  elected : ∀ T n, s.leader T = some n → ∃ Q, qs.IsQuorum Q ∧ ∀ v ∈ Q, s.vote v T = some n
  extends_stood : ∀ T n, s.leader T = some n →
    ∃ own, own ≠ [] ∧ s.leaderLog T = s.stood T n ++ own ∧ ∀ e ∈ own, τ e = T
  leader_holds : ∀ T n, s.leader T = some n → s.term n = T → s.log n = s.leaderLog T
  acked_le : ∀ v T, s.acked v T ≤ (s.leaderLog T).length
  acked_term : ∀ v T, 0 < s.acked v T → T ≤ s.term v
  ack_keep : ∀ v T i, s.Own τ T i → i ≤ s.acked v T → ¬ s.Blocked qs T i →
    (s.log v).take i = (s.leaderLog T).take i
  vote_keep : ∀ v c U T i, s.vote v U = some c → T < U → s.Own τ T i → i ≤ s.acked v T →
    ¬ s.Blocked qs T i → (s.stood U c).take i = (s.leaderLog T).take i

/-- The state before anything happened. -/
def init : State N E where
  term _ := 0
  vote _ _ := none
  log _ := []
  stood _ _ := []
  leader _ := none
  leaderLog _ := []
  acked _ _ := 0

theorem inv_init (τ : E → ℕ) (qs : QuorumSystem N) : (init : State N E).Inv τ qs where
  leaderLog_rooted _ := Rooted.nil
  leaderLog_ascending _ := by intro i j a b _ ha; simp [init] at ha
  log_rooted _ := Rooted.nil
  stood_rooted _ _ := Rooted.nil
  log_term_le _ := by simp [init]
  stood_term_lt _ _ h := by simp [init] at h
  vote_term _ _ _ h := by simp [init] at h
  leaderLog_nil _ _ := rfl
  elected _ _ h := by simp [init] at h
  extends_stood _ _ h := by simp [init] at h
  leader_holds _ _ h := by simp [init] at h
  acked_le _ _ := by simp [init]
  acked_term _ _ h := by simp [init] at h
  ack_keep _ _ _ h := by obtain ⟨e, _, h, _⟩ := h; simp [init] at h
  vote_keep _ _ _ _ _ h := by simp [init] at h

section Consequences

variable {τ : E → ℕ} {qs : QuorumSystem N} {s : State N E}

variable {c : N}

/-- Two nodes with a quorum of votes each in one term are the same node. -/
theorem votes_unique {T : ℕ} {d : N} (hc : ∃ Q, qs.IsQuorum Q ∧ ∀ v ∈ Q, s.vote v T = some c)
    (hd : ∃ Q, qs.IsQuorum Q ∧ ∀ v ∈ Q, s.vote v T = some d) : c = d := by
  obtain ⟨P, hP, hp⟩ := hc
  obtain ⟨Q, hQ, hq⟩ := hd
  obtain ⟨v, hvP, hvQ⟩ := qs.meet hP hQ
  exact Option.some.inj ((hp v hvP).symm.trans (hq v hvQ))

/-- A node with a quorum of votes voted for itself. -/
theorem Inv.votes_self (h : s.Inv τ qs) {T : ℕ}
    (hc : ∃ Q, qs.IsQuorum Q ∧ ∀ v ∈ Q, s.vote v T = some c) : s.vote c T = some c := by
  obtain ⟨Q, hQ, hq⟩ := hc
  obtain ⟨v, hv, _⟩ := qs.meet hQ hQ
  exact (h.vote_term v T c (hq v hv)).2.2

theorem Inv.leader_term (h : s.Inv τ qs) {T : ℕ} (hc : s.leader T = some c) :
    0 < T ∧ T ≤ s.term c :=
  let hv := h.vote_term c T c (h.votes_self (h.elected T c hc))
  ⟨hv.1, hv.2.1⟩

/-- A node has not voted in a term it did not enter. -/
theorem Inv.vote_none (h : s.Inv τ qs) {n : N} {T : ℕ} (hT : s.term n < T) : s.vote n T = none := by
  cases hv : s.vote n T with
  | none => rfl
  | some c => exact absurd (h.vote_term n T c hv).2.1 (by omega)

variable {l : List E} {e : E}

/-- The term of an entry of a rooted log has an elected leader. -/
theorem Inv.leader_of_mem (h : s.Inv τ qs) (hl : Rooted τ s.leaderLog l)
    {i : ℕ} (he : l[i]? = some e) : ∃ c, s.leader (τ e) = some c := by
  cases hlead : s.leader (τ e) with
  | some c => exact ⟨c, rfl⟩
  | none =>
    have hget := hl.getElem? he
    rw [h.leaderLog_nil _ hlead] at hget
    simp at hget

theorem Inv.term_pos (h : s.Inv τ qs) (hl : Rooted τ s.leaderLog l)
    {i : ℕ} (he : l[i]? = some e) : 0 < τ e := by
  obtain ⟨c, hc⟩ := h.leader_of_mem hl he
  exact (h.leader_term hc).1

/-- Entries of a leader log belong to its term or an earlier one. -/
theorem Inv.leaderLog_term_le (h : s.Inv τ qs) {T : ℕ} (he : e ∈ s.leaderLog T) : τ e ≤ T := by
  cases hlead : s.leader T with
  | none => rw [h.leaderLog_nil T hlead] at he; simp at he
  | some c =>
    obtain ⟨own, _, happ, hown⟩ := h.extends_stood T c hlead
    rw [happ, List.mem_append] at he
    rcases he with he | he
    · exact (h.stood_term_lt T c (h.votes_self (h.elected T c hlead)) e he).le
    · exact (hown e he).le

variable {T U i : ℕ}

section

variable (h : s.Inv τ qs) (hTU : T < U) (hc : ∃ Q, qs.IsQuorum Q ∧ ∀ v ∈ Q, s.vote v U = some c)
include h hTU hc

/-- An index that is not blocked was acknowledged by a voter of every later term. -/
theorem Inv.acked_of_votes (hb : ¬ s.Blocked qs T i) :
    ∃ v, s.vote v U = some c ∧ i ≤ s.acked v T := by
  obtain ⟨Q, hQ, hq⟩ := hc
  simp only [Blocked, not_forall, not_exists, not_and, Nat.not_lt] at hb
  obtain ⟨P, hP, hp⟩ := hb
  obtain ⟨v, hvQ, hvP⟩ := qs.meet hQ hP
  have hvote := hq v hvQ
  exact ⟨v, hvote, hp v hvP (lt_of_lt_of_le hTU (h.vote_term v U c hvote).2.1)⟩

/-- What is not blocked lies in the log of every candidate with a quorum of votes. -/
theorem Inv.stood_of_votes (hown : s.Own τ T i)
    (hb : ¬ s.Blocked qs T i) : (s.stood U c).take i = (s.leaderLog T).take i := by
  obtain ⟨v, hvote, hacked⟩ := h.acked_of_votes hTU hc hb
  exact h.vote_keep v c U T i hvote hTU hown hacked hb

end

theorem Own.le_length {T i : ℕ} (h : s.Own τ T i) : i ≤ (s.leaderLog T).length := by
  obtain ⟨e, hi, he, _⟩ := h
  have := (List.getElem?_eq_some_iff.mp he).1
  omega

/-- What is not blocked lies in the log of every later leader. -/
theorem Inv.leaderLog_of_later (h : s.Inv τ qs) (hTU : T < U)
    (hc : s.leader U = some c) (hown : s.Own τ T i) (hb : ¬ s.Blocked qs T i) :
    (s.leaderLog U).take i = (s.leaderLog T).take i := by
  have hstood := h.stood_of_votes hTU (h.elected U c hc) hown hb
  obtain ⟨own, _, happ, _⟩ := h.extends_stood U c hc
  have hlen : i ≤ (s.stood U c).length := by
    have hl := congrArg List.length hstood
    simp only [List.length_take] at hl
    have := hown.le_length
    omega
  rw [happ, List.take_append_of_le_length hlen, hstood]

/-- Leader completeness: a committed prefix is in every later leader's log. -/
theorem Inv.leaderLog_of_committed (h : s.Inv τ qs) (hcom : s.Committed τ qs T i) (hTU : T < U)
    (hc : s.leader U = some c) : (s.leaderLog U).take i = (s.leaderLog T).take i :=
  h.leaderLog_of_later hTU hc hcom.1 hcom.not_blocked

/-- The log a candidate stood with dominates a voter's log that is at most as up
to date, on everything of an earlier term that is not blocked. -/
theorem Inv.upToDate_keep (h : s.Inv τ qs) {lv : List E} (hl : Rooted τ s.leaderLog l)
    (hlv : Rooted τ s.leaderLog lv) (hup : UpToDate τ l lv) {T i : ℕ} (hown : s.Own τ T i)
    (hb : ¬ s.Blocked qs T i) (hv : lv.take i = (s.leaderLog T).take i) :
    l.take i = (s.leaderLog T).take i := by
  obtain ⟨e, hi, he, heT⟩ := hown
  have hown' : s.Own τ T i := ⟨e, hi, he, heT⟩
  have hTl := hown'.le_length
  have hlvlen : i ≤ lv.length := by
    have hlen := congrArg List.length hv
    simp only [List.length_take] at hlen
    omega
  have hve : lv[i - 1]? = some e := by
    have hget := congrArg (fun x : List E => x[i - 1]?) hv
    simpa only [List.getElem?_take, show i - 1 < i by omega, ite_true, he] using hget
  have hTpos : 0 < T := heT ▸ h.term_pos (h.leaderLog_rooted T) he
  obtain ⟨z, hz⟩ : ∃ z, lv[lv.length - 1]? = some z :=
    ⟨_, List.getElem?_eq_getElem (by omega)⟩
  have hTz : T ≤ lastTerm τ lv := by
    rw [lastTerm_of_getElem? hz, ← heT]
    exact hlv.ascending h.leaderLog_ascending (i - 1) (lv.length - 1) e z (by omega) hve hz
  rcases hup with hlt | ⟨heq, hlen⟩
  · -- the last entry belongs to a later leader, which already holds the prefix
    obtain ⟨b, hbl, hbt, hpos⟩ := exists_last_of_lastTerm_pos (τ := τ) (l := l) (by omega)
    obtain ⟨c, hc⟩ := h.leader_of_mem hl hbl
    have hlater := h.leaderLog_of_later (by omega) hc hown' hb
    have hroot := hl _ b hbl
    rw [Nat.sub_add_cancel hpos, List.take_length] at hroot
    have hil : i ≤ l.length := by
      by_contra hlong
      have hbL := hl.getElem? hbl
      have heL : (s.leaderLog (τ b))[i - 1]? = some e := by
        have hget := congrArg (fun x : List E => x[i - 1]?) hlater
        simpa only [List.getElem?_take, show i - 1 < i by omega, ite_true, he] using hget
      have := h.leaderLog_ascending (τ b) (l.length - 1) (i - 1) b e (by omega) hbL heL
      omega
    rw [hroot, List.take_take, Nat.min_eq_left hil, hlater]
  · have htake := hl.take_eq_of_lastTerm_eq hlv (by omega) heq hlen
    rw [← hv, ← htake, List.take_take, Nat.min_eq_left hlvlen]

end Consequences

end State

end Consensus
