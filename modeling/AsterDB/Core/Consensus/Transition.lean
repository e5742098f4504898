import AsterDB.Core.Consensus.Invariant

/-!
# Transitions of the protocol state

Six moves change the state: entering a term, standing for election, voting,
the first entry of an elected leader, a further entry of a leader, and copying
a prefix of the leader's log. Each one preserves the invariant, and `Evolve`
records what the move of one node leaves unchanged for all the others.
-/

namespace Consensus

variable {N E : Type*}

namespace State

/-- What a move of node `n` may change. -/
structure Evolve (n : N) (s s' : State N E) : Prop where
  term_le : ∀ v, s.term v ≤ s'.term v
  vote_mono : ∀ v T c, s.vote v T = some c → s'.vote v T = some c
  leader_mono : ∀ T c, s.leader T = some c → s'.leader T = some c
  leaderLog_mono : ∀ T, s.leaderLog T <+: s'.leaderLog T
  acked_mono : ∀ v T, s.acked v T ≤ s'.acked v T
  acked_past : ∀ v T, T < s.term v → s'.acked v T = s.acked v T
  stood_eq : ∀ T c, s.vote c T = some c → s'.stood T c = s.stood T c
  term_other : ∀ v, v ≠ n → s'.term v = s.term v
  vote_other : ∀ v, v ≠ n → s'.vote v = s.vote v
  log_other : ∀ v, v ≠ n → s'.log v = s.log v
  leader_other : ∀ T c, c ≠ n → s'.leader T = some c → s.leader T = some c
  leaderLog_other : ∀ T c, c ≠ n → s.leader T = some c → s'.leaderLog T = s.leaderLog T

namespace Evolve

variable {n : N} {s s' s'' : State N E}

theorem refl (n : N) (s : State N E) : Evolve n s s where
  term_le _ := le_rfl
  vote_mono _ _ _ h := h
  leader_mono _ _ h := h
  leaderLog_mono _ := List.prefix_rfl
  acked_mono _ _ := le_rfl
  acked_past _ _ _ := rfl
  stood_eq _ _ _ := rfl
  term_other _ _ := rfl
  vote_other _ _ := rfl
  log_other _ _ := rfl
  leader_other _ _ _ h := h
  leaderLog_other _ _ _ _ := rfl

variable {T i : ℕ}

theorem take_leaderLog (h : Evolve n s s') (hi : i ≤ (s.leaderLog T).length) :
    (s'.leaderLog T).take i = (s.leaderLog T).take i := by
  obtain ⟨rest, hrest⟩ := h.leaderLog_mono T
  rw [← hrest, List.take_append_of_le_length hi]

theorem getElem?_leaderLog (h : Evolve n s s') {e : E}
    (he : (s.leaderLog T)[i]? = some e) : (s'.leaderLog T)[i]? = some e := by
  obtain ⟨rest, hrest⟩ := h.leaderLog_mono T
  rw [← hrest, List.getElem?_append_left (List.getElem?_eq_some_iff.mp he).1]
  exact he

theorem own (h : Evolve n s s') {τ : E → ℕ} (ho : s.Own τ T i) : s'.Own τ T i := by
  obtain ⟨e, hi, he, hT⟩ := ho
  exact ⟨e, hi, h.getElem?_leaderLog he, hT⟩

theorem own_back (h : Evolve n s s') {τ : E → ℕ} (ho : s'.Own τ T i)
    (hi : i ≤ (s.leaderLog T).length) : s.Own τ T i := by
  obtain ⟨e, hpos, he, hT⟩ := ho
  obtain ⟨rest, hrest⟩ := h.leaderLog_mono T
  rw [← hrest, List.getElem?_append_left (by omega)] at he
  exact ⟨e, hpos, he, hT⟩

variable {qs : QuorumSystem N}

variable (h : Evolve n s s')
include h

/-- Blocking is permanent. -/
theorem blocked (hb : s.Blocked qs T i) : s'.Blocked qs T i := by
  intro Q hQ
  obtain ⟨v, hv, hT, hlt⟩ := hb Q hQ
  refine ⟨v, hv, lt_of_lt_of_le hT (h.term_le v), ?_⟩
  rw [h.acked_past v T hT]
  exact hlt

/-- So is commitment. -/
theorem committed {τ : E → ℕ} (hc : s.Committed τ qs T i) : s'.Committed τ qs T i := by
  obtain ⟨ho, Q, hQ, hq⟩ := hc
  exact ⟨h.own ho, Q, hQ, fun v hv => (hq v hv).trans (h.acked_mono v T)⟩

/-- A move that adds no acknowledgement of `v` for `T` keeps what `v` acknowledged,
if the log of `v` stays or is still known to agree. -/
theorem ack_keep {τ : E → ℕ} (hi : s.Inv τ qs) {v : N} (hlog : s'.log v = s.log v)
    (hack : s'.acked v T = s.acked v T) (ho : s'.Own τ T i) (hle : i ≤ s'.acked v T)
    (hb : ¬ s'.Blocked qs T i) : (s'.log v).take i = (s'.leaderLog T).take i := by
  rw [hack] at hle
  have hlen := hle.trans (hi.acked_le v T)
  rw [hlog, h.take_leaderLog hlen]
  exact hi.ack_keep v T i (h.own_back ho hlen) hle fun hb' => hb (h.blocked hb')

/-- Votes cast before a move keep what they carried. -/
theorem vote_keep {τ : E → ℕ} (hi : s.Inv τ qs) {v c : N} {U T i : ℕ}
    (hv : s.vote v U = some c) (hTU : T < U) (ho : s'.Own τ T i) (hle : i ≤ s'.acked v T)
    (hb : ¬ s'.Blocked qs T i) : (s'.stood U c).take i = (s'.leaderLog T).take i := by
  obtain ⟨_, hUv, hcc⟩ := hi.vote_term v U c hv
  rw [h.acked_past v T (by omega)] at hle
  have hlen := hle.trans (hi.acked_le v T)
  rw [h.stood_eq U c hcc, h.take_leaderLog hlen]
  exact hi.vote_keep v c U T i hv hTU (h.own_back ho hlen) hle fun hb' => hb (h.blocked hb')

end Evolve

section Moves

variable [DecidableEq N]

/-- A function changed for one node in one term stays as it is elsewhere. -/
theorem update_update_of_ne {α : Type*} (f : N → ℕ → α) {n v : N} {T U : ℕ} (x : α)
    (h : ¬ (v = n ∧ U = T)) : Function.update f n (Function.update (f n) T x) v U = f v U := by
  by_cases hv : v = n
  · subst hv
    rw [Function.update_self, Function.update_of_ne fun hU => h ⟨rfl, hU⟩]
  · rw [Function.update_of_ne hv]

/-- Enter a higher term without voting. -/
def advanceTerm (s : State N E) (n : N) (T : ℕ) : State N E :=
  { s with term := Function.update s.term n T }

/-- Enter a higher term as a candidate. -/
def stand (s : State N E) (n : N) (T : ℕ) : State N E :=
  { s with
    term := Function.update s.term n T
    vote := Function.update s.vote n (Function.update (s.vote n) T (some n))
    stood := Function.update s.stood T (Function.update (s.stood T) n (s.log n)) }

/-- Vote for a candidate in the current term. -/
def castVote (s : State N E) (n c : N) : State N E :=
  { s with vote := Function.update s.vote n (Function.update (s.vote n) (s.term n) (some c)) }

/-- Write an entry as the leader of the current term. -/
def lead (s : State N E) (n : N) (e : E) : State N E :=
  { s with
    log := Function.update s.log n (s.log n ++ [e])
    leader := Function.update s.leader (s.term n) (some n)
    leaderLog := Function.update s.leaderLog (s.term n) (s.log n ++ [e])
    acked := Function.update s.acked n
      (Function.update (s.acked n) (s.term n) ((s.log n).length + 1)) }

/-- The log after copying the first `m` entries of a leader log: unchanged if
it already starts with them, else exactly these entries. -/
def copied [DecidableEq E] (l L : List E) (m : ℕ) : List E :=
  if l.take m = L.take m then l else L.take m

/-- Copy and acknowledge a prefix of the log of the current term's leader. -/
def accept [DecidableEq E] (s : State N E) (n : N) (m : ℕ) : State N E :=
  { s with
    log := Function.update s.log n (copied (s.log n) (s.leaderLog (s.term n)) m)
    acked := Function.update s.acked n
      (Function.update (s.acked n) (s.term n) (max (s.acked n (s.term n)) m)) }

variable {τ : E → ℕ} {qs : QuorumSystem N} {s : State N E}

variable {n c : N} {T : ℕ}

/-- Entering a term is invisible to the logs. -/
theorem evolve_advanceTerm (hT : s.term n ≤ T) : Evolve n s (s.advanceTerm n T) :=
  { Evolve.refl n s with
    term_le := fun v => by
      by_cases hv : v = n
      · subst hv; simpa [advanceTerm] using hT
      · simp [advanceTerm, Function.update_of_ne hv]
    term_other := fun v hv => by simp [advanceTerm, Function.update_of_ne hv] }

theorem Inv.advanceTerm (h : s.Inv τ qs) (hT : s.term n < T) : (s.advanceTerm n T).Inv τ qs := by
  have hev := evolve_advanceTerm (s := s) hT.le
  refine
    { h with
      log_term_le := fun v e he => (h.log_term_le v e he).trans (hev.term_le v)
      vote_term := fun v U c hv =>
        ⟨(h.vote_term v U c hv).1, (h.vote_term v U c hv).2.1.trans (hev.term_le v),
          (h.vote_term v U c hv).2.2⟩
      leader_holds := ?_
      acked_term := fun v U hU => (h.acked_term v U hU).trans (hev.term_le v)
      ack_keep := fun v U i => hev.ack_keep h rfl rfl
      vote_keep := fun v c U V i hv => hev.vote_keep h hv }
  intro U c hc hterm
  by_cases hcn : c = n
  · subst hcn
    have hle := (h.leader_term hc).2
    simp only [State.advanceTerm, Function.update_self] at hterm
    omega
  · rw [hev.term_other c hcn] at hterm
    exact h.leader_holds U c hc hterm

/-- A first vote in a term is new, or the vote was there before. -/
theorem vote_cases {v d : N} {T U : ℕ}
    (hv : Function.update s.vote n (Function.update (s.vote n) T (some c)) v U = some d) :
    (v = n ∧ U = T ∧ d = c) ∨ s.vote v U = some d := by
  by_cases hnew : v = n ∧ U = T
  · obtain ⟨rfl, rfl⟩ := hnew
    simp only [Function.update_self, Option.some.injEq] at hv
    exact Or.inl ⟨rfl, rfl, hv.symm⟩
  · rw [update_update_of_ne _ _ hnew] at hv
    exact Or.inr hv

theorem vote_mono_of_none {v d : N} {T U : ℕ} (hnone : s.vote n T = none)
    (hv : s.vote v U = some d) :
    Function.update s.vote n (Function.update (s.vote n) T (some c)) v U = some d := by
  rwa [update_update_of_ne]
  rintro ⟨rfl, rfl⟩
  simp [hnone] at hv

/-- Standing for election changes nothing another node relies on. -/
theorem evolve_stand (hT : s.term n ≤ T) (hnone : s.vote n T = none) : Evolve n s (s.stand n T) :=
  { evolve_advanceTerm hT with
    vote_mono := fun _ _ _ => vote_mono_of_none hnone
    stood_eq := fun U c hc => by
      by_cases hU : U = T
      · subst hU
        by_cases hcn : c = n
        · subst hcn; simp [hnone] at hc
        · simp [stand, Function.update_of_ne hcn]
      · simp [stand, Function.update_of_ne hU]
    vote_other := fun v hv => by simp [stand, Function.update_of_ne hv] }

theorem Inv.stand (h : s.Inv τ qs) (hT : s.term n < T) : (s.stand n T).Inv τ qs := by
  have hnone := h.vote_none hT
  have hev := evolve_stand hT.le hnone
  have hself : (s.stand n T).vote n T = some n := by simp [State.stand]
  have hstood : (s.stand n T).stood T n = s.log n := by simp [State.stand]
  refine
    { h with
      stood_rooted := ?_
      log_term_le := fun v e he => (h.log_term_le v e he).trans (hev.term_le v)
      stood_term_lt := ?_
      vote_term := ?_
      elected := fun U c hc =>
        let ⟨Q, hQ, hq⟩ := h.elected U c hc
        ⟨Q, hQ, fun v hv => hev.vote_mono v U c (hq v hv)⟩
      extends_stood := ?_
      leader_holds := ?_
      acked_term := fun v U hU => (h.acked_term v U hU).trans (hev.term_le v)
      ack_keep := fun v U i => hev.ack_keep h rfl rfl
      vote_keep := ?_ }
  · intro U v
    by_cases hU : U = T
    · subst hU
      by_cases hv : v = n
      · subst hv; rw [hstood]; exact h.log_rooted v
      · simpa [State.stand, Function.update_of_ne hv] using h.stood_rooted U v
    · simpa [State.stand, Function.update_of_ne hU] using h.stood_rooted U v
  · intro U v hv e he
    rcases vote_cases hv with ⟨rfl, rfl, _⟩ | hold
    · rw [hstood] at he
      exact lt_of_le_of_lt (h.log_term_le v e he) hT
    · rw [hev.stood_eq U v hold] at he
      exact h.stood_term_lt U v hold e he
  · intro v U c hv
    rcases vote_cases hv with ⟨rfl, rfl, rfl⟩ | hold
    · exact ⟨by omega, by simp [State.stand], hself⟩
    · obtain ⟨h0, h1, h2⟩ := h.vote_term v U c hold
      exact ⟨h0, h1.trans (hev.term_le v), hev.vote_mono c U c h2⟩
  · intro U c hc
    obtain ⟨own, hne, happ, hown⟩ := h.extends_stood U c hc
    refine ⟨own, hne, ?_, hown⟩
    rw [hev.stood_eq U c (h.votes_self (h.elected U c hc))]
    exact happ
  · intro U c hc hterm
    by_cases hcn : c = n
    · subst hcn
      have hle := (h.leader_term hc).2
      simp only [State.stand, Function.update_self] at hterm
      omega
    · rw [hev.term_other c hcn] at hterm
      exact h.leader_holds U c hc hterm
  · intro v c U V i hv hVU ho hle hb
    rcases vote_cases hv with ⟨rfl, rfl, rfl⟩ | hold
    · rw [hstood]
      exact h.ack_keep _ V i ho hle fun hb' => hb (hev.blocked hb')
    · exact hev.vote_keep h hold hVU ho hle hb

theorem evolve_castVote (hnone : s.vote n (s.term n) = none) : Evolve n s (s.castVote n c) :=
  { Evolve.refl n s with
    vote_mono := fun _ _ _ => vote_mono_of_none hnone
    vote_other := fun v hv => by simp [castVote, Function.update_of_ne hv] }

/-- Voting for a candidate whose log is at least as up to date. -/
theorem Inv.castVote (h : s.Inv τ qs) (hnone : s.vote n (s.term n) = none)
    (hc : s.vote c (s.term n) = some c)
    (hup : UpToDate τ (s.stood (s.term n) c) (s.log n)) : (s.castVote n c).Inv τ qs := by
  have hev := evolve_castVote (s := s) (c := c) hnone
  have hne : c ≠ n := by
    rintro rfl
    simp [hnone] at hc
  refine
    { h with
      stood_term_lt := ?_
      vote_term := ?_
      elected := fun U d hd =>
        let ⟨Q, hQ, hq⟩ := h.elected U d hd
        ⟨Q, hQ, fun v hv => hev.vote_mono v U d (hq v hv)⟩
      ack_keep := fun v U i => hev.ack_keep h rfl rfl
      vote_keep := ?_ }
  · intro U v hv
    rcases vote_cases hv with ⟨rfl, rfl, rfl⟩ | hold
    · exact absurd rfl hne
    · exact h.stood_term_lt U v hold
  · intro v U d hv
    rcases vote_cases hv with ⟨rfl, rfl, rfl⟩ | hold
    · obtain ⟨h0, _, _⟩ := h.vote_term d _ d hc
      exact ⟨h0, le_rfl, hev.vote_mono d _ d hc⟩
    · obtain ⟨h0, h1, h2⟩ := h.vote_term v U d hold
      exact ⟨h0, h1, hev.vote_mono d U d h2⟩
  · intro v d U T i hv hTU ho hle hb
    rcases vote_cases hv with ⟨rfl, rfl, rfl⟩ | hold
    · have hkeep := h.ack_keep _ T i ho hle fun hb' => hb (hev.blocked hb')
      exact h.upToDate_keep (h.stood_rooted _ _) (h.log_rooted _) hup ho
        (fun hb' => hb (hev.blocked hb')) hkeep
    · exact hev.vote_keep h hold hTU ho hle hb

/-- A node may write as leader of its term: it leads already, or it has won the
vote with the log it still holds. -/
def MayLead (qs : QuorumSystem N) (s : State N E) (n : N) : Prop :=
  s.leader (s.term n) = some n ∨
    (s.leader (s.term n) = none ∧ s.stood (s.term n) n = s.log n ∧
      ∃ Q, qs.IsQuorum Q ∧ ∀ v ∈ Q, s.vote v (s.term n) = some n)

omit [DecidableEq N] in
theorem Inv.leaderLog_prefix_log (h : s.Inv τ qs) (hlead : s.MayLead qs n) :
    s.leaderLog (s.term n) <+: s.log n := by
  rcases hlead with hl | ⟨hl, _⟩
  · rewrite [h.leader_holds _ n hl rfl]
    exact List.prefix_rfl
  · rw [h.leaderLog_nil _ hl]
    exact List.nil_prefix

variable {e : E}

section

variable (h : s.Inv τ qs) (hlead : s.MayLead qs n)
include h hlead

theorem Inv.evolve_lead : Evolve n s (s.lead n e) where
  __ := Evolve.refl n s
  leader_mono U c hc := by
    by_cases hU : U = s.term n
    · subst hU
      rcases hlead with hl | ⟨hl, _⟩
      · rw [hl] at hc; simpa [lead] using hc
      · simp [hl] at hc
    · simpa [lead, Function.update_of_ne hU] using hc
  leaderLog_mono U := by
    by_cases hU : U = s.term n
    · subst hU
      simp only [lead, Function.update_self]
      exact (h.leaderLog_prefix_log hlead).trans (List.prefix_append _ _)
    · simp [lead, Function.update_of_ne hU]
  acked_mono v U := by
    by_cases hvU : v = n ∧ U = s.term n
    · obtain ⟨rfl, rfl⟩ := hvU
      have h1 := h.acked_le v (s.term v)
      have h2 := (h.leaderLog_prefix_log hlead).length_le
      simp only [lead, Function.update_self]
      omega
    · exact (update_update_of_ne s.acked _ hvU).ge
  acked_past v U hU := update_update_of_ne s.acked _ fun ⟨hv, hU'⟩ => by
    rw [hU', hv] at hU
    exact lt_irrefl _ hU
  log_other v hv := by simp [lead, Function.update_of_ne hv]
  leader_other U c hc hl := by
    by_cases hU : U = s.term n
    · subst hU
      simp only [lead, Function.update_self, Option.some.injEq] at hl
      exact absurd hl.symm hc
    · simpa [lead, Function.update_of_ne hU] using hl
  leaderLog_other U c hc hl := by
    have hU : U ≠ s.term n := by
      rintro rfl
      rcases hlead with hl' | ⟨hl', _⟩
      · exact hc (Option.some.inj (hl.symm.trans hl'))
      · simp [hl'] at hl
    simp [lead, Function.update_of_ne hU]

/-- The leader's own entry keeps its log rooted. -/
theorem Inv.rooted_lead
    (he : τ e = s.term n) : Rooted τ (s.lead n e).leaderLog (s.log n ++ [e]) := by
  have hev := h.evolve_lead (e := e) hlead
  intro i x hx
  by_cases hi : i < (s.log n).length
  · rw [List.getElem?_append_left hi] at hx
    rw [List.take_append_of_le_length hi]
    exact (h.log_rooted n).mono hev.leaderLog_mono i x hx
  · have hlen := (List.getElem?_eq_some_iff.mp hx).1
    have hi' : i = (s.log n).length := by
      simp only [List.length_append, List.length_singleton] at hlen
      omega
    subst hi'
    have hxe : x = e := by simpa using hx.symm
    subst hxe
    simp [lead, he]

theorem Inv.lead (he : τ e = s.term n) : (s.lead n e).Inv τ qs := by
  have hev := h.evolve_lead (e := e) hlead
  have hroot := h.rooted_lead hlead he
  have hL : (s.lead n e).leaderLog (s.term n) = s.log n ++ [e] := by simp [State.lead]
  have hlog : (s.lead n e).log n = s.log n ++ [e] := by simp [State.lead]
  have hLne : ∀ {U}, U ≠ s.term n → (s.lead n e).leaderLog U = s.leaderLog U := fun hU => by
    simp [State.lead, Function.update_of_ne hU]
  have hleader : ∀ {U c}, (s.lead n e).leader U = some c →
      (U = s.term n ∧ c = n) ∨ (U ≠ s.term n ∧ s.leader U = some c) := by
    intro U c hc
    by_cases hU : U = s.term n
    · subst hU
      simp only [State.lead, Function.update_self, Option.some.injEq] at hc
      exact Or.inl ⟨rfl, hc.symm⟩
    · exact Or.inr ⟨hU, by simpa [State.lead, Function.update_of_ne hU] using hc⟩
  have hacked : ∀ {v U}, ¬ (v = n ∧ U = s.term n) → (s.lead n e).acked v U = s.acked v U :=
    update_update_of_ne s.acked _
  have hvotes : ∃ Q, qs.IsQuorum Q ∧ ∀ v ∈ Q, s.vote v (s.term n) = some n := by
    rcases hlead with hl | ⟨_, _, hq⟩
    · exact h.elected _ n hl
    · exact hq
  refine
    { h with
      leaderLog_rooted := ?_
      leaderLog_ascending := ?_
      log_rooted := ?_
      stood_rooted := fun U v => (h.stood_rooted U v).mono hev.leaderLog_mono
      log_term_le := ?_
      leaderLog_nil := ?_
      elected := ?_
      extends_stood := ?_
      leader_holds := ?_
      acked_le := ?_
      acked_term := ?_
      ack_keep := ?_
      vote_keep := fun v c U V i hv => hev.vote_keep h hv }
  · intro U
    by_cases hU : U = s.term n
    · subst hU; rw [hL]; exact hroot
    · rw [hLne hU]; exact (h.leaderLog_rooted U).mono hev.leaderLog_mono
  · intro U
    by_cases hU : U = s.term n
    · subst hU
      rw [hL]
      intro i j a b hij ha hb
      have hmem : ∀ x ∈ s.log n ++ [e], τ x ≤ s.term n := by
        intro x hx
        rcases List.mem_append.mp hx with hx | hx
        · exact h.log_term_le n x hx
        · rw [List.mem_singleton.mp hx, he]
      by_cases hj : j < (s.log n).length
      · rw [List.getElem?_append_left hj] at hb
        rw [List.getElem?_append_left (by omega)] at ha
        exact (h.log_rooted n).ascending h.leaderLog_ascending i j a b hij ha hb
      · have hlen := (List.getElem?_eq_some_iff.mp hb).1
        simp only [List.length_append, List.length_singleton] at hlen
        have hbe : b = e := by
          rw [show j = (s.log n).length by omega] at hb
          simpa using hb.symm
        rw [hbe, he]
        exact hmem a (List.mem_of_getElem? ha)
    · rw [hLne hU]; exact h.leaderLog_ascending U
  · intro v
    by_cases hv : v = n
    · subst hv; rw [hlog]; exact hroot
    · rw [hev.log_other v hv]; exact (h.log_rooted v).mono hev.leaderLog_mono
  · intro v x hx
    by_cases hv : v = n
    · subst hv
      rw [hlog, List.mem_append] at hx
      rcases hx with hx | hx
      · exact h.log_term_le v x hx
      · rw [List.mem_singleton.mp hx, he]; exact le_rfl
    · rw [hev.log_other v hv] at hx; exact h.log_term_le v x hx
  · intro U hU
    have hne : U ≠ s.term n := by
      rintro rfl
      simp [State.lead] at hU
    rw [hLne hne]
    exact h.leaderLog_nil U (by simpa [State.lead, Function.update_of_ne hne] using hU)
  · intro U c hc
    rcases hleader hc with ⟨rfl, rfl⟩ | ⟨_, hc'⟩
    · exact hvotes
    · exact h.elected U c hc'
  · intro U c hc
    rcases hleader hc with ⟨rfl, rfl⟩ | ⟨hU, hc'⟩
    · rw [hL]
      rcases hlead with hl | ⟨_, hst, _⟩
      · obtain ⟨own, _, happ, hown⟩ := h.extends_stood _ c hl
        refine ⟨own ++ [e], by simp, ?_, ?_⟩
        · rw [h.leader_holds _ c hl rfl, happ, List.append_assoc]
          rfl
        · intro x hx
          rcases List.mem_append.mp hx with hx | hx
          · exact hown x hx
          · rw [List.mem_singleton.mp hx, he]
      · refine ⟨[e], by simp, ?_, by simp [he]⟩
        rw [← hst]
        rfl
    · rw [hLne hU]; exact h.extends_stood U c hc'
  · intro U c hc hterm
    rcases hleader hc with ⟨rfl, rfl⟩ | ⟨hU, hc'⟩
    · rw [hL, hlog]
    · have hcn : c ≠ n := by
        rintro rfl
        exact hU hterm.symm
      rw [hev.log_other c hcn, hLne hU]
      exact h.leader_holds U c hc' hterm
  · intro v U
    by_cases hvU : v = n ∧ U = s.term n
    · obtain ⟨rfl, rfl⟩ := hvU
      simp [State.lead]
    · rw [hacked hvU]
      exact (h.acked_le v U).trans (hev.leaderLog_mono U).length_le
  · intro v U hU
    by_cases hvU : v = n ∧ U = s.term n
    · obtain ⟨rfl, rfl⟩ := hvU
      exact le_rfl
    · rw [hacked hvU] at hU
      exact h.acked_term v U hU
  · intro v U i ho hle hb
    by_cases hv : v = n
    · subst hv
      by_cases hU : U = s.term v
      · subst hU; rw [hL, hlog]
      · rw [hacked fun hvU => hU hvU.2] at hle
        have hlen := hle.trans (h.acked_le v U)
        have hkeep := h.ack_keep v U i (hev.own_back ho hlen) hle fun hb' => hb (hev.blocked hb')
        have hil : i ≤ (s.log v).length := by
          have hl := congrArg List.length hkeep
          simp only [List.length_take] at hl
          omega
        rw [hlog, hLne hU, List.take_append_of_le_length hil]
        exact hkeep
    · exact hev.ack_keep h (hev.log_other v hv) (hacked fun hvU => hv hvU.1) ho hle hb

end

section Accept

variable [DecidableEq E]

/-- The copied log starts with what was copied. -/
theorem take_copied (l L : List E) (m : ℕ) : (copied l L m).take m = L.take m := by
  unfold copied
  split
  · assumption
  · rw [List.take_take, Nat.min_self]

/-- Copying never disturbs a prefix that both logs share. -/
theorem take_copied_of_agree {l L : List E} {m i : ℕ} (h : l.take i = L.take i) :
    (copied l L m).take i = L.take i := by
  unfold copied
  split
  · exact h
  · rename_i hne
    have hi : i ≤ m := by
      by_contra hlt
      apply hne
      have htake := congrArg (List.take m) h
      rwa [List.take_take, List.take_take, Nat.min_eq_left (by omega)] at htake
    rw [List.take_take, Nat.min_eq_left hi]

theorem evolve_accept {n : N} {m : ℕ} : Evolve n s (s.accept n m) where
  __ := Evolve.refl n s
  acked_mono v U := by
    by_cases hvU : v = n ∧ U = s.term n
    · obtain ⟨rfl, rfl⟩ := hvU
      simp [accept]
    · exact (update_update_of_ne s.acked _ hvU).ge
  acked_past v U hU := update_update_of_ne s.acked _ fun ⟨hv, hU'⟩ => by
    rw [hU', hv] at hU
    exact lt_irrefl _ hU
  log_other v hv := by simp [accept, Function.update_of_ne hv]

/-- A follower copies a prefix of the log of its term's leader. -/
theorem Inv.accept (h : s.Inv τ qs) {n c : N} {m : ℕ} (hc : s.leader (s.term n) = some c)
    (hm : m ≤ (s.leaderLog (s.term n)).length) : (s.accept n m).Inv τ qs := by
  have hev := evolve_accept (s := s) (n := n) (m := m)
  have hlog : (s.accept n m).log n = copied (s.log n) (s.leaderLog (s.term n)) m := by
    simp [State.accept]
  have hmem : ∀ x ∈ copied (s.log n) (s.leaderLog (s.term n)) m,
      x ∈ s.log n ∨ x ∈ s.leaderLog (s.term n) := by
    intro x hx
    unfold copied at hx
    split at hx
    · exact Or.inl hx
    · exact Or.inr (List.mem_of_mem_take hx)
  have hacked : ∀ {v U}, ¬ (v = n ∧ U = s.term n) → (s.accept n m).acked v U = s.acked v U :=
    update_update_of_ne s.acked _
  have hackn : (s.accept n m).acked n (s.term n) = max (s.acked n (s.term n)) m := by
    simp [State.accept]
  refine
    { h with
      log_rooted := ?_
      log_term_le := ?_
      leader_holds := ?_
      acked_le := ?_
      acked_term := ?_
      ack_keep := ?_
      vote_keep := fun v c U V i hv => hev.vote_keep h hv }
  · intro v
    by_cases hv : v = n
    · subst hv
      rw [hlog]
      unfold copied
      split
      · exact h.log_rooted v
      · exact (h.leaderLog_rooted _).take m
    · rw [hev.log_other v hv]; exact h.log_rooted v
  · intro v x hx
    by_cases hv : v = n
    · subst hv
      rw [hlog] at hx
      rcases hmem x hx with hx | hx
      · exact h.log_term_le v x hx
      · exact h.leaderLog_term_le hx
    · rw [hev.log_other v hv] at hx; exact h.log_term_le v x hx
  · intro U d hd hterm
    by_cases hdn : d = n
    · subst hdn
      have hT : s.term d = U := hterm
      have hholds := h.leader_holds U d hd hT
      rw [hlog, hT, copied, if_pos (by rw [hholds])]
      exact hholds
    · rw [hev.log_other d hdn]; exact h.leader_holds U d hd hterm
  · intro v U
    by_cases hvU : v = n ∧ U = s.term n
    · obtain ⟨rfl, rfl⟩ := hvU
      rw [hackn]
      exact max_le (h.acked_le v _) hm
    · rw [hacked hvU]; exact h.acked_le v U
  · intro v U hU
    by_cases hvU : v = n ∧ U = s.term n
    · obtain ⟨rfl, rfl⟩ := hvU
      exact le_rfl
    · rw [hacked hvU] at hU; exact h.acked_term v U hU
  · intro v U i ho hle hb
    have hb' : ¬ s.Blocked qs U i := fun hb' => hb (hev.blocked hb')
    by_cases hv : v = n
    · subst hv
      rw [hlog]
      by_cases hU : U = s.term v
      · subst hU
        rcases (show i ≤ s.acked v (s.term v) ∨ i ≤ m by omega) with hle | hle
        · exact take_copied_of_agree (h.ack_keep v _ i ho hle hb')
        · have htake := congrArg (List.take i)
            (take_copied (s.log v) (s.leaderLog (s.term v)) m)
          rwa [List.take_take, List.take_take, Nat.min_eq_left hle] at htake
      · rw [hacked (fun hvU => hU hvU.2)] at hle
        obtain ⟨_, hi, _⟩ := id ho
        have hUt := h.acked_term v U (by omega)
        have hkeep := h.ack_keep v U i ho hle hb'
        have hlater := h.leaderLog_of_later (by omega) hc ho hb'
        rw [take_copied_of_agree (hkeep.trans hlater.symm)]
        exact hlater
    · exact hev.ack_keep h (hev.log_other v hv) (hacked fun hvU => hv hvU.1) ho hle hb

end Accept

end Moves

end State

end Consensus
