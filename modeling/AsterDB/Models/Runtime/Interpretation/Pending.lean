import AsterDB.Models.Raft.Correctness.Safety
import AsterDB.Models.Runtime.Interpretation.Cores
import AsterDB.Models.Runtime.Interpretation.Leadership

/-!
# The waiting proposal

While a proposal waits, its node leads, and every entry the node has still to
apply that carries the proposal's identifier also carries its command. Executing
the actions of a step keeps this up to the loss of leadership, and an
acknowledgement takes the result of the entry applied just before it.
-/

namespace AsterRuntime

open AsterRaft Std

variable {ρ : Type}

/-- An entry with the identifier carries the command. -/
def Mine (id : CommandId) (command : Bytes) (e : LogEntry) : Prop :=
  ∀ bytes, e.payload = .command id bytes → bytes = command

/-- Entries on disk that are not applied yet and have the identifier carry the command. -/
def Owns (d : StableState) (id : CommandId) (command : Bytes) : Prop :=
  ∀ i e, d.appliedIndex < i → (RaftLog.new d.snapshot d.entries).entry i = some e →
    Mine id command e

/-- The actions left keep the log of a leader calm, until leadership is lost or
the step ends with `stay`. -/
def Guarded (log : RaftLog) (allowed : LogEntry → Prop) (stay : Prop) : List Action → Prop
  | [] => stay
  | a :: rest => (∃ role term, a = .roleChanged role term ∧ role ≠ .leader) ∨
      (a.Calm log allowed ∧ Guarded log allowed stay rest)

section Guarded

variable {log : RaftLog} {allowed : LogEntry → Prop} {stay : Prop}

theorem guarded_of_calm (hstay : stay) (actions : List Action)
    (h : ∀ a ∈ actions, a.Calm log allowed) : Guarded log allowed stay actions := by
  induction actions with
  | nil => exact hstay
  | cons a rest ih =>
    exact Or.inr ⟨h a List.mem_cons_self, ih fun b hb => h b (List.mem_cons_of_mem _ hb)⟩

theorem guarded_of_stepsDown {role : Role} {term : Nat} (hrole : role ≠ .leader)
    (calm more : List Action) (h : ∀ a ∈ calm, a.Calm log allowed) :
    Guarded log allowed stay (calm ++ .roleChanged role term :: more) := by
  induction calm with
  | nil => exact Or.inl ⟨role, term, rfl, hrole⟩
  | cons a rest ih =>
    exact Or.inr ⟨h a List.mem_cons_self, ih fun b hb => h b (List.mem_cons_of_mem _ hb)⟩

/-- A crash leaves fewer actions and expects nothing of the step's end. -/
theorem Guarded.take (actions : List Action) (h : Guarded log allowed stay actions) (k : Nat) :
    Guarded log allowed True (actions.take k) := by
  induction actions generalizing k with
  | nil =>
    rw [List.take_nil]
    trivial
  | cons a rest ih =>
    cases k with
    | zero => trivial
    | succ k =>
      rcases h with h | ⟨hcalm, hrest⟩
      · exact Or.inl h
      · exact Or.inr ⟨hcalm, ih hrest k⟩

theorem Guarded.mono {stay' : Prop} (hstay : stay → stay') (actions : List Action)
    (h : Guarded log allowed stay actions) : Guarded log allowed stay' actions := by
  induction actions with
  | nil => exact hstay h
  | cons a rest ih => exact h.imp_right fun h => ⟨h.1, ih h.2⟩

/-- A leader's step is guarded. -/
theorem guarded_step [Sha256] {r : Raft} {full : List LogEntry} (hr : r.role = .leader)
    (hrep : r.log.Represents full) (input : Input)
    (hallowed : ∀ id command, input = .propose id command →
      ∀ e : LogEntry, e.payload = .command id command → allowed e) :
    Guarded r.log allowed ((r.step input).1.role = .leader) (r.step input).2 := by
  rcases Raft.leads_step hr hrep input hallowed with
    ⟨more, heq, hcalm, hrole⟩ | ⟨calm, role, term, more, heq, hrole, hcalm⟩
  · simp only [List.nil_append] at heq
    rw [heq]
    exact guarded_of_calm (hrole hr) more hcalm
  · simp only [List.nil_append] at heq
    rw [heq]
    exact guarded_of_stepsDown hrole calm more hcalm

end Guarded

/-- Appending to a log adds the appended entries and nothing else. -/
theorem entry_append {log : RaftLog} {more : List LogEntry} {i : Nat} {e : LogEntry}
    (h : (log.append more).entry i = some e) : log.entry i = some e ∨ e ∈ more := by
  unfold RaftLog.entry RaftLog.append at h
  unfold RaftLog.entry
  split at h
  · cases h
  · rename_i hbase
    rw [if_neg hbase]
    rw [List.getElem?_append] at h
    split at h
    · exact Or.inl h
    · exact Or.inr (List.mem_of_getElem? h)

/-- A calm action adds no unapplied entry of another command with the identifier. -/
theorem Owns.perform {d : StableState} {id : CommandId} {command : Bytes} {log : RaftLog}
    {base : Nat} {a : Action} (h : Owns d id command) (hcalm : a.Calm log (Mine id command))
    (hlog : ∀ i e, base < i → log.entry i = some e → Mine id command e)
    (hbase : base ≤ d.appliedIndex) (horder : ∀ e, a = .apply e → e.index = d.appliedIndex + 1) :
    Owns (d.perform a) id command ∧ base ≤ (d.perform a).appliedIndex := by
  cases a with
  | persist mutation =>
    cases mutation with
    | hardState => exact ⟨h, hbase⟩
    | append entries =>
      refine ⟨fun i e hi he => ?_, hbase⟩
      have he : ((RaftLog.new d.snapshot d.entries).append entries).entry i = some e := he
      rcases entry_append he with he | he
      · exact h i e hi he
      · exact hcalm e he
    | compactSnapshot snapshot retained =>
      exact ⟨fun i e hi he => hlog i e (hbase.trans_lt hi) (hcalm i e he), hbase⟩
    | truncateAndAppend | installSnapshot => exact hcalm.elim
  | apply entry =>
    have hindex := horder entry rfl
    simp only [Owns, StableState.perform, hindex]
    exact ⟨fun i e hi he => h i e (by omega) he, by omega⟩
  | _ => exact ⟨h, hbase⟩

/-- What holds of a node with a waiting proposal while the actions of a step are
executed: `log` and `base` are the log and the applied index it started with. -/
structure Waiting (log : RaftLog) (base : Nat) (stay : Prop) (w : World) (n : NodeId)
    (rest : List Action) (p : PendingProposal ρ) : Prop where
  owns : Owns (w.stable n) p.id p.command
  base_le : base ≤ (w.stable n).appliedIndex
  log_mine : ∀ i e, base < i → log.entry i = some e → Mine p.id p.command e
  guarded : Guarded log (Mine p.id p.command) stay rest
  applied : ∀ e result, p.applied = some (e, result) → e.payload = .command p.id p.command
  /-- If an entry of the proposal was applied just now, its result is noted. -/
  noted : ∀ role d e bytes older, w.history = .performed n role d (.apply e) :: older →
    e.payload = .command p.id bytes → ∃ result, p.applied = some (e, result)

/-- What an acknowledgement promises. -/
structure AnswerOk (history : List Event) (answer : Acknowledgement ρ) : Prop where
  index : answer.entry.index = answer.index
  payload : answer.entry.payload = .command answer.id answer.command
  applied : ∃ role before, .performed answer.node role before (.apply answer.entry) ∈ history
  committed : Setting.CoveredBy history answer.node answer.index answer.entry

theorem AnswerOk.mono {history history' : List Event} {answer : Acknowledgement ρ}
    (h : AnswerOk history answer) (hsub : ∀ e ∈ history, e ∈ history') :
    AnswerOk history' answer where
  index := h.index
  payload := h.payload
  applied := by
    obtain ⟨role, before, hmem⟩ := h.applied
    exact ⟨role, before, hsub _ hmem⟩
  committed := by
    obtain ⟨e, he, hcommit⟩ := h.committed
    exact ⟨e, hsub _ he, hcommit⟩

section Execute

variable {σ : Setting} {s : Protocol} {log : RaftLog} {base : Nat} {stay : Prop} {w : World}
  {n : NodeId} {role : Role} {a : Action} {rest : List Action} {rt rt' : Runtime ρ}
  {database : Database ρ} {replies : List (Reply ρ)}

/-- One action of a node whose proposal may wait. -/
theorem Waiting.execute (hid : rt.nodeId = n)
    (h : ∀ p, rt.pendingProposal = some p → Waiting log base stay w n (a :: rest) p)
    (hevent : σ.EventOk s w.history (.performed n role (w.stable n) a))
    (hexec : rt.executeAction database a = .ok (rt', replies)) :
    (∀ p, rt'.pendingProposal = some p →
      Waiting log base stay (w.perform n role a) n rest p) ∧
    ∀ answer, .acknowledged answer ∈ replies →
      AnswerOk (w.perform n role a).history answer := by
  -- The part of the invariant that looks at the disk and the actions left.
  have hcalm : ∀ p, rt.pendingProposal = some p → rt'.pendingProposal ≠ none →
      a.Calm log (Mine p.id p.command) ∧ Guarded log (Mine p.id p.command) stay rest := by
    intro p hp hsome
    rcases (h p hp).guarded with ⟨q, term, rfl, hq⟩ | hguard
    · simp only [Runtime.executeAction, if_neg hq] at hexec
      cases hexec
      exact absurd rfl hsome
    · exact hguard
  have hdisk : ∀ p, rt.pendingProposal = some p → rt'.pendingProposal ≠ none →
      Owns ((w.perform n role a).stable n) p.id p.command ∧
        base ≤ ((w.perform n role a).stable n).appliedIndex := by
    intro p hp hsome
    rw [World.stable_perform_self]
    refine (h p hp).owns.perform (hcalm p hp hsome).1 (h p hp).log_mine (h p hp).base_le ?_
    rintro e rfl
    exact (hevent.order n role _ e rfl).1
  rcases (Runtime.executeAction_cases hexec).2 with ⟨hnone, hno⟩ | ⟨p, hp, hp', hno, _, hother⟩ |
    ⟨p, e, bytes, result, rfl, hp, hpayload, hp', rfl⟩ | ⟨p, e, result, rfl, hp, happlied, hp', rfl⟩
  · refine ⟨fun p hp => ?_, fun answer hans => absurd hans (hno answer)⟩
    rw [hnone] at hp
    cases hp
  · refine ⟨fun q hq => ?_, fun answer hans => absurd hans (hno answer)⟩
    rw [hp', Option.some.injEq] at hq
    subst hq
    obtain ⟨howns, hbase⟩ := hdisk p hp (by simp [hp'])
    refine ⟨howns, hbase, (h p hp).log_mine, (hcalm p hp (by simp [hp'])).2, (h p hp).applied, ?_⟩
    intro role' d e bytes older hhead hpayload
    rw [World.history_perform, List.cons.injEq, Event.performed.injEq] at hhead
    exact absurd hpayload (hother e bytes hhead.1.2.2.2)
  · refine ⟨fun q hq => ?_, by simp⟩
    rw [hp', Option.some.injEq] at hq
    subst hq
    obtain ⟨howns, hbase⟩ := hdisk p hp (by simp [hp'])
    obtain ⟨hindex, hentry⟩ := hevent.order n role _ e rfl
    have hmine := (h p hp).owns e.index e (by omega) hentry bytes hpayload
    refine ⟨howns, hbase, (h p hp).log_mine, (hcalm p hp (by simp [hp'])).2, ?_, ?_⟩
    · rintro _ _ ⟨⟩
      rw [hpayload, hmine]
    · intro role' d e' bytes' older hhead _
      rw [World.history_perform, List.cons.injEq, Event.performed.injEq,
        Action.apply.injEq] at hhead
      rw [← hhead.1.2.2.2]
      exact ⟨result, rfl⟩
  · refine ⟨fun q hq => ?_, fun answer hans => ?_⟩
    · rw [hp'] at hq
      cases hq
    · rw [List.mem_singleton, Reply.acknowledged.injEq] at hans
      subst hans
      -- The entry applied just before this report is the one whose result is noted.
      obtain ⟨d, entry, older, hhead, hindex, ⟨bytes, hpayload⟩, hcover⟩ :=
        hevent.report n role _ p.id e.index rfl
      obtain ⟨_, hnoted⟩ := (h p hp).noted role d entry bytes older hhead hpayload
      rw [happlied, Option.some.injEq] at hnoted
      obtain ⟨rfl, -⟩ := hnoted
      refine ⟨rfl, (h p hp).applied e result happlied, ⟨role, d, ?_⟩, ?_⟩
      · rw [World.history_perform, hhead, hid]
        simp
      · rw [World.history_perform, hhead, hid]
        exact (hcover.cons _).cons _

/-- All actions of a step, executed to the end or to a failure. -/
theorem Waiting.executeActions (role : Role) (database : Database ρ) (actions : List Action)
    (w : World) (rt : Runtime ρ) (hid : rt.nodeId = n)
    (h : ∀ p, rt.pendingProposal = some p → Waiting log base stay w n actions p)
    (hevents : ∀ e older, e :: older <:+ (executeActions n role database actions w rt).1.history →
      σ.EventOk s older e) :
    (∀ rt', (executeActions n role database actions w rt).2.1 = .ok rt' →
      rt'.nodeId = n ∧ ∀ p, rt'.pendingProposal = some p →
        Waiting log base stay (executeActions n role database actions w rt).1 n [] p) ∧
    ∀ answer, .acknowledged answer ∈ (executeActions n role database actions w rt).2.2 →
      AnswerOk (executeActions n role database actions w rt).1.history answer := by
  induction actions generalizing w rt with
  | nil =>
    refine ⟨fun rt' hrt => ?_, by simp [AsterRuntime.executeActions]⟩
    cases hrt
    exact ⟨hid, h⟩
  | cons a rest ih =>
    unfold AsterRuntime.executeActions at hevents ⊢
    cases hexec : rt.executeAction database a with
    | error error => exact ⟨fun rt' hrt => by simp at hrt, by simp⟩
    | ok result =>
      obtain ⟨rt₁, replies⟩ := result
      simp only [hexec] at hevents ⊢
      -- What is performed later leaves this action in the history.
      obtain ⟨k, hworld, _⟩ := executeActions_world n role database rest (w.perform n role a) rt₁
      have hsuffix : (w.perform n role a).history <:+
          (AsterRuntime.executeActions n role database rest (w.perform n role a)
            rt₁).1.history := by
        rw [hworld]
        exact World.history_suffix_performAll _ _ _ _
      obtain ⟨hwait, hanswer⟩ := Waiting.execute hid h (hevents _ _ hsuffix) hexec
      have hid' : rt₁.nodeId = n := by
        obtain ⟨_, _, rfl⟩ := (Runtime.executeAction_cases hexec).1
        exact hid
      obtain ⟨hok, hreplies⟩ := ih _ _ hid' hwait hevents
      refine ⟨hok, fun answer hans => ?_⟩
      rcases List.mem_append.mp hans with hans | hans
      · exact (hanswer answer hans).mono fun e he => hsuffix.mem he
      · exact hreplies answer hans

end Execute

end AsterRuntime
