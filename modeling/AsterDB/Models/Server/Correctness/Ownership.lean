import AsterDB.Models.Database.Interpretation.Steps
import AsterDB.Models.Server.Native.Dispatch

/-!
# Whose transaction it is

A client reaches a transaction in flight only if it began it, in every interleaving in which
no owner is looked up too early: before the transaction's id was given out, or between the
begin and the note of its owner.
-/

namespace AsterServer

open AsterRaft (NodeId Sha256 zeroHash)
open AsterEngine (ClientId)
open AsterSql (Unicode asciiText)
open AsterDatabase AsterProtocol
open Std
open Fallible Interleaving

/-- The client of a session. -/
def OfClient (session : Option SessionRequest) (clientId : ClientId) : Prop :=
  ∃ request, session = some request ∧ request.clientId = clientId

/-- The transaction that a session names. -/
def Names (session : Option SessionRequest) (transactionId : Nat) : Prop :=
  ∃ request, session = some request ∧ request.transactionId = some transactionId

namespace Handling

/-- The transaction whose owner the next step looks up. -/
def looksUp : Handling → Option Nat
  | .getOwner transactionId _ => some transactionId
  | _ => none

/-- What is left of a handling touches only what its client may touch, and notes owners only for
what it began. A look-up that finds no other client is taken to allow the transaction. -/
def Guarded (session : Option SessionRequest) : (Nat → Prop) → (Nat → Prop) → Handling → Prop
  | _, _, .respond _ => True
  | may, began, .status next => ∀ result, (next result).Guarded session may began
  | may, began, .begin next => (∃ clientId, OfClient session clientId) ∧ ∀ result,
    (next result).Guarded session may fun id => began id ∨ ∃ readTs, result = .ok ⟨id, readTs⟩
  | may, began, .commit _ _ transactionId next => Names session transactionId ∧ may transactionId ∧
    ∀ result, (next result).Guarded session may began
  | may, began, .rollback transactionId next => Names session transactionId ∧ may transactionId ∧
    ∀ result, (next result).Guarded session may began
  | may, began, .execute _ _ transactionId _ _ next => (∃ clientId, OfClient session clientId) ∧
    (∀ id, transactionId = some id → Names session id ∧ may id) ∧ ∀ result,
      (next result).Guarded session may fun id =>
        began id ∨ ∃ readTs, result = .ok (.transaction ⟨id, readTs⟩)
  | may, began, .getOwner transactionId next =>
    (∀ owner, (∀ clientId, owner = some clientId → OfClient session clientId) →
      (next owner).Guarded session (fun id => may id ∨ id = transactionId) began) ∧
    ∀ clientId, ¬OfClient session clientId → (next (some clientId)).Guarded session may began
  | may, began, .insertOwner transactionId clientId next => OfClient session clientId ∧
    began transactionId ∧ next.Guarded session may began
  | may, began, .removeOwner _ next => next.Guarded session may began

variable {session : Option SessionRequest} {may may' began began' : Nat → Prop}
  {handling : Handling}

theorem Guarded.mono (h : handling.Guarded session may began) (hmay : ∀ id, may id → may' id)
    (hbegan : ∀ id, began id → began' id) : handling.Guarded session may' began' := by
  induction handling generalizing may may' began began' with
  | respond => exact trivial
  | status next ih => exact fun result => ih result (h result) hmay hbegan
  | begin next ih =>
    exact ⟨h.1, fun result => ih result (h.2 result) hmay fun id => Or.imp_left (hbegan id)⟩
  | commit _ _ id next ih | rollback id next ih =>
    exact ⟨h.1, hmay _ h.2.1, fun result => ih result (h.2.2 result) hmay hbegan⟩
  | execute _ _ id _ _ next ih =>
    exact ⟨h.1, fun id hid => (h.2.1 id hid).imp_right (hmay id), fun result =>
      ih result (h.2.2 result) hmay fun id => Or.imp_left (hbegan id)⟩
  | getOwner id next ih =>
    exact ⟨fun owner howner => ih owner (h.1 owner howner) (fun id => Or.imp_left (hmay id)) hbegan,
      fun clientId hother => ih _ (h.2 clientId hother) hmay hbegan⟩
  | insertOwner id clientId next ih => exact ⟨h.1, hbegan id h.2.1, ih h.2.2 hmay hbegan⟩
  | removeOwner id next ih => exact ih h hmay hbegan

end Handling

section Dispatch

open Handling

variable {session : Option SessionRequest} {request : SessionRequest} {may began : Nat → Prop}

theorem guarded_orRespond {α : Type} {result : Except DatabaseError α} {next : α → Handling}
    (h : ∀ value, result = .ok value → (next value).Guarded session may began) :
    (orRespond result next).Guarded session may began := by
  cases result with
  | error error => exact trivial
  | ok value => exact h value rfl

theorem guarded_verifyOwner {transactionId : Nat} {next : Handling}
    (hsession : session = some request)
    (h : next.Guarded session (fun id => may id ∨ id = transactionId) began) :
    (verifyOwner transactionId request.clientId next).Guarded session may began := by
  refine ⟨fun owner howner => ?_, fun clientId hother => ?_⟩
  · cases owner with
    | none => exact h
    | some clientId =>
      obtain ⟨other, hother, rfl⟩ := howner clientId rfl
      cases hsession.symm.trans hother
      simpa using h
  · have hne : clientId ≠ request.clientId := fun heq => hother ⟨request, hsession, heq.symm⟩
    dsimp only
    rw [if_pos hne]
    exact trivial

theorem guarded_mapExecution {execution : ExecutionResult} {activeTransaction : Option Nat}
    (hsession : session = some request)
    (h : ∀ info, execution = .transaction info → began info.transactionId) :
    (mapExecution execution request.clientId activeTransaction).Guarded session may began := by
  cases execution with
  | query | explain => exact trivial
  | transaction info => exact ⟨⟨request, hsession, rfl⟩, h info rfl, trivial⟩
  | committed | rolledBack => cases activeTransaction <;> exact trivial

theorem requireSession_eq_ok (h : requireSession session = .ok request) :
    session = some request := by
  simp only [requireSession, bind_eq_ok, orFail_eq_ok, pure_eq_ok] at h
  obtain ⟨found, hfound, -, -, rfl⟩ := h
  exact hfound

/-- Every request is handled in a guarded way. -/
theorem guarded_dispatchDatabase (nodeId : NodeId) (request : ClientRequest) :
    (dispatchDatabase nodeId request).Guarded request.session may began := by
  unfold dispatchDatabase
  cases request.operation with
  | ping => exact trivial
  | status => exact fun _ => trivial
  | begin =>
    refine guarded_orRespond fun session hsession => ?_
    replace hsession := requireSession_eq_ok hsession
    split
    · exact trivial
    · refine ⟨⟨_, session, hsession, rfl⟩, fun result => guarded_orRespond fun info hinfo => ?_⟩
      exact ⟨⟨session, hsession, rfl⟩, .inr ⟨info.readTs, hinfo⟩, trivial⟩
  | commit | rollback =>
    refine guarded_orRespond fun session hsession => guarded_orRespond fun transactionId hid => ?_
    replace hsession := requireSession_eq_ok hsession
    refine guarded_verifyOwner hsession
      ⟨⟨session, hsession, orFail_eq_ok.mp hid⟩, .inr rfl, fun result => ?_⟩
    dsimp only
    split <;> exact trivial
  | execute sql parameters =>
    refine guarded_orRespond fun session hsession => ?_
    replace hsession := requireSession_eq_ok hsession
    have hrun : ∀ {may : Nat → Prop}, (∀ id, session.transactionId = some id → may id) →
        (Handling.execute session.clientId session.sequence session.transactionId sql parameters
          fun execution => orRespond execution fun execution =>
            mapExecution execution session.clientId session.transactionId).Guarded
          request.session may began := by
      intro may hmay
      refine ⟨⟨_, session, hsession, rfl⟩, fun id hid => ⟨⟨session, hsession, hid⟩, hmay id hid⟩,
        fun result => guarded_orRespond fun execution hexecution => ?_⟩
      refine guarded_mapExecution hsession fun info hinfo => .inr ⟨info.readTs, ?_⟩
      rw [hexecution, hinfo]
    split
    next id hid =>
      refine guarded_verifyOwner hsession (hrun fun other hother => .inr ?_)
      exact Option.some.inj (hother.symm.trans hid)
    next hnone => exact hrun fun id hid => by cases hnone.symm.trans hid

end Dispatch

namespace Server

/-- A transaction that is over: its id was given out, and it is not in flight. -/
def Over (server : Server) (transactionId : Nat) : Prop :=
  transactionId < server.database.engine.nextTxnId ∧ transactionId ∉ server.database.active

/-- A transaction that the client of a session began. -/
def Began (server : Server) (session : Option SessionRequest) (transactionId : Nat) : Prop :=
  ∃ clientId, OfClient session clientId ∧ (transactionId, clientId) ∈ server.begun

/-- Owners are clients that began their transactions. -/
def Noted (server : Server) : Prop :=
  ∀ transactionId clientId, server.owners[transactionId]? = some clientId →
    (transactionId, clientId) ∈ server.begun

end Server

namespace Task

/-- The owner of a transaction is looked up when it is noted, when the transaction is over, or by
the client that began it. -/
def Timely (server : Server) (task : Task) : Prop :=
  ∀ transactionId, task.handling.looksUp = some transactionId →
    transactionId ∈ server.owners ∨ server.Over transactionId ∨
      server.Began task.request.session transactionId

/-- What holds of a task. -/
def Fair (server : Server) (task : Task) : Prop :=
  task.handling.Guarded task.request.session
    (fun id => server.Over id ∨ server.Began task.request.session id)
    (server.Began task.request.session)

variable [Sha256] [Unicode] {server : Server} {task : Task} (storage : Storage)

theorem begun_subset : server.begun ⊆ (task.next storage server).2.begun := by
  change server.begun ⊆ task.begun storage server
  unfold begun
  split
  · exact List.subset_cons_self _ _
  · exact List.Subset.refl _

variable {id : Nat}

/-- A transaction is not opened again once its id was given out. -/
theorem over_next (h : server.Over id) : (task.next storage server).2.Over id := by
  have hkeep : ∀ {db' : Database}, Database.Steps (fun _ => True)
      (fun id => server.database.engine.nextTxnId ≤ id) server.database db' →
        id < db'.engine.nextTxnId ∧ id ∉ db'.active := by
    intro db' hsteps
    refine ⟨h.1.trans_le hsteps.nextTxnId_le, fun hactive => ?_⟩
    rcases hsteps.active_or_opens hactive with hactive | hopens
    · exact h.2 hactive
    · exact Nat.lt_irrefl _ (h.1.trans_le hopens)
  unfold Server.Over Task.next
  cases hhandling : task.handling with
  | respond | status | getOwner | insertOwner | removeOwner => exact h
  | begin next => exact hkeep ((Database.steps_begin rfl).mono (fun _ h => h) fun _ h => h.1)
  | commit clientId sequence transactionId next => exact hkeep (Database.steps_commit rfl trivial)
  | rollback transactionId next => exact hkeep (Database.steps_rollback rfl)
  | execute clientId sequence transactionId sql parameters next =>
    exact hkeep ((Database.steps_execute rfl fun _ _ _ => trivial).mono (fun _ h => h) fun _ h =>
      h.1)

theorem began_next {session : Option SessionRequest} (h : server.Began session id) :
    (task.next storage server).2.Began session id := by
  obtain ⟨clientId, hclient, hmem⟩ := h
  exact ⟨clientId, hclient, begun_subset storage hmem⟩

theorem began_of_begins {clientId : ClientId}
    (hclient : OfClient task.request.session clientId)
    (h : task.handling.begins storage server.database = some id) :
    (task.next storage server).2.Began task.request.session id := by
  obtain ⟨request, hsession, rfl⟩ := hclient
  refine ⟨request.clientId, ⟨request, hsession, rfl⟩, ?_⟩
  change (id, request.clientId) ∈ task.begun storage server
  rw [begun, h, hsession]
  exact List.mem_cons_self

/-- The steps of a task leave what holds of the others. -/
theorem Fair.others {other : Task} (h : other.Fair server) :
    other.Fair (task.next storage server).2 :=
  h.mono (fun _ => Or.imp (over_next storage) (began_next storage)) fun _ => began_next storage

/-- The steps of a task keep what holds of it. -/
theorem Fair.next (hnoted : server.Noted) (htimely : task.Timely server) (h : task.Fair server) :
    (task.next storage server).1.Fair (task.next storage server).2 := by
  have hmay : ∀ id, server.Over id ∨ server.Began task.request.session id →
      (task.next storage server).2.Over id ∨
        (task.next storage server).2.Began task.request.session id :=
    fun _ => Or.imp (over_next storage) (began_next storage)
  have hbegan : ∀ id, server.Began task.request.session id →
      (task.next storage server).2.Began task.request.session id :=
    fun _ => began_next storage
  obtain ⟨request, handling⟩ := task
  cases handling with
  | respond => exact trivial
  | status next => exact (h _).mono hmay hbegan
  | begin next =>
    obtain ⟨⟨clientId, hclient⟩, hnext⟩ := h
    refine (hnext (Database.begin server.database).1).mono hmay fun id hid =>
      hid.elim (hbegan id) ?_
    rintro ⟨readTs, hresult⟩
    refine began_of_begins storage hclient ?_
    rw [Handling.begins, hresult]
  | commit clientId sequence transactionId next | rollback transactionId next =>
    exact (h.2.2 _).mono hmay hbegan
  | execute caller sequence transactionId sql parameters next =>
    obtain ⟨⟨clientId, hclient⟩, -, hnext⟩ := h
    refine (hnext (Database.execute storage.fault caller sequence transactionId sql parameters
      server.database).1).mono hmay fun id hid => hid.elim (hbegan id) ?_
    rintro ⟨readTs, hresult⟩
    refine began_of_begins storage hclient ?_
    rw [Handling.begins, hresult]
  | getOwner transactionId next =>
    change (next server.owners[transactionId]?).Guarded _ _ _
    by_cases hother : ∃ clientId, server.owners[transactionId]? = some clientId ∧
      ¬OfClient request.session clientId
    · obtain ⟨clientId, howner, hother⟩ := hother
      rw [howner]
      exact (h.2 clientId hother).mono hmay hbegan
    · have hown : ∀ clientId, server.owners[transactionId]? = some clientId →
          OfClient request.session clientId := by
        intro clientId howner
        by_contra hclient
        exact hother ⟨clientId, howner, hclient⟩
      refine (h.1 _ hown).mono (fun id hid => hid.elim (hmay id) ?_) hbegan
      rintro rfl
      -- no owner is noted only for a transaction that is over or the client's own
      refine hmay id ?_
      rcases htimely id rfl with hmem | hover | hbegun
      · obtain ⟨clientId, howner⟩ := Option.isSome_iff_exists.mp
          (ExtTreeMap.mem_iff_isSome_getElem?.mp hmem)
        exact .inr ⟨clientId, hown clientId howner, hnoted id clientId howner⟩
      · exact .inl hover
      · exact .inr hbegun
  | insertOwner transactionId clientId next => exact h.2.2.mono hmay hbegan
  | removeOwner transactionId next => exact Handling.Guarded.mono h hmay hbegan

theorem noted_next (hnoted : server.Noted) (h : task.Fair server) :
    (task.next storage server).2.Noted := by
  have hsubset : ∀ {owners : Owners},
      (∀ id clientId, owners[id]? = some clientId → (id, clientId) ∈ server.begun) →
      ∀ id clientId, owners[id]? = some clientId → (id, clientId) ∈ task.begun storage server :=
    fun howners id clientId howner => begun_subset storage (howners id clientId howner)
  unfold Server.Noted Task.next
  cases hhandling : task.handling with
  | respond | status | begin | commit | rollback | execute | getOwner => exact hsubset hnoted
  | insertOwner transactionId clientId next =>
    rw [Fair, hhandling] at h
    obtain ⟨⟨request, hsession, rfl⟩, ⟨_, ⟨other, hother, rfl⟩, hbegun⟩, -⟩ := h
    cases hsession.symm.trans hother
    refine hsubset fun id clientId howner => ?_
    rcases Maps.of_insert howner with ⟨rfl, rfl⟩ | ⟨-, howner⟩
    · exact hbegun
    · exact hnoted id clientId howner
  | removeOwner transactionId next =>
    refine hsubset fun id clientId howner => hnoted id clientId ?_
    exact (Maps.of_erase howner).2

/-- Owners and tasks are fair in every timely run. -/
theorem invariant (nodeId : NodeId) :
    Invariant (start nodeId) next (fun server task => task.Timely server) Server.Noted
      fun server task => task.Fair server where
  arrive request _ := guarded_dispatchDatabase nodeId request
  shared storage _ hnoted hfair := noted_next storage hnoted hfair
  own storage htimely hnoted hfair := hfair.next storage hnoted htimely
  others storage _ _ _ hother := hother.others storage

end Task

theorem began_of_touches {server : Server} {task : Task} {id : Nat} (h : task.Fair server)
    (htouches : task.handling.touches = some id) (hactive : id ∈ server.database.active) :
    Names task.request.session id ∧ server.Began task.request.session id := by
  have hmay : server.Over id ∨ server.Began task.request.session id →
    server.Began task.request.session id := fun hmay => hmay.resolve_left fun hover =>
      hover.2 hactive
  obtain ⟨request, handling⟩ := task
  cases handling with
  | commit | rollback =>
    cases htouches
    exact ⟨h.1, hmay h.2.1⟩
  | execute =>
    obtain ⟨hnames, hid⟩ := h.2.1 id htouches
    exact ⟨hnames, hmay hid⟩
  | _ => cases htouches

section Runs

variable [Sha256] [Unicode]

/-- Clients do not reach each other's transactions: whatever requests come to a server and in
whatever order their steps are taken, a task that is about to run a statement in, commit or roll
back a transaction in flight belongs to the client that began it, if no owner was looked up too
early. -/
theorem touches_own {database : Database} {nodeId : NodeId}
    {events : List (Event ClientRequest Storage)}
    (htimely : (serve database).Meets (Task.start nodeId) Task.next
      (fun server task => task.Timely server) events) {task : Task}
    (htask : task ∈ ((serve database).run (Task.start nodeId) Task.next events).tasks) {id : Nat}
    (htouches : task.handling.touches = some id) (hactive : id ∈
      ((serve database).run (Task.start nodeId) Task.next events).shared.database.active) :
    ∃ session, task.request.session = some session ∧ session.transactionId = some id ∧
      (id, session.clientId) ∈
        ((serve database).run (Task.start nodeId) Task.next events).shared.begun := by
  have hnoted : (serve database).shared.Noted := fun _ _ howner => by simp [serve] at howner
  have hfair := ((Task.invariant nodeId).run htimely hnoted nofun).2 task htask
  obtain ⟨⟨session, hsession, hnames⟩, _, ⟨other, hother, rfl⟩, hbegun⟩ :=
    began_of_touches hfair htouches hactive
  cases hsession.symm.trans hother
  exact ⟨session, hsession, hnames, hbegun⟩

end Runs

section Sample

attribute [local instance] zeroHash asciiText

def sampleRequest (client : UInt8) (transactionId : Option Nat) (operation : ClientOperation) :
    ClientRequest where
  requestId := 1
  session := some { clientId := Vector.replicate 16 client, sequence := 1, transactionId }
  operation

def sampleStorage : Storage where
  fault := none
  status := .error (.io "")

def sampleDatabase : Database where
  engine := .new
  active := ∅
  requests := ∅
  durable := .genesis
  maxActiveTransactions := 2

/-- Events at a server on a new database. -/
def sampleRun (events : List (Event ClientRequest Storage)) : System Server Task :=
  (serve sampleDatabase).run (Task.start 1) Task.next events

/-- A client rolls back the transaction of another, which was begun and has no owner noted yet. -/
theorem rollback_of_other :
    ∃ database events, Database.openWithOptions .genesis 2 = .ok database ∧
      let before := (serve database).run (Task.start 1) Task.next events
      let after := before.step (Task.start 1) Task.next (.advance 1 sampleStorage)
      (∃ task ∈ before.tasks, task.handling.touches = some 1 ∧
        ∀ session, task.request.session = some session →
          (1, session.clientId) ∉ before.shared.begun) ∧
      1 ∈ before.shared.database.active ∧ 1 ∉ after.shared.database.active := by
  let events : List (Event ClientRequest Storage) :=
    [.arrive (sampleRequest 1 none .begin), .advance 0 sampleStorage,
      .arrive (sampleRequest 2 (some 1) .rollback), .advance 1 sampleStorage]
  refine ⟨sampleDatabase, events, rfl, ?_, ?_⟩
  · have hrollback : (sampleRun events).tasks[1]?.map (fun task => (task.handling.touches,
      task.request.session)) = some (some 1, some ⟨Vector.replicate 16 2, 1, some 1⟩) := by
      decide
    have hbegun : (sampleRun events).shared.begun = [(1, Vector.replicate 16 1)] := by decide
    obtain ⟨task, htask, hreads⟩ := Option.map_eq_some_iff.mp hrollback
    obtain ⟨htouches, hsession⟩ := Prod.mk.inj hreads
    refine ⟨task, List.mem_of_getElem? htask, htouches, fun session hown => ?_⟩
    cases hsession.symm.trans hown
    change _ ∉ (sampleRun events).shared.begun
    decide
  · decide

theorem timely_of_looksUp {server : Server} {task : Option Task} {known : Option Nat}
    (hlooksUp : task.map (fun task => task.handling.looksUp) = some known)
    (hknown : ∀ id, known = some id → id ∈ server.owners) :
    ∀ found, task = some found → found.Timely server := by
  rintro found rfl id hid
  cases hlooksUp
  exact .inl (hknown id hid)

/-- Two clients have transactions, and the first is about to roll back its own. -/
theorem rollback_of_own :
    ∃ events task session, (sampleRun events).shared.begun.length = 2 ∧
      task ∈ (sampleRun events).tasks ∧ task.handling.touches = some 1 ∧
      task.request.session = some session ∧
      (1, session.clientId) ∈ (sampleRun events).shared.begun := by
  let events : List (Event ClientRequest Storage) :=
    [.arrive (sampleRequest 1 none .begin), .arrive (sampleRequest 2 none .begin),
      .advance 0 sampleStorage, .advance 1 sampleStorage, .advance 0 sampleStorage,
      .arrive (sampleRequest 1 (some 1) .rollback), .advance 2 sampleStorage]
  have htimely : (serve sampleDatabase).Meets (Task.start 1) Task.next
      (fun server task => task.Timely server) events := by
    refine .arrive (.arrive (.advance ?_ (.advance ?_ (.advance ?_ (.arrive (.advance ?_
      System.meets_nil))))))
    · exact timely_of_looksUp (show _ = some none by decide) nofun
    · exact timely_of_looksUp (show _ = some none by decide) nofun
    · exact timely_of_looksUp (show _ = some none by decide) nofun
    · exact timely_of_looksUp (show _ = some (some 1) by decide)
        (by rintro _ ⟨⟩; decide)
  have htouches : (sampleRun events).tasks[2]?.map (fun task => task.handling.touches) =
    some (some 1) := by decide
  have hactive : 1 ∈ (sampleRun events).shared.database.active := by decide
  obtain ⟨task, htask, htouches⟩ := Option.map_eq_some_iff.mp htouches
  obtain ⟨session, hsession, -, hbegun⟩ :=
    touches_own htimely (List.mem_of_getElem? htask) htouches hactive
  exact ⟨events, task, session, by decide, List.mem_of_getElem? htask, htouches, hsession, hbegun⟩

end Sample

end AsterServer
