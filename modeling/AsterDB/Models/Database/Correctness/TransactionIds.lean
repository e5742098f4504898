import AsterDB.Models.Database.Correctness.Retries

/-!
# Transaction ids over crashes

The counter of transaction ids goes up in memory with every begin, and into the files with the
next request that is applied. A crash in between takes it back, and an id is given out again.
-/

namespace AsterDatabase

open AsterRaft (Sha256 zeroHash)
open AsterEngine (ClientId)
open AsterSql
open Std
open Fallible

/-- The id that a database opened on the files gives out next. -/
def Durable.nextTxnId (durable : Durable) : Nat :=
  match durable.loadState with
  | .ok (engine, _) => engine.nextTxnId
  | .error _ => 0

namespace Database

theorem nextTxnId_openWithOptions {durable : Durable} {limit : Nat} {db : Database}
    (h : openWithOptions durable limit = .ok db) :
    db.engine.nextTxnId = durable.nextTxnId ∧ db.active = ∅ := by
  simp only [openWithOptions, bind_eq_ok, pure_eq_ok] at h
  obtain ⟨-, -, _, hload, rfl⟩ := h
  rw [Durable.nextTxnId, hload]
  exact ⟨rfl, rfl⟩

variable {info : TransactionInfo}

theorem nextTxnId_begin {db db' : Database} (h : begin db = (.ok info, db')) :
    info.transactionId = db.engine.nextTxnId ∧ db'.engine.nextTxnId = info.transactionId + 1 := by
  rcases begin_cases h with ⟨_, ⟨⟩, -⟩ | ⟨engine, transaction, hbegin, rfl, ⟨_, ⟨⟩, -⟩ | hinfo⟩
  cases hinfo
  obtain ⟨rfl, rfl⟩ := AsterEngine.beginAt_eq_ok hbegin
  exact ⟨rfl, rfl⟩

variable [Sha256] [Unicode]

/-- BEGIN begins a transaction. -/
theorem begin_of_execute {fault : Option StorageFault} {clientId : ClientId} {sequence : Nat}
    {transactionId : Option Nat} {sql : String} {parameters : List AsterEngine.Value}
    {span : Span} {db db' : Database} (hparsed : parseStatement sql = .ok ⟨.begin, span⟩)
    (h : execute fault clientId sequence transactionId sql parameters db =
      (.ok (.transaction info), db')) : begin db = (.ok info, db') := by
  rcases Call.lift_bind_cases h with ⟨_, -, ⟨⟩, -⟩ | ⟨_, hagain, h⟩
  rw [hparsed] at hagain
  cases hagain
  rcases Call.lift_bind_cases h with ⟨_, -, ⟨⟩, -⟩ | ⟨_, -, h⟩
  rcases Call.lift_bind_cases h with ⟨_, -, ⟨⟩, -⟩ | ⟨_, -, h⟩
  rcases Call.bind_cases h with ⟨_, -, ⟨⟩⟩ | ⟨_, _, hbegin, h⟩
  cases h
  exact hbegin

namespace Operation

/-- Storage does not fail during the call. -/
def faultless : Operation → Bool
  | .begin | .rollback _ => true
  | .commit fault _ _ _ | .execute fault _ _ _ _ _ => fault.isNone

/-- The id that a begin of the call returned. -/
def begins : Operation → Database → Option Nat
  | .begin, db => (Database.begin db).1.toOption.map (·.transactionId)
  | .execute fault clientId sequence transactionId sql parameters, db =>
    match parseStatement sql,
      (Database.execute fault clientId sequence transactionId sql parameters db).1 with
    | .ok ⟨.begin, _⟩, .ok (.transaction info) => some info.transactionId
    | _, _ => none
  | _, _ => none

variable {operation : Operation} {db : Database} {id : Nat}

theorem begin_of_begins (h : operation.begins db = some id) :
    ∃ readTs, Database.begin db = (.ok ⟨id, readTs⟩, operation.next db) := by
  cases operation with
  | begin =>
    simp only [begins, next] at h ⊢
    generalize Database.begin db = call at h ⊢
    obtain ⟨_ | info, db'⟩ := call
    · cases h
    · cases h
      exact ⟨info.readTs, rfl⟩
  | execute fault clientId sequence transactionId sql parameters =>
    simp only [begins] at h
    split at h
    next _ info hparsed hresult =>
      cases h
      exact ⟨info.readTs, begin_of_execute hparsed (Prod.ext hresult rfl)⟩
    · cases h
  | rollback | commit => cases h

theorem active_next (h : id ∈ (operation.next db).active) :
    id ∈ db.active ∨ operation.begins db = some id := by
  cases operation with
  | begin =>
    refine ((steps_begin Prod.mk.eta.symm :
      Steps (fun _ => True) _ _ _).active_or_opens h).imp_right ?_
    rintro ⟨-, readTs, hresult⟩
    simp only [begins, hresult]
    rfl
  | rollback =>
    exact ((steps_rollback rfl : Steps (fun _ => True) (fun _ => False) _ _).active_or_opens
      h).imp_right False.elim
  | commit =>
    exact ((steps_commit rfl trivial : Steps (fun _ => True) (fun _ => False) _ _).active_or_opens
      h).imp_right False.elim
  | execute =>
    refine ((steps_execute Prod.mk.eta.symm fun _ _ _ => trivial :
      Steps (fun _ => True) _ _ _).active_or_opens h).imp_right ?_
    rintro ⟨-, span, readTs, hparsed, hresult⟩
    simp only [begins, hparsed, hresult]

end Operation

end Database

open Database

/-- A database directory while a process serves it. `begun` notes every successful begin since the
directory was made, the id with the caller. -/
structure Directory (γ : Type) where
  database : Database
  begun : List (Nat × γ)

namespace Directory

variable {γ : Type}

inductive Label (γ : Type) where
  | call (caller : γ) (operation : Operation)
  /-- The process ends, possibly during a call that is not answered, and another one opens the
  directory. -/
  | reopen (during : Option Operation) (limit : Nat)

section Histories

variable [Sha256] [Unicode]

/-- The files when the process ends: a state that is being made durable is there or it is not. -/
def files (directory : Directory γ) : Option Operation → Durable
  | none => directory.database.durable
  | some operation => (operation.next directory.database).durable

/-- Histories with storage errors are not considered: an apply that fails after its group is in the
log may be replayed when the files are opened again. -/
def next (directory : Directory γ) : Label γ → Option (Directory γ)
  | .call caller operation =>
    if operation.faultless then some {
      database := operation.next directory.database
      begun := ((operation.begins directory.database).map (·, caller)).toList ++ directory.begun }
    else none
  | .reopen during limit =>
    if during.all Operation.faultless then
      (openWithOptions (directory.files during) limit).toOption.map
        ({ directory with database := · })
    else none

/-- The histories of a directory, step by step under a condition. -/
inductive ReachableIf (ok : Directory γ → Label γ → Prop) : Directory γ → Prop
  | create {limit : Nat} {database : Database} (h : openWithOptions .genesis limit = .ok database) :
    ReachableIf ok { database, begun := [] }
  | next {directory directory' : Directory γ} (label : Label γ) (h : ReachableIf ok directory)
      (hok : ok directory label) (hnext : directory.next label = some directory') :
    ReachableIf ok directory'

/-- The process ends when the counter in the files is past every id given out. -/
def Saved (directory : Directory γ) : Label γ → Prop
  | .call _ _ => True
  | .reopen during _ => ∀ call ∈ directory.begun, call.1 < (directory.files during).nextTxnId

instance (directory : Directory γ) : (label : Label γ) → Decidable (directory.Saved label)
  | .call _ _ => .isTrue trivial
  | .reopen during _ => inferInstanceAs
    (Decidable (∀ call ∈ directory.begun, call.1 < (directory.files during).nextTxnId))

/-- Ids are distinct and behind the counter, and active transactions have one of them. -/
structure Issued (directory : Directory γ) : Prop where
  nodup : (directory.begun.map Prod.fst).Nodup
  below : ∀ call ∈ directory.begun, call.1 < directory.database.engine.nextTxnId
  active : ∀ id ∈ directory.database.active, id ∈ directory.begun.map Prod.fst

variable {directory directory' : Directory γ}

theorem Issued.call (h : directory.Issued) (caller : γ) (operation : Operation)
    (hnext : directory.next (.call caller operation) = some directory') : directory'.Issued := by
  obtain ⟨-, hnext⟩ := Option.ite_none_right_eq_some.mp hnext
  cases hnext
  have hle := (operation.steps directory.database).nextTxnId_le
  have hactive : ∀ id ∈ (operation.next directory.database).active,
      id ∈ directory.begun.map Prod.fst ∨ operation.begins directory.database = some id :=
    fun id hid => (Operation.active_next hid).imp_left (h.active id)
  cases hbegins : operation.begins directory.database with
  | none =>
    rw [hbegins] at hactive
    exact ⟨h.nodup, fun call hcall => (h.below call hcall).trans_le hle,
      fun id hid => (hactive id hid).resolve_right nofun⟩
  | some id =>
    obtain ⟨readTs, hbegin⟩ := Operation.begin_of_begins hbegins
    obtain ⟨hid, hcounter⟩ := nextTxnId_begin hbegin
    dsimp only at hid hcounter
    refine ⟨List.nodup_cons.mpr ⟨fun hmem => ?_, h.nodup⟩, fun call hcall => ?_,
      fun other hother => ?_⟩
    · obtain ⟨call, hcall, heq⟩ := List.mem_map.mp hmem
      have := h.below call hcall
      dsimp only at heq
      omega
    · rcases List.mem_cons.mp hcall with rfl | hcall
      · dsimp only
        omega
      · exact (h.below call hcall).trans_le hle
    · rcases hactive other hother with hmem | heq
      · exact List.mem_cons_of_mem _ hmem
      · cases hbegins.symm.trans heq
        exact List.mem_cons_self

theorem Issued.reopen (h : directory.Issued) {during : Option Operation} {limit : Nat}
    (hsaved : directory.Saved (.reopen during limit))
    (hnext : directory.next (.reopen during limit) = some directory') : directory'.Issued := by
  obtain ⟨-, hnext⟩ := Option.ite_none_right_eq_some.mp hnext
  cases hopen : openWithOptions (directory.files during) limit with
  | error =>
    rw [hopen] at hnext
    cases hnext
  | ok database =>
    rw [hopen] at hnext
    cases hnext
    obtain ⟨hcounter, hactive⟩ := nextTxnId_openWithOptions hopen
    exact ⟨h.nodup, fun call hcall => (hsaved call hcall).trans_eq hcounter.symm,
      fun id hid => by simp [hactive] at hid⟩

/-- Ids are never given out again in histories that lose no part of the counter: two begins return
different ids, and whoever got the id of a transaction in flight began it. -/
theorem ids_not_reissued (h : directory.ReachableIf Saved) :
    (directory.begun.map Prod.fst).Nodup ∧ ∀ id ∈ directory.database.active,
      ∃ owner, (id, owner) ∈ directory.begun ∧
        ∀ caller, (id, caller) ∈ directory.begun → caller = owner := by
  have hissued : directory.Issued := by
    induction h with
    | create hopen =>
      refine ⟨List.nodup_nil, nofun, fun id hid => ?_⟩
      simp [(nextTxnId_openWithOptions hopen).2] at hid
    | next label _ hsaved hnext ih =>
      cases label with
      | call caller operation => exact ih.call caller operation hnext
      | reopen => exact ih.reopen hsaved hnext
  refine ⟨hissued.nodup, fun id hid => ?_⟩
  obtain ⟨⟨_, owner⟩, hcall, rfl⟩ := List.mem_map.mp (hissued.active id hid)
  exact ⟨owner, hcall, fun caller hcaller =>
    congrArg Prod.snd (List.inj_on_of_nodup_map hissued.nodup hcaller hcall rfl)⟩

end Histories

section Sample

attribute [local instance] zeroHash asciiText

/-- A client begins a transaction, the process crashes, and the transaction of another client has
the same id. -/
theorem id_reissued : ∃ directory : Directory String,
    ReachableIf (fun _ _ => True) directory ∧ 1 ∈ directory.database.active ∧
      directory.begun = [(1, "second"), (1, "first")] := by
  refine ⟨_, .next (.call "second" .begin) (.next (.reopen none 1) (.next (.call "first" .begin)
    (.create (rfl : openWithOptions .genesis 1 = _)) trivial rfl) trivial rfl) trivial rfl, ?_⟩
  decide

/-- A client began a transaction and committed it. -/
def committed : Directory String where
  database := (Operation.commit none (Vector.replicate 16 1) 1 1).next
    (Operation.begin.next emptyDatabase)
  begun := [(1, "first")]

/-- After a commit the files hold the counter, and the next process goes on from there. -/
theorem ids_not_reissued_commit : ∃ directory : Directory String, directory.ReachableIf Saved ∧
    directory.begun = [(2, "second"), (1, "first")] ∧ (directory.begun.map Prod.fst).Nodup := by
  have hcommit : ReachableIf Saved committed :=
    .next (.call "first" (.commit none (Vector.replicate 16 1) 1 1))
      (.next (.call "first" .begin) (.create (rfl : openWithOptions .genesis 1 = _)) trivial rfl)
      trivial rfl
  have hseen :
      (committed.next (.reopen none 1) >>= (·.next (.call "second" .begin))).map (·.begun) =
      some [(2, "second"), (1, "first")] := by
    decide +kernel
  obtain ⟨directory, hnext, hbegun⟩ := Option.map_eq_some_iff.mp hseen
  obtain ⟨reopened, hreopen, hbegin⟩ := Option.bind_eq_some_iff.mp hnext
  have hreach : ReachableIf Saved directory :=
    .next (.call "second" .begin) (.next _ hcommit (by decide +kernel) hreopen) trivial hbegin
  exact ⟨directory, hreach, hbegun, (ids_not_reissued hreach).1⟩

end Sample

end Directory

end AsterDatabase
