import AsterDB.Models.Database.Correctness.Aggregates
import Mathlib.Algebra.Order.BigOperators.Group.List

/-!
# Hash joins

A join goes over the outer rows and tries candidates for each: all inner rows, or those in
the bucket of its key. The hash join returns what the nested loop does if its keys can be
computed and every pair that the predicate keeps shares a key.
-/

namespace AsterDatabase

open AsterRaft (Bytes zeroHash)
open AsterEngine (Value Engine Transaction Entry TableMeta TxnAttempt afterRun attemptOf
  itemsTable putItem)
open AsterSql
open Std
open Fallible

section Loops

variable {on : BoundExpr} {parameters : List Value}

/-- The pairs of an outer row that the predicate keeps. -/
def pairs (on : BoundExpr) (parameters : List Value) (outer : ExecRow) (candidates : List ExecRow) :
    List ExecRow :=
  (candidates.map (combineRows outer)).filter (keeps parameters on)

/-- The predicate can be evaluated on an outer row with each candidate. -/
def Decided (on : BoundExpr) (parameters : List Value) (outer : ExecRow)
    (candidates : List ExecRow) : Prop :=
  ∀ inner ∈ candidates, ∃ keep, predicateExec (combineRows outer inner) parameters on = .ok keep

variable {outer inner : ExecRow} {rest : List ExecRow}

theorem pairs_cons_of_true (h : predicateExec (combineRows outer inner) parameters on = .ok true) :
    pairs on parameters outer (inner :: rest) =
      combineRows outer inner :: pairs on parameters outer rest := by
  rw [pairs, List.map_cons, List.filter_cons_of_pos (keeps_eq_true.mpr h), pairs]

theorem pairs_cons_of_false
    (h : predicateExec (combineRows outer inner) parameters on = .ok false) :
    pairs on parameters outer (inner :: rest) = pairs on parameters outer rest := by
  have hkeeps : ¬keeps parameters on (combineRows outer inner) = true := by
    rw [keeps_eq_true, h]
    nofun
  rw [pairs, List.map_cons, List.filter_cons_of_neg hkeeps, pairs]

theorem joinRow_eq_ok {outer : ExecRow} {candidates output rows : List ExecRow} :
    joinRow on parameters output outer candidates = .ok rows ↔
      Decided on parameters outer candidates ∧ output ++ pairs on parameters outer candidates =
        rows ∧ (pairs on parameters outer candidates = [] ∨ rows.length ≤ maxIntermediateRows) := by
  unfold joinRow
  induction candidates generalizing output with
  | nil =>
    rw [List.foldlM_nil, pure_eq_ok]
    simp [Decided, pairs]
  | cons inner rest ih =>
    simp only [Decided, List.forall_mem_cons]
    rw [List.foldlM_cons]
    simp only [bind_eq_ok, ih]
    constructor
    · rintro ⟨next, ⟨keep, hkeep, hnext⟩, hrest, rfl, hbound⟩
      refine ⟨⟨⟨keep, hkeep⟩, hrest⟩, ?_⟩
      cases keep with
      | false =>
        cases hnext
        rw [pairs_cons_of_false hkeep]
        exact ⟨rfl, hbound⟩
      | true =>
        simp only [if_true, ensureIntermediateBound, bind_eq_ok, failIf_eq_ok, pure_eq_ok,
          exists_const, Nat.not_lt] at hnext
        obtain ⟨hlength, rfl⟩ := hnext
        rw [pairs_cons_of_true hkeep]
        refine ⟨by simp, .inr ?_⟩
        rcases hbound with hnil | hbound
        · rwa [hnil, List.append_nil]
        · exact hbound
    · rintro ⟨⟨⟨keep, hkeep⟩, hrest⟩, rfl, hbound⟩
      cases keep with
      | false =>
        rw [pairs_cons_of_false hkeep] at hbound ⊢
        exact ⟨output, ⟨false, hkeep, rfl⟩, hrest, rfl, hbound⟩
      | true =>
        rw [pairs_cons_of_true hkeep] at hbound ⊢
        have hbound := hbound.resolve_left (List.cons_ne_nil _ _)
        refine ⟨output ++ [combineRows outer inner], ⟨true, hkeep, ?_⟩, hrest, by simp, .inr hbound⟩
        simp only [if_true, ensureIntermediateBound, bind_eq_ok, failIf_eq_ok, pure_eq_ok,
          exists_const, Nat.not_lt, and_true]
        refine Nat.le_trans ?_ hbound
        simp

/-- Go over the outer rows with candidates for each. -/
def loopJoin (on : BoundExpr) (parameters : List Value)
    (candidates : ExecRow → Result (List ExecRow)) (left : List ExecRow)
    (output : List ExecRow) : Result (List ExecRow) :=
  left.foldlM (fun output outer => do
    let found ← candidates outer
    joinRow on parameters output outer found) output

variable {candidates : ExecRow → Result (List ExecRow)}
  {tried : ExecRow → List ExecRow}

theorem loopJoin_eq_ok {left output rows : List ExecRow}
    (hcandidates : ∀ outer ∈ left, candidates outer = .ok (tried outer)) :
    loopJoin on parameters candidates left output = .ok rows ↔
      (∀ outer ∈ left, Decided on parameters outer (tried outer)) ∧
        output ++ left.flatMap (fun outer => pairs on parameters outer (tried outer)) = rows ∧
        (left.flatMap (fun outer => pairs on parameters outer (tried outer)) = [] ∨
          rows.length ≤ maxIntermediateRows) := by
  unfold loopJoin
  induction left generalizing output with
  | nil =>
    rw [List.foldlM_nil, pure_eq_ok]
    simp
  | cons outer rest ih =>
    rw [List.forall_mem_cons] at hcandidates
    rw [List.foldlM_cons, List.forall_mem_cons, List.flatMap_cons]
    simp only [ih hcandidates.2, bind_eq_ok, hcandidates.1, Except.ok.injEq, exists_eq_left',
      joinRow_eq_ok]
    generalize pairs on parameters outer (tried outer) = first
    generalize rest.flatMap (fun outer => pairs on parameters outer (tried outer)) = others
    constructor
    · rintro ⟨_, ⟨hfirst, rfl, hbound⟩, hrest, rfl, hbound'⟩
      refine ⟨⟨hfirst, hrest⟩, by rw [List.append_assoc], ?_⟩
      rcases hbound' with rfl | hbound'
      · simpa only [List.append_nil] using hbound
      · exact .inr hbound'
    · rintro ⟨⟨hfirst, hrest⟩, rfl, hbound⟩
      rw [List.append_eq_nil_iff] at hbound
      refine ⟨output ++ first, ⟨hfirst, rfl, hbound.imp And.left fun h => ?_⟩, hrest,
        by rw [List.append_assoc], hbound.imp And.right id⟩
      refine Nat.le_trans ?_ h
      simp only [List.length_append]
      omega

/-- Both loops start without rows. -/
theorem loopJoin_nil_eq_ok {left rows : List ExecRow}
    (hcandidates : ∀ outer ∈ left, candidates outer = .ok (tried outer)) :
    loopJoin on parameters candidates left [] = .ok rows ↔
      (∀ outer ∈ left, Decided on parameters outer (tried outer)) ∧
        left.flatMap (fun outer => pairs on parameters outer (tried outer)) = rows ∧
        rows.length ≤ maxIntermediateRows := by
  rw [loopJoin_eq_ok hcandidates, List.nil_append]
  refine and_congr_right fun _ => and_congr_right fun hrows => ?_
  rw [hrows]
  constructor
  · rintro (rfl | hbound)
    · exact Nat.zero_le _
    · exact hbound
  · exact .inr

end Loops

section Keys

variable {parameters : List Value} {leftKey : BoundExpr} {rightColumn : Nat}

/-- The key of a value; NULL has none. -/
def keyOf (value : Value) : Result (Option Bytes) :=
  if value.isNull then .ok none
  else do
    let key ← liftCodec (AsterEngine.Codec.encodeValue value)
    return some key

theorem keyOf_ne_none {value : Value} (h : value.isNull = false) : keyOf value ≠ .ok none := by
  unfold keyOf
  rw [h]
  cases liftCodec (AsterEngine.Codec.encodeValue value) <;> nofun

/-- The key of an outer row. -/
def outerKey (parameters : List Value) (leftKey : BoundExpr) (outer : ExecRow) :
    Result (Option Bytes) := do
  let value ← evaluateExec outer parameters leftKey
  keyOf value

/-- The key of an inner row. -/
def innerKey (rightColumn : Nat) (inner : ExecRow) : Result (Option Bytes) := do
  let value ← orFail inner.row.values[rightColumn]?
    (.invariant "hash-join inner column is outside row")
  keyOf value

theorem hashBuckets_eq (rightColumn : Nat) (right : List ExecRow) :
    hashBuckets rightColumn right = right.foldlM (Grouping.bucket (innerKey rightColumn)) ∅ := by
  have hstep (buckets : ExtTreeMap Bytes (List ExecRow)) (row : ExecRow) :
      (do
        let value ← orFail row.row.values[rightColumn]?
          (DatabaseError.invariant "hash-join inner column is outside row")
        if value.isNull then return buckets
        else
          let key ← liftCodec (AsterEngine.Codec.encodeValue value)
          return buckets.insert key (buckets.getD key [] ++ [row])) =
      Grouping.bucket (innerKey rightColumn) buckets row := by
    simp only [Grouping.bucket, innerKey, bind_assoc]
    congr 1
    funext value
    unfold keyOf
    split
    · rfl
    · simp only [bind_assoc, pure_bind]
  unfold hashBuckets
  simp only [hstep]

/-- The candidates of an outer row in buckets. -/
def bucketOf (parameters : List Value) (leftKey : BoundExpr)
    (buckets : ExtTreeMap Bytes (List ExecRow)) (outer : ExecRow) :
    Result (List ExecRow) := do
  match ← outerKey parameters leftKey outer with
  | none => return []
  | some key => return buckets.getD key []

theorem hashJoin_eq (on : BoundExpr) (left right : List ExecRow) :
    hashJoin on parameters leftKey rightColumn left right = (do
      let buckets ← hashBuckets rightColumn right
      loopJoin on parameters (bucketOf parameters leftKey buckets) left []) := by
  unfold hashJoin loopJoin
  congr 1
  funext buckets
  congr 1
  funext output outer
  simp only [bucketOf, outerKey, bind_assoc]
  congr 1
  funext value
  unfold keyOf
  split
  · rfl
  · simp only [bind_assoc, pure_bind]

/-- The keys of the rows can be computed, and every pair that the predicate keeps shares one. -/
structure HashKeys (on : BoundExpr) (parameters : List Value) (leftKey : BoundExpr)
    (rightColumn : Nat) (left right : List ExecRow) : Prop where
  outer : ∀ outer ∈ left, ∃ key, outerKey parameters leftKey outer = .ok key
  inner : ∀ inner ∈ right, ∃ key, innerKey rightColumn inner = .ok key
  shared : ∀ outer ∈ left, ∀ inner ∈ right,
    predicateExec (combineRows outer inner) parameters on = .ok true →
      ∃ key, outerKey parameters leftKey outer = .ok (some key) ∧
        innerKey rightColumn inner = .ok (some key)

/-- The inner rows that share the key of an outer row. -/
def sharers (parameters : List Value) (leftKey : BoundExpr) (rightColumn : Nat)
    (right : List ExecRow) (outer : ExecRow) : List ExecRow :=
  match outerKey parameters leftKey outer with
  | .ok (some key) => Grouping.withKey (innerKey rightColumn) key right
  | _ => []

theorem mem_sharers {right : List ExecRow} {outer inner : ExecRow} :
    inner ∈ sharers parameters leftKey rightColumn right outer ↔
      inner ∈ right ∧ ∃ key, outerKey parameters leftKey outer = .ok (some key) ∧
        innerKey rightColumn inner = .ok (some key) := by
  unfold sharers
  split
  next key hkey => simp [Grouping.mem_withKey, hkey]
  next hkey =>
    simp only [List.not_mem_nil, false_iff, not_and, not_exists]
    exact fun _ key houter => absurd houter (hkey key)

theorem bucketOf_eq_ok {right : List ExecRow} {buckets : ExtTreeMap Bytes (List ExecRow)}
    (hbuckets : Grouping.Buckets (innerKey rightColumn) right buckets) {outer : ExecRow}
    {key : Option Bytes} (hkey : outerKey parameters leftKey outer = .ok key) :
    bucketOf parameters leftKey buckets outer =
      .ok (sharers parameters leftKey rightColumn right outer) := by
  unfold bucketOf sharers
  rw [hkey]
  cases key with
  | none => rfl
  | some key => exact congrArg Except.ok (hbuckets.getD key)

/-- Outer rows that were gone over have candidates. -/
theorem candidates_of_loopJoin {on : BoundExpr}
    {candidates : ExecRow → Result (List ExecRow)} {left output rows : List ExecRow}
    (h : loopJoin on parameters candidates left output = .ok rows) :
    ∀ outer ∈ left, ∃ found, candidates outer = .ok found := by
  unfold loopJoin at h
  induction left generalizing output with
  | nil => nofun
  | cons outer rest ih =>
    simp only [List.foldlM_cons, bind_eq_ok] at h
    obtain ⟨_, ⟨found, hfound, -⟩, h⟩ := h
    rw [List.forall_mem_cons]
    exact ⟨⟨found, hfound⟩, ih h⟩

/-- Parts of the pieces of a list that make up the same list are the pieces. -/
theorem eq_of_flatMap_eq {f g : ExecRow → List ExecRow} {left : List ExecRow}
    (hsub : ∀ outer ∈ left, (f outer).Sublist (g outer)) (h : left.flatMap f = left.flatMap g) :
    ∀ outer ∈ left, f outer = g outer := by
  induction left with
  | nil => nofun
  | cons outer rest ih =>
    rw [List.forall_mem_cons] at hsub ⊢
    rw [List.flatMap_cons, List.flatMap_cons] at h
    have hrest : (rest.flatMap f).length ≤ (rest.flatMap g).length := by
      rw [List.length_flatMap, List.length_flatMap]
      exact List.sum_le_sum fun other hother => (hsub.2 other hother).length_le
    have hlength := congrArg List.length h
    rw [List.length_append, List.length_append] at hlength
    have hfirst := hsub.1.eq_of_length_le (by have := hsub.1.length_le; omega)
    rw [hfirst] at h
    exact ⟨hfirst, ih hsub.2 (List.append_cancel_left h)⟩

theorem combineRows_injective (outer : ExecRow) : Function.Injective (combineRows outer) := by
  rintro ⟨⟨values⟩, aggregates⟩ ⟨⟨values'⟩, aggregates'⟩ h
  simpa [combineRows] using h

end Keys

section Joins

variable {on : BoundExpr} {parameters : List Value} {leftKey : BoundExpr} {rightColumn : Nat}
  {left right rows : List ExecRow}

theorem nestedLoopJoin_eq_ok : nestedLoopJoin on parameters left right = .ok rows ↔
    (∀ outer ∈ left, Decided on parameters outer right) ∧
      left.flatMap (fun outer => pairs on parameters outer right) = rows ∧
      rows.length ≤ maxIntermediateRows := by
  have hloop : nestedLoopJoin on parameters left right =
      loopJoin on parameters (fun _ => .ok right) left [] := rfl
  rw [hloop, loopJoin_nil_eq_ok fun _ _ => rfl]

/-- Pairs with the inner rows that share the key are among the pairs. -/
theorem pairs_sharers_sublist (outer : ExecRow) :
    (pairs on parameters outer (sharers parameters leftKey rightColumn right outer)).Sublist
      (pairs on parameters outer right) := by
  refine List.Sublist.filter _ (List.Sublist.map _ ?_)
  unfold sharers
  split
  · exact List.filter_sublist
  · exact List.nil_sublist _

/-- Where every pair that is kept shares a key, nothing is lost. -/
theorem pairs_sharers (h : HashKeys on parameters leftKey rightColumn left right) {outer : ExecRow}
    (houter : outer ∈ left) :
    pairs on parameters outer (sharers parameters leftKey rightColumn right outer) =
      pairs on parameters outer right := by
  unfold pairs
  rw [List.filter_map, List.filter_map]
  congr 1
  have hshared := h.shared outer houter
  unfold sharers
  split
  next key hkey =>
    rw [Grouping.withKey, List.filter_filter]
    refine List.filter_congr fun inner hinner => ?_
    rw [Bool.and_eq_left_iff_imp, Function.comp_apply, keeps_eq_true, decide_eq_true_iff]
    intro hkeep
    obtain ⟨key', hkey', hinnerKey⟩ := hshared inner hinner hkeep
    rw [hkey] at hkey'
    rw [hinnerKey, Except.ok.inj hkey']
  next hnone =>
    rw [List.filter_nil, eq_comm, List.filter_eq_nil_iff]
    intro inner hinner hkeep
    obtain ⟨key, hkey, -⟩ := hshared inner hinner (keeps_eq_true.mp hkeep)
    exact hnone key hkey

/-- The hash join returns the rows of the nested loop if and only if its keys can be computed and
every pair that the predicate keeps shares one. -/
theorem hashJoin_eq_ok_iff (h : nestedLoopJoin on parameters left right = .ok rows) :
    hashJoin on parameters leftKey rightColumn left right = .ok rows ↔
      HashKeys on parameters leftKey rightColumn left right := by
  obtain ⟨hdecided, hrows, hbound⟩ := nestedLoopJoin_eq_ok.mp h
  rw [hashJoin_eq, bind_eq_ok, hashBuckets_eq]
  constructor
  · rintro ⟨buckets, hbuckets, hloop⟩
    have hbuckets := Grouping.buckets_of_foldlM hbuckets
    have houter : ∀ outer ∈ left, ∃ key, outerKey parameters leftKey outer = .ok key := by
      intro outer hmem
      obtain ⟨found, hfound⟩ := candidates_of_loopJoin hloop outer hmem
      simp only [bucketOf, bind_eq_ok] at hfound
      obtain ⟨key, hkey, -⟩ := hfound
      exact ⟨key, hkey⟩
    refine ⟨houter, hbuckets.keyed, fun outer hmem inner hinner hkeep => ?_⟩
    have hcandidates : ∀ outer ∈ left, bucketOf parameters leftKey buckets outer =
        .ok (sharers parameters leftKey rightColumn right outer) := by
      intro outer hmem
      obtain ⟨key, hkey⟩ := houter outer hmem
      exact bucketOf_eq_ok hbuckets hkey
    obtain ⟨-, hhash, -⟩ := (loopJoin_nil_eq_ok hcandidates).mp hloop
    have hpairs := eq_of_flatMap_eq (fun outer _ => pairs_sharers_sublist outer)
      (hhash.trans hrows.symm) outer hmem
    have hpair : combineRows outer inner ∈ pairs on parameters outer right :=
      List.mem_filter.mpr ⟨List.mem_map_of_mem hinner, keeps_eq_true.mpr hkeep⟩
    rw [← hpairs] at hpair
    obtain ⟨other, hother, hsame⟩ := List.mem_map.mp (List.mem_filter.mp hpair).1
    cases combineRows_injective outer hsame
    exact (mem_sharers.mp hother).2
  · intro hkeys
    obtain ⟨buckets, hbuckets⟩ := Grouping.exists_foldlM_bucket hkeys.inner ∅
    refine ⟨buckets, hbuckets, ?_⟩
    have hcandidates : ∀ outer ∈ left, bucketOf parameters leftKey buckets outer =
        .ok (sharers parameters leftKey rightColumn right outer) := by
      intro outer hmem
      obtain ⟨key, hkey⟩ := hkeys.outer outer hmem
      exact bucketOf_eq_ok (Grouping.buckets_of_foldlM hbuckets) hkey
    rw [loopJoin_nil_eq_ok hcandidates]
    refine ⟨fun outer hmem inner hinner => hdecided outer hmem inner (mem_sharers.mp hinner).1, ?_,
      hbound⟩
    rw [← hrows]
    exact List.flatMap_congr fun outer hmem => pairs_sharers hkeys hmem

variable (catalog : Catalog)

/-- The nested loop is not chosen where a hash join has keys. -/
theorem chooseJoinAlgorithm_of_keys (inner : LogicalPlan) {rightPlan : PhysicalPlan}
    (h : hashJoinKeys rightPlan on = some (leftKey, rightColumn)) :
    chooseJoinAlgorithm catalog inner on ≠ .nestedLoop := by
  unfold hashJoinKeys at h
  split at h
  next =>
    intro hchosen
    cases inner with
    | scan table =>
      simp only [chooseJoinAlgorithm] at hchosen
      split at hchosen <;> cases hchosen
    | _ => cases hchosen
  next => cases h

/-- With keys, the algorithm that was chosen hashes. -/
theorem executeJoin_chosen (inner : LogicalPlan) :
    executeJoin (optimize catalog inner) on (chooseJoinAlgorithm catalog inner on) parameters left
        right =
      match hashJoinKeys (optimize catalog inner) on with
      | some (leftKey, rightColumn) => hashJoin on parameters leftKey rightColumn left right
      | none => nestedLoopJoin on parameters left right := by
  unfold executeJoin
  cases hkeys : hashJoinKeys (optimize catalog inner) on with
  | none => rfl
  | some keys =>
    cases hchosen : chooseJoinAlgorithm catalog inner on with
    | nestedLoop => exact absurd hchosen (chooseJoinAlgorithm_of_keys catalog inner hkeys)
    | hash => rfl
    | indexNestedLoop indexId columnIndex => rfl

section Slots

variable {outerColumn innerColumn : BoundColumn} {outerSpan innerSpan span : Span}
  (hon : on = .binary (.column outerColumn outerSpan) .eq (.column innerColumn innerSpan) span ∨
    on = .binary (.column innerColumn innerSpan) .eq (.column outerColumn outerSpan) span)

include hon

/-- A pair kept by an equality between a column of the outer row and one of the inner row has one
value in both. -/
theorem value_of_kept {outer inner : ExecRow}
    (houterSlot : outerColumn.inputSlot < outer.row.values.length)
    (hinnerSlot : innerColumn.inputSlot = outer.row.values.length + innerColumn.columnIndex)
    (h : predicateExec (combineRows outer inner) parameters on = .ok true) :
    ∃ value, value.isNull = false ∧ outer.row.values[outerColumn.inputSlot]? = some value ∧
      inner.row.values[innerColumn.columnIndex]? = some value := by
  have hscalar : Executor.containsAggregate on = false := by
    rcases hon with rfl | rfl <;> rfl
  rw [predicateExec, hscalar] at h
  have htrue := predicateMatches_eq_true.mp (mapError_eq_ok.mp h)
  obtain ⟨value, hnull, houter, hinner⟩ : ∃ value, value.isNull = false ∧
      (combineRows outer inner).row.values[outerColumn.inputSlot]? = some value ∧
      (combineRows outer inner).row.values[innerColumn.inputSlot]? = some value := by
    rcases hon with rfl | rfl
    · obtain ⟨value, hnull, hleft, hright⟩ := evaluate_eq htrue
      exact ⟨value, hnull, evaluate_column hleft, evaluate_column hright⟩
    · obtain ⟨value, hnull, hleft, hright⟩ := evaluate_eq htrue
      exact ⟨value, hnull, evaluate_column hright, evaluate_column hleft⟩
  refine ⟨value, hnull, ?_, ?_⟩
  · rwa [combineRows, List.getElem?_append_left houterSlot] at houter
  · rwa [combineRows, hinnerSlot, List.getElem?_append_right (Nat.le_add_right _ _),
      Nat.add_sub_cancel_left] at hinner

/-- An equality between a column of the outer rows and one of the inner rows hashes right. -/
theorem hashKeys_of_slots
    (hslots : ∀ outer ∈ left, outerColumn.inputSlot < outer.row.values.length ∧
      innerColumn.inputSlot = outer.row.values.length + innerColumn.columnIndex)
    (houter : ∀ outer ∈ left, ∃ key,
      outerKey parameters (.column outerColumn outerSpan) outer = .ok key)
    (hinner : ∀ inner ∈ right, ∃ key, innerKey innerColumn.columnIndex inner = .ok key) :
    HashKeys on parameters (.column outerColumn outerSpan) innerColumn.columnIndex left right := by
  refine ⟨houter, hinner, fun outer houterMem inner hinnerMem hkeep => ?_⟩
  obtain ⟨houterSlot, hinnerSlot⟩ := hslots outer houterMem
  obtain ⟨value, hnull, houterValue, hinnerValue⟩ := value_of_kept hon houterSlot hinnerSlot hkeep
  obtain ⟨key, hkey⟩ := hinner inner hinnerMem
  have hvalueKey := hkey
  simp only [innerKey, bind_eq_ok, orFail_eq_ok, hinnerValue, Option.some.injEq, exists_eq_left']
    at hvalueKey
  obtain ⟨key', hkey'⟩ := houter outer houterMem
  have hsame : key' = key := by
    simp only [outerKey, bind_eq_ok] at hkey'
    obtain ⟨found, hfound, hfoundKey⟩ := hkey'
    have hfoundValue := evaluate_column (mapError_eq_ok.mp hfound)
    rw [houterValue] at hfoundValue
    cases hfoundValue
    exact Except.ok.inj (hfoundKey.symm.trans hvalueKey)
  subst hsame
  cases key' with
  | none => exact absurd hvalueKey (keyOf_ne_none hnull)
  | some key => exact ⟨key, hkey', hkey⟩

end Slots

/-- A join returns the rows of the nested loop if and only if, where it hashes, the keys of its rows
can be computed and every pair that ON keeps shares one. -/
theorem join_eq_nestedLoop_iff {engine : Engine} {transaction : Transaction} {catalog : Catalog}
    {outer inner : LogicalPlan} (h : executePlan engine transaction parameters
      (.join (optimize catalog outer) (optimize catalog inner) on .nestedLoop) = .ok rows) :
    executePlan engine transaction parameters (optimize catalog (.join outer inner on)) = .ok rows ↔
      ∀ left right leftKey rightColumn,
        executePlan engine transaction parameters (optimize catalog outer) = .ok left →
        executePlan engine transaction parameters (optimize catalog inner) = .ok right →
        hashJoinKeys (optimize catalog inner) on = some (leftKey, rightColumn) →
          HashKeys on parameters leftKey rightColumn left right := by
  simp only [executePlan, bind_eq_ok, bounded_eq_ok] at h
  obtain ⟨left, hleft, right, hright, joined, hnested, hbound, hjoined⟩ := h
  subst hjoined
  have hnested : nestedLoopJoin on parameters left right = .ok joined := by
    unfold executeJoin at hnested
    split at hnested
    · cases ‹JoinAlgorithm.nestedLoop = _›
    · cases ‹JoinAlgorithm.nestedLoop = _›
    · exact hnested
  have hchosen :
      executePlan engine transaction parameters (optimize catalog (.join outer inner on)) =
      .ok joined ↔ executeJoin (optimize catalog inner) on (chooseJoinAlgorithm catalog inner on)
        parameters left right = .ok joined := by
    simp only [optimize, executePlan, hleft, hright, bind_eq_ok, bounded_eq_ok, Except.ok.injEq,
      exists_eq_left']
    constructor
    · rintro ⟨_, hjoin, -, rfl⟩
      exact hjoin
    · exact fun hjoin => ⟨joined, hjoin, hbound, rfl⟩
  rw [hchosen, executeJoin_chosen, hleft, hright]
  cases hkeys : hashJoinKeys (optimize catalog inner) on with
  | none => simpa using hnested
  | some keys =>
    rw [hashJoin_eq_ok_iff hnested]
    constructor
    · rintro hall _ _ _ _ ⟨⟩ ⟨⟩ ⟨⟩
      exact hall
    · intro hall
      exact hall left right keys.1 keys.2 rfl rfl rfl

end Joins

section Sample

def tagsTable : TableMeta where
  id := 2
  name := "tags"
  schema := ⟨[⟨"id", .int64, false, true⟩]⟩
  primaryKeyColumn := 0

/-- The tables `items` with rows 1 and 2 and `tags` with row 1. -/
def joinedAttempt : TxnAttempt :=
  attemptOf 1 0 0
    [putItem 1 "red", putItem 2 "blue",
      { tableId := 2, primaryKey := .int64 1, mutation := .put ⟨[.int64 1]⟩ }]
    [.createTable itemsTable, .createTable tagsTable]

def joinedRun : List (AsterRaft.Digest × AsterRaft.Digest × TxnAttempt) :=
  [(.replicate 32 0, .replicate 32 1, joinedAttempt)]

def joinedEntries : List Entry :=
  [{ index := 1, requestHash := .replicate 32 1, attempt := joinedAttempt
     outcome := .applied (.committed 1 3 1) }]

/-- `FROM items a JOIN tags b ON a.id = b.id JOIN items c ON a.id = b.id` -/
def threeTables : Select where
  projection := [.expr (idOf "c") none]
  source := ⟨⟨"items", false, .default⟩, some ⟨"a", false, .default⟩, .default⟩
  joins := [⟨⟨⟨"tags", false, .default⟩, some ⟨"b", false, .default⟩, .default⟩,
      .binary (idOf "a") .eq (idOf "b") .default, .default⟩,
    ⟨⟨⟨"items", false, .default⟩, some ⟨"c", false, .default⟩, .default⟩,
      .binary (idOf "a") .eq (idOf "b") .default, .default⟩]
  selection := none
  groupBy := []
  orderBy := []
  limit := none

def boundTagId : BoundExpr :=
  .column { tableId := 2, tableName := "tags", tableAlias := "b", columnIndex := 0, inputSlot := 2
            column := ⟨"id", .int64, false, true⟩ } .default

/-- The equality of both ON clauses, between the first two tables. -/
def firstEquality : BoundExpr := .binary (boundIdOf "a" 0) .eq boundTagId .default

def taggedItems : LogicalPlan := .scan ⟨EngineCatalog.tableDef itemsTable, "a", 0⟩

def itemTags : LogicalPlan := .scan ⟨EngineCatalog.tableDef tagsTable, "b", 2⟩

def otherItems : LogicalPlan := .scan ⟨EngineCatalog.tableDef itemsTable, "c", 3⟩

theorem reached_joinedRun :
    @Engine.Reached zeroHash (afterRun joinedRun) joinedEntries := by
  let _ := zeroHash
  exact AsterEngine.reached_afterRun (by decide +kernel)

/-- The second equality has no column of `c`, but `a` is of the same table: the join of the third
table hashes `c.id` and loses the second row. -/
theorem row_lost_by_hash : ∃ e, @Engine.Reached zeroHash e joinedEntries ∧
    bindSelect (EngineCatalog.new e (some (.new 2 1 1))).catalog threeTables [] =
      .ok (.query
        (.project (.join (.join taggedItems itemTags firstEquality) otherItems firstEquality)
          [⟨boundIdOf "c" 3, "id"⟩]) [⟨boundIdOf "c" 3, "id"⟩], []) ∧
    executePlan e (.new 2 1 1) [] (.join
        (optimize (EngineCatalog.new e none).catalog (.join taggedItems itemTags firstEquality))
        (optimize (EngineCatalog.new e none).catalog otherItems) firstEquality .nestedLoop) =
      .ok [.plain ⟨[.int64 1, .text "red", .int64 1, .int64 1, .text "red"]⟩,
        .plain ⟨[.int64 1, .text "red", .int64 1, .int64 2, .text "blue"]⟩] ∧
    executePlan e (.new 2 1 1) [] (optimize (EngineCatalog.new e none).catalog
        (.join (.join taggedItems itemTags firstEquality) otherItems firstEquality)) =
      .ok [.plain ⟨[.int64 1, .text "red", .int64 1, .int64 1, .text "red"]⟩] :=
  ⟨_, reached_joinedRun, by decide +kernel⟩

/-- The join of the first two tables is that of the nested loop. -/
theorem first_join_of_sides : ∃ e, @Engine.Reached zeroHash e joinedEntries ∧
    executePlan e (.new 2 1 1) [] (optimize (EngineCatalog.new e none).catalog
        (.join taggedItems itemTags firstEquality)) =
      .ok [.plain ⟨[.int64 1, .text "red", .int64 1]⟩] := by
  set e := afterRun joinedRun
  obtain ⟨hitems, htags, hnested⟩ : executePlan e (.new 2 1 1) []
        (optimize (EngineCatalog.new e none).catalog taggedItems) =
      .ok [.plain ⟨[.int64 1, .text "red"]⟩, .plain ⟨[.int64 2, .text "blue"]⟩] ∧
      executePlan e (.new 2 1 1) [] (optimize (EngineCatalog.new e none).catalog itemTags) =
      .ok [.plain ⟨[.int64 1]⟩] ∧
      executePlan e (.new 2 1 1) [] (.join (optimize (EngineCatalog.new e none).catalog taggedItems)
        (optimize (EngineCatalog.new e none).catalog itemTags) firstEquality .nestedLoop) =
      .ok [.plain ⟨[.int64 1, .text "red", .int64 1]⟩] := by
    decide +kernel
  refine ⟨e, reached_joinedRun, (join_eq_nestedLoop_iff hnested).mpr ?_⟩
  intro left right leftKey rightColumn hleft hright hkeys
  cases hitems.symm.trans hleft
  cases htags.symm.trans hright
  cases hkeys
  refine hashKeys_of_slots (.inl rfl) (by decide) (fun outer houter => ?_) fun inner hinner => ?_
  · rcases List.mem_pair.mp houter with rfl | rfl
    · exact ⟨_, rfl⟩
    · exact ⟨_, rfl⟩
  · cases List.mem_singleton.mp hinner
    exact ⟨_, rfl⟩

end Sample

end AsterDatabase
