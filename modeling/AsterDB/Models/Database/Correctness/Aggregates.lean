import AsterDB.Models.Database.Interpretation.Groups
import AsterDB.Models.Database.Correctness.AccessPaths

/-!
# Aggregates and groups

Aggregate calls are collected once for each expression that the binder takes for one, and a
grouped expression is evaluated on the first row of its group. Where the expressions that
are taken for one read the same slots, each call has the value of its own argument and the
choice of the row does not show.
-/

namespace AsterDatabase

open AsterRaft (Bytes zeroHash)
open AsterEngine (Value Row Engine Transaction afterRun itemsTable reached_sampleRun sampleEntries
  sampleRun)
open AsterSql
open Std
open Fallible

section Calls

variable {parameters : List Value} {groupBy aggregates : List BoundExpr} {row : ExecRow}
  {group : List ExecRow}

/-- The aggregates of a group stand beside its first row. -/
theorem aggregateGroup_eq_ok (h : aggregateGroup parameters aggregates group = .ok row) :
    row.row = (group.head?.map ExecRow.row).getD ⟨[]⟩ ∧
      (∀ call ∈ aggregates, ∃ value, (call, value) ∈ row.aggregates) ∧
      ∀ entry ∈ row.aggregates, entry.1 ∈ aggregates ∧
        computeAggregate parameters group entry.1 = .ok entry.2 := by
  simp only [aggregateGroup, bind_eq_ok, pure_eq_ok] at h
  obtain ⟨computed, hcomputed, rfl⟩ := h
  obtain ⟨hleft, hright⟩ := mem_of_mapM_eq_ok hcomputed
  simp only [bind_eq_ok, pure_eq_ok] at hleft hright
  refine ⟨rfl, fun call hcall => ?_, fun entry hentry => ?_⟩
  · obtain ⟨_, hmem, value, -, rfl⟩ := hleft call hcall
    exact ⟨value, hmem⟩
  · obtain ⟨call, hcall, value, hvalue, rfl⟩ := hright entry hentry
    exact ⟨hcall, hvalue⟩

/-- A call is looked up under a like call, whose value it takes. -/
theorem aggregateValue_of_alike {calls : List BoundExpr}
    (hdistinct : ∀ call ∈ calls, ∀ other ∈ calls, call.sameExpression other = true →
      call.Alike other)
    (h : aggregateGroup parameters (deduplicateExpressions calls) group = .ok row)
    {call : BoundExpr}
    (hcall : call ∈ calls) : aggregateValue row call = computeAggregate parameters group call := by
  obtain ⟨-, hcovers, hcomputed⟩ := aggregateGroup_eq_ok h
  obtain ⟨hsubset, hkeeps⟩ := deduplicateExpressions_spec calls
  simp only [aggregateValue, Executor.sameExpression_eq]
  cases hfound : row.aggregates.find? fun entry => entry.1.sameExpression call with
  | none =>
    obtain ⟨kept, hkept, hsame⟩ := hkeeps call hcall
    obtain ⟨value, hentry⟩ := hcovers kept hkept
    rw [List.find?_eq_none] at hfound
    exact absurd hsame (hfound (kept, value) hentry)
  | some entry =>
    obtain ⟨hentry, hvalue⟩ := hcomputed entry (List.mem_of_find?_eq_some hfound)
    have hlike := List.find?_some hfound
    have halike : entry.1.unspanned = call.unspanned :=
      hdistinct entry.1 (hsubset _ hentry) call hcall hlike
    have hsame : (computeAggregate parameters group call).toOption = some entry.2 := by
      rw [← toOption_computeAggregate_unspanned, ← halike, toOption_computeAggregate_unspanned,
        hvalue]
      rfl
    exact (toOption_eq_some.mp hsame).symm

end Calls

section Representatives

/-- An expression that has one value over a group, with columns compared by the slots they are read
from. -/
def slotCompatible (groupBy : List BoundExpr) (expr : BoundExpr) : Bool :=
  groupBy.any (fun group => expr.unspanned == group.unspanned) ||
    match expr with
    | .aggregateStar .. | .aggregate .. | .literal .. | .parameter .. => true
    | .column .. => false
    | .unary _ expr _ | .isNull expr _ _ => slotCompatible groupBy expr
    | .binary left _ right _ => slotCompatible groupBy left && slotCompatible groupBy right

variable {parameters : List Value} {groupBy : List BoundExpr} {row row' : ExecRow}

/-- Rows that the GROUP BY expressions do not tell apart. -/
def SameGroup (parameters : List Value) (groupBy : List BoundExpr) (row row' : ExecRow) : Prop :=
  ∀ group ∈ groupBy, ∃ value, evaluateExec row parameters group = .ok value ∧
    evaluateExec row' parameters group = .ok value

variable {expr : BoundExpr}

/-- Values that are computed from the groups' values alone are the same on both rows. -/
theorem evaluateExec_of_sameGroup (hsame : SameGroup parameters groupBy row row')
    (haggregates : row.aggregates = row'.aggregates) (h : slotCompatible groupBy expr = true) :
    evaluateExec row parameters expr = evaluateExec row' parameters expr := by
  have hgroup {expr : BoundExpr}
      (hany : groupBy.any (fun group => expr.unspanned == group.unspanned) = true) :
      evaluateExec row parameters expr = evaluateExec row' parameters expr := by
    obtain ⟨group, hmem, halike⟩ := List.any_eq_true.mp hany
    obtain ⟨value, hvalue, hvalue'⟩ := hsame group hmem
    have hok {row : ExecRow} (hvalue : evaluateExec row parameters group = .ok value) :
        evaluateExec row parameters expr = .ok value := by
      rw [← toOption_eq_some, ← toOption_evaluateExec_unspanned, beq_iff_eq.mp halike,
        toOption_evaluateExec_unspanned, hvalue]
      rfl
    rw [hok hvalue, hok hvalue']
  induction expr with
  | literal | parameter =>
    rfl
  | column bound span =>
    rw [slotCompatible, Bool.or_false] at h
    exact hgroup h
  | unary op expr span ih =>
    rw [slotCompatible, Bool.or_eq_true] at h
    rcases h with h | h
    · exact hgroup h
    · cases op with
      | not => rw [evaluateExec_not, evaluateExec_not, ih h]
      | negate => rw [evaluateExec_negate, evaluateExec_negate, ih h]
  | binary left op right span ihLeft ihRight =>
    rw [slotCompatible, Bool.or_eq_true, Bool.and_eq_true] at h
    rcases h with h | ⟨hleft, hright⟩
    · exact hgroup h
    · by_cases hop : op.isComparison = true
      · rw [evaluateExec_comparison _ _ _ _ hop, evaluateExec_comparison _ _ _ _ hop, ihLeft hleft,
          ihRight hright]
      · cases op with
        | and => rw [evaluateExec_and, evaluateExec_and, ihLeft hleft, ihRight hright]
        | or => rw [evaluateExec_or, evaluateExec_or, ihLeft hleft, ihRight hright]
        | _ => exact absurd rfl hop
  | isNull expr negated span ih =>
    rw [slotCompatible, Bool.or_eq_true] at h
    rcases h with h | h
    · exact hgroup h
    · rw [evaluateExec_isNull, evaluateExec_isNull, ih h]
  | aggregateStar function span =>
    rw [evaluateExec_aggregateStar, aggregateValue, haggregates]
    rfl
  | aggregate function argument span =>
    rw [evaluateExec_aggregate, aggregateValue, haggregates]
    rfl

/-- The encoding of the GROUP BY values tells groups apart. -/
theorem sameGroup_of_groupKey {key : Bytes} (h : groupKey parameters groupBy row = .ok (some key))
    (h' : groupKey parameters groupBy row' = .ok (some key)) :
    SameGroup parameters groupBy row row' := by
  obtain ⟨values, hvalues, hkey⟩ := groupKey_eq_ok.mp h
  obtain ⟨values', hvalues', hkey'⟩ := groupKey_eq_ok.mp h'
  have heq : (⟨values⟩ : Row) = ⟨values'⟩ := by
    have hdecode := AsterEngine.Codec.decodeRow_eq_ok.mpr hkey
    rw [AsterEngine.Codec.decodeRow_eq_ok.mpr hkey'] at hdecode
    exact (Except.ok.inj hdecode).symm
  cases heq
  rw [mapM_eq_ok] at hvalues hvalues'
  clear hkey hkey' h h'
  intro group hgroup
  induction hvalues with
  | nil => cases hgroup
  | cons hvalue _ ih =>
    cases hvalues' with
    | cons hvalue' hvalues' =>
      rcases List.mem_cons.mp hgroup with rfl | hgroup
      · exact ⟨_, hvalue, hvalue'⟩
      · exact ih hvalues' hgroup

/-- The rows of a group are told apart by no expression that fits the grouping. -/
theorem evaluateExec_of_group (hscalar : ∀ group ∈ groupBy, group.containsAggregate = false)
    {input : List ExecRow} {key : Bytes} (hrow : row ∈ groupOf parameters groupBy input key)
    (hrow' : row' ∈ groupOf parameters groupBy input key)
    (h : slotCompatible groupBy expr = true) (computed : List (BoundExpr × Value)) :
    evaluateExec ⟨row.row, computed⟩ parameters expr =
      evaluateExec ⟨row'.row, computed⟩ parameters expr := by
  have hsame :=
    sameGroup_of_groupKey (Grouping.mem_withKey.mp hrow).2 (Grouping.mem_withKey.mp hrow').2
  have hcomputed : SameGroup parameters groupBy ⟨row.row, computed⟩ ⟨row'.row, computed⟩ := by
    intro group hgroup
    obtain ⟨value, hvalue⟩ := hsame group hgroup
    refine ⟨value, ?_⟩
    simp only [evaluateExec_scalar _ parameters (hscalar group hgroup)] at hvalue ⊢
    exact hvalue
  exact evaluateExec_of_sameGroup hcomputed rfl h

end Representatives

section Orders

variable {parameters : List Value} {expressions : List BoundExpr} {rows rows' : List ExecRow}

/-- Rows on which some expressions have the same values. -/
def Corresponds (parameters : List Value) (expressions : List BoundExpr) (row row' : ExecRow) :
    Prop :=
  ∀ expr ∈ expressions, evaluateExec row parameters expr = evaluateExec row' parameters expr

section

variable (hrows : List.Forall₂ (Corresponds parameters expressions) rows rows')
include hrows

/-- Rows are sorted by the values of the ORDER BY expressions. -/
theorem sortRows_corresponds {orderBy : List BoundOrder}
    (horder : ∀ order ∈ orderBy, order.expr ∈ expressions) {sorted : List ExecRow}
    (h : sortRows orderBy parameters rows = .ok sorted) :
    ∃ sorted', sortRows orderBy parameters rows' = .ok sorted' ∧
      List.Forall₂ (Corresponds parameters expressions) sorted sorted' := by
  simp only [sortRows, bind_eq_ok, pure_eq_ok] at h
  obtain ⟨keyed, hkeyed, rfl⟩ := h
  have hstep (row row' : ExecRow) (hrow : Corresponds parameters expressions row row')
      (entry : ExecRow × List Value)
      (hentry : (do
        let keys ← orderBy.mapM fun order => evaluateExec row parameters order.expr
        return (row, keys)) = Except.ok entry) :
      ∃ entry', (do
        let keys ← orderBy.mapM fun order => evaluateExec row' parameters order.expr
        return (row', keys)) = Except.ok entry' ∧
        Corresponds parameters expressions entry.1 entry'.1 ∧ entry.2 = entry'.2 := by
    simp only [bind_eq_ok, pure_eq_ok] at hentry ⊢
    obtain ⟨keys, hkeys, rfl⟩ := hentry
    refine ⟨(row', keys), ⟨keys, ?_, rfl⟩, hrow, rfl⟩
    rw [← hkeys]
    exact mapM_congr fun order hmem => (hrow order.expr (horder order hmem)).symm
  obtain ⟨keyed', hkeyed', hcorresponds⟩ := mapM_corresponds hrows hstep hkeyed
  simp only [sortRows, bind_eq_ok, pure_eq_ok]
  refine ⟨_, ⟨keyed', hkeyed', rfl⟩, ?_⟩
  rw [List.forall₂_map_left_iff, List.forall₂_map_right_iff]
  refine (Ordered.forall₂_insertionSort ?_ hcorresponds).imp fun _ _ hentry => hentry.1
  rintro a a' b b' ⟨-, ha⟩ ⟨-, hb⟩
  rw [ha, hb]

omit hrows in
/-- LIMIT takes as many rows of every input. -/
theorem limitRows_eq_ok {limit : BoundExpr} {limited : List ExecRow}
    (h : limitRows limit parameters rows = .ok limited) :
    ∃ count, rows.take count = limited ∧
      ∀ others, limitRows limit parameters others = .ok (others.take count) := by
  simp only [limitRows, bind_eq_ok] at h
  obtain ⟨value, hvalue, h⟩ := h
  split at h
  next count =>
    split at h
    next hcount =>
      cases h
      refine ⟨count.toInt.toNat, rfl, fun others => ?_⟩
      simp only [limitRows, hvalue]
      exact if_pos hcount
    next => cases h
  next => cases h

/-- The nodes between a grouping and the projection. -/
theorem finishRows_corresponds {plan : LogicalPlan} (hplan : plan.KeepsRows)
    (horder : ∀ order ∈ plan.ordering, order.expr ∈ expressions) {kept : List ExecRow}
    (h : finishRows parameters plan rows = .ok kept) :
    ∃ kept', finishRows parameters plan rows' = .ok kept' ∧
      List.Forall₂ (Corresponds parameters expressions) kept kept' := by
  have hbounded {below below' : List ExecRow} (hlength : below.length ≤ maxIntermediateRows)
      (hbelow : List.Forall₂ (Corresponds parameters expressions) below below') :
      bounded below' = .ok below' :=
    bounded_eq_ok.mpr ⟨hbelow.length_eq ▸ hlength, rfl⟩
  induction plan generalizing kept with
  | aggregate =>
    rw [finishRows, bounded_eq_ok] at h
    obtain ⟨hlength, rfl⟩ := h
    exact ⟨rows', hbounded hlength hrows, hrows⟩
  | sort input orderBy ih =>
    cases input with
    | aggregate =>
      simp only [finishRows, bind_eq_ok, bounded_eq_ok] at h
      obtain ⟨_, ⟨hlength, rfl⟩, sorted, hsorted, hlength', rfl⟩ := h
      obtain ⟨sorted', hsorted', hcorresponds⟩ := sortRows_corresponds hrows horder hsorted
      refine ⟨sorted', ?_, hcorresponds⟩
      simp only [finishRows, bind_eq_ok]
      exact ⟨rows', hbounded hlength hrows, sorted', hsorted', hbounded hlength' hcorresponds⟩
    | _ => cases hplan
  | limit input limit ih =>
    simp only [finishRows, bind_eq_ok, bounded_eq_ok] at h
    obtain ⟨below, hbelow, limited, hlimited, hlength, rfl⟩ := h
    obtain ⟨below', hbelow', hcorresponds⟩ := ih hplan horder hbelow
    simp only [finishRows, bind_eq_ok]
    obtain ⟨count, rfl, htake⟩ := limitRows_eq_ok hlimited
    have hcut := List.forall₂_take count hcorresponds
    exact ⟨_, ⟨below', hbelow', _, htake below', hbounded hlength hcut⟩, hcut⟩
  | scan | filter | join | project => cases hplan

variable {output : List NamedExpr}

/-- The projection of rows on which it has the same values. -/
theorem projectRows_corresponds (houtput : ∀ named ∈ output, named.expr ∈ expressions) :
    projectRows output parameters rows = projectRows output parameters rows' := by
  have hrow {row row' : ExecRow} (hrow : Corresponds parameters expressions row row') :
      (output.mapM fun named => evaluateExec row parameters named.expr) =
        output.mapM fun named => evaluateExec row' parameters named.expr :=
    mapM_congr fun named hnamed => hrow named.expr (houtput named hnamed)
  unfold projectRows
  induction hrows with
  | nil => rfl
  | cons hhead _ ih => simp only [List.mapM_cons, hrow hhead, ih]

/-- The output of a query over groups that correspond. -/
theorem finishRows_project {below : LogicalPlan} (hbelow : below.KeepsRows)
    (horder : ∀ order ∈ below.ordering, order.expr ∈ expressions)
    (houtput : ∀ named ∈ output, named.expr ∈ expressions) {out : List ExecRow}
    (h : finishRows parameters (.project below output) rows = .ok out) :
    finishRows parameters (.project below output) rows' = .ok out := by
  simp only [finishRows, bind_eq_ok] at h ⊢
  obtain ⟨kept, hkept, projected, hprojected, hout⟩ := h
  obtain ⟨kept', hkept', hcorresponds⟩ := finishRows_corresponds hrows hbelow horder hkept
  exact ⟨kept', hkept', projected, projectRows_corresponds hcorresponds houtput ▸ hprojected, hout⟩

end

end Orders

section Groups

variable {parameters : List Value} {groupBy aggregates : List BoundExpr}
  {input input' : List ExecRow}

theorem mem_groupOf_of_perm (h : input.Perm input') {key : Bytes} {row : ExecRow} :
    row ∈ groupOf parameters groupBy input key ↔ row ∈ groupOf parameters groupBy input' key := by
  rw [groupOf, groupOf, Grouping.mem_withKey, Grouping.mem_withKey, h.mem_iff]

/-- The keys of the groups do not depend on the order of the rows. -/
theorem GroupKeys.eq_of_perm {keys keys' : List Bytes} (h : GroupKeys parameters groupBy input keys)
    (h' : GroupKeys parameters groupBy input' keys') (hperm : input.Perm input') :
    keys = keys' := by
  refine Ordered.eq_of_mem_iff h.sorted h'.sorted fun key => ?_
  have hnil : input = [] ↔ input' = [] := by
    rw [← List.length_eq_zero_iff, hperm.length_eq, List.length_eq_zero_iff]
  simp only [h.mem, h'.mem, mem_groupOf_of_perm hperm, hnil]

/-- The first row of a group, if there is one, is of the group. -/
theorem row_of_aggregateGroup {group : List ExecRow} {row : ExecRow}
    (h : aggregateGroup parameters aggregates group = .ok row) :
    group = [] ∧ row.row = ⟨[]⟩ ∨ ∃ first ∈ group, row.row = first.row := by
  rw [(aggregateGroup_eq_ok h).1]
  cases group with
  | nil => exact .inl ⟨rfl, rfl⟩
  | cons first rest => exact .inr ⟨first, List.mem_cons_self, rfl⟩

/-- Lists that belong to the same keys belong together. -/
theorem forall₂_of_keys {κ : Type} {A B : κ → ExecRow → Prop} {C : ExecRow → ExecRow → Prop}
    (hstep : ∀ key row row', A key row → B key row' → row.aggregates = row'.aggregates → C row row')
    {keys : List κ} {rows rows' : List ExecRow} (h : List.Forall₂ A keys rows)
    (h' : List.Forall₂ B keys rows')
    (haggregates : rows.map ExecRow.aggregates = rows'.map ExecRow.aggregates) :
    List.Forall₂ C rows rows' := by
  induction h generalizing rows' with
  | nil =>
    cases h'
    exact .nil
  | cons hhead _ ih =>
    cases h' with
    | cons hhead' hrest' =>
      rw [List.map_cons, List.map_cons, List.cons.injEq] at haggregates
      exact .cons (hstep _ _ _ hhead hhead' haggregates.1) (ih hrest' haggregates.2)

/-- Groups of the same rows, in any order, have the same values of the expressions that fit the
grouping. -/
theorem corresponds_of_perm (hscalar : ∀ group ∈ groupBy, group.containsAggregate = false)
    {expressions : List BoundExpr}
    (hcompatible : ∀ expr ∈ expressions, slotCompatible groupBy expr = true)
    (hperm : input.Perm input') {grouped grouped' : List ExecRow}
    (h : aggregateRows parameters groupBy aggregates input = .ok grouped)
    (h' : aggregateRows parameters groupBy aggregates input' = .ok grouped')
    (haggregates : grouped.map ExecRow.aggregates = grouped'.map ExecRow.aggregates) :
    List.Forall₂ (Corresponds parameters expressions) grouped grouped' := by
  obtain ⟨keys, hkeys, hgroups⟩ := groupKeys_of_aggregateRows h
  obtain ⟨keys', hkeys', hgroups'⟩ := groupKeys_of_aggregateRows h'
  cases hkeys.eq_of_perm hkeys' hperm
  refine forall₂_of_keys (fun key row row' hrow hrow' hcomputed expr hexpr => ?_) hgroups hgroups'
    haggregates
  have hmem (first : ExecRow) : first ∈ groupOf parameters groupBy input key ↔
      first ∈ groupOf parameters groupBy input' key := mem_groupOf_of_perm hperm
  rcases row_of_aggregateGroup hrow with ⟨hnil, hempty⟩ | ⟨first, hfirst, hrow⟩
  · rcases row_of_aggregateGroup hrow' with ⟨-, hempty'⟩ | ⟨first', hfirst', -⟩
    · have hrows : row = row' := by
        cases row
        cases row'
        simp_all only
      rw [hrows]
    · rw [← hmem, hnil] at hfirst'
      cases hfirst'
  · rcases row_of_aggregateGroup hrow' with ⟨hnil', -⟩ | ⟨first', hfirst', hrow'⟩
    · rw [hmem, hnil'] at hfirst
      cases hfirst
    · have hsame := evaluateExec_of_group hscalar hfirst ((hmem first').mpr hfirst')
        (hcompatible expr hexpr) row.aggregates
      rw [← hrow, ← hrow'] at hsame
      exact hsame.trans (by rw [hcomputed])

/-- In a query whose expressions fit the grouping slot by slot, the row that a group is evaluated on
does not show: expressions have the same values on all of its rows, and the output is the same for
every order of the input that computes the same aggregates. -/
theorem values_of_any_row {catalog : Catalog} {select : Select} {s s' : List ParameterSpec}
    {plan source : LogicalPlan} {output : List NamedExpr}
    (hbind : bindSelect catalog select s = .ok (.query plan output, s'))
    (hgrouped : plan.grouped = some (source, groupBy, aggregates))
    (hcompatible : ∀ expr ∈ plan.expressions output, slotCompatible groupBy expr = true)
    (parameters : List Value) :
    (∀ input key, ∀ row ∈ groupOf parameters groupBy input key,
      ∀ row' ∈ groupOf parameters groupBy input key, ∀ computed, ∀ expr ∈ plan.expressions output,
        evaluateExec ⟨row.row, computed⟩ parameters expr =
          evaluateExec ⟨row'.row, computed⟩ parameters expr) ∧
    ∀ input input' grouped grouped', input.Perm input' →
      aggregateRows parameters groupBy aggregates input = .ok grouped →
      aggregateRows parameters groupBy aggregates input' = .ok grouped' →
      grouped.map ExecRow.aggregates = grouped'.map ExecRow.aggregates →
      ∀ out, finishRows parameters plan grouped = .ok out ↔ finishRows parameters plan grouped' =
        .ok out := by
  obtain ⟨⟨below, hplan, hkeeps⟩, hscalar, -⟩ := bindSelect_grouped hbind hgrouped
  refine ⟨fun input key row hrow row' hrow' computed expr hexpr =>
    evaluateExec_of_group hscalar hrow hrow' (hcompatible expr hexpr) computed, ?_⟩
  have horder : ∀ order ∈ below.ordering, order.expr ∈ plan.expressions output := by
    intro order horder
    rw [hplan]
    exact List.mem_append_right _ (List.mem_map_of_mem horder)
  have houtput : ∀ named ∈ output, named.expr ∈ plan.expressions output := by
    intro named hnamed
    exact List.mem_append_left _ (List.mem_map_of_mem hnamed)
  have hfinish {input input' grouped grouped' : List ExecRow} (hperm : input.Perm input')
      (h : aggregateRows parameters groupBy aggregates input = .ok grouped)
      (h' : aggregateRows parameters groupBy aggregates input' = .ok grouped')
      (haggregates : grouped.map ExecRow.aggregates = grouped'.map ExecRow.aggregates)
      {out : List ExecRow} (hout : finishRows parameters plan grouped = .ok out) :
      finishRows parameters plan grouped' = .ok out := by
    have hrows := corresponds_of_perm hscalar hcompatible hperm h h' haggregates
    rw [hplan] at hout ⊢
    exact finishRows_project (hplan ▸ hrows) hkeeps horder houtput hout
  intro input input' grouped grouped' hperm h h' haggregates out
  exact ⟨hfinish hperm h h' haggregates, hfinish hperm.symm h' h haggregates.symm⟩

end Groups

section Sample

/-- The column `id` of `items` under an alias. -/
def idOf (aliasName : String) : Expr :=
  .column (some ⟨aliasName, false, .default⟩) ⟨"id", false, .default⟩ .default

def boundIdOf (aliasName : String) (inputSlot : Nat) : BoundExpr :=
  .column { tableId := 1, tableName := "items", tableAlias := aliasName, columnIndex := 0, inputSlot
            column := ⟨"id", .int64, false, true⟩ } .default

/-- A query over `items a JOIN items b ON a.id <= b.id` -/
def pairsOf (projection : List Expr) (groupBy : List Expr) : Select where
  projection := projection.map fun expr => .expr expr none
  source := ⟨⟨"items", false, .default⟩, some ⟨"a", false, .default⟩, .default⟩
  joins := [⟨⟨⟨"items", false, .default⟩, some ⟨"b", false, .default⟩, .default⟩,
    .binary (idOf "a") .ltEq (idOf "b") .default, .default⟩]
  selection := none
  groupBy
  orderBy := []
  limit := none

def pairsSource : LogicalPlan :=
  .join (.scan ⟨EngineCatalog.tableDef itemsTable, "a", 0⟩)
    (.scan ⟨EngineCatalog.tableDef itemsTable, "b", 2⟩)
    (.binary (boundIdOf "a" 0) .ltEq (boundIdOf "b" 2) .default)

def bluePair : ExecRow := .plain ⟨[.int64 1, .text "blue", .int64 1, .text "blue"]⟩

def mixedPair : ExecRow := .plain ⟨[.int64 1, .text "blue", .int64 2, .text "red"]⟩

def redPair : ExecRow := .plain ⟨[.int64 2, .text "red", .int64 2, .text "red"]⟩

def pairsRows : List ExecRow := [bluePair, mixedPair, redPair]

def callOf (function : AggregateFunction) (aliasName : String) : Expr :=
  .aggregate function (idOf aliasName) .default

def boundCallOf (function : AggregateFunction) (aliasName : String) (inputSlot : Nat) : BoundExpr :=
  .aggregate function (boundIdOf aliasName inputSlot) .default

def sumsOutput : List NamedExpr :=
  [⟨boundCallOf .sum "a" 0, "sum"⟩, ⟨boundCallOf .sum "b" 2, "sum"⟩]

/-- The sums of both columns are one aggregate to the binder. -/
def sumsPlan : LogicalPlan :=
  .project (.aggregate pairsSource [] [boundCallOf .sum "a" 0]) sumsOutput

def ownOutput : List NamedExpr :=
  [⟨boundCallOf .sum "a" 0, "sum"⟩, ⟨boundCallOf .max "b" 2, "max"⟩]

/-- The plan of `SELECT SUM(a.id), MAX(b.id)` over pairs. -/
def ownPlan : LogicalPlan :=
  .project (.aggregate pairsSource [] (ownOutput.map NamedExpr.expr)) ownOutput

/-- The plan of a query that groups pairs by `a.id` and returns one column. -/
def groupsPlan (aliasName : String) (inputSlot : Nat) : LogicalPlan :=
  .project (.aggregate pairsSource [boundIdOf "a" 0] []) [⟨boundIdOf aliasName inputSlot, "id"⟩]

/-- The encoding of the group of `a.id = 1`. -/
def firstGroup : Bytes := [1, 0, 0, 0, 1, 1, 0, 0, 0, 0, 0, 0, 0]

/-- `SELECT b.id` over pairs is accepted with `GROUP BY a.id`, and the pairs of a group differ in
it. -/
theorem other_alias_in_group : ∃ e,
    @Engine.Reached zeroHash e sampleEntries ∧
    bindSelect (EngineCatalog.new e (some (.new 3 2 1))).catalog (pairsOf [idOf "b"] [idOf "a"])
      [] = .ok (.query (groupsPlan "b" 2) [⟨boundIdOf "b" 2, "id"⟩], []) ∧
    executePlan e (.new 3 2 1) [] (optimize (EngineCatalog.new e none).catalog pairsSource) =
      .ok pairsRows ∧
    groupOf [] [boundIdOf "a" 0] pairsRows firstGroup = [bluePair, mixedPair] ∧
    evaluateExec bluePair [] (boundIdOf "b" 2) = .ok (.int64 1) ∧
    evaluateExec mixedPair [] (boundIdOf "b" 2) = .ok (.int64 2) :=
  ⟨_, reached_sampleRun, by decide +kernel⟩

/-- `SELECT a.id` with `GROUP BY a.id` has one value in each group. -/
theorem own_alias_in_group : ∃ e,
    bindSelect (EngineCatalog.new e (some (.new 3 2 1))).catalog (pairsOf [idOf "a"] [idOf "a"])
      [] = .ok (.query (groupsPlan "a" 0) [⟨boundIdOf "a" 0, "id"⟩], []) ∧
    ∀ row ∈ groupOf [] [boundIdOf "a" 0] pairsRows firstGroup,
      ∀ row' ∈ groupOf [] [boundIdOf "a" 0] pairsRows firstGroup,
        evaluateExec ⟨row.row, []⟩ [] (boundIdOf "a" 0) =
          evaluateExec ⟨row'.row, []⟩ [] (boundIdOf "a" 0) := by
  have hbind : bindSelect (EngineCatalog.new (afterRun sampleRun)
      (some (.new 3 2 1))).catalog (pairsOf [idOf "a"] [idOf "a"]) [] =
        .ok (.query (groupsPlan "a" 0) [⟨boundIdOf "a" 0, "id"⟩], []) := by
    decide +kernel
  have hsame := (values_of_any_row hbind rfl (by decide) []).1 pairsRows firstGroup
  exact ⟨_, hbind, fun row hrow row' hrow' =>
    hsame row hrow row' hrow' [] (boundIdOf "a" 0) (by decide)⟩

end Sample

end AsterDatabase
