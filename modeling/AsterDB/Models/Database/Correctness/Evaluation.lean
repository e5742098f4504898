import AsterDB.Models.Database.Interpretation.Groups
import Mathlib.Algebra.BigOperators.Group.List.Basic

/-!
# Values of expressions and sums

An expression with aggregate calls has the value it would have with the calls replaced by
what was computed for them. A sum is added up in INT64 row by row: it is the mathematical
sum as long as no partial sum leaves the range, and fails as soon as one does, even if
later rows would bring the sum back.
-/

namespace AsterDatabase

open AsterEngine (Value)
open AsterSql
open Fallible

section Evaluators

/-- The literal that takes the place of a call: the value found for it. -/
def callValue (aggregates : List (BoundExpr × Value)) (call : BoundExpr) : BoundExpr :=
  match aggregates.find? fun entry => entry.1.sameExpression call with
  | some entry => .literal entry.2 call.span
  | none => call

/-- The expression with its aggregate calls replaced by values. -/
def withAggregates (aggregates : List (BoundExpr × Value)) : BoundExpr → BoundExpr
  | .unary op expr span => .unary op (withAggregates aggregates expr) span
  | .binary left op right span =>
    .binary (withAggregates aggregates left) op (withAggregates aggregates right) span
  | .isNull expr negated span => .isNull (withAggregates aggregates expr) negated span
  | .aggregateStar function span => callValue aggregates (.aggregateStar function span)
  | .aggregate function argument span => callValue aggregates (.aggregate function argument span)
  | .literal value span => .literal value span
  | .parameter index dataType span => .parameter index dataType span
  | .column column span => .column column span

/-- Truth values in order: false, unknown, true. -/
def rank : TruthValue → Nat
  | .false => 0
  | .unknown => 1
  | .true => 2

/-- Kleene's logic: AND is the minimum, OR the maximum and NOT the reflection of truth values,
and an operand that decides the value keeps the other from being evaluated. -/
structure Kleene {ε : Type} (eval : BoundExpr → Except ε Value) : Prop where
  not : ∀ {expr : BoundExpr} {span : Span} {value : Value} {p : TruthValue},
    eval expr = .ok value → truth value span = .ok p →
      ∃ t : TruthValue, eval (.unary .not expr span) = .ok t.intoValue ∧ rank t = 2 - rank p
  and_short : ∀ {left right : BoundExpr} {span : Span}, eval left = .ok (.bool false) →
    eval (.binary left .and right span) = .ok (.bool false)
  and : ∀ {left right : BoundExpr} {span : Span} {a b : Value} {p q : TruthValue},
    eval left = .ok a → truth a span = .ok p → eval right = .ok b → truth b span = .ok q →
      ∃ t : TruthValue, eval (.binary left .and right span) = .ok t.intoValue ∧
        rank t = min (rank p) (rank q)
  or_short : ∀ {left right : BoundExpr} {span : Span}, eval left = .ok (.bool true) →
    eval (.binary left .or right span) = .ok (.bool true)
  or : ∀ {left right : BoundExpr} {span : Span} {a b : Value} {p q : TruthValue},
    eval left = .ok a → truth a span = .ok p → eval right = .ok b → truth b span = .ok q →
      ∃ t : TruthValue, eval (.binary left .or right span) = .ok t.intoValue ∧
        rank t = max (rank p) (rank q)

/-- An evaluator that handles the connectives as both evaluators do follows the logic. -/
theorem kleene_of_equations {ε : Type} {eval : BoundExpr → Except ε Value}
    (lift : {α : Type} → Except SqlError α → Except ε α)
    (hlift : ∀ {α : Type} (a : α), lift (.ok a) = .ok a)
    (hnot : ∀ expr span, eval (.unary .not expr span) = (do
      let value ← eval expr
      let value ← lift (truth value span)
      return value.not.intoValue))
    (hand : ∀ left right span, eval (.binary left .and right span) = (do
      let left ← eval left
      let left ← lift (truth left span)
      if left = .false then return .bool false
      else
        let right ← eval right
        let right ← lift (truth right span)
        return (left.and right).intoValue))
    (hor : ∀ left right span, eval (.binary left .or right span) = (do
      let left ← eval left
      let left ← lift (truth left span)
      if left = .true then return .bool true
      else
        let right ← eval right
        let right ← lift (truth right span)
        return (left.or right).intoValue)) : Kleene eval where
  not {expr span value p} hvalue hp := by
    refine ⟨p.not, ?_, by cases p <;> rfl⟩
    rw [hnot, hvalue]
    change (lift (truth value span) >>= _) = _
    rw [hp, hlift]
    rfl
  and_short hleft := by
    rw [hand, hleft]
    change (lift (.ok TruthValue.false) >>= _) = _
    rw [hlift]
    rfl
  and {left right span a b p q} hleft hp hright hq := by
    refine ⟨p.and q, ?_, by cases p <;> cases q <;> rfl⟩
    rw [hand, hleft, hright]
    change (lift (truth a span) >>= _) = _
    rw [hp, hlift]
    change (if p = .false then _ else lift (truth b span) >>= _) = _
    rw [hq, hlift]
    cases p <;> rfl
  or_short hleft := by
    rw [hor, hleft]
    change (lift (.ok TruthValue.true) >>= _) = _
    rw [hlift]
    rfl
  or {left right span a b p q} hleft hp hright hq := by
    refine ⟨p.or q, ?_, by cases p <;> cases q <;> rfl⟩
    rw [hor, hleft, hright]
    change (lift (truth a span) >>= _) = _
    rw [hp, hlift]
    change (if p = .true then _ else lift (truth b span) >>= _) = _
    rw [hq, hlift]
    cases p <;> rfl

variable {row : ExecRow} {parameters : List Value}

/-- A call is replaced by the value the executor reads for it. -/
theorem aggregateValue_eq_callValue {call : BoundExpr}
    (h : ∃ entry ∈ row.aggregates, entry.1.sameExpression call = true) :
    aggregateValue row call =
      liftSql (evaluate ⟨row.row, parameters⟩ (callValue row.aggregates call)) := by
  simp only [aggregateValue, callValue, Executor.sameExpression_eq]
  cases hfind : row.aggregates.find? fun entry => entry.1.sameExpression call with
  | some entry => rfl
  | none =>
    obtain ⟨entry, hmem, hsame⟩ := h
    exact absurd hsame (List.find?_eq_none.mp hfind entry hmem)

/-- An expression whose calls have been computed has the value of the one without calls. -/
theorem evaluateExec_eq_evaluate {e : BoundExpr} (h : ∀ call ∈ collectAggregates e,
      ∃ entry ∈ row.aggregates, entry.1.sameExpression call = true) :
    evaluateExec row parameters e =
      liftSql (evaluate ⟨row.row, parameters⟩ (withAggregates row.aggregates e)) := by
  induction e with
  | literal | parameter | column => exact evaluateExec_scalar row parameters rfl
  | unary op expr span ih =>
    cases op with
    | not =>
      rw [evaluateExec_not, ih h, withAggregates, evaluate]
      simp only [liftSql_bind]
      rfl
    | negate => rw [evaluateExec_negate, ih h, withAggregates, evaluate, liftSql_bind]
  | binary left op right span ihLeft ihRight =>
    have hleft := ihLeft fun call hcall => h call (List.mem_append_left _ hcall)
    have hright := ihRight fun call hcall => h call (List.mem_append_right _ hcall)
    by_cases hop : op.isComparison = true
    · rw [evaluateExec_comparison row parameters _ _ hop, hleft, hright, withAggregates]
      cases op with
      | and | or => cases hop
      | _ => simp only [evaluate, liftSql_bind]
    · cases op with
      | and =>
        rw [evaluateExec_and, hleft, hright, withAggregates, evaluate]
        simp only [liftSql_bind, apply_ite liftSql]
        rfl
      | or =>
        rw [evaluateExec_or, hleft, hright, withAggregates, evaluate]
        simp only [liftSql_bind, apply_ite liftSql]
        rfl
      | _ => exact absurd rfl hop
  | isNull expr negated span ih =>
    rw [evaluateExec_isNull, ih h, withAggregates, evaluate, liftSql_bind]
    rfl
  | aggregateStar function span | aggregate function argument span =>
    exact aggregateValue_eq_callValue (h _ (List.mem_singleton_self _))

/-- Both evaluators give the same value, or fail alike, on an expression and on the one with its
calls replaced by their values, and both follow Kleene's logic. -/
theorem evaluators_agree (row : ExecRow) (parameters : List Value) :
    (∀ e : BoundExpr, (∀ call ∈ collectAggregates e,
      ∃ entry ∈ row.aggregates, entry.1.sameExpression call = true) →
        evaluateExec row parameters e =
          liftSql (evaluate ⟨row.row, parameters⟩ (withAggregates row.aggregates e))) ∧
      Kleene (evaluateExec row parameters) ∧ Kleene (evaluate ⟨row.row, parameters⟩) := by
  refine ⟨fun e => evaluateExec_eq_evaluate, ?_, ?_⟩
  · exact kleene_of_equations liftSql (fun _ => rfl) (evaluateExec_not row parameters)
      (evaluateExec_and row parameters) (evaluateExec_or row parameters)
  · exact kleene_of_equations id (fun _ => rfl) (fun _ _ => by rw [evaluate]; rfl)
      (fun _ _ _ => by rw [evaluate]; rfl) (fun _ _ _ => by rw [evaluate]; rfl)

/-- A group of three rows, compared with two. -/
theorem evaluators_agree_count :
    evaluateExec ⟨⟨[]⟩, [(.aggregateStar .count .default, .int64 3)]⟩ []
        (.binary (.aggregateStar .count ⟨7, 15⟩) .gt (.literal (.int64 2) .default) .default) =
      liftSql (evaluate ⟨⟨[]⟩, []⟩
        (.binary (.literal (.int64 3) ⟨7, 15⟩) .gt (.literal (.int64 2) .default) .default)) :=
  (evaluators_agree ⟨⟨[]⟩, [(.aggregateStar .count .default, .int64 3)]⟩ []).1 _ (by decide)

end Evaluators

section Sums

/-- The number is an INT64. -/
def Fits (n : Int) : Prop := Int64.minValue.toInt ≤ n ∧ n ≤ Int64.maxValue.toInt

instance (n : Int) : Decidable (Fits n) := inferInstanceAs (Decidable (_ ∧ _))

/-- The values that count for a sum. -/
def nonNull (values : List Value) : List Int :=
  values.filterMap fun
    | .int64 n => some n.toInt
    | _ => none

def sumOverflow (span : Span) : DatabaseError := .sql ⟨.constraint, "INT64 SUM overflow", span⟩

/-- The sum of the values as mathematics has it. -/
def exactSum (span : Span) (values : List Value) : Result Value :=
  if nonNull values = [] then .ok .null
  else if Fits (nonNull values).sum then .ok (.int64 (.ofInt (nonNull values).sum))
  else .error (sumOverflow span)

/-- The total stays in range with every number that is added to it. -/
def PartialSumsFit : Int → List Int → Prop
  | _, [] => True
  | total, n :: rest => Fits (total + n) ∧ PartialSumsFit (total + n) rest

instance decidablePartialSumsFit : ∀ total numbers, Decidable (PartialSumsFit total numbers)
  | _, [] => isTrue trivial
  | total, n :: rest =>
    have := decidablePartialSumsFit (total + n) rest
    inferInstanceAs (Decidable (_ ∧ _))

theorem PartialSumsFit.sum {total : Int} {numbers : List Int} (h : PartialSumsFit total numbers)
    (hne : numbers ≠ []) : Fits (total + numbers.sum) := by
  induction numbers generalizing total with
  | nil => exact absurd rfl hne
  | cons n rest ih =>
    rw [List.sum_cons, ← add_assoc]
    cases rest with
    | nil =>
      rw [List.sum_nil, add_zero]
      exact h.1
    | cons m rest => exact ih h.2 (List.cons_ne_nil m rest)

variable {parameters : List Value} {argument : BoundExpr} {span : Span}

/-- Adding up rows from a sum so far. -/
theorem foldlM_addToSum {rows : List ExecRow} {value : ExecRow → Value}
    (hvalue : ∀ row ∈ rows, evaluateExec row parameters argument = .ok (value row))
    (hint : ∀ row ∈ rows, value row = .null ∨ ∃ n, value row = .int64 n) (sum : Option Int64) :
    rows.foldlM (fun sum row => do
      let value ← evaluateExec row parameters argument
      addToSum span sum value) sum =
    if PartialSumsFit (sum.getD 0).toInt (nonNull (rows.map value)) then
      .ok (if nonNull (rows.map value) = [] then sum
        else some (.ofInt ((sum.getD 0).toInt + (nonNull (rows.map value)).sum)))
    else .error (sumOverflow span) := by
  induction rows generalizing sum with
  | nil => rfl
  | cons row rest ih =>
    rw [List.forall_mem_cons] at hvalue hint
    rw [List.foldlM_cons, hvalue.1]
    change (addToSum span sum (value row) >>= _) = _
    rcases hint.1 with hnull | ⟨n, hn⟩
    · have hsame : nonNull ((row :: rest).map value) = nonNull (rest.map value) := by
        rw [List.map_cons, hnull]
        rfl
      rw [hnull, hsame]
      exact ih hvalue.2 hint.2 sum
    · have hcons : nonNull ((row :: rest).map value) = n.toInt :: nonNull (rest.map value) := by
        rw [List.map_cons, hn]
        rfl
      rw [hn, hcons]
      by_cases hfits : Fits ((sum.getD 0).toInt + n.toInt)
      · have hadd : addToSum span sum (.int64 n) =
            .ok (some (.ofInt ((sum.getD 0).toInt + n.toInt))) := if_pos hfits
        have htotal : (Int64.ofInt ((sum.getD 0).toInt + n.toInt)).toInt =
            (sum.getD 0).toInt + n.toInt :=
          Int64.toInt_ofInt_of_le (Int64.toInt_minValue ▸ hfits.1)
            (Int.lt_of_le_sub_one (Int64.toInt_maxValue ▸ hfits.2))
        rw [hadd]
        refine (ih hvalue.2 hint.2 _).trans ?_
        rw [Option.getD_some, htotal, if_neg (List.cons_ne_nil n.toInt _), List.sum_cons,
          ← add_assoc]
        simp only [PartialSumsFit, hfits, true_and]
        split
        · rename_i hrest
          split
          · rename_i hnil
            rw [hnil, List.sum_nil, add_zero]
          · rfl
        · rfl
      · have hadd : addToSum span sum (.int64 n) = .error (sumOverflow span) := if_neg hfits
        rw [hadd, if_neg fun h => hfits h.1]
        rfl

/-- SUM is the mathematical sum if no partial sum overflows or the whole sum does, and only
then; such sums do not depend on the order of the rows. -/
theorem sum_exact_iff (rows : List ExecRow) (value : ExecRow → Value)
    (hvalue : ∀ row ∈ rows, evaluateExec row parameters argument = .ok (value row))
    (hint : ∀ row ∈ rows, value row = .null ∨ ∃ n, value row = .int64 n) :
    (computeAggregate parameters rows (.aggregate .sum argument span) =
        exactSum span (rows.map value) ↔
      PartialSumsFit 0 (nonNull (rows.map value)) ∨ ¬Fits (nonNull (rows.map value)).sum) ∧
    ∀ rows', rows'.Perm rows → PartialSumsFit 0 (nonNull (rows.map value)) →
      PartialSumsFit 0 (nonNull (rows'.map value)) →
        computeAggregate parameters rows' (.aggregate .sum argument span) =
          computeAggregate parameters rows (.aggregate .sum argument span) := by
  have hsum (rows : List ExecRow)
      (hvalue : ∀ row ∈ rows, evaluateExec row parameters argument = .ok (value row))
      (hint : ∀ row ∈ rows, value row = .null ∨ ∃ n, value row = .int64 n) :
      computeAggregate parameters rows (.aggregate .sum argument span) =
        if PartialSumsFit 0 (nonNull (rows.map value)) then exactSum span (rows.map value)
        else .error (sumOverflow span) := by
    change (List.foldlM _ none rows >>= _) = _
    rw [foldlM_addToSum hvalue hint none]
    change (ite (PartialSumsFit 0 _) _ _ >>= _) = _
    by_cases hfit : PartialSumsFit 0 (nonNull (rows.map value))
    · rw [if_pos hfit, if_pos hfit, exactSum]
      by_cases hnil : nonNull (rows.map value) = []
      · rw [if_pos hnil, if_pos hnil]
        rfl
      · have hfits := hfit.sum hnil
        rw [zero_add] at hfits
        rw [if_neg hnil, if_neg hnil, if_pos hfits, Option.getD_none, Int64.toInt_zero, zero_add]
        rfl
    · rw [if_neg hfit, if_neg hfit]
      rfl
  constructor
  · rw [hsum rows hvalue hint]
    by_cases hfit : PartialSumsFit 0 (nonNull (rows.map value))
    · simp only [hfit, if_true, true_or]
    · have hne : nonNull (rows.map value) ≠ [] := by
        intro hnil
        rw [hnil] at hfit
        exact hfit trivial
      rw [if_neg hfit, exactSum, if_neg hne]
      split
      · rename_i hfits
        simp [hfit, hfits]
      · rename_i hfits
        simp [hfits]
  · intro rows' hperm hfit hfit'
    have hvalues : (nonNull (rows'.map value)).Perm (nonNull (rows.map value)) :=
      (hperm.map value).filterMap _
    have hnil : nonNull (rows'.map value) = [] ↔ nonNull (rows.map value) = [] := by
      rw [← List.length_eq_zero_iff, hvalues.length_eq, List.length_eq_zero_iff]
    rw [hsum rows hvalue hint, hsum rows' (fun row hrow => hvalue row (hperm.mem_iff.mp hrow))
      fun row hrow => hint row (hperm.mem_iff.mp hrow), if_pos hfit, if_pos hfit']
    simp only [exactSum, hnil, hvalues.sum_eq]

/-- The amount in the only column of a row. -/
def amount : BoundExpr :=
  .column ⟨1, "ledger", "ledger", 0, 0, ⟨"amount", .int64, true, false⟩⟩ .default

/-- Rows with one amount each. -/
def ledger (amounts : List Int64) : List ExecRow := amounts.map fun n => .plain ⟨[.int64 n]⟩

/-- The sum of these amounts is an INT64, but the sum of the first two is none. -/
theorem sum_overflows_on_the_way :
    computeAggregate [] (ledger [Int64.maxValue, 1, -1]) (.aggregate .sum amount .default) =
        .error (sumOverflow .default) ∧
      exactSum .default [.int64 Int64.maxValue, .int64 1, .int64 (-1)] =
        .ok (.int64 Int64.maxValue) ∧
      computeAggregate [] (ledger [Int64.maxValue, -1, 1]) (.aggregate .sum amount .default) =
        .ok (.int64 Int64.maxValue) := by
  decide

/-- In another order of the same amounts no partial sum overflows. -/
theorem sum_exact_in_order :
    computeAggregate [] (ledger [Int64.maxValue, -1, 1]) (.aggregate .sum amount .default) =
      exactSum .default [.int64 Int64.maxValue, .int64 (-1), .int64 1] :=
  (sum_exact_iff (ledger [Int64.maxValue, -1, 1]) (fun row => row.row.values.headD .null)
    (by decide) (by simp [ledger, ExecRow.plain])).1.mpr (by decide)

end Sums

end AsterDatabase
