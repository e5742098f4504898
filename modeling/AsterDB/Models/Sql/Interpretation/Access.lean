import AsterDB.Models.Engine.Interpretation.Keys
import AsterDB.Models.Sql.Interpretation.Binding
import AsterDB.Models.Sql.Native.Evaluate

/-!
# Access paths

What the planner chose for a filter. A row that satisfies the predicate satisfies every
conjunct of it, so that under an equality its column has the value of the constraint.
-/

namespace AsterSql

open AsterEngine (Value Row)
open Fallible

section Evaluation

variable {context : EvaluationContext}

variable {span : Span}

theorem truth_eq_true {value : Value} : truth value span = .ok .true ↔ value = .bool true := by
  unfold truth
  split <;> simp_all

/-- A predicate matches if its value is true. -/
theorem predicateMatches_eq_true {expression : BoundExpr} :
    predicateMatches context expression = .ok true ↔
      evaluate context expression = .ok (.bool true) := by
  simp only [predicateMatches, bind_eq_ok, pure_eq_ok, beq_iff_eq]
  constructor
  · rintro ⟨value, hvalue, _, htruth, rfl⟩
    rw [hvalue, truth_eq_true.mp htruth]
  · intro h
    exact ⟨_, h, _, truth_eq_true.mpr rfl, rfl⟩

variable {left right : BoundExpr}

/-- A true conjunction has true conjuncts. -/
theorem evaluate_and (h : evaluate context (.binary left .and right span) = .ok (.bool true)) :
    evaluate context left = .ok (.bool true) ∧ evaluate context right = .ok (.bool true) := by
  simp only [evaluate, bind_eq_ok] at h
  obtain ⟨leftValue, hleft, leftTruth, hleftTruth, h⟩ := h
  split at h
  · cases h
  · simp only [bind_eq_ok, pure_eq_ok] at h
    obtain ⟨rightValue, hright, rightTruth, hrightTruth, h⟩ := h
    cases leftTruth <;> cases rightTruth <;> try cases h
    rw [hleft, hright, truth_eq_true.mp hleftTruth, truth_eq_true.mp hrightTruth]
    exact ⟨rfl, rfl⟩

/-- A true equation has equal sides, which are not NULL. -/
theorem evaluate_eq (h : evaluate context (.binary left .eq right span) = .ok (.bool true)) :
    ∃ value, value.isNull = false ∧ evaluate context left = .ok value ∧
      evaluate context right = .ok value := by
  simp only [evaluate, compareValues, bind_eq_ok, pure_eq_ok, mapError_eq_ok] at h
  obtain ⟨leftValue, hleft, rightValue, hright, ordering, hordering, h⟩ := h
  cases ordering with
  | none => cases h
  | some ordering =>
    have hholds : BinaryOp.eq.holds ordering = true := by simpa using h
    cases beq_iff_eq.mp hholds
    have hsame := AsterEngine.Value.eq_of_order (AsterEngine.Value.checkedCmp_eq_order hordering)
    have hnull : leftValue.isNull = false := by
      cases leftValue with
      | null => cases hordering
      | _ => rfl
    exact ⟨leftValue, hnull, hleft, hsame ▸ hright⟩

theorem evaluate_column {column : BoundColumn} {value : Value}
    (h : evaluate context (.column column span) = .ok value) :
    context.row.values[column.inputSlot]? = some value := by
  simp only [evaluate, bind_eq_ok, pure_eq_ok, orFail_eq_ok] at h
  obtain ⟨found, hfound, ⟨⟩, -, rfl⟩ := h
  exact hfound

end Evaluation

/-- A literal or a parameter. -/
def BoundExpr.IsConstant : BoundExpr → Prop
  | .literal .. | .parameter .. => True
  | _ => False

/-- The value of a constant does not depend on the row. -/
theorem evaluate_constant {expression : BoundExpr} (h : expression.IsConstant) (row row' : Row)
    (parameters : List Value) :
    evaluate ⟨row, parameters⟩ expression = evaluate ⟨row', parameters⟩ expression := by
  cases expression <;> first | rfl | cases h

section Choice

variable {catalog : Catalog} {table : BoundTable} {predicate : BoundExpr} {index : IndexDef}
  {constraint : IndexConstraint}

variable {op : BinaryOp}

theorem reverseComparison_eq (h : reverseComparison op = .eq) : op = .eq := by
  cases op <;> first | rfl | cases h

/-- A comparison of a column with a constant that an index may serve. -/
structure Comparison (predicate : BoundExpr) (column : BoundColumn) (op : BinaryOp)
    (value : BoundExpr) : Prop where
  constant : value.IsConstant
  columns : ∀ {P : BoundColumn → Prop}, predicate.Columns P → P column
  equal : op = .eq → ∀ {context}, evaluate context predicate = .ok (.bool true) →
    ∃ found, evaluate context value = .ok found ∧ context.row.values[column.inputSlot]? = some found

variable {column : BoundColumn} {value : BoundExpr}

theorem comparison_left (hvalue : value.IsConstant) (span span' : Span) :
    Comparison (.binary (.column column span) op value span') column op value where
  constant := hvalue
  columns := And.left
  equal := by
    rintro rfl context htrue
    obtain ⟨found, -, hcolumn, hfound⟩ := evaluate_eq htrue
    exact ⟨found, hfound, evaluate_column hcolumn⟩

theorem comparison_right (hvalue : value.IsConstant) (span span' : Span) :
    Comparison (.binary value op (.column column span) span') column (reverseComparison op)
      value where
  constant := hvalue
  columns := And.right
  equal := by
    intro hop context htrue
    cases reverseComparison_eq hop
    obtain ⟨found, -, hfound, hcolumn⟩ := evaluate_eq htrue
    exact ⟨found, hfound, evaluate_column hcolumn⟩

theorem comparison_of_sargable
    (h : sargable predicate = some (column, op, value)) : Comparison predicate column op value := by
  unfold sargable at h
  split at h
  · split at h
    · split at h
      · split at h
        · cases h
        · cases h
          exact comparison_left (by trivial) _ _
      · cases h
        exact comparison_left (by trivial) _ _
      · split at h
        · cases h
        · cases h
          exact comparison_right (by trivial) _ _
      · cases h
        exact comparison_right (by trivial) _ _
      · cases h
    · cases h
  · cases h

/-- What the planner knows of an index it chose: it is an index of the table over the constraint's
column, and under an equality every matching row has the constraint's value there. -/
structure Chosen (catalog : Catalog) (table : BoundTable) (predicate : BoundExpr) (index : IndexDef)
    (constraint : IndexConstraint) : Prop where
  listed : index ∈ catalog.indexesForTable table.table.id
  column : index.columnIndex = constraint.columnIndex
  constant : constraint.value.IsConstant
  equal : table.slotOffset = 0 → predicate.Columns (BoundColumn.Of table) →
    constraint.operator = .eq → ∀ {context}, evaluate context predicate = .ok (.bool true) →
    ∃ found, evaluate context constraint.value = .ok found ∧
      context.row.values[constraint.columnIndex]? = some found

theorem chosen_of_indexOf (h : indexOf catalog table predicate = some (index, constraint)) :
    Chosen catalog table predicate index constraint := by
  simp only [indexOf, Option.bind_eq_bind, Option.bind_eq_some_iff, Prod.exists] at h
  obtain ⟨column, op, value, hsargable, h⟩ := h
  have hcomparison := comparison_of_sargable hsargable
  split at h
  · obtain ⟨found, hfound, h⟩ := Option.bind_eq_some_iff.mp h
    cases h
    refine ⟨List.mem_of_find?_eq_some hfound, ?_, hcomparison.constant, ?_⟩
    · simpa using List.find?_some hfound
    · intro hslot hcolumns hop context htrue
      obtain ⟨value, hvalue, hrow⟩ := hcomparison.equal hop htrue
      have hinput := (hcomparison.columns hcolumns).2
      rw [hslot, Nat.zero_add] at hinput
      exact ⟨value, hvalue, hinput ▸ hrow⟩
  · cases h

theorem chosen_of_chooseIndex (h : chooseIndex catalog table predicate = some (index, constraint)) :
    Chosen catalog table predicate index constraint := by
  induction predicate with
  | binary left op right span ihLeft ihRight =>
    cases op with
    | and =>
      -- the conjuncts are tried from the left
      simp only [chooseIndex, Option.orElse_eq_orElse, Option.orElse_eq_or,
        Option.or_eq_some_iff] at h
      rcases h with h | ⟨-, h⟩
      · obtain ⟨hlisted, hcolumn, hconstant, hequal⟩ := ihLeft h
        exact ⟨hlisted, hcolumn, hconstant, fun hslot hcolumns hop _ htrue =>
          hequal hslot hcolumns.1 hop (evaluate_and htrue).1⟩
      · obtain ⟨hlisted, hcolumn, hconstant, hequal⟩ := ihRight h
        exact ⟨hlisted, hcolumn, hconstant, fun hslot hcolumns hop _ htrue =>
          hequal hslot hcolumns.2 hop (evaluate_and htrue).2⟩
    | _ => exact chosen_of_indexOf h
  | _ => exact chosen_of_indexOf h

end Choice

end AsterSql
