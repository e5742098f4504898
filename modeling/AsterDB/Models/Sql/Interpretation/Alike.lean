import AsterDB.Models.Sql.Native.Binder
import AsterDB.Models.Sql.Native.Evaluate
import Mathlib.Data.List.Induction

/-!
# Expressions that are alike

Expressions that differ in the places they were written in have the same values. The
comparison of the binder takes more expressions for one than these: it does not look at
the input slots of columns.
-/

namespace AsterSql

open AsterEngine (Value DataType)
open Fallible

namespace BoundExpr

/-- The expression without the places it was written in. -/
def unspanned : BoundExpr → BoundExpr
  | literal value _ => literal value .default
  | parameter index dataType _ => parameter index dataType .default
  | column bound _ => column bound .default
  | unary op expr _ => unary op expr.unspanned .default
  | binary left op right _ => binary left.unspanned op right.unspanned .default
  | isNull expr negated _ => isNull expr.unspanned negated .default
  | aggregateStar function _ => aggregateStar function .default
  | aggregate function argument _ => aggregate function argument.unspanned .default

/-- Equal up to the places they were written in. -/
def Alike (left right : BoundExpr) : Prop := left.unspanned = right.unspanned

instance (left right : BoundExpr) : Decidable (left.Alike right) :=
  inferInstanceAs (Decidable (left.unspanned = right.unspanned))

theorem sameExpression_refl (expr : BoundExpr) : expr.sameExpression expr = true := by
  induction expr with
  | unary _ _ _ ih | isNull _ _ _ ih | aggregate _ _ _ ih => simp [sameExpression, ih]
  | binary _ _ _ _ ihLeft ihRight => simp [sameExpression, ihLeft, ihRight]
  | _ => simp [sameExpression]

/-- The binder's comparison does not see spans. -/
theorem sameExpression_unspanned (left right : BoundExpr) :
    left.sameExpression right.unspanned = left.sameExpression right := by
  induction right generalizing left with
  | unary _ _ _ ih | isNull _ _ _ ih | aggregate _ _ _ ih =>
    cases left <;> simp only [unspanned, sameExpression, ih]
  | binary _ _ _ _ ihLeft ihRight =>
    cases left <;> simp only [unspanned, sameExpression, ihLeft, ihRight]
  | _ => cases left <;> rfl

end BoundExpr

section Values

variable (context : EvaluationContext) (value : Value)

theorem toOption_ensureRuntimeType (expected : Option DataType) (span span' : Span) :
    (ensureRuntimeType value expected span).toOption =
      (ensureRuntimeType value expected span').toOption := by
  unfold ensureRuntimeType
  split
  · simp only [toOption_failIf]
  · rfl

theorem toOption_truth (span span' : Span) :
    (truth value span).toOption = (truth value span').toOption := by
  unfold truth
  split <;> rfl

theorem toOption_negate (span span' : Span) :
    (negate value span).toOption = (negate value span').toOption := by
  unfold negate
  split
  · rfl
  · split <;> rfl
  · rfl

theorem toOption_compareValues (left right : Value) (op : BinaryOp) (span span' : Span) :
    (compareValues left op right span).toOption = (compareValues left op right span').toOption := by
  simp only [compareValues, toOption_bind, toOption_mapError]

/-- The value of an expression does not depend on the places it was written in. -/
theorem toOption_evaluate_unspanned (expr : BoundExpr) :
    (evaluate context expr.unspanned).toOption = (evaluate context expr).toOption := by
  induction expr with
  | literal value span => rfl
  | parameter index dataType span | column bound span =>
    simp only [BoundExpr.unspanned, evaluate, toOption_bind, toOption_orFail,
      toOption_ensureRuntimeType _ _ .default span]
  | unary op expr span ih =>
    cases op <;>
      simp only [BoundExpr.unspanned, evaluate, toOption_bind, ih, toOption_truth _ .default span,
        toOption_negate _ .default span]
  | binary left op right span ihLeft ihRight =>
    cases op with
    | and | or =>
      simp only [BoundExpr.unspanned, evaluate, toOption_bind, ihLeft,
        toOption_truth _ .default span]
      congr 1
      funext leftValue
      congr 1
      funext leftTruth
      split
      · rfl
      · simp only [toOption_bind, ihRight, toOption_truth _ .default span]
    | _ =>
      simp only [BoundExpr.unspanned, evaluate, toOption_bind, ihLeft, ihRight,
        toOption_compareValues _ _ _ .default span]
  | isNull expr negated span ih => simp only [BoundExpr.unspanned, evaluate, toOption_bind, ih]
  | aggregateStar function span => rfl
  | aggregate function argument span ih => rfl

end Values

section Unique

variable {expressions : List BoundExpr} {expression : BoundExpr}

/-- What is kept of a list of expressions stands in it, and stands for each of the list. -/
theorem deduplicateExpressions_spec (expressions : List BoundExpr) :
    (∀ kept ∈ deduplicateExpressions expressions, kept ∈ expressions) ∧
      ∀ expression ∈ expressions, ∃ kept ∈ deduplicateExpressions expressions,
        kept.sameExpression expression = true := by
  unfold deduplicateExpressions
  induction expressions using List.reverseRecOn with
  | nil => simp
  | append_singleton expressions last ih =>
    rw [List.foldl_append, List.foldl_cons]
    split
    next hany =>
      obtain ⟨kept, hkept, hsame⟩ := List.any_eq_true.mp hany
      refine ⟨fun kept hkept => List.mem_append_left _ (ih.1 kept hkept), fun expression hmem => ?_⟩
      rcases List.mem_append.mp hmem with hmem | hmem
      · exact ih.2 expression hmem
      · cases List.mem_singleton.mp hmem
        exact ⟨kept, hkept, hsame⟩
    next hnone =>
      constructor
      · intro kept hkept
        rcases List.mem_append.mp hkept with hkept | hkept
        · exact List.mem_append_left _ (ih.1 kept hkept)
        · exact List.mem_append_right _ hkept
      · intro expression hmem
        rcases List.mem_append.mp hmem with hmem | hmem
        · obtain ⟨kept, hkept, hsame⟩ := ih.2 expression hmem
          exact ⟨kept, List.mem_append_left _ hkept, hsame⟩
        · cases List.mem_singleton.mp hmem
          exact ⟨last, by simp, BoundExpr.sameExpression_refl last⟩

end Unique

end AsterSql
