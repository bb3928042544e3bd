import DisciplinedConvex.Expr.Build
import DisciplinedConvex.Expr.Text

/-! # Constraints

Constraints in normal form: an expression that is zero, one that is nonnegative, or a second-order
cone.

* `Constraint.eq`, `Constraint.leq` and `Constraint.geq` bring two sides into normal form and fail
  where the difference does.
* `Constraint.isDcp` is the rule of disciplined convex programming for each form.
-/

namespace DisciplinedConvex
set_option autoImplicit false

inductive Constraint where
  | zero (e : Expr)
  | nonneg (e : Expr)
  /-- The 2-norm of `x` is at most `t`. -/
  | cone (t x : Expr)

namespace Constraint

def eq (lhs rhs : Expr) : Except Error Constraint := (lhs.sub rhs).map zero

def leq (lhs rhs : Expr) : Except Error Constraint := (rhs.sub lhs).map nonneg

def geq (lhs rhs : Expr) : Except Error Constraint := (lhs.sub rhs).map nonneg

/-- The bound of a cone has to be a scalar. -/
def soc (t x : Expr) : Except Error Constraint :=
  if t.shape.isScalar then .ok (cone t x) else .error (.shape (.boundNotScalar t.shape))

def isDcp : Constraint → Bool
  | zero e => e.isAffine
  | nonneg e => e.isConcave
  | cone t x => t.isAffine && x.isAffine

def expressions : Constraint → List Expr
  | zero e | nonneg e => [e]
  | cone t x => [t, x]

/-- The ids of the variables in increasing order. -/
def variableIds (c : Constraint) : List Nat := collectBy id (c.expressions.flatMap Expr.variableIds)

def text : Constraint → String
  | zero e => e.text ++ " == 0"
  | nonneg e => e.text ++ " >= 0"
  | cone t x => Printed.call "soc" [t.text, x.text]

end Constraint

end DisciplinedConvex
