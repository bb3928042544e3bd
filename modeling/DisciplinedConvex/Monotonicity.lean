import DisciplinedConvex.Sign

/-! # Monotonicity

How an atom responds to an increase in one of its arguments.

* `Monotonicity.signed` is increasing where the argument is nonnegative and decreasing where it is
  nonpositive; `Monotonicity.resolve` settles it by the sign of the argument.
* `Monotonicity.scaledBy` is the monotonicity of a product in one factor, by the sign of the other.
-/

namespace DisciplinedConvex
set_option autoImplicit false

inductive Monotonicity where
  | increasing
  | decreasing
  | signed
  | nonmonotonic
  deriving DecidableEq, Repr, Inhabited

namespace Monotonicity

/-- Of a factor that is zero, the product is both; it counts as increasing. -/
def scaledBy (sign : Sign) : Monotonicity :=
  if sign.isNonneg then increasing
  else if sign.isNonpos then decreasing
  else nonmonotonic

/-- The monotonicity on the range that the sign of the argument allows. -/
def resolve (m : Monotonicity) (sign : Sign) : Monotonicity :=
  match m with
  | signed => scaledBy sign
  | other => other

end Monotonicity

end DisciplinedConvex
