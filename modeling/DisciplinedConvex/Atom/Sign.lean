import DisciplinedConvex.Atom.Basic
import DisciplinedConvex.Value.Definiteness

/-! # Signs of applications

The sign of an application from the signs of its arguments. A quadratic form also looks at its
matrix, where that is a constant.
-/

namespace DisciplinedConvex
set_option autoImplicit false

/-- A power is nonnegative on the range where its curvature is certified. -/
def Unary.sign (op : Unary) (s : Sign) : Sign :=
  match op with
  | neg => s.negate
  | sum | reshape _ | transpose | index _ | trace | diag => s
  | abs | square | sqrt | norm1 | norm2 | normInf | normFro | sumSquares => s.magnitude
  | pos => if s.isNonpos then .zero else .positive
  | negPart => if s.isNonneg then .zero else .positive
  | power p => if p == 1 then s else if p < 0 then .positive else s.magnitude
  | exp => .positive
  | log | entropy => .unknown

/-- The last argument is the value of the second operand, where that is a constant. -/
def Binary.sign (op : Binary) (a b : Sign) (matrix : Option Value) : Sign :=
  match op with
  | add => a.add b
  | mul | matmul => a.mul b
  | quadOverLin => a.magnitude
  | quadForm => if a.isZero then .zero else (Definiteness.ofMatrix matrix).sign

def Variadic.sign (op : Variadic) (signs : List Sign) : Sign :=
  match op with
  | vstack | hstack => .union signs
  | maximum => .maximum signs
  | minimum => .minimum signs

end DisciplinedConvex
