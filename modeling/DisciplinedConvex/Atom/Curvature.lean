import DisciplinedConvex.Atom.Basic
import DisciplinedConvex.Value.Definiteness

/-! # Curvature of atoms

What each atom declares of itself: its curvature as a function of the values of its arguments, and
its monotonicity in each of them. The composition rule makes the curvature of an application of
these.
-/

namespace DisciplinedConvex
set_option autoImplicit false

namespace Unary

def curvature : Unary → Curvature
  | neg | sum | reshape _ | transpose | index _ | trace | diag => .affine
  | abs | pos | negPart | square | exp | norm1 | norm2 | normInf | normFro | sumSquares => .convex
  | sqrt | log | entropy => .concave
  | power p => if p == 1 then .affine else if p > 0 && p < 1 then .concave else .convex

def monotonicity : Unary → Monotonicity
  | sum | reshape _ | transpose | index _ | trace | diag | pos | sqrt | exp | log => .increasing
  | neg | negPart => .decreasing
  | abs | square | norm1 | norm2 | normInf | normFro | sumSquares => .signed
  | entropy => .nonmonotonic
  | power p =>
    if p < 0 then .decreasing
    else if p > 1 && Number.isEvenInteger p then .signed
    else .increasing

end Unary

namespace Binary

/-- A product is affine only beside a constant factor. -/
def curvature (op : Binary) (a b : Curvature) (matrix : Option Value) : Curvature :=
  match op with
  | add => .affine
  | mul | matmul => if a.isConstant || b.isConstant then .affine else .unknown
  | quadOverLin => .convex
  | quadForm => (Definiteness.ofMatrix matrix).curvature

/-- The monotonicity of a product in one factor, from the curvature and the sign of the other. -/
def scaledBy (c : Curvature) (s : Sign) : Monotonicity :=
  if c.isConstant then .scaledBy s else .nonmonotonic

/-- The monotonicity in the first argument, from the curvature and the sign of the second. -/
def monotonicityLeft (op : Binary) (c : Curvature) (s : Sign) : Monotonicity :=
  match op with
  | add => .increasing
  | mul | matmul => scaledBy c s
  | quadOverLin => .signed
  | quadForm => .nonmonotonic

/-- The monotonicity in the second argument, from the curvature and the sign of the first. -/
def monotonicityRight (op : Binary) (c : Curvature) (s : Sign) : Monotonicity :=
  match op with
  | add => .increasing
  | mul | matmul => scaledBy c s
  | quadOverLin => .decreasing
  | quadForm => .nonmonotonic

end Binary

namespace Variadic

def curvature : Variadic → Curvature
  | vstack | hstack => .affine
  | maximum => .convex
  | minimum => .concave

/-- Stacks are certified for affine parts alone. -/
def monotonicity : Variadic → Monotonicity
  | vstack | hstack => .nonmonotonic
  | maximum | minimum => .increasing

end Variadic

end DisciplinedConvex
