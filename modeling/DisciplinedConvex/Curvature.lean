import DisciplinedConvex.Monotonicity

/-! # Curvature

* `Curvature` is ordered by `isSubsetOf`: constant below affine, affine below convex and concave,
  both below unknown.
* `Curvature.add` is the curvature of a sum.
* `Curvature.contribution` is what one argument adds to the curvature of an application, and
  `Curvature.compose` sums the contributions of all arguments: the composition rule.
-/

namespace DisciplinedConvex
set_option autoImplicit false

inductive Curvature where
  | constant
  | affine
  | convex
  | concave
  | unknown
  deriving DecidableEq, Repr, Inhabited

namespace Curvature

def isConvex : Curvature → Bool
  | constant | affine | convex => true
  | _ => false

def isConcave : Curvature → Bool
  | constant | affine | concave => true
  | _ => false

def isAffine : Curvature → Bool
  | constant | affine => true
  | _ => false

def isConstant : Curvature → Bool
  | constant => true
  | _ => false

/-- Some curvature is certified. -/
def isCertified : Curvature → Bool
  | unknown => false
  | _ => true

def negate : Curvature → Curvature
  | convex => concave
  | concave => convex
  | c => c

/-- Whatever has the first curvature also has the second. -/
def isSubsetOf (a b : Curvature) : Bool :=
  match a, b with
  | _, unknown => true
  | constant, _ => true
  | affine, convex | affine, concave => true
  | a, b => a == b

def text : Curvature → String
  | constant => "CONSTANT"
  | affine => "AFFINE"
  | convex => "CONVEX"
  | concave => "CONCAVE"
  | unknown => "UNKNOWN"

/-! ## Sums -/

/-- A constant never matters, an affine term only beside a constant. -/
def add : Curvature → Curvature → Curvature
  | constant, c | c, constant => c
  | affine, c | c, affine => c
  | convex, convex => convex
  | concave, concave => concave
  | _, _ => unknown

/-! ## The composition rule -/

/-- What one argument adds to the curvature of an application of an atom with curvature `base`.
An argument without a usable monotonicity has to be affine. -/
def contribution (base : Curvature) (monotonicity : Monotonicity) (c : Curvature) (sign : Sign) :
    Curvature :=
  if c.isConstant then constant
  else match monotonicity.resolve sign with
    | .increasing => base.add c
    | .decreasing => base.add c.negate
    | .signed | .nonmonotonic => if c.isAffine then base else unknown

/-- The curvature of an application: constant when all arguments are. -/
def compose (base : Curvature) (args : List (Monotonicity × Curvature × Sign)) : Curvature :=
  (args.map fun (m, c, s) => base.contribution m c s).foldl add constant

/-! ## Sums are joins -/

@[simp] theorem negate_negate (c : Curvature) : c.negate.negate = c := by
  cases c <;> rfl

theorem add_comm (a b : Curvature) : a.add b = b.add a := by
  cases a <;> cases b <;> rfl

theorem add_assoc (a b c : Curvature) : (a.add b).add c = a.add (b.add c) := by
  cases a <;> cases b <;> cases c <;> rfl

@[simp] theorem add_self (a : Curvature) : a.add a = a := by
  cases a <;> rfl

@[simp] theorem constant_add (a : Curvature) : constant.add a = a := by
  cases a <;> rfl

@[simp] theorem add_constant (a : Curvature) : a.add constant = a := by
  cases a <;> rfl

theorem isSubsetOf_iff_add (a b : Curvature) : a.isSubsetOf b = true ↔ a.add b = b := by
  cases a <;> cases b <;> decide

end Curvature

end DisciplinedConvex
