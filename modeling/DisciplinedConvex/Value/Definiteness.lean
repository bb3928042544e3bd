import DisciplinedConvex.Curvature
import DisciplinedConvex.Value.Basic

/-! # Definiteness

Whether the quadratic form of a constant matrix is convex or concave.

* `LowerTriangle.hasFactor` is the test of positive definiteness by Cholesky factorisation, on the
  lower triangle alone and in binary64 arithmetic.
* `Value.isPositive?` classifies a value by such a test. Without storage it can test, or without
  symmetry up to a small tolerance, there is no answer.
* `Value.definiteness` also tries the negated matrix; `Definiteness.sign` and
  `Definiteness.curvature` are those of the form.
-/

namespace DisciplinedConvex
set_option autoImplicit false

/-- The lower triangle of a square matrix, column by column from the left. -/
inductive LowerTriangle : Nat → Type where
  | nil : LowerTriangle 0
  | cons {n : Nat} (pivot : Float) (below : List Float) (rest : LowerTriangle n) :
      LowerTriangle (n + 1)

namespace LowerTriangle

/-- The triangle of the `n` by `n` block that starts at position `start` of the diagonal. -/
def ofEntries (entry : Nat → Nat → Float) (start : Nat) : (n : Nat) → LowerTriangle n
  | 0 => nil
  | n + 1 =>
    cons (entry start start) ((List.range n).map fun i => entry (start + 1 + i) start)
      (ofEntries entry (start + 1) n)

/-- Subtracts the products of the entries of a column with one another. -/
def subtractProducts : {n : Nat} → LowerTriangle n → List Float → LowerTriangle n
  | _, cons pivot below rest, l :: ls =>
    cons (-l * l + pivot) (ls.zipWith (fun x y => -l * x + y) below) (rest.subtractProducts ls)
  | _, t, _ => t

/-- Every pivot of the factorisation is positive. -/
def hasFactor : {n : Nat} → LowerTriangle n → Bool
  | 0, nil => true
  | _ + 1, cons pivot below rest =>
    if pivot == 0 || !(pivot ≥ 0) then false
    else (rest.subtractProducts (below.map (· / pivot.sqrt))).hasFactor

end LowerTriangle

namespace DenseMatrix

/-- A Cholesky factorisation of a square matrix succeeds. -/
def hasFactor (m : DenseMatrix) : Bool :=
  (LowerTriangle.ofEntries m.entry 0 m.rows.toNat).hasFactor

/-- No two entries across the diagonal are known to be further apart than the tolerance. -/
def isSymmetric (m : DenseMatrix) : Bool :=
  (List.range m.rows.toNat).all fun i => (List.range i).all fun j =>
    !((m.entry j i - m.entry i j).abs > 1e-10)

end DenseMatrix

/-- What is known of the sign of a quadratic form. -/
inductive Definiteness where
  | positive
  | negative
  | neither
  deriving DecidableEq, Repr, Inhabited

namespace Value

/-- Whether a value is positive semidefinite, by a test of dense square matrices. -/
def isPositiveBy? (test : DenseMatrix → Bool) : Value → Option Bool
  | scalar v => some (v ≥ 0)
  | dense m => if m.shape.isSquare && m.isSymmetric then some (test m) else none
  | sparse _ => none

def definitenessBy (test : DenseMatrix → Bool) (v : Value) : Definiteness :=
  match v.isPositiveBy? test, v with
  | some true, _ => .positive
  | some false, scalar v => if v ≤ 0 then .negative else .neither
  | some false, dense m => if test m.negate then .negative else .neither
  | _, _ => .neither

def isPositive? (v : Value) : Option Bool := v.isPositiveBy? DenseMatrix.hasFactor

def definiteness (v : Value) : Definiteness := v.definitenessBy DenseMatrix.hasFactor

end Value

namespace Definiteness

/-- The definiteness of a matrix that may not be known. -/
def ofMatrix : Option Value → Definiteness
  | some v => v.definiteness
  | none => neither

/-- The sign of the quadratic form. -/
def sign : Definiteness → Sign
  | positive => .positive
  | negative => .negative
  | neither => .unknown

/-- The curvature of the quadratic form. -/
def curvature : Definiteness → Curvature
  | positive => .convex
  | negative => .concave
  | neither => .unknown

end Definiteness

end DisciplinedConvex
