import DisciplinedConvex.Atom.Curvature
import DisciplinedConvex.Atom.Shape
import DisciplinedConvex.Atom.Sign
import DisciplinedConvex.Expr.Basic

/-! # Inference

Shape, sign and curvature of an expression, inferred from the leaves upwards by the rules of the
atoms.

* `Expr.shape` takes the shapes of the arguments as accepted.
* `Expr.attributes` finds sign and curvature in one pass, and `Expr.sign` and `Expr.curvature` are
  its two parts. The curvature of an application is composed from the contributions of its
  arguments, so that an application to constants alone is constant.
-/

namespace DisciplinedConvex
set_option autoImplicit false

/-- What is inferred of the values of an expression. -/
structure Attributes where
  sign : Sign
  curvature : Curvature
  deriving DecidableEq, Repr

/-! ## One application -/

def Unary.attributes (op : Unary) (a : Attributes) : Attributes where
  sign := op.sign a.sign
  curvature := op.curvature.compose [(op.monotonicity, a.curvature, a.sign)]

/-- The last argument is the value of the second operand, where that is a constant. -/
def Binary.attributes (op : Binary) (a b : Attributes) (matrix : Option Value) : Attributes where
  sign := op.sign a.sign b.sign matrix
  curvature := (op.curvature a.curvature b.curvature matrix).compose
    [(op.monotonicityLeft b.curvature b.sign, a.curvature, a.sign),
      (op.monotonicityRight a.curvature a.sign, b.curvature, b.sign)]

def Variadic.attributes (op : Variadic) (as : List Attributes) : Attributes where
  sign := op.sign (as.map Attributes.sign)
  curvature := op.curvature.compose (as.map fun a => (op.monotonicity, a.curvature, a.sign))

namespace Expr

/-! ## All nodes -/

mutual

def shape : Expr → Shape
  | var v => v.shape
  | const _ v => v.shape
  | unary _ op x => op.shape x.shape
  | binary _ op x y => op.shape x.shape y.shape
  | variadic _ op x xs => op.shape x.shape (shapes xs)

/-- The shapes of a list of expressions. -/
def shapes : List Expr → List Shape
  | [] => []
  | x :: xs => x.shape :: shapes xs

end

mutual

/-- A variable has its declared sign. -/
def attributes : Expr → Attributes
  | var v => ⟨v.declaration.sign, .affine⟩
  | const _ v => ⟨v.sign, .constant⟩
  | unary _ op x => op.attributes x.attributes
  | binary _ op x y => op.attributes x.attributes y.attributes y.value?
  | variadic _ op x xs => op.attributes (x.attributes :: attributesOf xs)

/-- The attributes of a list of expressions. -/
def attributesOf : List Expr → List Attributes
  | [] => []
  | x :: xs => x.attributes :: attributesOf xs

end

def sign (e : Expr) : Sign := e.attributes.sign

def curvature (e : Expr) : Curvature := e.attributes.curvature

@[simp] theorem shapes_eq_map (xs : List Expr) : shapes xs = xs.map shape := by
  induction xs with
  | nil => rfl
  | cons x xs ih => simp [shapes, ih]

@[simp] theorem attributesOf_eq_map (xs : List Expr) : attributesOf xs = xs.map attributes := by
  induction xs with
  | nil => rfl
  | cons x xs ih => simp [attributesOf, ih]

/-! ## Signs of nodes -/

@[simp] theorem sign_var (v : Variable) : (var v).sign = v.declaration.sign := rfl

@[simp] theorem sign_const (id : Nat) (v : Value) : (const id v).sign = v.sign := rfl

@[simp] theorem sign_unary (label : Option Nat) (op : Unary) (x : Expr) :
    (unary label op x).sign = op.sign x.sign := rfl

@[simp] theorem sign_binary (label : Option Nat) (op : Binary) (x y : Expr) :
    (binary label op x y).sign = op.sign x.sign y.sign y.value? := rfl

@[simp] theorem sign_variadic (label : Option Nat) (op : Variadic) (x : Expr) (xs : List Expr) :
    (variadic label op x xs).sign = op.sign ((x :: xs).map sign) := by
  simp only [sign, attributes, Variadic.attributes, attributesOf_eq_map, List.map_cons,
    List.map_map]
  rfl

/-! ## Curvatures of nodes -/

@[simp] theorem curvature_var (v : Variable) : (var v).curvature = .affine := rfl

@[simp] theorem curvature_const (id : Nat) (v : Value) : (const id v).curvature = .constant := rfl

@[simp] theorem curvature_unary (label : Option Nat) (op : Unary) (x : Expr) :
    (unary label op x).curvature =
      op.curvature.compose [(op.monotonicity, x.curvature, x.sign)] := rfl

@[simp] theorem curvature_binary (label : Option Nat) (op : Binary) (x y : Expr) :
    (binary label op x y).curvature =
      (op.curvature x.curvature y.curvature y.value?).compose
        [(op.monotonicityLeft y.curvature y.sign, x.curvature, x.sign),
          (op.monotonicityRight x.curvature x.sign, y.curvature, y.sign)] := rfl

@[simp] theorem curvature_variadic (label : Option Nat) (op : Variadic) (x : Expr)
    (xs : List Expr) :
    (variadic label op x xs).curvature =
      op.curvature.compose ((x :: xs).map fun y => (op.monotonicity, y.curvature, y.sign)) := by
  simp only [curvature, attributes, Variadic.attributes, attributesOf_eq_map, List.map_cons,
    List.map_map]
  rfl

/-! ## Certificates -/

def isConvex (e : Expr) : Bool := e.curvature.isConvex

def isConcave (e : Expr) : Bool := e.curvature.isConcave

def isAffine (e : Expr) : Bool := e.curvature.isAffine

/-- The rules of disciplined convex programming certify some curvature. -/
def isDcp (e : Expr) : Bool := e.curvature.isCertified

def isNonneg (e : Expr) : Bool := e.sign.isNonneg

def isNonpos (e : Expr) : Bool := e.sign.isNonpos

def isZero (e : Expr) : Bool := e.sign.isZero

end Expr

end DisciplinedConvex
