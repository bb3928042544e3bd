import DisciplinedConvex.Atom.Basic
import DisciplinedConvex.Decimal.Text
import DisciplinedConvex.Word

/-! # Errors

Why an expression could not be built, or a problem not be solved.

* `ArityFault`, `ShapeFault`, `DomainFault`, `SolverFault` and `ProblemFault` are the causes of five
  kinds of `Error`; a backend may report one in its own words.
* `Error.message` is the wording of each cause, and the only place where it is chosen.
* `Error.isConstruction` tells the errors raised while an expression is built, and `Error.isFatal`
  the one that is not handed back: an overflow aborts what comes to it.
-/

namespace DisciplinedConvex
set_option autoImplicit false

/-- A wrong number of arguments. -/
inductive ArityFault where
  | count (atom : Atom) (given : Nat)
  | reported (text : String)

/-- Shapes that do not fit an operation. -/
inductive ShapeFault where
  | incompatible (atom : Atom) (left right : Shape)
  | reshape (source target : Shape)
  | outOfBounds (selection : Selection) (shape : Shape)
  /-- Parts of different width stacked on one another. -/
  | unequalColumns
  /-- Parts of different height put side by side. -/
  | unequalRows
  | trace (shape : Shape)
  | diag (shape : Shape)
  | divisorNotScalar
  | quadForm (point matrix : Shape)
  | boundNotScalar (shape : Shape)
  | reported (text : String)

/-- A parameter outside its domain. -/
inductive DomainFault where
  /-- An exponent or the order of a norm. -/
  | parameter (p : Float)
  | divisionByZero
  | reported (text : String)

/-- Why a backend has no optimal solution. -/
inductive SolverFault where
  | infeasible
  | unbounded
  | iterationLimit
  | numerical
  | unknownStatus
  | reported (text : String)

/-- Why a solution does not answer for an expression. -/
inductive ProblemFault where
  | notVariable
  | notInSolution
  | notScalar
  | reported (text : String)

inductive Error where
  | arity (fault : ArityFault)
  | shape (fault : ShapeFault)
  | domain (fault : DomainFault)
  | notDcp (reason : String)
  | solver (fault : SolverFault)
  | problem (fault : ProblemFault)
  | overflow (fault : Overflow)

def ShapeFault.message : ShapeFault → String
  | incompatible atom a b =>
    "Incompatible dimensions " ++ a.text ++ " and " ++ b.text ++ " for " ++ atom.name ++ "."
  | reshape source target => "Cannot reshape " ++ source.text ++ " into " ++ target.text ++ "."
  | outOfBounds selection shape =>
    "Index " ++ selection.text ++ " is out of bounds for expression of shape " ++ shape.text ++ "."
  | unequalColumns => "All arguments to vstack must have the same number of columns."
  | unequalRows => "All arguments to hstack must have the same number of rows."
  | trace s => "Argument to trace must be a square matrix, got " ++ s.text ++ "."
  | diag s => "Argument to diag must be a vector or a square matrix, got " ++ s.text ++ "."
  | divisorNotScalar => "The second argument to quad_over_lin must be a scalar."
  | quadForm x p => "Invalid dimensions " ++ x.text ++ " and " ++ p.text ++ " for quad_form."
  | boundNotScalar s => "The bound of a second-order cone must be a scalar, got " ++ s.text ++ "."
  | reported text => text

def DomainFault.message : DomainFault → String
  | parameter p => "Invalid value " ++ Number.text p ++ " for p."
  | divisionByZero => "Division by zero."
  | reported text => text

def SolverFault.message : SolverFault → String
  | infeasible => "Problem is infeasible"
  | unbounded => "Problem is unbounded"
  | iterationLimit => "Maximum iterations reached"
  | numerical => "Solver encountered numerical difficulties"
  | unknownStatus => "Unknown solver status"
  | reported text => text

def ProblemFault.message : ProblemFault → String
  | notVariable => "Expression is not a variable"
  | notInSolution => "Variable not in solution"
  | notScalar => "Variable is not scalar"
  | reported text => text

/-- The wording of a wrong number of arguments. -/
def Atom.arityMessage (atom : Atom) (given : Nat) : String :=
  match atom.arity, given with
  | .atLeast _, 0 => "No arguments given to '" ++ atom.name ++ "'."
  | .atLeast k, n => "'" ++ atom.name ++ "' takes at least " ++ count k n
  | .exactly k, n => "'" ++ atom.name ++ "' takes " ++ count k n
where
  count (k n : Nat) : String :=
    toString k ++ (if k = 1 then " argument" else " arguments") ++ " but " ++ toString n ++
      " were given."

def ArityFault.message : ArityFault → String
  | count atom given => atom.arityMessage given
  | reported text => text

namespace Error

def message : Error → String
  | arity fault => fault.message
  | shape fault => fault.message
  | domain fault => fault.message
  | notDcp reason => "Problem is not DCP: " ++ reason
  | solver fault => "Solver error: " ++ fault.message
  | problem fault => "Invalid problem: " ++ fault.message
  | overflow fault => fault.message

/-- Raised while an expression is being built. -/
def isConstruction : Error → Bool
  | arity _ | shape _ | domain _ => true
  | _ => false

def isFatal : Error → Bool
  | overflow _ => true
  | _ => false

end Error

end DisciplinedConvex
