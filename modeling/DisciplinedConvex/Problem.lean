import DisciplinedConvex.Constraint

/-! # Problems

An objective under a list of constraints.

* `Draft` collects constraints until the problem is built.
* `Problem.isDcp` asks for a convex expression to minimize or a concave one to maximize, and for
  constraints that keep the rules.
* `Problem.variableIds` and `Problem.variableShapes` put together what the expressions list.
* `Problem.violations` lists what breaks the rules, the objective first and the constraints in
  order; `Problem.violationMessage` puts it in words.
-/

namespace DisciplinedConvex
set_option autoImplicit false

inductive Sense where
  | minimize
  | maximize
  deriving DecidableEq, Repr

structure Objective where
  sense : Sense
  expr : Expr

namespace Objective

def isDcp (o : Objective) : Bool :=
  match o.sense with
  | .minimize => o.expr.isConvex
  | .maximize => o.expr.isConcave

def text (o : Objective) : String :=
  match o.sense with
  | .minimize => "minimize " ++ o.expr.text
  | .maximize => "maximize " ++ o.expr.text

end Objective

structure Problem where
  objective : Objective
  constraints : List Constraint

/-- A problem that is still being put together. -/
structure Draft where
  objective : Objective
  constraints : List Constraint := []

namespace Draft

def minimize (e : Expr) : Draft := ⟨⟨.minimize, e⟩, []⟩

def maximize (e : Expr) : Draft := ⟨⟨.maximize, e⟩, []⟩

/-- The same objective under further constraints. -/
def subjectTo (d : Draft) (cs : List Constraint) : Draft :=
  { d with constraints := d.constraints ++ cs }

def constrain (d : Draft) (c : Constraint) : Draft := d.subjectTo [c]

def build (d : Draft) : Problem := ⟨d.objective, d.constraints⟩

end Draft

/-- What breaks the rules of disciplined convex programming. -/
inductive Violation where
  | objective (sense : Sense) (curvature : Curvature)
  | constraint (index : Nat) (c : Constraint)

def Violation.text : Violation → String
  | objective .minimize c =>
    "Objective has curvature " ++ c.text ++ " but must be convex for minimization"
  | objective .maximize c =>
    "Objective has curvature " ++ c.text ++ " but must be concave for maximization"
  | constraint i c => "Constraint " ++ toString i ++ " (" ++ c.text ++ ") is not DCP"

/-- The curvature that the sense does not allow. -/
def Objective.violation? (o : Objective) : Option Violation :=
  match o.sense with
  | .minimize =>
    if !o.expr.isConvex then some (.objective .minimize o.expr.curvature) else none
  | .maximize =>
    if !o.expr.isConcave then some (.objective .maximize o.expr.curvature) else none

namespace Problem

def isDcp (p : Problem) : Bool := p.objective.isDcp && p.constraints.all Constraint.isDcp

def expressions (p : Problem) : List Expr :=
  p.objective.expr :: p.constraints.flatMap Constraint.expressions

/-- The ids of the variables in increasing order. -/
def variableIds (p : Problem) : List Nat :=
  collectBy id (p.objective.expr.variableIds ++ p.constraints.flatMap Constraint.variableIds)

/-- Every variable with its shape, by increasing id. Of pairs with one id the first counts. -/
def variableShapes (p : Problem) : List (Nat × Shape) :=
  collectBy Prod.fst (p.objective.expr.variableShapes ++
    p.constraints.flatMap fun c => c.expressions.flatMap Expr.variableShapes)

def violations (p : Problem) : List Violation :=
  p.objective.violation?.toList ++
  (p.constraints.zipIdx.filter fun (c, _) => !c.isDcp).map fun (c, i) => .constraint i c

def violationMessage (p : Problem) : String :=
  match p.violations with
  | [] => "Unknown DCP violation"
  | vs => "; ".intercalate (vs.map Violation.text)

end Problem

end DisciplinedConvex
