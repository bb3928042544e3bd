import DisciplinedConvex.Problem

/-! # Solutions

What a numerical backend receives and reports.

* A backend turns a problem and `Settings` into a `Solution` or an error, with any effects.
* `Problem.solveWith` calls it on a problem that keeps the rules and on no other, and accepts an
  optimal solution only.
* `Solution.number` reads back the number assigned to a scalar variable.
-/

namespace DisciplinedConvex
set_option autoImplicit false

inductive Status where
  | optimal
  | infeasible
  | unbounded
  | iterationLimit
  | numerical
  | unknown
  deriving DecidableEq, Repr

def Status.text : Status → String
  | optimal => "optimal"
  | infeasible => "infeasible"
  | unbounded => "unbounded"
  | iterationLimit => "max iterations"
  | numerical => "numerical error"
  | unknown => "unknown"

/-- Settings of a backend; the time limit is in seconds and the tolerances are on the gap. -/
structure Settings where
  verbose : Bool := false
  maxIterations : Nat := 100
  timeLimit : Float := 1 / 0
  absoluteTolerance : Float := 1e-8
  relativeTolerance : Float := 1e-8

/-- The values of variables by id, each id once and in increasing order. -/
abbrev Assignment := List (Nat × Value)

namespace Assignment

/-- A later value of a variable takes the place of an earlier one. -/
def insert (id : Nat) (v : Value) : Assignment → Assignment
  | [] => [(id, v)]
  | (i, w) :: rest =>
    if id < i then (id, v) :: (i, w) :: rest
    else if id = i then (id, v) :: rest
    else (i, w) :: insert id v rest

def ofList (pairs : List (Nat × Value)) : Assignment :=
  pairs.foldl (fun a (id, v) => insert id v a) []

def value? (a : Assignment) (id : Nat) : Option Value := a.lookup id

end Assignment

structure Solution where
  status : Status
  /-- The value of the objective. -/
  value? : Option Float := none
  primal? : Option Assignment := none
  dual? : Option (List Float) := none
  /-- In seconds. -/
  solveTime : Float := 0
  iterations : Nat := 0

namespace Solution

/-- What the solution assigns to a variable. -/
def assigned? (s : Solution) (id : Nat) : Option Value := s.primal?.bind (·.value? id)

/-- The number assigned to a scalar variable. -/
def number (s : Solution) (e : Expr) : Except Error Float :=
  match e.variableId? with
  | none => .error (.problem .notVariable)
  | some id =>
    match s.assigned? id with
    | none => .error (.problem .notInSolution)
    | some v =>
      match v.scalar? with
      | none => .error (.problem .notScalar)
      | some x => .ok x

/-- An optimal solution, or what its status means. -/
def accept (s : Solution) : Except Error Solution :=
  match s.status with
  | .optimal => .ok s
  | .infeasible => .error (.solver .infeasible)
  | .unbounded => .error (.solver .unbounded)
  | .iterationLimit => .error (.solver .iterationLimit)
  | .numerical => .error (.solver .numerical)
  | .unknown => .error (.solver .unknownStatus)

end Solution

/-- A numerical backend with effects in `M`. -/
abbrev Backend (M : Type → Type) := Problem → Settings → M (Except Error Solution)

/-- Hands a problem that keeps the rules to a backend. -/
def Problem.solveWith {M : Type → Type} [Monad M] (p : Problem) (backend : Backend M)
    (settings : Settings) : M (Except Error Solution) :=
  if p.isDcp then return (← backend p settings).bind Solution.accept
  else return .error (.notDcp p.violationMessage)

/-- Builds the problem and hands it to a backend. -/
def Draft.solveWith {M : Type → Type} [Monad M] (d : Draft) (backend : Backend M)
    (settings : Settings) : M (Except Error Solution) :=
  d.build.solveWith backend settings

end DisciplinedConvex
