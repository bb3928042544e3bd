import DisciplinedConvex.Session.Step

/-! # Answers of a session

* `Answer` is what a step is answered with; the answers so far are the `Memory` in which later steps
  look up what they refer to.
* `Failure` says why a step holds nothing.
* `Expr.labelled` gives every node that has none a label of its own, so that nodes can be told apart
  from then on.
-/

namespace DisciplinedConvex
set_option autoImplicit false

/-- Why a step was aborted. -/
inductive Abort where
  | error (e : Error)
  /-- The number of entries is not that of the shape. -/
  | entryCount

def Abort.message : Abort → String
  | error e => e.message
  | entryCount =>
    "Allocation from iterator error: the iterator did not yield the correct number of elements."

inductive Failure where
  /-- There is nothing of the kind at the place that was named. -/
  | badReference
  | rejected (e : Error)
  | aborted (cause : Abort)

/-- A call of the backend. -/
structure Call where
  problem : Problem
  settings : Settings

inductive Answer where
  | expression (e : Expr)
  | entries (es : List Expr)
  | constraint (c : Constraint)
  | draft (d : Draft)
  | problem (p : Problem)
  | solved (s : Solution) (calls : List Call)
  | unsolved (e : Error) (calls : List Call)
  | shape (s : Shape)
  | inspected (e : Expr)
  | truth (b : Bool)
  | objective (o : Objective)
  | number (v : Float)
  | value (v : Option Value)
  | failed (f : Failure)

/-! ## Looking up -/

/-- The answers to the steps so far. -/
abbrev Memory := Array Answer

namespace Memory

def expression? (m : Memory) (i : Nat) : Option Expr :=
  match m[i]? with
  | some (.expression e) => some e
  | _ => none

def entries? (m : Memory) (i : Nat) : Option (List Expr) :=
  match m[i]? with
  | some (.entries es) => some es
  | _ => none

def constraint? (m : Memory) (i : Nat) : Option Constraint :=
  match m[i]? with
  | some (.constraint c) => some c
  | _ => none

def draft? (m : Memory) (i : Nat) : Option Draft :=
  match m[i]? with
  | some (.draft d) => some d
  | _ => none

/-- A problem, or the one that a draft comes to. -/
def problem? (m : Memory) (i : Nat) : Option Problem :=
  match m[i]? with
  | some (.problem p) => some p
  | some (.draft d) => some d.build
  | _ => none

def solution? (m : Memory) (i : Nat) : Option Solution :=
  match m[i]? with
  | some (.solved s _) => some s
  | _ => none

end Memory

/-! ## Labels -/

/-- A computation that hands out labels; the state is the next one. -/
abbrev Labelling := StateM Nat

def Labelling.fresh : Labelling Nat := modifyGet fun n => (n, n + 1)

mutual

/-- Below a labelled node all nodes are labelled. -/
def Expr.labelled : Expr → Labelling Expr
  | .unary none op x => do
    let x ← x.labelled
    return .unary (← Labelling.fresh) op x
  | .binary none op x y => do
    let x ← x.labelled
    let y ← y.labelled
    return .binary (← Labelling.fresh) op x y
  | .variadic none op x xs => do
    let x ← x.labelled
    let xs ← Expr.allLabelled xs
    return .variadic (← Labelling.fresh) op x xs
  | e => return e

def Expr.allLabelled : List Expr → Labelling (List Expr)
  | [] => return []
  | x :: xs => return (← x.labelled) :: (← Expr.allLabelled xs)

end

namespace Constraint

def labelled : Constraint → Labelling Constraint
  | zero e => return zero (← e.labelled)
  | nonneg e => return nonneg (← e.labelled)
  | cone t x => return cone (← t.labelled) (← x.labelled)

end Constraint

namespace Answer

/-- The answer with labels on every node that a later step can reach. -/
def labelled : Answer → Labelling Answer
  | expression e => return expression (← e.labelled)
  | entries es => return entries (← Expr.allLabelled es)
  | constraint c => return constraint (← c.labelled)
  | a => return a

end Answer

end DisciplinedConvex
