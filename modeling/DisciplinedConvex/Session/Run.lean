import DisciplinedConvex.Session.Answer

/-! # Running a session

* `Eval` is a computation that may fail and makes leaves; the ids of leaves that a failed step made
  stay used.
* `Step.eval` answers one step from the answers to the steps before it.
* `Session.step` takes a session on by one step, and `Session.run` by a list of them.
-/

namespace DisciplinedConvex
set_option autoImplicit false

abbrev Eval := ExceptT Failure Supply

namespace Eval

def require {α : Type} : Option α → Eval α
  | some a => return a
  | none => throw .badReference

/-- An error rejects the step, or aborts it. A fatal error always aborts it. -/
def settle {α : Type} (aborting : Bool) : Except Error α → Eval α
  | .ok a => return a
  | .error e => throw (if aborting || e.isFatal then .aborted (.error e) else .rejected e)

end Eval

namespace Operand

def eval (m : Memory) : Operand → Eval Expr
  | step i => Eval.require (m.expression? i)
  | number v => Supply.number v
  | integer n => Supply.number (.ofInt n)
  | child x k => do Eval.require (← x.eval m).args[k]?
  | entry i k => do Eval.require (← Eval.require (m.entries? i))[k]?

/-- The operands of an operator, left to right unless only the left one is a bare number. -/
def evalBoth (m : Memory) (x y : Operand) : Eval (Expr × Expr) :=
  match x, y with
  | number v, number w => return (← Supply.number v, ← Supply.number w)
  | number v, y => do
    let b ← y.eval m
    return (← Supply.number v, b)
  | x, y => return (← x.eval m, ← y.eval m)

end Operand

def Argument.eval (m : Memory) : Argument → Eval (List Expr)
  | one x => return [← x.eval m]
  | all i => Eval.require (m.entries? i)

def Argument.evalAll (m : Memory) (xs : List Argument) : Eval (List Expr) :=
  return (← xs.mapM (eval m)).flatten

/-- What the backend reports, with the operands of the assignment looked up. -/
def Reply.eval (m : Memory) : Reply → Eval (Except Error Solution)
  | failure e => return .error e
  | solution s none => return .ok s
  | solution s (some primal) => do
    let pairs ← primal.mapM fun (x, v) => do
      return (← Eval.require (← x.eval m).variableId?, v)
    return .ok { s with primal? := some (Assignment.ofList pairs) }

/-- A backend that keeps a record of its calls and always reports the same. -/
def Backend.recording (report : Except Error Solution) : Backend (StateM (List Call)) :=
  fun p settings => do
    modify (· ++ [⟨p, settings⟩])
    return report

/-- The answer to a step after the steps with the given answers. -/
def Step.eval (m : Memory) : Step → Eval Answer
  | declare d => return .expression (← Supply.var d)
  | hold x => return .expression (← x.eval m)
  | constant v => do
    let c ← Expr.constant v
    return .expression (← Eval.settle false c)
  | columns rows cols values =>
    match DenseMatrix.ofColumns? rows cols values with
    | some v => return .expression (← Supply.const (.dense v))
    | none => throw (.aborted .entryCount)
  | unary f x => do
    let x ← x.eval m
    return .expression (← Eval.settle false (f.build x))
  | binary f x y => do
    let x ← x.eval m
    let y ← y.eval m
    return .expression (← Eval.settle false (f.build x y))
  | operator f x y => do
    let (x, y) ← x.evalBoth m y
    return .expression (← Eval.settle true (f.build x y))
  | divide aborting x v => do
    let x ← x.eval m
    let quotient ← x.divide v
    return .expression (← Eval.settle aborting quotient)
  | power aborting x p => do
    let x ← x.eval m
    return .expression (← Eval.settle aborting (x.power p))
  | norm aborting x p => do
    let x ← x.eval m
    return .expression (← Eval.settle aborting (x.norm p))
  | reshape x target => do
    let x ← x.eval m
    return .expression (← Eval.settle false (x.reshape target))
  | index x row col => do
    let x ← x.eval m
    return .expression (← Eval.settle false (x.index row col))
  | slice x rows cols => do
    let x ← x.eval m
    return .expression (← Eval.settle false (x.slice rows cols))
  | variadic f xs => do
    let xs ← Argument.evalAll m xs
    return .expression (← Eval.settle false (f.build xs))
  | apply atom xs => do
    let xs ← Argument.evalAll m xs
    return .expression (← Eval.settle false (Expr.apply atom xs))
  | validate atom xs => do
    let xs ← Argument.evalAll m xs
    return .shape (← Eval.settle false (Expr.validate atom xs))
  | reapply x => do
    let result ← Eval.require (← x.eval m).reapply
    return .expression (← Eval.settle false result)
  | iterate f x n => do
    let x ← x.eval m
    return .expression (← Eval.settle false (f.iterate n x))
  | entries x => return .entries (← x.eval m).entries
  | inspect x => return .inspected (← x.eval m)
  | sameNode x y => do
    let x ← x.eval m
    let y ← y.eval m
    return .truth (x.isSameNode y)
  | sameAtom x y => do
    let x ← x.eval m
    let y ← y.eval m
    return .truth (x.hasSameAtom y)
  | constrain r x y => do
    let x ← x.eval m
    let y ← y.eval m
    return .constraint (← Eval.settle false (r.build x y))
  | objective sense x => return .objective ⟨sense, ← x.eval m⟩
  | draft sense x => do
    let x ← x.eval m
    return .draft (match sense with
      | .minimize => .minimize x
      | .maximize => .maximize x)
  | subjectTo i cs => do
    let d ← Eval.require (m.draft? i)
    let cs ← cs.mapM fun c => Eval.require (m.constraint? c)
    return .draft (d.subjectTo cs)
  | build i => return .problem (← Eval.require (m.draft? i)).build
  | solve i reply settings => do
    let p ← Eval.require (m.problem? i)
    let report ← reply.eval m
    let (result, calls) := (p.solveWith (.recording report) settings).run []
    match result with
    | .ok s => return .solved s calls
    | .error e => if e.isFatal then throw (.aborted (.error e)) else return .unsolved e calls
  | read aborting i x => do
    let s ← Eval.require (m.solution? i)
    let x ← x.eval m
    return .number (← Eval.settle aborting (s.number x))
  | readValue i x => do
    let s ← Eval.require (m.solution? i)
    let id ← Eval.require (← x.eval m).variableId?
    return .value (s.assigned? id)

/-- The answers so far, and the next id of a leaf and label of a node. -/
structure Session where
  memory : Memory := #[]
  nextId : Nat := 0
  nextLabel : Nat := 0

namespace Session

/-- The answer to a step, and the session after it. -/
def step (s : Session) (st : Step) : Answer × Session :=
  let (result, nextId) := Supply.run s.nextId (st.eval s.memory)
  let answer := match result with
    | .ok a => a
    | .error f => .failed f
  let (answer, nextLabel) := answer.labelled.run s.nextLabel
  (answer, ⟨s.memory.push answer, nextId, nextLabel⟩)

/-- The session after a list of steps; its memory holds their answers. -/
def run (s : Session) (steps : List Step) : Session :=
  steps.foldl (fun s st => (s.step st).2) s

end Session

end DisciplinedConvex
