import DisciplinedConvex.Solution

/-! # Steps of a session

A session builds expressions, constraints and problems one step at a time; a later step refers to
what an earlier one holds by its number.

* `Operand` names an expression: what a step holds, a child or an entry of it, or a new constant.
* `Step` is everything a session can be asked for. `UnaryBuilder`, `BinaryBuilder`, `Relation` and
  `Variadic` name the builders; the `aborting` form of a step ends in an abort where the other ends
  in an error.
-/

namespace DisciplinedConvex
set_option autoImplicit false

inductive Operand where
  /-- The expression that a step holds. -/
  | step (i : Nat)
  /-- A number, promoted to a constant of its own. -/
  | number (v : Float)
  /-- An integer, promoted in the same way. -/
  | integer (n : Int)
  /-- An argument of an application. -/
  | child (x : Operand) (k : Nat)
  /-- One of the entries that a step holds. -/
  | entry (step k : Nat)

/-- A part of a list of arguments. -/
inductive Argument where
  | one (x : Operand)
  /-- All entries that a step holds. -/
  | all (step : Nat)

/-! ## Named builders -/

inductive UnaryBuilder where
  | neg
  | sum
  | transpose
  | flatten
  | trace
  | diag
  | abs
  | pos
  | negPart
  | square
  | sqrt
  | exp
  | log
  | entropy
  | norm1
  | norm2
  | normInf
  | normFro
  | sumSquares
  deriving DecidableEq

def UnaryBuilder.build (f : UnaryBuilder) (x : Expr) : Except Error Expr :=
  match f with
  | neg => .ok x.neg
  | sum => .ok x.sum
  | transpose => .ok x.transpose
  | flatten => .ok x.flatten
  | trace => x.trace
  | diag => x.diag
  | abs => .ok x.abs
  | pos => .ok x.pos
  | negPart => .ok x.negPart
  | square => .ok x.square
  | sqrt => .ok x.sqrt
  | exp => .ok x.exp
  | log => .ok x.log
  | entropy => .ok x.entropy
  | norm1 => .ok x.norm1
  | norm2 => .ok x.norm2
  | normInf => .ok x.normInf
  | normFro => .ok x.normFro
  | sumSquares => .ok x.sumSquares

/-- The builder applied `n` times over. -/
def UnaryBuilder.iterate (f : UnaryBuilder) : Nat → Expr → Except Error Expr
  | 0, x => .ok x
  | n + 1, x => (f.build x).bind (f.iterate n)

inductive BinaryBuilder where
  | add
  | sub
  | mul
  | matmul
  | dot
  | quadForm
  | quadOverLin
  | maximum
  | minimum
  deriving DecidableEq

def BinaryBuilder.build (f : BinaryBuilder) (x y : Expr) : Except Error Expr :=
  match f with
  | add => x.add y
  | sub => x.sub y
  | mul => x.mul y
  | matmul => x.matmul y
  | dot => x.dot y
  | quadForm => x.quadForm y
  | quadOverLin => x.quadOverLin y
  | maximum => Expr.maximum [x, y]
  | minimum => Expr.minimum [x, y]

def Variadic.build (f : Variadic) (xs : List Expr) : Except Error Expr :=
  match f with
  | vstack => Expr.vstack xs
  | hstack => Expr.hstack xs
  | maximum => Expr.maximum xs
  | minimum => Expr.minimum xs

inductive Relation where
  | eq
  | leq
  | geq
  | soc
  deriving DecidableEq

def Relation.build (r : Relation) (x y : Expr) : Except Error Constraint :=
  match r with
  | eq => Constraint.eq x y
  | leq => Constraint.leq x y
  | geq => Constraint.geq x y
  | soc => Constraint.soc x y

/-! ## Steps -/

/-- What the backend of a session is going to report. -/
inductive Reply where
  | failure (e : Error)
  /-- A solution that assigns values to the variables that operands name. -/
  | solution (s : Solution) (primal? : Option (List (Operand × Value)))

inductive Step where
  | declare (d : Declaration)
  /-- Holds an operand as it is. -/
  | hold (x : Operand)
  | constant (v : Value)
  /-- A dense constant from its entries column by column. -/
  | columns (rows cols : UInt64) (values : Array Float)
  | unary (f : UnaryBuilder) (x : Operand)
  | binary (f : BinaryBuilder) (x y : Operand)
  /-- The aborting form. A bare number beside another operand is promoted after that operand. -/
  | operator (f : BinaryBuilder) (x y : Operand)
  | divide (aborting : Bool) (x : Operand) (v : Float)
  | power (aborting : Bool) (x : Operand) (p : Float)
  | norm (aborting : Bool) (x : Operand) (p : Float)
  | reshape (x : Operand) (target : Shape)
  | index (x : Operand) (row col : UInt64)
  | slice (x : Operand) (rows cols : Span)
  | variadic (f : Variadic) (xs : List Argument)
  | apply (atom : Atom) (xs : List Argument)
  | validate (atom : Atom) (xs : List Argument)
  | reapply (x : Operand)
  | iterate (f : UnaryBuilder) (x : Operand) (n : Nat)
  | entries (x : Operand)
  | inspect (x : Operand)
  | sameNode (x y : Operand)
  | sameAtom (x y : Operand)
  | constrain (r : Relation) (x y : Operand)
  | objective (sense : Sense) (x : Operand)
  | draft (sense : Sense) (x : Operand)
  | subjectTo (draft : Nat) (constraints : List Nat)
  | build (draft : Nat)
  | solve (problem : Nat) (reply : Reply) (settings : Settings)
  /-- Reads the number that a solution assigns to a scalar variable. -/
  | read (aborting : Bool) (solution : Nat) (x : Operand)
  /-- Reads whatever value a solution assigns to a variable. -/
  | readValue (solution : Nat) (x : Operand)

end DisciplinedConvex
