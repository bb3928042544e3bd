import DisciplinedConvex.Selection

/-! # Atoms

The catalog of operations from which expressions are built.

* `Unary`, `Binary` and `Variadic` hold the atoms by the number of their arguments, so that a node
  of an expression always has as many as its atom takes; `Atom` is any of them.
* `Atom.arity` is that number and `Atom.name` the name in messages and printed applications.
-/

namespace DisciplinedConvex
set_option autoImplicit false

/-- How many arguments an atom takes. -/
inductive Arity where
  | exactly (n : Nat)
  | atLeast (n : Nat)
  deriving DecidableEq, Repr

def Arity.accepts : Arity → Nat → Bool
  | exactly k, n => n == k
  | atLeast k, n => k ≤ n

/-- Atoms of one argument. -/
inductive Unary where
  | neg
  | sum
  /-- The same entries in another shape. -/
  | reshape (target : Shape)
  | transpose
  | index (selection : Selection)
  | trace
  /-- The diagonal matrix of a column, or the diagonal of a square matrix. -/
  | diag
  | abs
  /-- The larger of an entry and zero. -/
  | pos
  /-- The larger of a negated entry and zero. -/
  | negPart
  | square
  | sqrt
  | power (exponent : Float)
  | exp
  | log
  /-- An entry times its logarithm, negated. -/
  | entropy
  | norm1
  | norm2
  | normInf
  | normFro
  | sumSquares
  deriving BEq

/-- Atoms of two arguments. -/
inductive Binary where
  | add
  /-- The product entry by entry. -/
  | mul
  | matmul
  /-- The sum of squares of the first argument over the second. -/
  | quadOverLin
  /-- The quadratic form of the second argument at the first. -/
  | quadForm
  deriving DecidableEq

/-- Atoms of one argument or more. -/
inductive Variadic where
  | vstack
  | hstack
  /-- The largest entry at each position. -/
  | maximum
  /-- The smallest entry at each position. -/
  | minimum
  deriving DecidableEq

/-- Equality compares parameters as numbers, so that a NaN exponent differs from itself. -/
inductive Atom where
  | unary (op : Unary)
  | binary (op : Binary)
  | variadic (op : Variadic)
  deriving BEq

def Unary.name : Unary → String
  | neg => "neg"
  | sum => "sum"
  | reshape _ => "reshape"
  | transpose => "transpose"
  | index _ => "index"
  | trace => "trace"
  | diag => "diag"
  | abs => "abs"
  | pos => "pos"
  | negPart => "neg_part"
  | square => "square"
  | sqrt => "sqrt"
  | power _ => "power"
  | exp => "exp"
  | log => "log"
  | entropy => "entropy"
  | norm1 => "norm1"
  | norm2 => "norm2"
  | normInf => "norm_inf"
  | normFro => "norm_fro"
  | sumSquares => "sum_squares"

def Binary.name : Binary → String
  | add => "add"
  | mul => "mul"
  | matmul => "matmul"
  | quadOverLin => "quad_over_lin"
  | quadForm => "quad_form"

def Variadic.name : Variadic → String
  | vstack => "vstack"
  | hstack => "hstack"
  | maximum => "max"
  | minimum => "min"

namespace Atom

def name : Atom → String
  | unary op => op.name
  | binary op => op.name
  | variadic op => op.name

def arity : Atom → Arity
  | unary _ => .exactly 1
  | binary _ => .exactly 2
  | variadic _ => .atLeast 1

end Atom

end DisciplinedConvex
