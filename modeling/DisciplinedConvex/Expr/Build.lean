import DisciplinedConvex.Expr.Inference

/-! # Building expressions

* `Supply` is a computation that makes leaves. `Supply.run` gives them their ids. A constant needs a
  sign too (`Expr.constant`).
* `Expr.apply` applies any atom to any list of arguments, if they pass `Expr.validate`.
* Atoms that accept every argument have a builder without a check (`Expr.neg`, `Expr.sum`, …); the
  other builders end in an error where the check fails.
* `Expr.flatten` asks for as many rows as the argument has entries, held at the largest word.
* `Expr.entries` picks every entry, column by column.
-/

namespace DisciplinedConvex
set_option autoImplicit false

/-! ## Leaves -/

/-- A leaf before it has an id. -/
inductive Leaf where
  | var (d : Declaration)
  | const (v : Value)

def Leaf.withId (id : Nat) : Leaf → Expr
  | var d => .var ⟨id, d⟩
  | const v => .const id v

/-- A computation that makes leaves one after another. -/
inductive Supply (α : Type) where
  | done (a : α)
  | make (l : Leaf) (next : Expr → Supply α)

namespace Supply

def bind {α β : Type} (f : α → Supply β) : Supply α → Supply β
  | done a => f a
  | make l next => make l fun e => (next e).bind f

instance : Monad Supply where
  pure := done
  bind x f := x.bind f

/-- The result if the next id is `n`, and the next id after it. Every leaf takes an id of its own,
one larger than the one before. -/
def run {α : Type} (n : Nat) : Supply α → α × Nat
  | done a => (a, n)
  | make l next => (next (l.withId n)).run (n + 1)

def var (d : Declaration) : Supply Expr := make (.var d) done

def const (v : Value) : Supply Expr := make (.const v) done

def number (v : Float) : Supply Expr := const (.scalar v)

end Supply

namespace Expr

/-- A constant of its own. It has an id by the time its sign is asked for. -/
def constant (v : Value) : Supply (Except Error Expr) := do
  let e ← Supply.const v
  return (v.sign?.map fun _ => e).mapError .overflow

/-! ## Checked application -/

/-- The shape of an application, or the first check that fails. -/
def validate (atom : Atom) (args : List Expr) : Except Error Shape :=
  atom.validate (args.map shape)

/-- The application of an atom, or the first check that fails. -/
def apply (atom : Atom) (args : List Expr) : Except Error Expr :=
  match atom, args with
  | .unary op, [x] => (validate (.unary op) [x]).map fun _ => unary none op x
  | .binary op, [x, y] => (validate (.binary op) [x, y]).map fun _ => binary none op x y
  | .variadic op, x :: xs => (validate (.variadic op) (x :: xs)).map fun _ => variadic none op x xs
  | atom, args => .error (.arity (.count atom args.length))

/-- The atom at the root applied again to the same arguments. -/
def reapply (e : Expr) : Option (Except Error Expr) := e.atom?.map (apply · e.args)

/-! ## Affine atoms -/

def neg (x : Expr) : Expr := unary none .neg x

def sum (x : Expr) : Expr := unary none .sum x

def transpose (x : Expr) : Expr := unary none .transpose x

/-- All entries in one column. -/
def flatten (x : Expr) : Expr := unary none (.reshape (.vector x.shape.size)) x

def reshape (x : Expr) (target : Shape) : Except Error Expr := apply (.unary (.reshape target)) [x]

def trace (x : Expr) : Except Error Expr := apply (.unary .trace) [x]

def diag (x : Expr) : Except Error Expr := apply (.unary .diag) [x]

def index (x : Expr) (row col : UInt64) : Except Error Expr :=
  apply (.unary (.index (.element row col))) [x]

def slice (x : Expr) (rows cols : Span) : Except Error Expr :=
  apply (.unary (.index ⟨rows, cols⟩)) [x]

/-- Every entry as an expression of its own, column by column. -/
def entries (x : Expr) : List Expr :=
  (List.range x.shape.cols.toNat).flatMap fun j =>
    (List.range x.shape.rows.toNat).map fun i =>
      unary none (.index (.element (.ofNat i) (.ofNat j))) x

def add (x y : Expr) : Except Error Expr := apply (.binary .add) [x, y]

/-- The sum with the negated second operand. -/
def sub (x y : Expr) : Except Error Expr := apply (.binary .add) [x, y.neg]

def mul (x y : Expr) : Except Error Expr := apply (.binary .mul) [x, y]

/-- The product with the inverse of a number, which becomes a constant of its own. -/
def divide (x : Expr) (v : Float) : Supply (Except Error Expr) :=
  if v == 0 then return .error (.domain .divisionByZero)
  else return x.mul (← Supply.number (1 / v))

def matmul (x y : Expr) : Except Error Expr := apply (.binary .matmul) [x, y]

/-- The scalar product of two columns. -/
def dot (x y : Expr) : Except Error Expr := x.transpose.matmul y

def vstack (xs : List Expr) : Except Error Expr := apply (.variadic .vstack) xs

def hstack (xs : List Expr) : Except Error Expr := apply (.variadic .hstack) xs

/-! ## Atoms entry by entry -/

def abs (x : Expr) : Expr := unary none .abs x

def pos (x : Expr) : Expr := unary none .pos x

def negPart (x : Expr) : Expr := unary none .negPart x

def square (x : Expr) : Expr := unary none .square x

def sqrt (x : Expr) : Expr := unary none .sqrt x

def exp (x : Expr) : Expr := unary none .exp x

def log (x : Expr) : Expr := unary none .log x

def entropy (x : Expr) : Expr := unary none .entropy x

def power (x : Expr) (p : Float) : Except Error Expr := apply (.unary (.power p)) [x]

def maximum (xs : List Expr) : Except Error Expr := apply (.variadic .maximum) xs

def minimum (xs : List Expr) : Except Error Expr := apply (.variadic .minimum) xs

/-! ## Norms and quadratic atoms -/

def norm1 (x : Expr) : Expr := unary none .norm1 x

def norm2 (x : Expr) : Expr := unary none .norm2 x

def normInf (x : Expr) : Expr := unary none .normInf x

def normFro (x : Expr) : Expr := unary none .normFro x

/-- The norm of order one, two or infinity. -/
def norm (x : Expr) (p : Float) : Except Error Expr :=
  if p == 1 then .ok x.norm1
  else if p == 2 then .ok x.norm2
  else if p == 1 / 0 then .ok x.normInf
  else .error (.domain (.parameter p))

def sumSquares (x : Expr) : Expr := unary none .sumSquares x

def quadOverLin (x y : Expr) : Except Error Expr := apply (.binary .quadOverLin) [x, y]

def quadForm (x p : Expr) : Except Error Expr := apply (.binary .quadForm) [x, p]

end Expr

end DisciplinedConvex
