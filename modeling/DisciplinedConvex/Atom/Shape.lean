import DisciplinedConvex.Error

/-! # Shapes of applications

Which argument shapes an atom accepts, and the shape of the result.

* `Unary.shape?`, `Binary.shape?` and `Variadic.shape?` are the rules.
* `Unary.shape`, `Binary.shape` and `Variadic.shape` are the same rules on shapes that are known to
  be accepted. A reshape has its target's shape whether the entries match or not.
* `Atom.validate` checks an application: first the number of arguments, then the parameter, then
  the shapes.
-/

namespace DisciplinedConvex
set_option autoImplicit false

namespace Atom

/-- The shape of two operands entry by entry, or the complaint of the atom that combines them. -/
def broadcast (atom : Atom) (a b : Shape) : Except ShapeFault Shape :=
  match a.broadcast? b with
  | some s => .ok s
  | none => .error (.incompatible atom a b)

end Atom

namespace Unary

def shape? (op : Unary) (s : Shape) : Except ShapeFault Shape :=
  match op with
  | reshape target =>
    match target.checkedSize?, s.checkedSize? with
    | some m, some n => if m = n then .ok target else .error (.reshape s target)
    | _, _ => .error (.reshape s target)
  | index selection =>
    if selection.fits s then .ok selection.shape else .error (.outOfBounds selection s)
  | trace => if s.isSquare then .ok .scalar else .error (.trace s)
  | diag =>
    if s.isColumn then .ok ⟨s.rows, s.rows⟩
    else if s.isSquare then .ok (.vector s.rows)
    else .error (.diag s)
  | transpose => .ok s.transpose
  | sum | norm1 | norm2 | normInf | normFro | sumSquares => .ok .scalar
  | neg | abs | pos | negPart | square | sqrt | power _ | exp | log | entropy => .ok s

def shape (op : Unary) (s : Shape) : Shape :=
  match op with
  | reshape target => target
  | op => (op.shape? s).toOption.getD s

/-- A power needs a finite exponent other than zero. -/
def checkParameter : Unary → Except DomainFault Unit
  | power p => if !p.isFinite || p == 0 then .error (.parameter p) else .ok ()
  | _ => .ok ()

end Unary

namespace Binary

def shape? (op : Binary) (a b : Shape) : Except ShapeFault Shape :=
  match op with
  | add | mul => (Atom.binary op).broadcast a b
  | matmul =>
    match a.matmul? b with
    | some s => .ok s
    | none => .error (.incompatible (.binary op) a b)
  | quadOverLin => if b.isScalar then .ok .scalar else .error .divisorNotScalar
  | quadForm =>
    if a.isColumn && b.isSquare && b.rows == a.rows then .ok .scalar else .error (.quadForm a b)

def shape (op : Binary) (a b : Shape) : Shape := (op.shape? a b).toOption.getD a

end Binary

namespace Variadic

/-- Stacked dimensions add up in a word, if it can hold the sum. -/
def shape? (op : Variadic) (first : Shape) (rest : List Shape) : Except Error Shape :=
  match op with
  | maximum | minimum => (rest.foldlM (Atom.variadic op).broadcast first).mapError .shape
  | vstack =>
    if rest.any (·.cols != first.cols) then .error (.shape .unequalColumns)
    else ((Word.sum ((first :: rest).map Shape.rows)).map (⟨·, first.cols⟩)).mapError .overflow
  | hstack =>
    if rest.any (·.rows != first.rows) then .error (.shape .unequalRows)
    else ((Word.sum ((first :: rest).map Shape.cols)).map (⟨first.rows, ·⟩)).mapError .overflow

def shape (op : Variadic) (first : Shape) (rest : List Shape) : Shape :=
  (op.shape? first rest).toOption.getD first

end Variadic

namespace Atom

/-- The shape of an application to arguments of the given shapes, or the first check that fails. -/
def validate (atom : Atom) (shapes : List Shape) : Except Error Shape :=
  match atom, shapes with
  | unary op, [s] => do
    op.checkParameter.mapError .domain
    (op.shape? s).mapError .shape
  | binary op, [a, b] => (op.shape? a b).mapError .shape
  | variadic op, first :: rest => op.shape? first rest
  | atom, shapes => .error (.arity (.count atom shapes.length))

end Atom

end DisciplinedConvex
