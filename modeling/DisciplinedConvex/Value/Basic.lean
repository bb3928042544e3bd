import DisciplinedConvex.Sign
import DisciplinedConvex.Value.Dense
import DisciplinedConvex.Value.Sparse

/-! # Values

What a constant holds and a solution assigns: a number, a dense matrix or a sparse one.

* `Value.all?` asks about every entry, `Value.sign?` finds the sign of all of them. A strict sign is
  asked for: `Sign.positive` if all entries are `> 0`. There is no answer for a sparse matrix of
  more positions than a word can count. `Value.sign` is for values that have a sign.
* `Value.scalar?` reads a number back, stored as such or as a dense matrix of one entry.
-/

namespace DisciplinedConvex
set_option autoImplicit false

inductive Value where
  | scalar (v : Float)
  | dense (m : DenseMatrix)
  | sparse (m : SparseMatrix)

namespace Value

instance : Inhabited Value := ⟨scalar 0⟩

/-- A matrix of one repeated number; a number if it has one entry. -/
def filled (shape : Shape) (v : Float) : Value :=
  if shape.isScalar then scalar v else dense (.filled shape v)

def shape : Value → Shape
  | scalar _ => .scalar
  | dense m => m.shape
  | sparse m => m.shape

def size (v : Value) : UInt64 := v.shape.size

/-- The entry at a position. -/
def entry : Value → Nat → Nat → Float
  | scalar v, _, _ => v
  | dense m, i, j => m.entry i j
  | sparse m, i, j => m.entry i j

def scalar? : Value → Option Float
  | scalar v => some v
  | dense m => if m.shape.isScalar then some (m.entry 0 0) else none
  | sparse _ => none

def all? : Value → (Float → Bool) → Except Overflow Bool
  | scalar v, p => .ok (p v)
  | dense m, p => .ok (m.all p)
  | sparse m, p => m.all p

/-- Zero is asked first, so that a value without entries is zero. -/
def sign? (v : Value) : Except Overflow Sign := do
  if ← v.all? (· == 0) then return .zero
  else if ← v.all? (· > 0) then return .positive
  else if ← v.all? (· < 0) then return .negative
  else return .unknown

def sign (v : Value) : Sign := v.sign?.toOption.getD .unknown

def text : Value → String
  | scalar v => Number.text v
  | dense m => m.text
  | sparse m => m.text

/-- Values in different storage differ. -/
def beq : Value → Value → Bool
  | scalar a, scalar b => a == b
  | dense a, dense b => a == b
  | sparse a, sparse b => a == b
  | _, _ => false

instance : BEq Value := ⟨beq⟩

end Value

end DisciplinedConvex
