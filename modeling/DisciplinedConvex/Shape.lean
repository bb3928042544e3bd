/-! # Shapes

Every expression is a matrix; a vector is a single column and a scalar has one row and one column.
Dimensions are 64-bit words.

* `Shape.count` is the true number of entries; `Shape.size` is that number held at the largest word
  and `Shape.checkedSize?` is absent where it does not fit.
* `Shape.broadcast?` combines the operands of an entrywise operation, `Shape.matmul?` those of a
  matrix product; a scalar goes with every shape in both.
-/

namespace DisciplinedConvex
set_option autoImplicit false

structure Shape where
  rows : UInt64
  cols : UInt64
  deriving DecidableEq, Repr

namespace Shape

def scalar : Shape := ⟨1, 1⟩

def vector (n : UInt64) : Shape := ⟨n, 1⟩

instance : Inhabited Shape := ⟨scalar⟩

/-- The number of entries. -/
def count (s : Shape) : Nat := s.rows.toNat * s.cols.toNat

/-- The number of entries, or the largest word if there are more. -/
def size (s : Shape) : UInt64 := .ofNat (min s.count (UInt64.size - 1))

/-- The number of entries if it fits in a word. -/
def checkedSize? (s : Shape) : Option UInt64 :=
  if s.count < UInt64.size then some (.ofNat s.count) else none

def isScalar (s : Shape) : Bool := s.rows == 1 && s.cols == 1

/-- A single column, a scalar included. -/
def isColumn (s : Shape) : Bool := s.cols == 1

def isSquare (s : Shape) : Bool := s.rows == s.cols

def transpose (s : Shape) : Shape := ⟨s.cols, s.rows⟩

/-- Equal shapes combine to themselves and a scalar takes the shape of the other operand. -/
def broadcast? (a b : Shape) : Option Shape :=
  if a = b || b.isScalar then some a
  else if a.isScalar then some b
  else none

/-- A scalar factor leaves the other shape as it is. -/
def matmul? (a b : Shape) : Option Shape :=
  if a.isScalar then some b
  else if b.isScalar then some a
  else if a.cols = b.rows then some ⟨a.rows, b.cols⟩
  else none

def text (s : Shape) : String :=
  "(" ++ toString s.rows ++ ", " ++ toString s.cols ++ ")"

@[simp] theorem transpose_transpose (s : Shape) : s.transpose.transpose = s := rfl

theorem isScalar_iff {s : Shape} : s.isScalar = true ↔ s = scalar := by
  cases s
  simp [isScalar, scalar]

end Shape

end DisciplinedConvex
