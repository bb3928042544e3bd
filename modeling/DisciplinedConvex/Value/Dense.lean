import DisciplinedConvex.Shape
import DisciplinedConvex.Decimal.Text

/-! # Dense matrices

A matrix of binary64 numbers stored row by row; the number of entries is the product of the
dimensions.

* `DenseMatrix.ofRows?` and `DenseMatrix.ofColumns?` read the entries row by row and column by
  column, and refuse a list of the wrong length.
* `DenseMatrix.entry` is the entry at a position.
-/

namespace DisciplinedConvex
set_option autoImplicit false

structure DenseMatrix where
  rows : UInt64
  cols : UInt64
  /-- The entries row by row. -/
  entries : Array Float
  size_entries : entries.size = rows.toNat * cols.toNat

namespace DenseMatrix

def shape (m : DenseMatrix) : Shape := ⟨m.rows, m.cols⟩

/-- The entry at a position inside the matrix. -/
def entry (m : DenseMatrix) (i j : Nat) : Float := m.entries.getD (i * m.cols.toNat + j) 0

def ofRows? (rows cols : UInt64) (values : Array Float) : Option DenseMatrix :=
  if h : values.size = rows.toNat * cols.toNat then some ⟨rows, cols, values, h⟩ else none

def ofColumns? (rows cols : UInt64) (values : Array Float) : Option DenseMatrix :=
  if values.size = rows.toNat * cols.toNat then
    some {
      rows := rows
      cols := cols
      entries := .ofFn fun k : Fin (rows.toNat * cols.toNat) =>
        values.getD (k % cols.toNat * rows.toNat + k / cols.toNat) 0
      size_entries := Array.size_ofFn }
  else none

/-- A single column. It is absent only for a list that no word can count. -/
def column? (values : Array Float) : Option DenseMatrix :=
  ofRows? (.ofNat values.size) 1 values

def filled (shape : Shape) (v : Float) : DenseMatrix where
  rows := shape.rows
  cols := shape.cols
  entries := .replicate (shape.rows.toNat * shape.cols.toNat) v
  size_entries := Array.size_replicate

def identity (n : UInt64) : DenseMatrix where
  rows := n
  cols := n
  entries := .ofFn fun k : Fin (n.toNat * n.toNat) =>
    if k / n.toNat = k % n.toNat then 1 else 0
  size_entries := Array.size_ofFn

def negate (m : DenseMatrix) : DenseMatrix where
  rows := m.rows
  cols := m.cols
  entries := m.entries.map (- ·)
  size_entries := by rw [Array.size_map, m.size_entries]

def all (m : DenseMatrix) (p : Float → Bool) : Bool := m.entries.all p

/-- Row by row in brackets; a single entry stands alone. -/
def text (m : DenseMatrix) : String :=
  if m.shape.isScalar then Number.text (m.entry 0 0)
  else bracket ((List.range m.rows.toNat).map fun i =>
    bracket ((List.range m.cols.toNat).map fun j => Number.text (m.entry i j)))
where
  bracket (parts : List String) : String := "[" ++ ", ".intercalate parts ++ "]"

/-- Equal shapes and entries that compare equal, so that NaN differs from itself. -/
def beq (a b : DenseMatrix) : Bool :=
  a.rows == b.rows && a.cols == b.cols && a.entries == b.entries

instance : BEq DenseMatrix := ⟨beq⟩

end DenseMatrix

end DisciplinedConvex
