import DisciplinedConvex.Shape

/-! # Selections

A block of rows and columns of a matrix, as two half-open spans.

* `Span` runs from `start` up to, not including, `stop`; one that does not start before its stop is
  empty.
* `Selection.element` picks one entry. At the last word the span cannot end one later, so that it is
  empty there.
* `Selection.fits` says that the block is not empty and lies inside a shape.
-/

namespace DisciplinedConvex
set_option autoImplicit false

/-- The half-open span from `start` to `stop`. -/
structure Span where
  start : UInt64
  stop : UInt64
  deriving DecidableEq, Repr, Inhabited

namespace Span

def length (s : Span) : UInt64 := if s.start < s.stop then s.stop - s.start else 0

def isEmpty (s : Span) : Bool := !(s.start < s.stop)

/-- One position, held at the largest word. -/
def single (i : UInt64) : Span := ⟨i, if i.toNat + 1 < UInt64.size then i + 1 else i⟩

/-- A span of one position is written as that position. -/
def text (s : Span) : String :=
  if s.length = 1 then toString s.start else toString s.start ++ ":" ++ toString s.stop

end Span

/-- A block of rows and columns. -/
structure Selection where
  rows : Span
  cols : Span
  deriving DecidableEq, Repr, Inhabited

namespace Selection

def element (row col : UInt64) : Selection := ⟨.single row, .single col⟩

def shape (s : Selection) : Shape := ⟨s.rows.length, s.cols.length⟩

/-- The block is not empty and lies inside the shape. -/
def fits (s : Selection) (shape : Shape) : Bool :=
  !s.rows.isEmpty && !s.cols.isEmpty && s.rows.stop ≤ shape.rows && s.cols.stop ≤ shape.cols

def text (s : Selection) : String := "[" ++ s.rows.text ++ "," ++ s.cols.text ++ "]"

end Selection

end DisciplinedConvex
