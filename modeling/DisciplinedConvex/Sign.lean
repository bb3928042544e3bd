/-! # Signs

What is known of the sign of all entries of an expression.

* `Sign.positive` says that every entry is `≥ 0`, `Sign.negative` that every entry is `≤ 0`,
  `Sign.zero` both and `Sign.unknown` neither.
* `Sign.add`, `Sign.mul`, `Sign.maximum`, `Sign.minimum`, `Sign.union` carry this knowledge through
  the operation on the entries; `Sign.ofNumber` reads it off a number.
-/

namespace DisciplinedConvex
set_option autoImplicit false

/-- What is known of the sign of every entry. -/
inductive Sign where
  | positive
  | negative
  | zero
  | unknown
  deriving DecidableEq, Repr, Inhabited

namespace Sign

/-- The sign that says exactly what the two bounds say. -/
def ofBounds (nonneg nonpos : Bool) : Sign :=
  match nonneg, nonpos with
  | true, true => zero
  | true, false => positive
  | false, true => negative
  | false, false => unknown

/-- The sign of a number; NaN has none. -/
def ofNumber (v : Float) : Sign :=
  if v == 0 then zero
  else if v > 0 then positive
  else if v < 0 then negative
  else unknown

def isNonneg : Sign → Bool
  | positive | zero => true
  | _ => false

def isNonpos : Sign → Bool
  | negative | zero => true
  | _ => false

def isZero : Sign → Bool
  | zero => true
  | _ => false

def isUnknown : Sign → Bool
  | unknown => true
  | _ => false

def negate : Sign → Sign
  | positive => negative
  | negative => positive
  | s => s

/-! ## Operations on the entries -/

def add : Sign → Sign → Sign
  | zero, s | s, zero => s
  | positive, positive => positive
  | negative, negative => negative
  | _, _ => unknown

/-- Zero absorbs even an unknown factor. -/
def mul : Sign → Sign → Sign
  | zero, _ | _, zero => zero
  | positive, positive | negative, negative => positive
  | positive, negative | negative, positive => negative
  | unknown, _ | _, unknown => unknown

/-- Nonnegative as soon as one sign is, nonpositive when all are. Of nothing, nothing is known. -/
def maximum (signs : List Sign) : Sign :=
  if signs.isEmpty then unknown else ofBounds (signs.any isNonneg) (signs.all isNonpos)

/-- Nonnegative when all signs are, nonpositive as soon as one is. -/
def minimum (signs : List Sign) : Sign :=
  if signs.isEmpty then unknown else ofBounds (signs.all isNonneg) (signs.any isNonpos)

/-- The sign of parts put side by side. -/
def union (signs : List Sign) : Sign :=
  if signs.isEmpty then unknown else ofBounds (signs.all isNonneg) (signs.all isNonpos)

/-- The sign of an operation that is nonnegative, and zero at zero. -/
def magnitude (s : Sign) : Sign := if s.isZero then zero else positive

def text : Sign → String
  | positive => "POSITIVE"
  | negative => "NEGATIVE"
  | zero => "ZERO"
  | unknown => "UNKNOWN"

/-! ## The two bounds determine the sign -/

@[simp] theorem isNonneg_ofBounds (a b : Bool) : (ofBounds a b).isNonneg = a := by
  cases a <;> cases b <;> rfl

@[simp] theorem isNonpos_ofBounds (a b : Bool) : (ofBounds a b).isNonpos = b := by
  cases a <;> cases b <;> rfl

@[simp] theorem ofBounds_bounds (s : Sign) : ofBounds s.isNonneg s.isNonpos = s := by
  cases s <;> rfl

@[simp] theorem isNonneg_negate (s : Sign) : s.negate.isNonneg = s.isNonpos := by
  cases s <;> rfl

@[simp] theorem isNonpos_negate (s : Sign) : s.negate.isNonpos = s.isNonneg := by
  cases s <;> rfl

@[simp] theorem negate_negate (s : Sign) : s.negate.negate = s := by
  cases s <;> rfl

end Sign

end DisciplinedConvex
