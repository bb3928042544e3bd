import DisciplinedConvex.Expr.Basic

/-! # Printed expressions

* `Expr.binding` is how tightly the printed root holds its operands together; an operand that holds
  less tightly than its place asks for is put in parentheses.
* `Expr.text` prints sums, products, negations, transposes and indices as operators, and every other
  atom as a call. A right factor asks for more than a left one, so that nested products stay
  explicit, and a negation never comes to stand before a minus sign.
-/

namespace DisciplinedConvex
set_option autoImplicit false

/-! ## Binding strength -/

namespace Binding

def sum : Nat := 1

def product : Nat := 2

def negation : Nat := 3

def postfixed : Nat := 4

def call : Nat := 10

def leaf : Nat := 11

end Binding

def Unary.binding : Unary → Nat
  | neg => Binding.negation
  | transpose | index _ => Binding.postfixed
  | _ => Binding.call

def Binary.binding : Binary → Nat
  | add => Binding.sum
  | mul | matmul => Binding.product
  | _ => Binding.call

/-- An expression in print. -/
structure Printed where
  text : String
  binding : Nat

namespace Printed

def parenthesized (text : String) : String := "(" ++ text ++ ")"

/-- The text in a place that asks for a binding strength. -/
def operand (p : Printed) (least : Nat) : String :=
  if p.binding < least then parenthesized p.text else p.text

/-- The text after a minus sign. -/
def negated (p : Printed) : String :=
  if p.binding < Binding.negation || p.text.startsWith "-" then parenthesized p.text else p.text

def call (name : String) (args : List String) : String :=
  name ++ parenthesized (", ".intercalate args)

end Printed

def Unary.text (op : Unary) (x : Printed) : String :=
  match op with
  | neg => "-" ++ x.negated
  | transpose => x.operand Binding.call ++ ".T"
  | index selection => x.operand Binding.call ++ selection.text
  | reshape target => Printed.call op.name [x.text, target.text]
  | power p => Printed.call op.name [x.text, Number.text p]
  | op => Printed.call op.name [x.text]

def Binary.text (op : Binary) (x y : Printed) : String :=
  match op with
  | add => x.operand Binding.sum ++ " + " ++ y.operand Binding.sum
  | mul => x.operand Binding.product ++ " * " ++ y.operand (Binding.product + 1)
  | matmul => x.operand Binding.product ++ " @ " ++ y.operand (Binding.product + 1)
  | op => Printed.call op.name [x.text, y.text]

namespace Expr

def binding : Expr → Nat
  | var _ | const _ _ => Binding.leaf
  | unary _ op _ => op.binding
  | binary _ op _ _ => op.binding
  | variadic _ _ _ _ => Binding.call

mutual

def text : Expr → String
  | var v => v.name
  | const _ v => v.text
  | unary _ op x => op.text ⟨x.text, x.binding⟩
  | binary _ op x y => op.text ⟨x.text, x.binding⟩ ⟨y.text, y.binding⟩
  | variadic _ op x xs => Printed.call op.name (x.text :: texts xs)

/-- The texts of a list of expressions. -/
def texts : List Expr → List String
  | [] => []
  | x :: xs => x.text :: texts xs

end

@[simp] theorem texts_eq_map (xs : List Expr) : texts xs = xs.map text := by
  induction xs with
  | nil => rfl
  | cons x xs ih => simp [texts, ih]

end Expr

end DisciplinedConvex
