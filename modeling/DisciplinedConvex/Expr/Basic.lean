import DisciplinedConvex.Atom.Basic
import DisciplinedConvex.Collect
import DisciplinedConvex.Value.Basic
import DisciplinedConvex.Variable

/-! # Expressions

Trees of atoms over decision variables and constants.

* Every leaf has an id of its own. A node of an atom has a `label` once it is held somewhere; two
  expressions are the same node when their ids or labels say so (`Expr.isSameNode`).
* `Expr.atom?` and `Expr.args` take an application apart.
* `Expr.variableIds` collects the ids of the variables of an expression, and `Expr.variableShapes`
  the ids together with the shapes.
-/

namespace DisciplinedConvex
set_option autoImplicit false

inductive Expr where
  | var (v : Variable)
  | const (id : Nat) (value : Value)
  | unary (label : Option Nat) (op : Unary) (x : Expr)
  | binary (label : Option Nat) (op : Binary) (x y : Expr)
  | variadic (label : Option Nat) (op : Variadic) (x : Expr) (xs : List Expr)

/-- What tells nodes apart. -/
inductive NodeId where
  | leaf (id : Nat)
  | label (n : Nat)
  deriving DecidableEq

namespace Expr

instance : Inhabited Expr := ⟨const 0 default⟩

/-- To prove something of every expression it is enough to prove it of leaves, and of applications
whose arguments have it. -/
@[elab_as_elim, induction_eliminator]
theorem induct {motive : Expr → Prop} (var : ∀ v, motive (var v))
    (const : ∀ id v, motive (const id v))
    (unary : ∀ label op x, motive x → motive (unary label op x))
    (binary : ∀ label op x y, motive x → motive y → motive (binary label op x y))
    (variadic : ∀ label op x xs, motive x → (∀ y ∈ xs, motive y) →
      motive (variadic label op x xs)) (e : Expr) : motive e :=
  @Expr.rec motive (fun xs => ∀ y ∈ xs, motive y) var const unary binary variadic
    (fun _ h => nomatch h)
    (fun _ _ hx hxs _ hy => (List.mem_cons.1 hy).elim (fun h => h ▸ hx) (hxs _)) e

/-! ## Taking apart -/

def atom? : Expr → Option Atom
  | var _ | const _ _ => none
  | unary _ op _ => some (.unary op)
  | binary _ op _ _ => some (.binary op)
  | variadic _ op _ _ => some (.variadic op)

/-- The arguments in order; a leaf has none. -/
def args : Expr → List Expr
  | var _ | const _ _ => []
  | unary _ _ x => [x]
  | binary _ _ x y => [x, y]
  | variadic _ _ x xs => x :: xs

def leafId? : Expr → Option Nat
  | var v => some v.id
  | const id _ => some id
  | _ => none

def variableId? : Expr → Option Nat
  | var v => some v.id
  | _ => none

/-- The value of a leaf that is a constant. -/
def value? : Expr → Option Value
  | const _ v => some v
  | _ => none

def isVariable (e : Expr) : Bool := e.variableId?.isSome

/-- A leaf that is a constant, whatever the curvature. -/
def isConstantLeaf (e : Expr) : Bool := e.value?.isSome

def isLeaf (e : Expr) : Bool := e.leafId?.isSome

def node? : Expr → Option NodeId
  | var v => some (.leaf v.id)
  | const id _ => some (.leaf id)
  | unary label _ _ | binary label _ _ _ | variadic label _ _ _ => label.map .label

def isSameNode (a b : Expr) : Bool :=
  match a.node?, b.node? with
  | some m, some n => m == n
  | _, _ => false

/-- The roots are the same atom with equal parameters, or both are leaves. -/
def hasSameAtom (a b : Expr) : Bool := a.atom? == b.atom?

/-! ## Variables -/

mutual

/-- Every variable leaf from left to right, with repetitions. -/
def leaves : Expr → List Variable
  | var v => [v]
  | const _ _ => []
  | unary _ _ x => x.leaves
  | binary _ _ x y => x.leaves ++ y.leaves
  | variadic _ _ x xs => x.leaves ++ leavesOf xs

/-- The variable leaves of a list of expressions. -/
def leavesOf : List Expr → List Variable
  | [] => []
  | x :: xs => x.leaves ++ leavesOf xs

end

@[simp] theorem leavesOf_eq_flatMap (xs : List Expr) : leavesOf xs = xs.flatMap leaves := by
  induction xs with
  | nil => rfl
  | cons x xs ih => simp [leavesOf, ih]

/-- The ids of the variables in increasing order. -/
def variableIds (e : Expr) : List Nat := collectBy id (e.leaves.map Variable.id)

/-- Every variable with its shape, by increasing id. Of leaves with one id the first counts. -/
def variableShapes (e : Expr) : List (Nat × Shape) :=
  collectBy Prod.fst (e.leaves.map fun v => (v.id, v.shape))

end Expr

end DisciplinedConvex
