import Mathlib.Data.Nat.PSub
import DisciplinedConvex.Proofs.Arguments.Outcome

/-! # Arguments found by their position

The rules of the atoms once more, over a list of arguments of any length. An argument is looked up
by its position, and where there is none the rule has no answer.

* `Atom.shapeAt`, `Atom.signAt` and `Atom.curvatureAt` are the rules. The other factor of a product
  is looked up at one less the position of the factor (`Atom.monotonicityAt`).
* `Atom.applyAt` checks the number of arguments, the parameter and the shapes, and only then applies
  the rules. `Atom.Outcome` lists how it may end.
* `Expr.apply_reports_first_fault`: the checks come in an order in which no rule is ever without an
  answer, and what is reported is the first check that fails.
-/

namespace DisciplinedConvex
set_option autoImplicit false

/-- What is kept of an application. -/
structure Node where
  atom : Atom
  args : List Expr
  shape : Shape
  sign : Sign
  curvature : Curvature

/-! ## The rules -/

namespace Atom

variable (atom : Atom) (args : List Expr)

/-- Operands that are combined entry by entry are taken one after another. -/
def shapeAt : Option (Except Error Shape) := do
  let first := (← args[0]?).shape
  match atom with
  | .unary op => return (op.shape? first).mapError .shape
  | .binary .add | .binary .mul =>
    return (((← args.tail?).map Expr.shape).foldlM atom.broadcast first).mapError .shape
  | .binary op => return (op.shape? first (← args[1]?).shape).mapError .shape
  | .variadic op => return op.shape? first ((← args.tail?).map Expr.shape)

/-- A quadratic form of zero is zero, whatever its matrix. -/
def signAt : Option Sign := do
  let signs := args.map Expr.sign
  let first ← signs[0]?
  match atom with
  | .unary op => return op.sign first
  | .binary .add => return first.add (← signs[1]?)
  | .binary .mul | .binary .matmul => return first.mul (← signs[1]?)
  | .binary .quadOverLin => return first.magnitude
  | .binary .quadForm =>
    if first.isZero then return .zero
    else return (Definiteness.ofMatrix (← args[1]?).value?).sign
  | .variadic op => return op.sign signs

/-- The curvature of the atom as a function of the values of its arguments. -/
def baseAt : Option Curvature :=
  match atom with
  | .unary op => return op.curvature
  | .binary .add => return .affine
  | .binary .mul | .binary .matmul =>
    return if args.any (·.curvature.isConstant) then .affine else .unknown
  | .binary .quadOverLin => return .convex
  | .binary .quadForm => return (Definiteness.ofMatrix (← args[1]?).value?).curvature
  | .variadic op => return op.curvature

/-- The monotonicity in the argument at a position. -/
def monotonicityAt (i : Nat) : Option Monotonicity :=
  match atom with
  | .unary op => return op.monotonicity
  | .binary .add => return .increasing
  | .binary .mul | .binary .matmul => do
    let other ← args[← Nat.psub 1 i]?
    return if other.curvature.isConstant then .scaledBy other.sign else .nonmonotonic
  | .binary .quadOverLin => return if i = 0 then .signed else .decreasing
  | .binary .quadForm => return .nonmonotonic
  | .variadic op => return op.monotonicity

def curvatureAt : Option Curvature := do
  let base ← atom.baseAt args
  let parts ← args.zipIdx.mapM fun (x, i) => do
    return (← atom.monotonicityAt args i, x.curvature, x.sign)
  return base.compose parts

def checkParameter : Except DomainFault Unit :=
  match atom with
  | .unary op => op.checkParameter
  | _ => .ok ()

/-- The application, unless a check fails before. -/
def applyAt : Option (Except Error Node) := do
  if !atom.arity.accepts args.length then return .error (.arity (.count atom args.length))
  else match atom.checkParameter with
    | .error fault => return .error (.domain fault)
    | .ok () =>
      match ← atom.shapeAt args with
      | .error error => return .error error
      | .ok s => return .ok ⟨atom, args, s, ← atom.signAt args, ← atom.curvatureAt args⟩

end Atom

/-! ## The rules find their arguments -/

namespace Expr

variable {atom : Atom} {args : List Expr} {e : Expr}

theorem mapM_zipIdx {α β : Type} (f : α → β) (as : List α) :
    (as.zipIdx.mapM fun a => some (f a.1)) = some (as.map f) := by
  calc (as.zipIdx.mapM fun a => some (f a.1))
      = some (as.zipIdx.map fun a => f a.1) := List.mapM_pure
    _ = some ((as.zipIdx.map Prod.fst).map f) := by rw [List.map_map]; rfl
    _ = some (as.map f) := by rw [List.zipIdx_map_fst]

theorem shapeAt_eq (h : e.atom? = some atom) : ∃ r, atom.shapeAt e.args = some r ∧
    validate atom e.args =
      (atom.checkParameter.mapError .domain >>= fun _ => r) := by
  cases e with
  | var v => cases h
  | const id v => cases h
  | unary label op x =>
    cases h
    exact ⟨(op.shape? x.shape).mapError .shape, rfl, rfl⟩
  | binary label op x y =>
    cases h
    have hfold := fun other : Atom => other.foldlM_broadcast_single x.shape y.shape
    refine ⟨(op.shape? x.shape y.shape).mapError .shape, ?_, rfl⟩
    cases op with
    | add => exact congrArg (fun r => some (r.mapError Error.shape)) (hfold _)
    | mul => exact congrArg (fun r => some (r.mapError Error.shape)) (hfold _)
    | matmul => rfl
    | quadOverLin => rfl
    | quadForm => rfl
  | variadic label op x xs =>
    cases h
    exact ⟨op.shape? x.shape (xs.map shape), rfl, rfl⟩

theorem signAt_eq (h : e.atom? = some atom) : atom.signAt e.args = some e.sign := by
  cases e with
  | var v => cases h
  | const id v => cases h
  | unary label op x =>
    cases h
    rfl
  | binary label op x y =>
    cases h
    cases op with
    | quadForm =>
      have hsign : (binary label .quadForm x y).sign =
          if x.sign.isZero then .zero else (Definiteness.ofMatrix y.value?).sign := rfl
      rw [hsign, apply_ite some]
      rfl
    | _ => rfl
  | variadic label op x xs =>
    cases h
    rw [sign_variadic]
    rfl

theorem curvatureAt_eq (h : e.atom? = some atom) : atom.curvatureAt e.args = some e.curvature := by
  cases e with
  | var v => cases h
  | const id v => cases h
  | unary label op x =>
    cases h
    rfl
  | binary label op x y =>
    cases h
    have hproduct : ∀ args : List (Monotonicity × Curvature × Sign),
        (if [x, y].any (·.curvature.isConstant) then Curvature.affine else .unknown).compose args =
          (if x.curvature.isConstant || y.curvature.isConstant then Curvature.affine
            else .unknown).compose args := by
      simp
    cases op with
    | mul => exact congrArg some (hproduct _)
    | matmul => exact congrArg some (hproduct _)
    | _ => rfl
  | variadic label op x xs =>
    cases h
    rw [curvature_variadic]
    change ((x :: xs).zipIdx.mapM fun y =>
      some (op.monotonicity, y.1.curvature, y.1.sign)) >>= _ = _
    rw [mapM_zipIdx fun y : Expr => (op.monotonicity, y.curvature, y.sign)]
    rfl

/-! ## The first check that fails -/

theorem exists_of_fits (h : atom.Fits args) : ∃ e, e.atom? = some atom ∧ e.args = args ∧
    apply atom args = (validate atom args).map fun _ => e := by
  cases h with
  | unary op x => exact ⟨unary none op x, rfl, rfl, rfl⟩
  | binary op x y => exact ⟨binary none op x y, rfl, rfl, rfl⟩
  | variadic op x xs => exact ⟨variadic none op x xs, rfl, rfl, rfl⟩

end Expr

namespace Atom

variable {atom : Atom} {args : List Expr}

/-- A power with an exponent that is not finite or is zero. -/
def HasInvalidExponent (atom : Atom) : Prop :=
  ∃ p, atom = .unary (.power p) ∧ (p.isFinite = false ∨ (p == 0) = true)

/-- The shapes fit, but no word holds a dimension of the stack. -/
def Overflows (atom : Atom) (args : List Expr) : Prop :=
  match atom with
  | .variadic op => op.Overflows (args.map Expr.shape)
  | _ => False

theorem Overflows.fits (h : atom.Overflows args) : atom.Fits args := by
  cases atom with
  | unary op => exact h.elim
  | binary op => exact h.elim
  | variadic op =>
    cases args with
    | nil =>
      cases op with
      | maximum => exact h.elim
      | minimum => exact h.elim
      | vstack => exact absurd h.2 (by decide)
      | hstack => exact absurd h.2 (by decide)
    | cons x xs => exact .variadic op x xs

theorem overflows_iff (h : atom.Fits args) :
    atom.Overflows args ↔ atom.shapeAt args = some (.error (.overflow .add)) := by
  have hshape : ∀ r : Except ShapeFault Shape,
      some (r.mapError Error.shape) ≠ some (.error (.overflow .add)) := by
    intro r h
    obtain ⟨_, -, ⟨⟩⟩ := Expr.mapError_eq_error.1 (Option.some_inj.1 h)
  cases h with
  | unary op x => exact iff_of_false id (hshape _)
  | binary op x y => cases op <;> exact iff_of_false id (hshape _)
  | variadic op x xs =>
    exact ((Option.some_inj.trans Variadic.shape?_eq_overflow_iff).trans (and_iff_left rfl)).symm

/-- What the rule of the shapes may complain of. -/
theorem error_of_shapeAt (h : atom.Fits args) {error : Error}
    (hs : atom.shapeAt args = some (.error error)) :
    (∃ fault, error = .shape fault) ∨ error = .overflow .add := by
  have hshape : ∀ r : Except ShapeFault Shape, some (r.mapError Error.shape) = some (.error error) →
      ∃ fault, error = .shape fault := by
    intro r h
    obtain ⟨fault, -, rfl⟩ := Expr.mapError_eq_error.1 (Option.some_inj.1 h)
    exact ⟨fault, rfl⟩
  cases h with
  | unary op x => exact .inl (hshape _ hs)
  | binary op x y => cases op <;> exact .inl (hshape _ hs)
  | variadic op x xs => exact Variadic.error_of_shape? (Option.some_inj.1 hs)

theorem checkParameter_of_invalid {p : Float} (hp : p.isFinite = false ∨ (p == 0) = true) :
    (unary (.power p)).checkParameter = .error (.parameter p) := by
  refine if_pos ?_
  rcases hp with hp | hp <;> simp [hp]

theorem checkParameter_of_valid (h : ¬ atom.HasInvalidExponent) :
    atom.checkParameter = .ok () := by
  cases atom with
  | unary op =>
    cases op with
    | power p =>
      refine if_neg fun hp => h ⟨p, rfl, ?_⟩
      simpa using hp
    | _ => rfl
  | binary op => rfl
  | variadic op => rfl

/-- How an application may end. -/
inductive Outcome (atom : Atom) (args : List Expr) : Except Error Expr → Prop where
  | wrongCount (h : ¬ atom.Fits args) : Outcome atom args (.error (.arity (.count atom args.length)))
  | invalidExponent {p : Float} (h : atom.Fits args) (hatom : atom = .unary (.power p))
    (hp : p.isFinite = false ∨ (p == 0) = true) :
    Outcome atom args (.error (.domain (.parameter p)))
  | wrongShapes {fault : ShapeFault} (h : atom.Fits args) (hp : ¬ atom.HasInvalidExponent)
    (hs : atom.shapeAt args = some (.error (.shape fault))) :
    Outcome atom args (.error (.shape fault))
  | tooLong (h : atom.Fits args) (hp : ¬ atom.HasInvalidExponent)
    (hs : atom.shapeAt args = some (.error (.overflow .add))) :
    Outcome atom args (.error (.overflow .add))
  | built {e : Expr} (h : atom.Fits args) (hp : ¬ atom.HasInvalidExponent)
    (hs : atom.shapeAt args = some (.ok e.shape)) (hatom : e.atom? = some atom)
    (hargs : e.args = args) (hvalid : Expr.validate atom args = .ok e.shape) :
    Outcome atom args (.ok e)

/-- The checks leave only applications for which every rule has an answer. -/
theorem outcome_apply (atom : Atom) (args : List Expr) : atom.Outcome args (Expr.apply atom args) := by
  by_cases h : atom.Fits args
  · obtain ⟨e, hatom, rfl, happly⟩ := Expr.exists_of_fits h
    obtain ⟨r, hr, hvalid⟩ := Expr.shapeAt_eq hatom
    by_cases hp : atom.HasInvalidExponent
    · obtain ⟨p, rfl, hp⟩ := hp
      rw [checkParameter_of_invalid hp] at hvalid
      rw [happly, hvalid]
      exact .invalidExponent h rfl hp
    · rw [checkParameter_of_valid hp] at hvalid
      rw [happly, hvalid]
      cases r with
      | error error =>
        rcases error_of_shapeAt h hr with ⟨fault, rfl⟩ | rfl
        · exact .wrongShapes h hp hr
        · exact .tooLong h hp hr
      | ok s =>
        have hs : e.shape = s := Expr.shape_eq_of_validate hatom hvalid
        subst hs
        exact .built h hp hr hatom rfl hvalid
  · rw [Expr.apply_of_not_fits h]
    exact .wrongCount h

theorem applyAt_eq (atom : Atom) (args : List Expr) : atom.applyAt args =
    some ((Expr.apply atom args).map fun e => ⟨atom, args, e.shape, e.sign, e.curvature⟩) := by
  have houtcome := atom.outcome_apply args
  generalize Expr.apply atom args = result at houtcome ⊢
  unfold applyAt
  cases houtcome with
  | wrongCount h =>
    rw [fits_iff, Bool.not_eq_true] at h
    simp [h, Except.map]
  | invalidExponent h hatom hp =>
    subst hatom
    simp [fits_iff.1 h, checkParameter_of_invalid hp, Except.map]
  | wrongShapes h hp hs => simp [fits_iff.1 h, checkParameter_of_valid hp, hs, Except.map]
  | tooLong h hp hs => simp [fits_iff.1 h, checkParameter_of_valid hp, hs, Except.map]
  | built h hp hs hatom hargs =>
    subst hargs
    simp [fits_iff.1 h, checkParameter_of_valid hp, hs, Expr.signAt_eq hatom,
      Expr.curvatureAt_eq hatom, Except.map]

end Atom

namespace Expr

/-- An application looks up no argument that is not there, and what it makes is what the rules say.
It complains of the number of arguments exactly if the atom does not take as many, whatever else is
wrong; else of the parameter exactly if it is an exponent that is not finite or is zero; else of the
shapes exactly if the shape rule does. It overflows exactly if a stacked dimension is too large.
Otherwise it makes a node of the given atom and arguments, with the shape that the check has
found. -/
theorem apply_reports_first_fault (atom : Atom) (args : List Expr) :
    atom.applyAt args =
      some ((apply atom args).map fun e => ⟨atom, args, e.shape, e.sign, e.curvature⟩) ∧
    ((∃ fault, apply atom args = .error (.arity fault)) ↔
      ¬ atom.arity.accepts args.length = true) ∧
    ((∃ fault, apply atom args = .error (.domain fault)) ↔
      atom.arity.accepts args.length = true ∧ atom.HasInvalidExponent) ∧
    ((∃ fault, apply atom args = .error (.shape fault)) ↔
      atom.arity.accepts args.length = true ∧ ¬ atom.HasInvalidExponent ∧
        ∃ fault, atom.shapeAt args = some (.error (.shape fault))) ∧
    ((∃ fault, apply atom args = .error (.overflow fault)) ↔ atom.Overflows args) ∧
    ((∃ e, apply atom args = .ok e) ↔
      atom.arity.accepts args.length = true ∧ ¬ atom.HasInvalidExponent ∧
        ∃ s, atom.shapeAt args = some (.ok s)) ∧
    ∀ e, apply atom args = .ok e →
      e.atom? = some atom ∧ e.args = args ∧ validate atom args = .ok e.shape := by
  refine ⟨atom.applyAt_eq args, ?_⟩
  have houtcome := atom.outcome_apply args
  generalize apply atom args = result at houtcome ⊢
  simp only [← Atom.fits_iff]
  cases houtcome with
  | wrongCount h =>
    have hfine : ¬ atom.Overflows args := mt Atom.Overflows.fits h
    simp [h, hfine]
  | invalidExponent h hatom hp =>
    have hinvalid : atom.HasInvalidExponent := ⟨_, hatom, hp⟩
    have hfine : ¬ atom.Overflows args := hatom ▸ id
    simp [h, hinvalid, hfine]
  | wrongShapes h hp hs => simp [h, hp, hs, Atom.overflows_iff h]
  | tooLong h hp hs => simp [h, hp, hs, Atom.overflows_iff h]
  | built h hp hs hatom hargs hvalid =>
    simp [h, hp, hs, hatom, hargs, hvalid, Atom.overflows_iff h]

end Expr

end DisciplinedConvex
