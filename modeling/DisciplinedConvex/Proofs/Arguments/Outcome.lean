import DisciplinedConvex.Proofs.Arguments.Shape
import DisciplinedConvex.Proofs.Checked

/-! # Outcomes of constructions

* `bind_eq_ok_iff` and `bind_eq_error_iff` take a sequence of two computations apart.
* `Expr.Matched` compares two ways to build an expression: both succeed, in related results, or
  neither does.
* `Expr.Agrees` is equality of all that is inferred, and `Expr.Opposite` the same up to a negation.
* `Atom.Fits` lists the arguments that an atom takes by their number. What passes its check is built
  (`Expr.exists_apply_of_validate`).
* `Expr.apply_binary_eq_ok_iff` and `Expr.apply_variadic_eq_ok_iff` say when an application to two
  or to many arguments succeeds.
-/

namespace DisciplinedConvex
set_option autoImplicit false

/-! ## Two computations in sequence -/

section Bind

variable {ε α β : Type} {a : Except ε α} {f : α → Except ε β}

theorem bind_eq_ok_iff {y : β} : a >>= f = .ok y ↔ ∃ x, a = .ok x ∧ f x = .ok y := by
  cases a with
  | error fault =>
    constructor
    · rintro ⟨⟩
    · rintro ⟨_, ⟨⟩, -⟩
  | ok x =>
    constructor
    · exact fun h => ⟨x, rfl, h⟩
    · rintro ⟨_, ⟨⟩, h⟩
      exact h

theorem bind_eq_error_iff {fault : ε} :
    a >>= f = .error fault ↔ a = .error fault ∨ ∃ x, a = .ok x ∧ f x = .error fault := by
  cases a with
  | error fault' =>
    constructor
    · rintro ⟨⟩
      exact .inl rfl
    · rintro (⟨⟨⟩⟩ | ⟨_, ⟨⟩, -⟩)
      rfl
  | ok x =>
    constructor
    · exact fun h => .inr ⟨x, rfl, h⟩
    · rintro (⟨⟨⟩⟩ | ⟨_, ⟨⟩, h⟩)
      exact h

end Bind

/-! ## The number of arguments -/

/-- As many arguments as the atom takes. -/
inductive Atom.Fits {α : Type} : Atom → List α → Prop where
  | unary (op : Unary) (x : α) : Fits (.unary op) [x]
  | binary (op : Binary) (x y : α) : Fits (.binary op) [x, y]
  | variadic (op : Variadic) (x : α) (xs : List α) : Fits (.variadic op) (x :: xs)

theorem Atom.fits_iff {α : Type} {atom : Atom} {args : List α} :
    atom.Fits args ↔ atom.arity.accepts args.length = true := by
  constructor
  · rintro ⟨⟩ <;> simp [arity, Arity.accepts]
  · intro h
    cases atom with
    | unary op =>
      obtain ⟨x, rfl⟩ := List.length_eq_one_iff.1 (beq_iff_eq.1 h)
      exact .unary op x
    | binary op =>
      obtain ⟨x, y, rfl⟩ := List.length_eq_two.1 (beq_iff_eq.1 h)
      exact .binary op x y
    | variadic op =>
      obtain ⟨x, xs, rfl⟩ := List.exists_cons_of_length_pos (of_decide_eq_true h)
      exact .variadic op x xs

namespace Expr

variable {atom : Atom} {args : List Expr}

theorem apply_of_not_fits (h : ¬ atom.Fits args) :
    apply atom args = .error (.arity (.count atom args.length)) := by
  unfold apply
  split
  · exact absurd (.unary _ _) h
  · exact absurd (.binary _ _ _) h
  · exact absurd (.variadic _ _ _) h
  · rfl

theorem validate_of_not_fits (h : ¬ atom.Fits args) :
    validate atom args = .error (.arity (.count atom args.length)) := by
  have hshapes : ¬ atom.Fits (args.map shape) := by
    rwa [Atom.fits_iff, List.length_map, ← Atom.fits_iff]
  unfold validate Atom.validate
  split
  case h_1 heq => exact absurd (heq ▸ .unary _ _) hshapes
  case h_2 heq => exact absurd (heq ▸ .binary _ _ _) hshapes
  case h_3 heq => exact absurd (heq ▸ .variadic _ _ _) hshapes
  case h_4 => rw [List.length_map]

/-- What passes the check is built, with the shape that the check has found. -/
theorem exists_apply_of_validate {s : Shape} (h : validate atom args = .ok s) :
    ∃ e, apply atom args = .ok e ∧ e.atom? = some atom ∧ e.args = args ∧ e.shape = s := by
  have hbuild : ∀ e : Expr, e.atom? = some atom → e.args = args →
      ∃ e, apply atom args = .ok e ∧ e.atom? = some atom ∧ e.args = args ∧ e.shape = s := by
    rintro e ha rfl
    refine ⟨e.withLabel none, apply_eq_of_validate ha h, ?_, args_withLabel _ _, ?_⟩
    · rw [atom?_withLabel, ha]
    · rw [shape_withLabel, shape_eq_of_validate ha h]
  by_cases hfits : atom.Fits args
  · cases hfits with
    | unary op x => exact hbuild (unary none op x) rfl rfl
    | binary op x y => exact hbuild (binary none op x y) rfl rfl
    | variadic op x xs => exact hbuild (variadic none op x xs) rfl rfl
  · cases (validate_of_not_fits hfits).symm.trans h

end Expr

/-- An affine atom that is increasing, and passes the sign on, keeps what is known. -/
theorem Unary.attributes_of_keeps {op : Unary} (hsign : ∀ s, op.sign s = s)
    (hcurvature : op.curvature = .affine) (hmonotonicity : op.monotonicity = .increasing)
    (a : Attributes) : op.attributes a = a := by
  obtain ⟨s, c⟩ := a
  simp only [attributes, hsign, hcurvature, hmonotonicity]
  cases c <;> rfl

namespace Expr

/-- The same shape, sign and curvature. -/
structure Agrees (x y : Expr) : Prop where
  shape : x.shape = y.shape
  sign : x.sign = y.sign
  curvature : x.curvature = y.curvature

/-- The same shape, and sign and curvature of the negation. -/
structure Opposite (x y : Expr) : Prop where
  shape : x.shape = y.shape
  sign : x.sign = y.sign.negate
  curvature : x.curvature = y.curvature.negate

theorem Agrees.of_attributes {x y : Expr} (hshape : x.shape = y.shape)
    (h : x.attributes = y.attributes) : x.Agrees y :=
  ⟨hshape, congrArg Attributes.sign h, congrArg Attributes.curvature h⟩

/-- The first succeeds exactly when the second does, and then the results are related. -/
structure Matched (R : Expr → Expr → Prop) (a b : Except Error Expr) : Prop where
  succeeds_iff : (∃ x, a = .ok x) ↔ ∃ y, b = .ok y
  related : ∀ x y, a = .ok x → b = .ok y → R x y

/-! ## Two arguments -/

theorem apply_binary_eq_ok_iff {op : Binary} {x y e : Expr} : apply (.binary op) [x, y] = .ok e ↔
    (∃ r, op.shape? x.shape y.shape = .ok r) ∧ e = binary none op x y := by
  simp only [apply, validate, List.map_cons, List.map_nil, Atom.validate]
  cases op.shape? x.shape y.shape with
  | error fault =>
    constructor
    · rintro ⟨⟩
    · rintro ⟨⟨_, ⟨⟩⟩, -⟩
  | ok r =>
    constructor
    · rintro ⟨⟩
      exact ⟨⟨r, rfl⟩, rfl⟩
    · rintro ⟨-, rfl⟩
      rfl

theorem apply_binary_succeeds_iff {op : Binary} {x y : Expr} :
    (∃ e, apply (.binary op) [x, y] = .ok e) ↔ ∃ r, op.shape? x.shape y.shape = .ok r := by
  simp only [apply_binary_eq_ok_iff, exists_and_left, exists_eq, and_true]

/-! ## Many arguments -/

variable {op : Variadic} {xs : List Expr} {e : Expr}

theorem apply_variadic_eq_ok_iff : apply (.variadic op) xs = .ok e ↔
    (∃ r, op.Accepts (xs.map shape) r) ∧
      ∃ x rest, xs = x :: rest ∧ e = variadic none op x rest := by
  cases xs with
  | nil =>
    constructor
    · rintro ⟨⟩
    · rintro ⟨-, _, _, ⟨⟩, -⟩
  | cons x rest =>
    simp only [apply, validate, List.map_cons, Atom.validate, ← Variadic.shape?_eq_ok_iff]
    cases hs : op.shape? x.shape (rest.map Expr.shape) with
    | error fault =>
      constructor
      · rintro ⟨⟩
      · rintro ⟨⟨_, ⟨⟩⟩, -⟩
    | ok r =>
      constructor
      · rintro ⟨⟩
        exact ⟨⟨r, rfl⟩, x, rest, rfl, rfl⟩
      · rintro ⟨-, _, _, ⟨⟩, rfl⟩
        rfl

theorem apply_variadic_succeeds_iff : (∃ e, apply (.variadic op) xs = .ok e) ↔
    xs ≠ [] ∧ ∃ r, op.Accepts (xs.map shape) r := by
  simp only [apply_variadic_eq_ok_iff]
  constructor
  · rintro ⟨_, hr, _, _, rfl, _⟩
    exact ⟨List.cons_ne_nil _ _, hr⟩
  · rintro ⟨hne, hr⟩
    obtain ⟨x, rest, rfl⟩ := List.exists_cons_of_ne_nil hne
    exact ⟨_, hr, x, rest, rfl, rfl⟩

theorem accepts_shape_of_apply (h : apply (.variadic op) xs = .ok e) :
    op.Accepts (xs.map shape) e.shape := by
  obtain ⟨⟨r, hr⟩, x, rest, rfl, rfl⟩ := apply_variadic_eq_ok_iff.1 h
  rw [shape, shapes_eq_map, Variadic.shape_eq (Variadic.shape?_eq_ok_iff.2 hr)]
  exact hr

theorem sign_of_apply (h : apply (.variadic op) xs = .ok e) :
    e.sign = op.sign (xs.map sign) := by
  obtain ⟨-, x, rest, rfl, rfl⟩ := apply_variadic_eq_ok_iff.1 h
  exact sign_variadic none op x rest

theorem curvature_of_apply (h : apply (.variadic op) xs = .ok e) :
    e.curvature =
      op.curvature.compose (xs.map fun x => (op.monotonicity, x.curvature, x.sign)) := by
  obtain ⟨-, x, rest, rfl, rfl⟩ := apply_variadic_eq_ok_iff.1 h
  exact curvature_variadic none op x rest

end Expr

theorem Variadic.Accepts.unique {op : Variadic} {shapes : List Shape} {a b : Shape}
    (hne : shapes ≠ []) (ha : op.Accepts shapes a) (hb : op.Accepts shapes b) : a = b := by
  obtain ⟨first, rest, rfl⟩ := List.exists_cons_of_ne_nil hne
  exact Except.ok.inj ((shape?_eq_ok_iff.2 ha).symm.trans (shape?_eq_ok_iff.2 hb))

theorem Expr.shape_eq_of_accepts {op : Variadic} {xs : List Expr} {e : Expr} {r : Shape}
    (h : apply (.variadic op) xs = .ok e) (hr : op.Accepts (xs.map shape) r) : e.shape = r := by
  have hne : xs ≠ [] := (apply_variadic_succeeds_iff.1 ⟨e, h⟩).1
  exact (accepts_shape_of_apply h).unique (mt List.map_eq_nil_iff.1 hne) hr

end DisciplinedConvex
