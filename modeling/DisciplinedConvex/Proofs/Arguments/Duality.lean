import DisciplinedConvex.Problem
import DisciplinedConvex.Proofs.Arguments.Order

/-! # Applications to negated arguments

The largest and the smallest entry trade places when all arguments are negated
(`Variadic.opposite`); stacks stay what they are. Shapes do not see the negations, and sign and
curvature of the result are negated with the arguments (`Expr.matched_negations`).

Hence to maximize the smallest of the negations keeps the rules exactly when to minimize the largest
does, and the same with both exchanged (`Expr.extrema_opposite`).
-/

namespace DisciplinedConvex
set_option autoImplicit false

/-! ## Signs and curvatures -/

theorem Sign.negate_ofBounds (a b : Bool) : (ofBounds a b).negate = ofBounds b a := by
  cases a <;> cases b <;> rfl

theorem Curvature.negate_add (c d : Curvature) :
    (c.add d).negate = c.negate.add d.negate := by
  cases c <;> cases d <;> rfl

namespace Variadic

/-- What the atom becomes under negations. -/
def opposite : Variadic → Variadic
  | maximum => minimum
  | minimum => maximum
  | op => op

variable (op : Variadic)

theorem accepts_opposite : op.opposite.Accepts = op.Accepts := by
  cases op <;> rfl

theorem sign_opposite (signs : List Sign) :
    op.opposite.sign (signs.map Sign.negate) = (op.sign signs).negate := by
  cases signs with
  | nil => cases op <;> rfl
  | cons s rest =>
    cases op <;>
      simp only [opposite, sign, Sign.maximum, Sign.minimum, Sign.union, List.isEmpty_map,
        List.isEmpty_cons, List.any_map, List.all_map, Function.comp_def, Sign.isNonneg_negate,
        Sign.isNonpos_negate, Bool.false_eq_true, if_false, Sign.negate_ofBounds]

theorem part_opposite (c : Curvature) : op.opposite.part c.negate = (op.part c).negate := by
  cases op <;> cases c <;> rfl

theorem joined_opposite (cs : List Curvature) :
    op.opposite.joined (cs.map Curvature.negate) = (op.joined cs).negate := by
  induction cs with
  | nil => rfl
  | cons c cs ih =>
    rw [List.map_cons, joined_cons, joined_cons, ih, part_opposite, Curvature.negate_add]

end Variadic

namespace Expr

/-! ## Expressions -/

theorem curvature_neg (x : Expr) : x.neg.curvature = x.curvature.negate := by
  rw [neg, curvature_unary]
  cases x.curvature <;> rfl

section Negations

variable (xs : List Expr)

theorem shapes_negations : (xs.map neg).map shape = xs.map shape := by
  rw [List.map_map]
  rfl

theorem signs_negations : (xs.map neg).map sign = (xs.map sign).map Sign.negate := by
  rw [List.map_map, List.map_map]
  rfl

theorem curvatures_negations :
    (xs.map neg).map curvature = (xs.map curvature).map Curvature.negate := by
  rw [List.map_map, List.map_map]
  exact List.map_congr_left fun x _ => curvature_neg x

theorem matched_negations (op : Variadic) :
    Matched Opposite (apply (.variadic op.opposite) (xs.map neg)) (apply (.variadic op) xs) := by
  refine ⟨?_, fun e f he hf => ⟨?_, ?_, ?_⟩⟩
  · rw [apply_variadic_succeeds_iff, apply_variadic_succeeds_iff, op.accepts_opposite,
      shapes_negations, Ne, Ne, List.map_eq_nil_iff]
  · have haccepts := accepts_shape_of_apply he
    rw [op.accepts_opposite, shapes_negations] at haccepts
    exact (shape_eq_of_accepts hf haccepts).symm
  · rw [sign_of_apply he, sign_of_apply hf, signs_negations, op.sign_opposite]
  · rw [curvature_eq_joined he, curvature_eq_joined hf, curvatures_negations, op.joined_opposite]

end Negations

/-! ## Problems -/

variable {x y : Expr}

theorem Opposite.isConvex_eq (h : x.Opposite y) : x.isConvex = y.isConcave := by
  rw [isConvex, isConcave, h.curvature]
  cases y.curvature <;> rfl

theorem Opposite.isConcave_eq (h : x.Opposite y) : x.isConcave = y.isConvex := by
  rw [isConvex, isConcave, h.curvature]
  cases y.curvature <;> rfl

theorem Matched.mono {R S : Expr → Expr → Prop} {a b : Except Error Expr} (h : Matched R a b)
    (himp : ∀ x y, R x y → S x y) : Matched S a b :=
  ⟨h.succeeds_iff, fun x y hx hy => himp x y (h.related x y hx hy)⟩

/-- The smallest of the negations is opposite to the largest, so that to maximize the one keeps the
rules exactly when to minimize the other does, under whatever constraints. The same holds of the
largest of the negations and the smallest. -/
theorem extrema_opposite (xs : List Expr) :
    Matched (fun low high => low.Opposite high ∧ ∀ cs : List Constraint,
        ((Draft.maximize low).subjectTo cs).build.isDcp =
          ((Draft.minimize high).subjectTo cs).build.isDcp)
      (minimum (xs.map neg)) (maximum xs) ∧
    Matched (fun high low => high.Opposite low ∧ ∀ cs : List Constraint,
        ((Draft.minimize high).subjectTo cs).build.isDcp =
          ((Draft.maximize low).subjectTo cs).build.isDcp)
      (maximum (xs.map neg)) (minimum xs) := by
  constructor
  · refine (matched_negations xs .maximum).mono fun low high h => ⟨h, fun cs => ?_⟩
    exact congrArg (· && (([] : List Constraint) ++ cs).all Constraint.isDcp) h.isConcave_eq
  · refine (matched_negations xs .minimum).mono fun high low h => ⟨h, fun cs => ?_⟩
    exact congrArg (· && (([] : List Constraint) ++ cs).all Constraint.isDcp) h.isConvex_eq

end Expr

end DisciplinedConvex
