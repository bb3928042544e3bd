import DisciplinedConvex.Proofs.Arguments.Order

/-! # Atoms that others define

Some atoms of the catalog could be written with other atoms: a square is a power, the positive part
a maximum, a norm of order one a sum of absolute values. Each has a row of its own in the tables of
shapes, signs, curvatures and monotonicities.

* `Unary.attributes_neg_eq`, `Unary.attributes_pos_eq`, … compare the rows, with the attributes of
  the argument unknown.
* `Expr.IsMadeBy` says that a construction succeeds, and that what it makes agrees with an
  expression.
* `Expr.derived_agree` says it of all these atoms and their definitions. Of an absolute value more
  may be known than of the larger of an expression and its negation, but never less.
-/

namespace DisciplinedConvex
set_option autoImplicit false

/-! ## Rows of the tables -/

namespace Unary

variable (a : Attributes) (s : Sign) (m : Option Value)

/-- Any negative constant turns the entries around. -/
theorem attributes_neg_eq :
    neg.attributes a = Binary.mul.attributes a ⟨.negative, .constant⟩ m := by
  obtain ⟨s, c⟩ := a
  cases s <;> cases c <;> rfl

theorem attributes_pos_eq :
    pos.attributes a = Variadic.maximum.attributes [a, ⟨.zero, .constant⟩] := by
  obtain ⟨s, c⟩ := a
  cases s <;> cases c <;> rfl

theorem attributes_negPart_eq : negPart.attributes a = pos.attributes (neg.attributes a) := by
  obtain ⟨s, c⟩ := a
  cases s <;> cases c <;> rfl

/-- The divisor may be any constant: its sign is not asked for. -/
theorem attributes_sumSquares_eq :
    sumSquares.attributes a = Binary.quadOverLin.attributes a ⟨s, .constant⟩ m := by
  obtain ⟨t, c⟩ := a
  cases t <;> cases c <;> rfl

/-- The maximum is not certified for a convex or concave argument, whatever its sign. -/
theorem curvature_abs_subset :
    (abs.attributes a).curvature.isSubsetOf
      (Variadic.maximum.attributes [a, neg.attributes a]).curvature = true := by
  obtain ⟨s, c⟩ := a
  cases s <;> cases c <;> rfl

theorem sign_abs_le :
    (abs.attributes a).sign ≤ (Variadic.maximum.attributes [a, neg.attributes a]).sign := by
  change a.sign.magnitude ≤ .maximum [a.sign, a.sign.negate]
  cases a.sign <;> decide

end Unary

namespace Expr

/-- The construction succeeds, in what agrees with the expression. -/
def IsMadeBy (x : Expr) (a : Except Error Expr) : Prop := ∃ y, a = .ok y ∧ x.Agrees y

variable (x : Expr)

/-! ## One argument -/

theorem square_isMadeBy_power : x.square.IsMadeBy (x.power 2) := ⟨_, rfl, .of_attributes rfl rfl⟩

theorem sqrt_isMadeBy_power : x.sqrt.IsMadeBy (x.power 0.5) := ⟨_, rfl, .of_attributes rfl rfl⟩

theorem isMadeBy_power_one : x.IsMadeBy (x.power 1) := by
  refine ⟨_, rfl, .of_attributes rfl ?_⟩
  exact (Unary.attributes_of_keeps (fun _ => rfl) rfl rfl x.attributes).symm

theorem negPart_agrees : x.negPart.Agrees x.neg.pos :=
  .of_attributes rfl (Unary.attributes_negPart_eq x.attributes)

/-- To add up the entries keeps what is known of them. -/
theorem attributes_sum : x.sum.attributes = x.attributes :=
  Unary.attributes_of_keeps (fun _ => rfl) rfl rfl x.attributes

theorem sumSquares_agrees : x.sumSquares.Agrees x.square.sum :=
  .of_attributes rfl (attributes_sum x.square).symm

theorem norm1_agrees : x.norm1.Agrees x.abs.sum :=
  .of_attributes rfl (attributes_sum x.abs).symm

theorem normFro_agrees : x.normFro.Agrees x.flatten.norm2 := by
  have hflatten : x.flatten.attributes = x.attributes :=
    Unary.attributes_of_keeps (fun _ => rfl) rfl rfl x.attributes
  refine .of_attributes rfl ?_
  rw [normFro, norm2, attributes, attributes, hflatten]
  rfl

/-! ## A constant beside the argument -/

theorem neg_isMadeBy_mul (id : Nat) : x.neg.IsMadeBy (x.mul (const id (.scalar (-1)))) := by
  have hshape : Binary.mul.shape? x.shape .scalar = .ok x.shape :=
    (Binary.shape?_entrywise_iff (.inr rfl)).2 x.shape.broadcast?_scalar
  refine ⟨_, apply_binary_eq_ok_iff.2 ⟨⟨_, hshape⟩, rfl⟩, .of_attributes ?_ ?_⟩
  · exact (Binary.shape_eq hshape).symm
  · exact Unary.attributes_neg_eq x.attributes _

theorem sumSquares_isMadeBy_quadOverLin (id : Nat) (v : Float) :
    x.sumSquares.IsMadeBy (x.quadOverLin (const id (.scalar v))) :=
  ⟨_, rfl, .of_attributes rfl (Unary.attributes_sumSquares_eq x.attributes _ _)⟩

/-! ## The larger of two -/

theorem maximum_pair {y : Expr} {r : Shape} (h : x.shape.broadcast? y.shape = some r) :
    ∃ e, maximum [x, y] = .ok e ∧ e.shape = r ∧
      e.attributes = Variadic.maximum.attributes [x.attributes, y.attributes] := by
  have haccepts := Shape.broadcast?_eq_some_iff_isCommon.1 h
  have hmaximum : maximum [x, y] = .ok (variadic none .maximum x [y]) :=
    apply_variadic_eq_ok_iff.2 ⟨⟨r, haccepts⟩, x, [y], rfl, rfl⟩
  exact ⟨_, hmaximum, shape_eq_of_accepts hmaximum haccepts, rfl⟩

theorem pos_isMadeBy_maximum (id : Nat) :
    x.pos.IsMadeBy (maximum [x, const id (.scalar 0)]) := by
  obtain ⟨e, he, hshape, hattributes⟩ :=
    maximum_pair x (y := const id (.scalar 0)) x.shape.broadcast?_scalar
  refine ⟨e, he, .of_attributes hshape.symm ?_⟩
  rw [hattributes]
  exact Unary.attributes_pos_eq x.attributes

/-- An absolute value is not less precise than the larger of the expression and its negation. -/
theorem abs_le_maximum : ∃ e, maximum [x, x.neg] = .ok e ∧ x.abs.shape = e.shape ∧
    x.abs.curvature.isSubsetOf e.curvature = true ∧
    (e.isNonneg = true → x.abs.isNonneg = true) ∧ (e.isNonpos = true → x.abs.isNonpos = true) := by
  obtain ⟨e, he, hshape, hattributes⟩ := maximum_pair x (y := x.neg) x.shape.broadcast?_self
  refine ⟨e, he, hshape.symm, ?_, ?_⟩
  · rw [curvature, curvature, hattributes]
    exact Unary.curvature_abs_subset x.attributes
  · rw [isNonneg, isNonpos, sign, hattributes]
    exact Sign.le_iff.1 (Unary.sign_abs_le x.attributes)

/-- Every atom that could be written with others agrees with its definition: the squares, roots and
powers, the negations, the two parts of an expression, the sums of squares and the norms of order
one and two. Constants may have any id. -/
theorem derived_agree (id : Nat) :
    x.square.IsMadeBy (x.power 2) ∧
    x.sqrt.IsMadeBy (x.power 0.5) ∧
    x.IsMadeBy (x.power 1) ∧
    x.neg.IsMadeBy (x.mul (const id (.scalar (-1)))) ∧
    x.pos.IsMadeBy (maximum [x, const id (.scalar 0)]) ∧
    x.negPart.Agrees x.neg.pos ∧
    x.sumSquares.Agrees x.square.sum ∧
    x.sumSquares.IsMadeBy (x.quadOverLin (const id (.scalar 1))) ∧
    x.norm1.Agrees x.abs.sum ∧
    x.normFro.Agrees x.flatten.norm2 ∧
    ∃ e, maximum [x, x.neg] = .ok e ∧ x.abs.shape = e.shape ∧
      x.abs.curvature.isSubsetOf e.curvature = true ∧
      (e.isNonneg = true → x.abs.isNonneg = true) ∧
      (e.isNonpos = true → x.abs.isNonpos = true) :=
  ⟨x.square_isMadeBy_power, x.sqrt_isMadeBy_power, x.isMadeBy_power_one, x.neg_isMadeBy_mul id,
    x.pos_isMadeBy_maximum id, x.negPart_agrees, x.sumSquares_agrees,
    x.sumSquares_isMadeBy_quadOverLin id 1, x.norm1_agrees, x.normFro_agrees, x.abs_le_maximum⟩

end Expr

end DisciplinedConvex
