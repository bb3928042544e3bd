import DisciplinedConvex.Proofs.Arguments.Order

/-! # Applications to transposed arguments

A transpose trades rows for columns and leaves sign and curvature alone
(`Expr.attributes_transpose`), so that it may be taken before or after an application:

* stacking side by side becomes stacking on one another (`Expr.matched_stack_transpose`);
* an operation entry by entry stays what it is (`Expr.matched_entrywise_transpose`);
* the factors of a matrix product change places (`Expr.matched_matmul_transpose`).

`Expr.transposes_agree` says all of it of the builders.
-/

namespace DisciplinedConvex
set_option autoImplicit false

/-! ## Shapes -/

namespace Shape

theorem isScalar_transpose (s : Shape) : s.transpose.isScalar = s.isScalar := by
  simp [isScalar, transpose, Bool.and_comm]

theorem transpose_inj {s t : Shape} : s.transpose = t.transpose ↔ s = t :=
  ⟨fun h => by simpa using congrArg transpose h, fun h => h ▸ rfl⟩

theorem map_transpose_eq_some_iff {o : Option Shape} {r : Shape} :
    o.map transpose = some r ↔ o = some r.transpose := by
  cases o with
  | none => simp
  | some s => simp [← transpose_inj (s := s)]

theorem broadcast?_transpose (s t : Shape) :
    s.transpose.broadcast? t.transpose = (s.broadcast? t).map transpose := by
  simp only [broadcast?, transpose_inj, isScalar_transpose]
  split
  · rfl
  · split <;> rfl

theorem matmul?_transpose (s t : Shape) :
    t.transpose.matmul? s.transpose = (s.matmul? t).map transpose := by
  simp only [matmul?, isScalar_transpose]
  by_cases hs : s.isScalar = true
  · -- Where both are scalars, it does not matter whose shape is taken.
    by_cases ht : t.isScalar = true
    · rw [isScalar_iff.1 hs, isScalar_iff.1 ht]
      rfl
    · simp [hs, ht]
  · by_cases ht : t.isScalar = true
    · simp [hs, ht]
    · by_cases hst : s.cols = t.rows
      · simp [hs, ht, hst, transpose]
      · simp [hs, ht, hst, Ne.symm hst, transpose]

end Shape

theorem Variadic.accepts_transpose {ss : List Shape} {r : Shape} :
    vstack.Accepts (ss.map Shape.transpose) r.transpose ↔ hstack.Accepts ss r := by
  simp [Accepts, Shape.transpose, Function.comp_def]

/-! ## Signs and curvatures -/

namespace Binary

/-- The factors of a matrix product are told apart by their shapes alone. -/
theorem attributes_matmul_comm (a b : Attributes) (m m' : Option Value) :
    matmul.attributes a b m = matmul.attributes b a m' := by
  have hbase : matmul.curvature a.curvature b.curvature m =
      matmul.curvature b.curvature a.curvature m' := by
    simp only [curvature, Bool.or_comm]
  simp only [attributes, sign, Sign.mul_comm a.sign, hbase, Attributes.mk.injEq, true_and,
    Curvature.compose_eq_sum]
  exact Curvature.sum_perm (.swap _ _ _)

/-- Only a quadratic form looks at the value of its second argument. -/
theorem attributes_of_ne_quadForm {op : Binary} (hop : op ≠ quadForm) (a b : Attributes)
    (m m' : Option Value) : op.attributes a b m = op.attributes a b m' := by
  cases op with
  | quadForm => exact absurd rfl hop
  | _ => rfl

end Binary

namespace Expr

/-! ## Expressions -/

theorem shape_transpose (x : Expr) : x.transpose.shape = x.shape.transpose := rfl

theorem attributes_transpose (x : Expr) : x.transpose.attributes = x.attributes :=
  Unary.attributes_of_keeps (fun _ => rfl) rfl rfl x.attributes

section Binary

variable {op : Binary} (x y : Expr)

/-- An atom applied to two arguments and to what two others are made of them. -/
theorem matched_transposed {x' y' : Expr}
    (hshape : ∀ r, op.shape? x'.shape y'.shape = .ok r ↔
      op.shape? x.shape y.shape = .ok r.transpose)
    (h : op.attributes x'.attributes y'.attributes y'.value? =
      op.attributes x.attributes y.attributes y.value?) :
    Matched (fun e e' => e.transpose.Agrees e') (apply (.binary op) [x, y])
      (apply (.binary op) [x', y']) := by
  refine ⟨?_, fun e e' he he' => ?_⟩
  · simp only [apply_binary_succeeds_iff, hshape]
    exact ⟨fun ⟨r, hr⟩ => ⟨r.transpose, hr⟩, fun ⟨r, hr⟩ => ⟨r.transpose, hr⟩⟩
  · obtain ⟨⟨r, hr⟩, rfl⟩ := apply_binary_eq_ok_iff.1 he
    obtain ⟨⟨r', hr'⟩, rfl⟩ := apply_binary_eq_ok_iff.1 he'
    refine .of_attributes ?_ ((attributes_transpose _).trans h.symm)
    rw [shape_transpose, shape, shape, Binary.shape_eq hr', Binary.shape_eq ((hshape r').1 hr'),
      Shape.transpose_transpose]

/-- The factors of a product change places with two others, of the transposed shapes. -/
theorem matched_swapped_matmul {x' y' : Expr} (hx : x'.shape = x.shape.transpose)
    (hy : y'.shape = y.shape.transpose) (hxa : x'.attributes = x.attributes)
    (hya : y'.attributes = y.attributes) :
    Matched (fun e e' => e.transpose.Agrees e') (x.matmul y) (y'.matmul x') := by
  refine matched_transposed x y (fun r => ?_) ?_
  · rw [Binary.shape?_matmul_iff, Binary.shape?_matmul_iff, hx, hy, Shape.matmul?_transpose,
      Shape.map_transpose_eq_some_iff]
  · rw [hxa, hya]
    exact Binary.attributes_matmul_comm _ _ _ _

theorem matched_transposed_matmul : Matched (fun e e' => e.transpose.Agrees e') (x.matmul y)
    (y.transpose.matmul x.transpose) :=
  matched_swapped_matmul x y x.shape_transpose y.shape_transpose x.attributes_transpose
    y.attributes_transpose

/-- Sums and products entry by entry. -/
theorem matched_transposed_entrywise (hop : op = .add ∨ op = .mul) :
    Matched (fun e e' => e.transpose.Agrees e') (apply (.binary op) [x, y])
      (apply (.binary op) [x.transpose, y.transpose]) := by
  have hform : op ≠ .quadForm := by rcases hop with rfl | rfl <;> exact (nomatch ·)
  refine matched_transposed x y (fun r => ?_) ?_
  · rw [Binary.shape?_entrywise_iff hop, Binary.shape?_entrywise_iff hop, shape_transpose,
      shape_transpose, Shape.broadcast?_transpose, Shape.map_transpose_eq_some_iff]
  · rw [attributes_transpose, attributes_transpose]
    exact Binary.attributes_of_ne_quadForm hform _ _ _ _

end Binary

section Stack

variable (xs : List Expr)

theorem shapes_transposed : (xs.map transpose).map shape = (xs.map shape).map Shape.transpose := by
  simp [shape_transpose, Function.comp_def]

theorem signs_transposed : (xs.map transpose).map sign = xs.map sign := by
  simp [sign, attributes_transpose, Function.comp_def]

theorem curvatures_transposed : (xs.map transpose).map curvature = xs.map curvature := by
  simp [curvature, attributes_transpose, Function.comp_def]

theorem matched_transposed_stack : Matched (fun e e' => e.transpose.Agrees e') (hstack xs)
    (vstack (xs.map transpose)) := by
  refine ⟨?_, fun e e' he he' => ?_⟩
  · rw [hstack, vstack, apply_variadic_succeeds_iff, apply_variadic_succeeds_iff,
      shapes_transposed, Ne, Ne, List.map_eq_nil_iff]
    refine and_congr_right fun _ => ⟨fun ⟨r, hr⟩ => ?_, fun ⟨r, hr⟩ => ?_⟩
    · exact ⟨r.transpose, Variadic.accepts_transpose.2 hr⟩
    · exact ⟨r.transpose, Variadic.accepts_transpose.1 hr⟩
  · have haccepts := accepts_shape_of_apply he'
    rw [shapes_transposed] at haccepts
    have hshape : e.shape = e'.shape.transpose :=
      shape_eq_of_accepts he (Variadic.accepts_transpose.1 haccepts)
    refine ⟨?_, ?_, ?_⟩
    · rw [shape_transpose, hshape, Shape.transpose_transpose]
    · rw [sign, attributes_transpose, ← sign, sign_of_apply he, sign_of_apply he',
        signs_transposed]
      rfl
    · rw [curvature, attributes_transpose, ← curvature, curvature_eq_joined he,
        curvature_eq_joined he', curvatures_transposed]
      rfl

end Stack

/-- The transpose of a row of parts is the column of their transposes, the transpose of a matrix
product is the product of the transposes the other way round, and the transpose of a sum or a
product entry by entry is that of the transposes: each construction succeeds exactly when the other
does, and then the results have the same shape, sign and curvature. -/
theorem transposes_agree :
    (∀ xs : List Expr, Matched (fun e e' => e.transpose.Agrees e')
      (hstack xs) (vstack (xs.map transpose))) ∧
    ∀ x y : Expr,
      Matched (fun e e' => e.transpose.Agrees e')
        (x.matmul y) (y.transpose.matmul x.transpose) ∧
      Matched (fun e e' => e.transpose.Agrees e')
        (x.add y) (x.transpose.add y.transpose) ∧
      Matched (fun e e' => e.transpose.Agrees e')
        (x.mul y) (x.transpose.mul y.transpose) :=
  ⟨matched_transposed_stack, fun x y => ⟨matched_transposed_matmul x y,
    matched_transposed_entrywise x y (.inl rfl), matched_transposed_entrywise x y (.inr rfl)⟩⟩

end Expr

end DisciplinedConvex
