import DisciplinedConvex.Proofs.Arguments.Transpose

/-! # Products of columns

`Expr.dot` multiplies a transposed column by a column.

* `Shape.matmul?_columns_eq_some_iff` is what the check of a matrix product says of a row and a
  column. A scalar is taken for a factor before the lengths are compared, so that it goes with a
  column of any length, and does not make a scalar of it.
* `Expr.dot_columns`: when the product of two columns succeeds and with which shape, and that the
  product the other way round is inferred like its transpose.
* `Expr.dot_scalar_column` is a scalar with a column of three, where neither product is a scalar.
-/

namespace DisciplinedConvex
set_option autoImplicit false

namespace Shape

variable {m n : UInt64}

theorem isScalar_vector : (vector n).isScalar = true ↔ n = 1 := by
  simp [isScalar, vector]

theorem vector_eq_scalar_iff : vector n = scalar ↔ n = 1 := by
  rw [← isScalar_iff, isScalar_vector]

theorem transpose_vector_eq_scalar_iff : (vector n).transpose = scalar ↔ n = 1 := by
  rw [← isScalar_iff, isScalar_transpose, isScalar_vector]

/-- A row times a column. -/
theorem matmul?_columns_eq_some_iff {r : Shape} :
    (vector m).transpose.matmul? (vector n) = some r ↔ (m = n ∨ m = 1 ∨ n = 1) ∧
      r = if m = n then scalar else if m = 1 then vector n else (vector m).transpose := by
  rw [matmul?_eq_some_iff]
  simp only [isScalar_transpose, isScalar_vector]
  by_cases hm : m = 1
  · by_cases hmn : m = n
    · simp [← hmn, hm, vector, scalar, eq_comm]
    · simp [hm, hm ▸ hmn, eq_comm]
  by_cases hn : n = 1
  · simp [hm, hn, eq_comm]
  · -- neither is a scalar, and the lengths decide
    have hinner : (vector m).transpose.cols = (vector n).rows ↔ m = n := Iff.rfl
    have houter : (⟨(vector m).transpose.rows, (vector n).cols⟩ : Shape) = scalar := rfl
    rw [if_neg hm, if_neg hn, hinner, houter]
    simp only [hm, hn, or_false]
    refine and_congr_right fun hmn => ?_
    rw [if_pos hmn, eq_comm]

end Shape

namespace Expr

theorem error_of_matmul {x y : Expr} {fault : Error} (h : x.matmul y = .error fault) :
    fault = .shape (.incompatible (.binary .matmul) x.shape y.shape) := by
  simp only [matmul, apply, validate, List.map_cons, List.map_nil, Atom.validate,
    Binary.shape?] at h
  cases hs : x.shape.matmul? y.shape with
  | some r =>
    rw [hs] at h
    cases h
  | none =>
    rw [hs] at h
    cases h
    rfl

variable {x y e : Expr} {m n : UInt64}

theorem dot_eq_ok_iff (hx : x.shape = .vector m) (hy : y.shape = .vector n) :
    x.dot y = .ok e ↔ (m = n ∨ m = 1 ∨ n = 1) ∧ e = binary none .matmul x.transpose y := by
  rw [dot, matmul, apply_binary_eq_ok_iff]
  simp only [Binary.shape?_matmul_iff, shape_transpose, hx, hy, Shape.matmul?_columns_eq_some_iff,
    exists_and_left, exists_eq, and_true]

theorem shape_dot (hx : x.shape = .vector m) (hy : y.shape = .vector n) (h : x.dot y = .ok e) :
    e.shape =
      if m = n then .scalar else if m = 1 then .vector n else (Shape.vector m).transpose := by
  obtain ⟨⟨r, hr⟩, rfl⟩ := apply_binary_eq_ok_iff.1 h
  rw [shape, Binary.shape_eq hr]
  rw [Binary.shape?_matmul_iff, shape_transpose, hx, hy, Shape.matmul?_columns_eq_some_iff] at hr
  exact hr.2

theorem shape_dot_eq_scalar_iff (hx : x.shape = .vector m) (hy : y.shape = .vector n)
    (h : x.dot y = .ok e) : e.shape = .scalar ↔ m = n := by
  rw [shape_dot hx hy h]
  by_cases hmn : m = n
  · simp [hmn]
  rw [if_neg hmn]
  refine iff_of_false ?_ hmn
  split
  case isTrue hm => exact fun hscalar => hmn (hm.trans (Shape.vector_eq_scalar_iff.1 hscalar).symm)
  case isFalse hm => exact fun hscalar => hm (Shape.transpose_vector_eq_scalar_iff.1 hscalar)

/-- The transpose is taken of the other factor, which comes first now. -/
theorem matched_dot (x y : Expr) :
    Matched (fun e f => e.transpose.Agrees f) (x.dot y) (y.dot x) :=
  matched_swapped_matmul x.transpose y rfl y.shape_transpose x.attributes_transpose.symm
    y.attributes_transpose

/-- The product of two columns succeeds if they have one length, and then it is a scalar, or if one
of them is a scalar, which then scales the other one. A second factor is scaled as it is, but a
first one as a row. All else is an error in the shapes. With the factors the other way round the
shape is transposed, and sign and curvature are the same. -/
theorem dot_columns (hx : x.shape = .vector m) (hy : y.shape = .vector n) :
    ((∃ e, x.dot y = .ok e) ↔ m = n ∨ m = 1 ∨ n = 1) ∧
    (∀ e, x.dot y = .ok e → (e.shape = .scalar ↔ m = n) ∧
      e.shape =
        if m = n then .scalar else if m = 1 then .vector n else (Shape.vector m).transpose) ∧
    (∀ fault, x.dot y = .error fault →
      fault = .shape (.incompatible (.binary .matmul) (Shape.vector m).transpose (.vector n))) ∧
    ((∃ e, x.dot y = .ok e) ↔ ∃ f, y.dot x = .ok f) ∧
    ∀ e f, x.dot y = .ok e → y.dot x = .ok f →
      f.shape = e.shape.transpose ∧ f.sign = e.sign ∧ f.curvature = e.curvature := by
  have hmatched := matched_dot x y
  refine ⟨?_, fun e he => ⟨shape_dot_eq_scalar_iff hx hy he, shape_dot hx hy he⟩, ?_,
    hmatched.succeeds_iff, fun e f he hf => ?_⟩
  · simp only [dot_eq_ok_iff hx hy, exists_and_left, exists_eq, and_true]
  · intro fault h
    rw [error_of_matmul h, shape_transpose, hx, hy]
  · have hagrees := hmatched.related e f he hf
    exact ⟨hagrees.shape.symm,
      hagrees.sign.symm.trans (congrArg Attributes.sign e.attributes_transpose),
      hagrees.curvature.symm.trans (congrArg Attributes.curvature e.attributes_transpose)⟩

/-! ### A scalar with a column of three -/

def scalarFactor : Expr := var ⟨0, { shape := .scalar }⟩

def threeRows : Expr := var ⟨1, { shape := .vector 3 }⟩

theorem dot_columns_three :
    (∃ e, threeRows.dot threeRows = .ok e ∧ e.shape = .scalar) ∧
    ∃ e f, scalarFactor.dot threeRows = .ok e ∧ threeRows.dot scalarFactor = .ok f ∧
      f.shape = e.shape.transpose := by
  obtain ⟨hsucceeds, hshape, -⟩ := dot_columns (x := threeRows) (y := threeRows) rfl rfl
  obtain ⟨hsucceeds', -, -, hother, hboth⟩ :=
    dot_columns (x := scalarFactor) (y := threeRows) (m := 1) rfl rfl
  refine ⟨?_, ?_⟩
  · obtain ⟨e, he⟩ := hsucceeds.2 (.inl rfl)
    exact ⟨e, he, (hshape e he).1.2 rfl⟩
  · obtain ⟨e, he⟩ := hsucceeds'.2 (.inr (.inl rfl))
    obtain ⟨f, hf⟩ := hother.1 ⟨e, he⟩
    exact ⟨e, f, he, hf, (hboth e f he hf).1⟩

/-- The lengths differ, the products are made, neither is a scalar, and the two differ. -/
theorem dot_scalar_column :
    scalarFactor.shape = .vector 1 ∧ threeRows.shape = .vector 3 ∧
    ∃ e f, scalarFactor.dot threeRows = .ok e ∧ threeRows.dot scalarFactor = .ok f ∧
      e.shape = ⟨3, 1⟩ ∧ f.shape = ⟨1, 3⟩ :=
  ⟨rfl, rfl, binary none .matmul scalarFactor.transpose threeRows,
    binary none .matmul threeRows.transpose scalarFactor, rfl, rfl, by decide, by decide⟩

end Expr

end DisciplinedConvex
