import Mathlib.Tactic.IntervalCases
import DisciplinedConvex.Proofs.Definiteness.Form
import DisciplinedConvex.Proofs.Meaning.Expr
import DisciplinedConvex.Proofs.Storage.Boxed
import DisciplinedConvex.Proofs.Storage.Difference
import DisciplinedConvex.Proofs.Storage.Positions

/-! # What a verdict on a matrix says of its quadratic form

* `DenseMatrix.HasExactFactor` is when a factorisation without rounding succeeds: it reads the lower
  triangle, whose mirror image has to be positive definite.
* `Value.IsNearlySymmetric` is what the comparison across the diagonal leaves of symmetry. Up to
  that, `Value.IsPositive` and `Value.IsNegative` say that a quadratic form has a sign and bends one
  way.
* `DenseMatrix.isPositive_of_factor` and `DenseMatrix.isNegative_of_factor` are the two cases of a
  dense matrix, and `Value.definitenessBy_sound` is the statement for all values and for the
  quadratic forms of expressions.
* `Expr.isClassified_of_isSymmetric` says that nothing is left to add for a symmetric matrix. For
  one that is only nearly symmetric something can be (`Value.tilted_indefinite`).
-/

namespace DisciplinedConvex
set_option autoImplicit false

open Number (extended exact)

/-! ## What a factorisation reads -/

namespace DenseMatrix

structure HasExactFactor (m : DenseMatrix) : Prop where
  number : ∀ i < m.rows.toNat, ∀ j ≤ i, (m.entry i j).isNaN = false
  positive : ∀ z : ℕ → ℝ, (∃ i < m.rows.toNat, z i ≠ 0) →
    0 < quadratic m.rows.toNat (fun i j => extended (m.entry (max i j) (min i j))) z

variable {m : DenseMatrix}

theorem HasExactFactor.nonneg (h : m.HasExactFactor) (z : ℕ → ℝ) :
    0 ≤ quadratic m.rows.toNat (fun i j => extended (m.entry (max i j) (min i j))) z := by
  by_cases hz : ∃ i < m.rows.toNat, z i ≠ 0
  · exact (h.positive z hz).le
  · push Not at hz
    exact (quadratic_eq_zero hz).ge

/-- An infinite entry below the diagonal is in the way of a factorisation. -/
theorem HasExactFactor.isFinite (h : m.HasExactFactor) {i j : ℕ} (hi : i < m.rows.toNat)
    (hj : j < i) : (m.entry i j).isFinite = true := by
  obtain ⟨hbot, htop⟩ := finite_of_nonneg h.nonneg hi (hj.trans hi)
  rw [max_eq_left hj.le, min_eq_right hj.le] at hbot htop
  exact Number.isFinite_of_extended (h.number i hi j hj.le) hbot (htop hj.ne')

theorem HasExactFactor.diagonal_pos (h : m.HasExactFactor) {i : ℕ} (hi : i < m.rows.toNat) :
    0 < extended (m.entry i i) := by
  have hpositive := h.positive (Pi.single i 1) ⟨i, hi, by simp⟩
  rwa [quadratic_single hi, max_self, min_self] at hpositive

theorem entry_negate {i j : ℕ} (hi : i < m.rows.toNat) (hj : j < m.cols.toNat) :
    m.negate.entry i j = -m.entry i j := by
  have hindex := index_lt hi hj
  simp [entry, negate, Array.getD_eq_getD_getElem?, hindex]

/-- A matrix with entries and its negation do not both have a factorisation. -/
theorem HasExactFactor.not_negate (h : m.HasExactFactor) (hrows : 0 < m.rows.toNat)
    (hcols : 0 < m.cols.toNat) : ¬ m.negate.HasExactFactor := by
  intro hneg
  have hpositive := hneg.diagonal_pos hrows
  rw [entry_negate hrows hcols, Number.extended_neg, EReal.neg_pos] at hpositive
  exact hpositive.not_gt (h.diagonal_pos hrows)

theorem of_isSymmetric (h : m.isSymmetric = true) {i j : ℕ} (hi : i < m.rows.toNat) (hj : j < i) :
    ¬ (m.entry j i - m.entry i j).abs > 1e-10 := by
  simp only [isSymmetric, List.all_eq_true, List.mem_range, Bool.not_eq_true',
    decide_eq_false_iff_not] at h
  exact h i hi j hj

end DenseMatrix

/-! ## What is said of a value -/

namespace Value

/-- The quadratic form of a square matrix. -/
noncomputable def quadratic (v : Value) (z : ℕ → ℝ) : EReal :=
  DisciplinedConvex.quadratic v.shape.rows.toNat (fun i j => extended (v.entry i j)) z

/-- What the entries across the diagonal can add to the quadratic form. -/
noncomputable def skew (v : Value) (z : ℕ → ℝ) : ℝ :=
  DisciplinedConvex.skew v.shape.rows.toNat (fun i j => (exact (v.entry i j) : ℝ)) z

/-- A square matrix of numbers in which no two entries across the diagonal are further apart than
the tolerance. -/
structure IsNearlySymmetric (v : Value) : Prop where
  square : v.shape.isSquare = true
  number : ∀ i < v.shape.rows.toNat, ∀ j < v.shape.rows.toNat, (v.entry i j).isNaN = false
  finite : ∀ i < v.shape.rows.toNat, ∀ j < v.shape.rows.toNat, i ≠ j →
    (v.entry i j).isFinite = true
  close : ∀ i < v.shape.rows.toNat, ∀ j < i,
    |exact (v.entry i j) - exact (v.entry j i)| ≤ Number.tolerance

/-- The quadratic form is nonnegative and convex, but for what the entries across the diagonal
add. -/
structure IsPositive (v : Value) : Prop extends v.IsNearlySymmetric where
  nonneg : ∀ z, 0 ≤ v.quadratic z + v.skew z
  convex : ∀ a b : ℝ, 0 ≤ a → 0 ≤ b → a + b = 1 → ∀ z w : ℕ → ℝ,
    v.quadratic (a • z + b • w) ≤
      a * v.quadratic z + b * v.quadratic w + (a * b * v.skew (z - w) : ℝ)

/-- The quadratic form is nonpositive and concave, but for what the entries across the diagonal
add. -/
structure IsNegative (v : Value) : Prop extends v.IsNearlySymmetric where
  nonpos : ∀ z, v.quadratic z ≤ v.skew z
  concave : ∀ a b : ℝ, 0 ≤ a → 0 ≤ b → a + b = 1 → ∀ z w : ℕ → ℝ,
    a * v.quadratic z + b * v.quadratic w ≤
      v.quadratic (a • z + b • w) + (a * b * v.skew (z - w) : ℝ)

/-- On this matrix, if it is square, and on its negation the test finds what a factorisation without
rounding finds. -/
def IsTestedExactly (test : DenseMatrix → Bool) : Value → Prop
  | dense m => m.shape.isSquare = true → (test m = true ↔ m.HasExactFactor) ∧
      (test m.negate = true ↔ m.negate.HasExactFactor)
  | _ => True

def HasNumbersAbove : Value → Prop
  | dense m => ∀ i < m.rows.toNat, ∀ j < m.cols.toNat, i < j → (m.entry i j).isNaN = false
  | _ => True

/-! ### From the lower triangle to the whole matrix -/

variable {v : Value}

theorem IsNearlySymmetric.extended_eq (hnear : v.IsNearlySymmetric) :
    ∀ i < v.shape.rows.toNat, ∀ j < v.shape.rows.toNat, i ≠ j →
      extended (v.entry i j) = ((exact (v.entry i j) : ℝ) : EReal) := fun i hi j hj hij =>
  Number.extended_of_isFinite (hnear.finite i hi j hj hij)

theorem IsNearlySymmetric.isPositive (hnear : v.IsNearlySymmetric)
    (h : ∀ z, 0 ≤ DisciplinedConvex.quadratic v.shape.rows.toNat
      (fun i j => extended (v.entry (max i j) (min i j))) z) : v.IsPositive := by
  have hnonneg : ∀ z, 0 ≤ v.quadratic z + v.skew z := fun z =>
    (h z).trans (quadratic_le_add_skew hnear.extended_eq z)
  exact ⟨hnear, hnonneg, fun a b ha hb hab => quadratic_mix_le hnear.extended_eq hnonneg ha hb hab⟩

theorem IsNearlySymmetric.isNegative (hnear : v.IsNearlySymmetric)
    (h : ∀ z, 0 ≤ DisciplinedConvex.quadratic v.shape.rows.toNat
      (fun i j => -extended (v.entry (max i j) (min i j))) z) : v.IsNegative := by
  have hnonpos : ∀ z, v.quadratic z ≤ v.skew z := quadratic_le_skew hnear.extended_eq h
  exact ⟨hnear, hnonpos, fun a b ha hb hab => le_quadratic_mix hnear.extended_eq hnonpos ha hb hab⟩

end Value

/-! ## Dense matrices -/

namespace DenseMatrix

variable {m : DenseMatrix}

/-- What is known of the lower triangle reaches over the diagonal. -/
theorem isNearlySymmetric (hsquare : m.shape.isSquare = true) (hsymmetric : m.isSymmetric = true)
    (habove : (Value.dense m).HasNumbersAbove)
    (hdiagonal : ∀ i < m.rows.toNat, (m.entry i i).isNaN = false)
    (hbelow : ∀ i < m.rows.toNat, ∀ j < i, (m.entry i j).isFinite = true) :
    (Value.dense m).IsNearlySymmetric := by
  have hcols : m.rows.toNat = m.cols.toNat := congrArg UInt64.toNat (beq_iff_eq.1 hsquare)
  have hclose : ∀ i < m.rows.toNat, ∀ j < i, (m.entry j i).isFinite = true ∧
      |exact (m.entry j i) - exact (m.entry i j)| ≤ Number.tolerance := by
    intro i hi j hj
    exact Number.close_of_not_far (habove j (hj.trans hi) i (hcols ▸ hi) hj) (hbelow i hi j hj)
      (of_isSymmetric hsymmetric hi hj)
  have hfinite : ∀ i < m.rows.toNat, ∀ j < m.rows.toNat, i ≠ j →
      (m.entry i j).isFinite = true := by
    intro i hi j hj hij
    rcases Nat.lt_or_gt_of_ne hij with hlt | hgt
    · exact (hclose j hj i hlt).1
    · exact hbelow i hi j hgt
  refine ⟨hsquare, fun i hi j hj => ?_, hfinite, fun i hi j hj => ?_⟩
  · by_cases hij : i = j
    · exact hij ▸ hdiagonal i hi
    · exact Number.isNaN_of_isFinite (hfinite i hi j hj hij)
  · rw [abs_sub_comm]
    exact (hclose i hi j hj).2

theorem isPositive_of_factor (hsquare : m.shape.isSquare = true)
    (hsymmetric : m.isSymmetric = true) (habove : (Value.dense m).HasNumbersAbove)
    (h : m.HasExactFactor) : (Value.dense m).IsPositive := by
  have hnear : (Value.dense m).IsNearlySymmetric :=
    isNearlySymmetric hsquare hsymmetric habove (fun i hi => h.number i hi i le_rfl)
      fun i hi j hj => h.isFinite hi hj
  exact hnear.isPositive h.nonneg

theorem isNegative_of_factor (hsquare : m.shape.isSquare = true)
    (hsymmetric : m.isSymmetric = true) (habove : (Value.dense m).HasNumbersAbove)
    (h : m.negate.HasExactFactor) : (Value.dense m).IsNegative := by
  have hcols : m.rows.toNat = m.cols.toNat := congrArg UInt64.toNat (beq_iff_eq.1 hsquare)
  have hentry : ∀ i < m.rows.toNat, ∀ j < m.rows.toNat, m.negate.entry i j = -m.entry i j :=
    fun i hi j hj => entry_negate hi (hcols ▸ hj)
  have hnear : (Value.dense m).IsNearlySymmetric := by
    refine isNearlySymmetric hsquare hsymmetric habove (fun i hi => ?_) fun i hi j hj => ?_
    · rw [← Number.isNaN_neg, ← hentry i hi i hi]
      exact h.number i hi i le_rfl
    · rw [← Number.isFinite_neg, ← hentry i hi j (hj.trans hi)]
      exact h.isFinite hi hj
  refine hnear.isNegative fun z => ?_
  change 0 ≤ DisciplinedConvex.quadratic m.rows.toNat
    (fun i j => -extended (m.entry (max i j) (min i j))) z
  rw [← quadratic_congr fun i hi j hj => ?_]
  · exact h.nonneg z
  · rw [hentry _ (max_lt hi hj) _ ((min_le_left i j).trans_lt hi), Number.extended_neg]

/-- The form of two rows, in the numbers that a factorisation reads. -/
theorem hasExactFactor_two {m : DenseMatrix} (hrows : m.rows.toNat = 2)
    (h₀ : (m.entry 0 0).isFinite = true) (h₁ : (m.entry 1 0).isFinite = true)
    (h₂ : (m.entry 1 1).isFinite = true) : m.HasExactFactor ↔
      ∀ x y : ℝ, x ≠ 0 ∨ y ≠ 0 → 0 < exact (m.entry 0 0) * x ^ 2 +
        2 * exact (m.entry 1 0) * (x * y) + exact (m.entry 1 1) * y ^ 2 := by
  have hentry : ∀ i < 2, ∀ j < 2, extended (m.entry (max i j) (min i j)) =
      ((exact (m.entry (max i j) (min i j)) : ℝ) : EReal) := by
    intro i hi j hj
    refine Number.extended_of_isFinite ?_
    interval_cases i <;> interval_cases j <;> assumption
  have hform : ∀ z : ℕ → ℝ,
      quadratic 2 (fun i j => extended (m.entry (max i j) (min i j))) z =
        ((exact (m.entry 0 0) * z 0 ^ 2 + 2 * exact (m.entry 1 0) * (z 0 * z 1) +
          exact (m.entry 1 1) * z 1 ^ 2 : ℝ) : EReal) := by
    intro z
    rw [quadratic_coe hentry]
    simp only [Finset.sum_range_succ, Finset.sum_range_zero, zero_add, max_self, min_self,
      max_eq_right zero_le_one, min_eq_left zero_le_one, max_eq_left zero_le_one,
      min_eq_right zero_le_one]
    congr 1
    ring
  constructor
  · intro h x y hxy
    have hpositive := h.positive (fun i => if i = 0 then x else y)
    rw [hrows, hform] at hpositive
    refine EReal.coe_pos.1 (hpositive ?_)
    rcases hxy with hx | hy
    · exact ⟨0, by decide, hx⟩
    · exact ⟨1, by decide, hy⟩
  · intro h
    refine ⟨?_, ?_⟩
    · rw [hrows]
      intro i hi j hj
      interval_cases i <;> interval_cases j <;>
        exact Number.isNaN_of_isFinite (by assumption)
    · rw [hrows]
      rintro z ⟨i, hi, hz⟩
      rw [hform]
      refine EReal.coe_pos.2 (h _ _ ?_)
      interval_cases i
      · exact .inl hz
      · exact .inr hz

end DenseMatrix

/-! ## All values -/

namespace Value

variable {test : DenseMatrix → Bool} {v : Value}

theorem definitenessBy_scalar (t : Float) : (scalar t).definitenessBy test =
    if t ≥ 0 then .positive else if t ≤ 0 then .negative else .neither := by
  by_cases ht : t ≥ 0 <;> simp [definitenessBy, isPositiveBy?, ht]

theorem definitenessBy_dense (m : DenseMatrix) : (dense m).definitenessBy test =
    if m.shape.isSquare = true ∧ m.isSymmetric = true then
      if test m = true then .positive else if test m.negate = true then .negative else .neither
    else .neither := by
  unfold definitenessBy isPositiveBy?
  by_cases hsymmetric : m.shape.isSquare = true ∧ m.isSymmetric = true
  · cases htest : test m <;> simp [hsymmetric, htest]
  · simp [hsymmetric]

theorem isNearlySymmetric_scalar {t : Float} (h : t.isNaN = false) :
    (scalar t).IsNearlySymmetric := by
  have hrows : (scalar t).shape.rows.toNat = 1 := rfl
  refine ⟨rfl, fun _ _ _ _ => h, ?_, ?_⟩
  · rw [hrows]
    exact fun i hi j hj hij => absurd ((Nat.lt_one_iff.1 hi).trans (Nat.lt_one_iff.1 hj).symm) hij
  · rw [hrows]
    exact fun i hi j hj => absurd (Nat.lt_one_iff.1 hi ▸ hj) (Nat.not_lt_zero j)

theorem isPositive_scalar {t : Float} (h : 0 ≤ t) : (scalar t).IsPositive := by
  obtain ⟨hnumber, hnonneg⟩ := Number.zero_le_extended h
  exact (isNearlySymmetric_scalar hnumber).isPositive (quadratic_one_nonneg hnonneg)

theorem isNegative_scalar {t : Float} (h : t ≤ 0) : (scalar t).IsNegative := by
  obtain ⟨hnumber, hnonneg⟩ := Number.zero_le_extended ((Number.zero_le_neg_iff t).2 h)
  rw [Number.isNaN_neg] at hnumber
  rw [Number.extended_neg] at hnonneg
  exact (isNearlySymmetric_scalar hnumber).isNegative (quadratic_one_nonneg hnonneg)

theorem isPositive_of_definitenessBy (htest : v.IsTestedExactly test) (habove : v.HasNumbersAbove)
    (h : v.definitenessBy test = .positive) : v.IsPositive := by
  cases v with
  | scalar t =>
    rw [definitenessBy_scalar] at h
    split_ifs at h with hnonneg
    exact isPositive_scalar hnonneg
  | dense m =>
    rw [definitenessBy_dense] at h
    split_ifs at h with hsymmetric hfactor
    exact DenseMatrix.isPositive_of_factor hsymmetric.1 hsymmetric.2 habove
      ((htest hsymmetric.1).1.1 hfactor)
  | sparse m => cases h

theorem isNegative_of_definitenessBy (htest : v.IsTestedExactly test) (habove : v.HasNumbersAbove)
    (h : v.definitenessBy test = .negative) : v.IsNegative := by
  cases v with
  | scalar t =>
    rw [definitenessBy_scalar] at h
    split_ifs at h with _ hnonpos
    exact isNegative_scalar hnonpos
  | dense m =>
    rw [definitenessBy_dense] at h
    split_ifs at h with hsymmetric _ hfactor
    exact DenseMatrix.isNegative_of_factor hsymmetric.1 hsymmetric.2 habove
      ((htest hsymmetric.1).2.1 hfactor)
  | sparse m => cases h

/-! ### Symmetric matrices -/

/-- Finite entries that are equal across the diagonal. -/
structure IsSymmetric (v : Value) : Prop where
  finite : ∀ i < v.shape.rows.toNat, ∀ j < v.shape.cols.toNat, (v.entry i j).isFinite = true
  mirror : ∀ i < v.shape.rows.toNat, ∀ j < i, exact (v.entry i j) = exact (v.entry j i)

theorem IsSymmetric.hasNumbersAbove (h : v.IsSymmetric) : v.HasNumbersAbove := by
  cases v with
  | dense m => exact fun i hi j hj _ => Number.isNaN_of_isFinite (h.finite i hi j hj)
  | _ => trivial

theorem IsSymmetric.skew_eq_zero (h : v.IsSymmetric) (z : ℕ → ℝ) : v.skew z = 0 :=
  DisciplinedConvex.skew_eq_zero (fun i hi j hj => congrArg _ (h.mirror i hi j hj)) z

theorem IsSymmetric.quadratic_eq (h : v.IsSymmetric) (hsquare : v.shape.isSquare = true)
    (z : ℕ → ℝ) : v.quadratic z = (v.form ℝ z : ℝ) := by
  have hcols : v.shape.rows.toNat = v.shape.cols.toNat :=
    congrArg UInt64.toNat (beq_iff_eq.1 hsquare)
  rw [quadratic, quadratic_coe fun i hi j hj =>
    Number.extended_of_isFinite (h.finite i hi j (hcols ▸ hj)), form]
  refine congrArg _ (Finset.sum_congr rfl fun i _ => Finset.sum_congr rfl fun j _ => ?_)
  exact mul_right_comm _ _ _

end Value

/-! ## Quadratic forms of expressions -/

/-- A verdict on a symmetric matrix is right about its form, without anything to add. -/
theorem Expr.isClassified_of_isSymmetric {label : Option Nat} {id : Nat} {x : Expr} {v : Value}
    (htest : v.IsTestedExactly DenseMatrix.hasFactor) (h : v.IsSymmetric) :
    (binary label .quadForm x (const id v)).IsClassified ℝ := by
  refine ⟨fun hpositive z => ?_, fun hnegative z => ?_⟩
  · have hv := Value.isPositive_of_definitenessBy htest h.hasNumbersAbove hpositive
    have hform := hv.nonneg z
    rw [h.skew_eq_zero, h.quadratic_eq hv.square, EReal.coe_zero, add_zero] at hform
    exact EReal.coe_nonneg.1 hform
  · have hv := Value.isNegative_of_definitenessBy htest h.hasNumbersAbove hnegative
    have hform := hv.nonpos z
    rw [h.skew_eq_zero, h.quadratic_eq hv.square] at hform
    exact EReal.coe_le_coe_iff.1 hform

/-- Nothing but the definiteness of the matrix gives a quadratic form a curvature or a sign. -/
theorem Expr.definiteness_of_quadForm {label : Option Nat} {id : Nat} {x : Expr} {v : Value} :
    let e := binary label .quadForm x (const id v)
    (e.curvature = .convex ∨ e.sign = .positive → v.definiteness = .positive) ∧
      (e.curvature = .concave ∨ e.sign = .negative → v.definiteness = .negative) := by
  have hattributes : (binary label .quadForm x (const id v)).attributes =
      Binary.quadForm.attributes x.attributes (const id v).attributes (some v) := rfl
  have hconstant : (const id v).attributes.curvature = .constant := rfl
  simp only [curvature, sign, hattributes, attributes_quadForm hconstant]
  cases x.attributes with
  | mk s c => cases s <;> cases c <;> cases v.definiteness <;> decide

theorem Value.definitenessBy_sound {test : DenseMatrix → Bool} {v : Value}
    (htest : v.IsTestedExactly test) (habove : v.HasNumbersAbove) :
    (v.definitenessBy test = .positive → v.IsPositive) ∧
    (v.definitenessBy test = .negative → v.IsNegative) ∧
    (v.definiteness = v.definitenessBy test → ∀ (label : Option Nat) (id : Nat) (x : Expr),
      let e := Expr.binary label .quadForm x (.const id v)
      (e.curvature = .convex ∨ e.sign = .positive → v.IsPositive) ∧
        (e.curvature = .concave ∨ e.sign = .negative → v.IsNegative)) := by
  have hpositive := isPositive_of_definitenessBy htest habove
  have hnegative := isNegative_of_definitenessBy htest habove
  refine ⟨hpositive, hnegative, fun hverdict label id x => ?_⟩
  obtain ⟨hconvex, hconcave⟩ := @Expr.definiteness_of_quadForm label id x v
  rw [hverdict] at hconvex hconcave
  exact ⟨fun h => hpositive (hconvex h), fun h => hnegative (hconcave h)⟩

/-! ### Two rows -/

namespace Value

theorem exact_two : exact 2 = 2 := by
  have h : (2 : Float).toModel.unpack = .finite .positive (2 ^ 52) (-51) (by decide) := by rfl
  rw [Number.exact_of_finite h]
  norm_num [Float.Model.UnpackedFloat.Sign.apply]

def bowl : DenseMatrix := ⟨2, 2, #[2, 1, 1, 2], rfl⟩

theorem hasExactFactor_bowl : bowl.HasExactFactor := by
  rw [DenseMatrix.hasExactFactor_two rfl (by rfl) (by rfl) (by rfl)]
  intro x y hxy
  have h₀ : bowl.entry 0 0 = 2 := rfl
  have h₁ : bowl.entry 1 0 = 1 := rfl
  have h₂ : bowl.entry 1 1 = 2 := rfl
  have hsquares : 0 < x ^ 2 + y ^ 2 := by
    rcases hxy with hx | hy
    · positivity
    · positivity
  rw [h₀, h₁, h₂, exact_two, Number.exact_one]
  push_cast
  nlinarith [sq_nonneg (x + y)]

theorem isTestedExactly_bowl : (dense bowl).IsTestedExactly DenseMatrix.hasFactor := fun _ =>
  ⟨iff_of_true (by decide +kernel) hasExactFactor_bowl,
    iff_of_false (by decide +kernel) (hasExactFactor_bowl.not_negate (by decide) (by decide))⟩

theorem isPositive_bowl : (dense bowl).definiteness = .positive ∧
    (Expr.binary none .quadForm (.var ⟨0, { shape := .vector 2 }⟩)
      (.const 1 (dense bowl))).curvature = .convex ∧ (dense bowl).IsPositive := by
  have habove : (dense bowl).HasNumbersAbove := by
    intro i hi j hj hij
    have hi' : i < 2 := hi
    have hj' : j < 2 := hj
    obtain ⟨rfl, rfl⟩ : i = 0 ∧ j = 1 := by omega
    rfl
  obtain ⟨hpositive, -, hform⟩ := definitenessBy_sound isTestedExactly_bowl habove
  have hverdict : (dense bowl).definiteness = .positive := by decide +kernel
  have hcurvature : (Expr.binary none .quadForm (.var ⟨0, { shape := .vector 2 }⟩)
      (.const 1 (dense bowl))).curvature = .convex := by decide +kernel
  exact ⟨hverdict, hcurvature, (hform rfl none 1 _).1 (.inl hcurvature)⟩

/-- Two entries that are no further apart than the tolerance, beside a small diagonal. -/
def tilted : DenseMatrix := ⟨2, 2, #[1e-11, 1e-10, 0, 1e-11], rfl⟩

theorem exact_tilted : exact (1e-11 : Float) = 6189700196426901 * 2 ^ (-89 : ℤ) ∧
    exact (1e-10 : Float) = 7737125245533627 * 2 ^ (-86 : ℤ) := by
  have h : (1e-11 : Float).toModel.unpack =
      .finite .positive 6189700196426901 (-89) (by decide) := by rfl
  rw [Number.exact_of_finite h, Number.exact_of_finite Number.unpack_tolerance]
  exact ⟨rfl, rfl⟩

theorem hasExactFactor_tilted : tilted.HasExactFactor := by
  rw [DenseMatrix.hasExactFactor_two rfl (by rfl) (by rfl) (by rfl)]
  intro x y hxy
  have h₀ : tilted.entry 0 0 = 1e-11 := rfl
  have h₁ : tilted.entry 1 0 = 0 := rfl
  have h₂ : tilted.entry 1 1 = 1e-11 := rfl
  have hsquares : 0 < x ^ 2 + y ^ 2 := by
    rcases hxy with hx | hy
    · positivity
    · positivity
  rw [h₀, h₁, h₂, exact_tilted.1, Number.exact_zero]
  push_cast
  linarith [mul_pos (by norm_num : (0 : ℝ) < 6189700196426901 * 2 ^ (-89 : ℤ)) hsquares]

/-- The test is right about the lower triangle, and yet the form is negative at a point. -/
theorem tilted_indefinite : (dense tilted).IsTestedExactly DenseMatrix.hasFactor ∧
    (dense tilted).definiteness = .positive ∧
    (dense tilted).quadratic (fun i => if i = 0 then 1 else -1) < 0 := by
  have htested : (dense tilted).IsTestedExactly DenseMatrix.hasFactor := fun _ =>
    ⟨iff_of_true (by decide +kernel) hasExactFactor_tilted, iff_of_false (by decide +kernel)
      (hasExactFactor_tilted.not_negate (by decide) (by decide))⟩
  refine ⟨htested, by decide +kernel, ?_⟩
  have hentry : ∀ i < 2, ∀ j < 2, extended (tilted.entry i j) =
      ((exact (tilted.entry i j) : ℝ) : EReal) := by
    intro i hi j hj
    refine Number.extended_of_isFinite ?_
    interval_cases i <;> interval_cases j <;> rfl
  have h₀ : tilted.entry 0 0 = 1e-11 := rfl
  have h₁ : tilted.entry 0 1 = 1e-10 := rfl
  have h₂ : tilted.entry 1 0 = 0 := rfl
  have h₃ : tilted.entry 1 1 = 1e-11 := rfl
  have hform := quadratic_coe hentry fun i => if i = 0 then 1 else -1
  simp only [Finset.sum_range_succ, Finset.sum_range_zero, zero_add, h₀, h₁, h₂, h₃,
    exact_tilted.1, exact_tilted.2, Number.exact_zero] at hform
  refine hform.trans_lt (EReal.coe_neg'.2 ?_)
  norm_num

end Value

end DisciplinedConvex
