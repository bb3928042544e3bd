import Mathlib.Analysis.Convex.Function
import Mathlib.Data.Finset.Fold
import Mathlib.Tactic.Linarith
import DisciplinedConvex.Proofs.Number

/-! # Functions with textbook properties

An ordered field need not have a logarithm or a square root. What the atoms need of such functions
is their convexity, sign and monotonicity on their domain.

* `IsGauge` is what is asked of a norm: nonnegative, zero at zero, larger for entries that are
  larger in absolute value, and convex.
* `Textbook` is a choice of the functions that arithmetic does not give, with these properties.
* `powerDomain` is where a power with a given exponent is defined.
* `maxAbs` is the largest absolute value, a gauge in every ordered field.
-/

namespace DisciplinedConvex
set_option autoImplicit false

variable {K : Type*} [Field K] [LinearOrder K] [IsStrictOrderedRing K]

/-- A measure of the size of the entries at some positions. -/
structure IsGauge (s : Finset (ℕ × ℕ)) (N : (ℕ × ℕ → K) → K) : Prop where
  zero : ∀ x, (∀ p ∈ s, x p = 0) → N x = 0
  mono : ∀ x y, (∀ p ∈ s, |x p| ≤ |y p|) → N x ≤ N y
  convex : ConvexOn K Set.univ N

variable (K) in
/-- The functions that the field itself does not give. A norm takes the positions of the entries
that it measures. -/
structure Textbook where
  exp : K → K
  log : K → K
  sqrt : K → K
  entropy : K → K
  power : ℚ → K → K
  norm2 : Finset (ℕ × ℕ) → (ℕ × ℕ → K) → K
  normFro : Finset (ℕ × ℕ) → (ℕ × ℕ → K) → K
  exp_pos : ∀ t, 0 < exp t
  exp_mono : Monotone exp
  exp_convex : ConvexOn K Set.univ exp
  log_mono : MonotoneOn log (Set.Ioi 0)
  log_concave : ConcaveOn K (Set.Ioi 0) log
  sqrt_zero : sqrt 0 = 0
  sqrt_mono : MonotoneOn sqrt (Set.Ici 0)
  sqrt_concave : ConcaveOn K (Set.Ici 0) sqrt
  entropy_concave : ConcaveOn K (Set.Ici 0) entropy
  power_one : ∀ t, power 1 t = t
  power_zero : ∀ q, 0 < q → power q 0 = 0
  power_even_mono : ∀ q, 0 < q → Number.IsEven q → ∀ s t, |s| ≤ |t| → power q s ≤ power q t
  power_even_convex : ∀ q, 0 < q → Number.IsEven q → ConvexOn K Set.univ (power q)
  power_mono : ∀ q, 0 < q → MonotoneOn (power q) (Set.Ici 0)
  power_concave : ∀ q, 0 < q → q < 1 → ConcaveOn K (Set.Ici 0) (power q)
  power_convex : ∀ q, 1 < q → ConvexOn K (Set.Ici 0) (power q)
  power_neg_pos : ∀ q, q < 0 → ∀ t, 0 < t → 0 < power q t
  power_neg_anti : ∀ q, q < 0 → AntitoneOn (power q) (Set.Ioi 0)
  power_neg_convex : ∀ q, q < 0 → ConvexOn K (Set.Ioi 0) (power q)
  norm2_gauge : ∀ s, IsGauge s (norm2 s)
  normFro_gauge : ∀ s, IsGauge s (normFro s)

/-- A negative exponent needs a positive number, and a positive one a nonnegative number unless it
is one or an even integer. -/
def powerDomain (q : ℚ) : Set K :=
  {t | (q < 0 → 0 < t) ∧ (0 < q → q ≠ 1 → ¬ Number.IsEven q → 0 ≤ t)}

/-! ## Gauges -/

theorem IsGauge.nonneg {s : Finset (ℕ × ℕ)} {N : (ℕ × ℕ → K) → K} (h : IsGauge s N)
    (x : ℕ × ℕ → K) : 0 ≤ N x := by
  rw [← h.zero (fun _ => 0) fun _ _ => rfl]
  exact h.mono _ _ fun p _ => by simp

omit [IsStrictOrderedRing K] in
theorem IsGauge.congr {s : Finset (ℕ × ℕ)} {N : (ℕ × ℕ → K) → K} (h : IsGauge s N)
    {x y : ℕ × ℕ → K} (hxy : ∀ p ∈ s, x p = y p) : N x = N y :=
  le_antisymm (h.mono _ _ fun p hp => by rw [hxy p hp]) (h.mono _ _ fun p hp => by rw [hxy p hp])

/-- The largest absolute value, zero of nothing. -/
def maxAbs (s : Finset (ℕ × ℕ)) (x : ℕ × ℕ → K) : K := s.fold max 0 fun p => |x p|

omit [IsStrictOrderedRing K] in
theorem maxAbs_le_iff {s : Finset (ℕ × ℕ)} {x : ℕ × ℕ → K} {c : K} :
    maxAbs s x ≤ c ↔ 0 ≤ c ∧ ∀ p ∈ s, |x p| ≤ c :=
  Finset.fold_max_le c

omit [IsStrictOrderedRing K] in
theorem abs_le_maxAbs {s : Finset (ℕ × ℕ)} (x : ℕ × ℕ → K) {p : ℕ × ℕ} (hp : p ∈ s) :
    |x p| ≤ maxAbs s x :=
  (maxAbs_le_iff.1 le_rfl).2 p hp

omit [IsStrictOrderedRing K] in
theorem maxAbs_nonneg (s : Finset (ℕ × ℕ)) (x : ℕ × ℕ → K) : 0 ≤ maxAbs s x :=
  (maxAbs_le_iff.1 le_rfl).1

theorem maxAbs_gauge (s : Finset (ℕ × ℕ)) : IsGauge s (maxAbs (K := K) s) where
  zero x hx := by
    refine le_antisymm (maxAbs_le_iff.2 ⟨le_rfl, fun p hp => ?_⟩) (maxAbs_nonneg s x)
    rw [hx p hp, abs_zero]
  mono x y hxy :=
    maxAbs_le_iff.2 ⟨maxAbs_nonneg s y, fun p hp => (hxy p hp).trans (abs_le_maxAbs y hp)⟩
  convex := by
    refine ⟨convex_univ, fun x _ y _ a b ha hb _ => ?_⟩
    have hx := mul_nonneg ha (maxAbs_nonneg s x)
    have hy := mul_nonneg hb (maxAbs_nonneg s y)
    refine maxAbs_le_iff.2 ⟨add_nonneg hx hy, fun p hp => ?_⟩
    calc |a * x p + b * y p| ≤ |a * x p| + |b * y p| := abs_add_le _ _
      _ = a * |x p| + b * |y p| := by rw [abs_mul, abs_mul, abs_of_nonneg ha, abs_of_nonneg hb]
      _ ≤ a * maxAbs s x + b * maxAbs s y :=
        add_le_add (mul_le_mul_of_nonneg_left (abs_le_maxAbs x hp) ha)
          (mul_le_mul_of_nonneg_left (abs_le_maxAbs y hp) hb)

end DisciplinedConvex
