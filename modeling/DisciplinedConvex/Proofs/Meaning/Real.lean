import Mathlib.Analysis.Convex.SpecificFunctions.Pow
import Mathlib.Analysis.SpecialFunctions.Log.NegMulLog
import DisciplinedConvex.Proofs.Meaning.Textbook

/-! # The real functions

`RealFunctions.textbook` is the choice of functions over the real numbers: the exponential, the
logarithm, the square root, real powers and the Euclidean norm have the textbook properties.
-/

namespace DisciplinedConvex
set_option autoImplicit false

open Real Set

namespace RealFunctions

/-! ## Powers -/

/-- A real power. On the domain the number is not negative, or the exponent is an even integer. -/
noncomputable def realPower (q : ℚ) (t : ℝ) : ℝ := if q = 1 then t else |t| ^ (q : ℝ)

variable {q : ℚ}

theorem realPower_of_nonneg {t : ℝ} (ht : 0 ≤ t) : realPower q t = t ^ (q : ℝ) := by
  unfold realPower
  by_cases h1 : q = 1
  · rw [if_pos h1, h1, Rat.cast_one, rpow_one]
  · rw [if_neg h1, abs_of_nonneg ht]

theorem realPower_of_isEven (heven : Number.IsEven q) (t : ℝ) :
    realPower q t = |t| ^ (q : ℝ) := by
  refine if_neg ?_
  rintro rfl
  obtain ⟨n, hn⟩ := heven
  have h : (1 : ℤ) = 2 * n := by exact_mod_cast hn
  omega

theorem one_le_of_isEven (hpos : 0 < q) (heven : Number.IsEven q) : (1 : ℝ) ≤ q := by
  obtain ⟨n, rfl⟩ := heven
  have hn : (0 : ℚ) < n := by linarith
  have hone : 1 ≤ n := by exact_mod_cast hn
  have hcast : (1 : ℝ) ≤ n := by exact_mod_cast hone
  push_cast
  linarith

theorem convexOn_realPower_of_isEven (hpos : 0 < q) (heven : Number.IsEven q) :
    ConvexOn ℝ univ (realPower q) := by
  have hq := one_le_of_isEven hpos heven
  have habs : ConvexOn ℝ univ fun t : ℝ => |t| := convexOn_norm convex_univ
  have himage : (fun t : ℝ => |t|) '' univ ⊆ Ici 0 := by
    rintro _ ⟨t, -, rfl⟩
    exact abs_nonneg t
  have hconvex : Convex ℝ ((fun t : ℝ => |t|) '' univ) := by
    have heq : (fun t : ℝ => |t|) '' univ = Ici 0 :=
      himage.antisymm fun t ht => ⟨t, trivial, abs_of_nonneg ht⟩
    rw [heq]
    exact convex_Ici 0
  have hpower := (convexOn_rpow hq).subset himage hconvex
  have hmono : MonotoneOn (fun t : ℝ => t ^ (q : ℝ)) ((fun t : ℝ => |t|) '' univ) :=
    fun s hs t _ hst => rpow_le_rpow (himage hs) hst (by linarith)
  exact (hpower.comp habs hmono).congr fun t _ => (realPower_of_isEven heven t).symm

theorem convexOn_rpow_of_neg (hq : q < 0) : ConvexOn ℝ (Ioi 0) fun t : ℝ => t ^ (q : ℝ) := by
  have hcast : (q : ℝ) < 0 := by exact_mod_cast hq
  have hlog : ConvexOn ℝ (Ioi 0) fun t => log t * q := by
    have hconcave := (strictConcaveOn_log_Ioi.concaveOn.smul (neg_nonneg.2 hcast.le)).neg
    refine hconcave.congr fun t _ => ?_
    simp only [Pi.neg_apply, smul_eq_mul]
    ring
  have himage : Convex ℝ ((fun t => log t * q) '' Ioi 0) := by
    have heq : (fun t => log t * q) '' Ioi 0 = univ := by
      refine eq_univ_of_forall fun y => ⟨exp (y / q), exp_pos _, ?_⟩
      dsimp only
      rw [log_exp, div_mul_cancel₀ y hcast.ne]
    rw [heq]
    exact convex_univ
  have hexp := convexOn_exp.subset (subset_univ _) himage
  refine (hexp.comp hlog (exp_monotone.monotoneOn _)).congr fun t ht => ?_
  exact (rpow_def_of_pos ht _).symm

/-! ## The Euclidean norm -/

noncomputable def euclidean (s : Finset (ℕ × ℕ)) (x : ℕ × ℕ → ℝ) : ℝ := √(∑ p ∈ s, x p ^ 2)

theorem euclidean_gauge (s : Finset (ℕ × ℕ)) : IsGauge s (euclidean s) where
  zero x hx := by
    unfold euclidean
    rw [Finset.sum_eq_zero fun p hp => by rw [hx p hp, zero_pow two_ne_zero], sqrt_zero]
  mono x y hxy := sqrt_le_sqrt (Finset.sum_le_sum fun p hp => sq_le_sq.2 (hxy p hp))
  convex := by
    refine ⟨convex_univ, fun x _ y _ a b ha hb _ => ?_⟩
    have hsq : ∀ z : ℕ × ℕ → ℝ, euclidean s z ^ 2 = ∑ p ∈ s, z p ^ 2 :=
      fun z => sq_sqrt (Finset.sum_nonneg fun p _ => sq_nonneg _)
    have hnonneg : 0 ≤ a • euclidean s x + b • euclidean s y :=
      add_nonneg (mul_nonneg ha (sqrt_nonneg _)) (mul_nonneg hb (sqrt_nonneg _))
    have hcross : ∑ p ∈ s, x p * y p ≤ euclidean s x * euclidean s y :=
      sum_mul_le_sqrt_mul_sqrt s x y
    refine sqrt_le_iff.2 ⟨hnonneg, ?_⟩
    calc ∑ p ∈ s, (a * x p + b * y p) ^ 2
        = a ^ 2 * ∑ p ∈ s, x p ^ 2 + 2 * a * b * ∑ p ∈ s, x p * y p +
            b ^ 2 * ∑ p ∈ s, y p ^ 2 := by
          simp only [Finset.mul_sum, ← Finset.sum_add_distrib]
          exact Finset.sum_congr rfl fun p _ => by ring
      _ ≤ a ^ 2 * euclidean s x ^ 2 + 2 * a * b * (euclidean s x * euclidean s y) +
            b ^ 2 * euclidean s y ^ 2 := by
          rw [hsq, hsq]
          have hab : 0 ≤ 2 * a * b := by positivity
          linarith [mul_le_mul_of_nonneg_left hcross hab]
      _ = (a • euclidean s x + b • euclidean s y) ^ 2 := by
          simp only [smul_eq_mul]
          ring

/-! ## All of them -/

noncomputable def textbook : Textbook ℝ where
  exp := Real.exp
  log := Real.log
  sqrt := Real.sqrt
  entropy := negMulLog
  power := realPower
  norm2 := euclidean
  normFro := euclidean
  exp_pos := Real.exp_pos
  exp_mono := exp_monotone
  exp_convex := convexOn_exp
  log_mono := fun _ hs _ _ hst => log_le_log hs hst
  log_concave := strictConcaveOn_log_Ioi.concaveOn
  sqrt_zero := Real.sqrt_zero
  sqrt_mono := fun _ _ _ _ hst => sqrt_le_sqrt hst
  sqrt_concave := strictConcaveOn_sqrt.concaveOn
  entropy_concave := concaveOn_negMulLog
  power_one := fun t => if_pos rfl
  power_zero := fun q hq => by
    have hcast : (q : ℝ) ≠ 0 := by exact_mod_cast hq.ne'
    rw [realPower_of_nonneg le_rfl, zero_rpow hcast]
  power_even_mono := fun q hq heven s t hst => by
    have hcast : (0 : ℝ) ≤ q := by exact_mod_cast hq.le
    rw [realPower_of_isEven heven, realPower_of_isEven heven]
    exact rpow_le_rpow (abs_nonneg s) hst hcast
  power_even_convex := fun q hq heven => convexOn_realPower_of_isEven hq heven
  power_mono := fun q hq s hs t ht hst => by
    have hcast : (0 : ℝ) ≤ q := by exact_mod_cast hq.le
    rw [realPower_of_nonneg hs, realPower_of_nonneg ht]
    exact rpow_le_rpow hs hst hcast
  power_concave := fun q hpos hlt => by
    have hcast : (0 : ℝ) ≤ q := by exact_mod_cast hpos.le
    have hle : (q : ℝ) ≤ 1 := by exact_mod_cast hlt.le
    exact (concaveOn_rpow hcast hle).congr fun t ht => (realPower_of_nonneg ht).symm
  power_convex := fun q hlt => by
    have hle : (1 : ℝ) ≤ q := by exact_mod_cast hlt.le
    exact (convexOn_rpow hle).congr fun t ht => (realPower_of_nonneg ht).symm
  power_neg_pos := fun q _ t ht => by
    rw [realPower_of_nonneg ht.le]
    exact rpow_pos_of_pos ht _
  power_neg_anti := fun q hq s hs t ht hst => by
    have hcast : (q : ℝ) ≤ 0 := by exact_mod_cast hq.le
    rw [realPower_of_nonneg (mem_Ioi.1 hs).le, realPower_of_nonneg (mem_Ioi.1 ht).le]
    exact rpow_le_rpow_of_nonpos hs hst hcast
  power_neg_convex := fun q hq =>
    (convexOn_rpow_of_neg hq).congr fun t ht => (realPower_of_nonneg (mem_Ioi.1 ht).le).symm
  norm2_gauge := euclidean_gauge
  normFro_gauge := euclidean_gauge

end RealFunctions

end DisciplinedConvex
