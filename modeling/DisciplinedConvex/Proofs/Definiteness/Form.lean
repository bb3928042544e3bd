import Mathlib.Data.EReal.Inv
import Mathlib.Tactic.LinearCombination
import DisciplinedConvex.Proofs.Storage.Negation

/-! # Quadratic forms with infinite entries

A matrix of binary64 numbers can have infinite entries, and a factorisation takes them as they come.

* `Number.extended` is the value of a number that is not NaN.
* `quadratic` is the quadratic form of a matrix of such values.
* A form that is never negative has finite entries beside the diagonal (`finite_of_nonneg`), and
  then `quadratic_le_add_skew` says how much the entries above the diagonal matter and
  `quadratic_mix` how the form bends.
-/

namespace DisciplinedConvex
set_option autoImplicit false

open Finset (range)

namespace Number

/-- The value of a number that may be infinite, and zero for NaN. -/
noncomputable def extended (v : Float) : EReal :=
  match v.toModel.unpack with
  | .infinity .positive => ⊤
  | .infinity .negative => ⊥
  | _ => ((exact v : ℝ) : EReal)

theorem extended_of_isFinite {v : Float} (h : v.isFinite = true) :
    extended v = ((exact v : ℝ) : EReal) := by
  change v.toModel.unpack.isFinite = true at h
  unfold extended
  cases hv : v.toModel.unpack with
  | infinity s => rw [hv] at h; cases h
  | _ => rfl

theorem exact_neg (v : Float) : exact (-v) = -exact v := by
  unfold exact
  rw [unpack_neg]
  cases v.toModel.unpack with
  | infinity s => exact neg_zero.symm
  | notANumber => exact neg_zero.symm
  | zero s => exact neg_zero.symm
  | finite s m e h =>
    cases s with
    | positive => rfl
    | negative => exact (neg_neg _).symm

theorem extended_neg (v : Float) : extended (-v) = -extended v := by
  unfold extended
  rw [unpack_neg, exact_neg]
  cases v.toModel.unpack with
  | infinity s => cases s <;> rfl
  | _ => rw [Rat.cast_neg]; rfl

theorem isNaN_neg (v : Float) : (-v).isNaN = v.isNaN := by
  change (-v).toModel.unpack.isNaN = v.toModel.unpack.isNaN
  rw [unpack_neg]
  cases v.toModel.unpack <;> rfl

theorem isFinite_neg (v : Float) : (-v).isFinite = v.isFinite := by
  change (-v).toModel.unpack.isFinite = v.toModel.unpack.isFinite
  rw [unpack_neg]
  cases v.toModel.unpack <;> rfl

theorem isFinite_of_extended {v : Float} (h : v.isNaN = false) (hbot : extended v ≠ ⊥)
    (htop : extended v ≠ ⊤) : v.isFinite = true := by
  change v.toModel.unpack.isNaN = false at h
  change v.toModel.unpack.isFinite = true
  unfold extended at hbot htop
  cases hv : v.toModel.unpack with
  | infinity s =>
    rw [hv] at hbot htop
    cases s with
    | positive => exact absurd rfl htop
    | negative => exact absurd rfl hbot
  | notANumber => rw [hv] at h; cases h
  | zero s => rfl
  | finite s m e hm => rfl

theorem isNaN_of_isFinite {v : Float} (h : v.isFinite = true) : v.isNaN = false := by
  change v.toModel.unpack.isFinite = true at h
  change v.toModel.unpack.isNaN = false
  cases hv : v.toModel.unpack with
  | notANumber => rw [hv] at h; cases h
  | _ => rfl

theorem zero_le_extended {v : Float} (h : 0 ≤ v) : v.isNaN = false ∧ 0 ≤ extended v := by
  by_cases hfinite : v.isFinite = true
  · rw [le_iff isFinite_zero hfinite, exact_zero] at h
    rw [extended_of_isFinite hfinite]
    exact ⟨isNaN_of_isFinite hfinite, EReal.coe_nonneg.2 (Rat.cast_nonneg.2 h)⟩
  · change decide ((0 : Float).toModel.unpack.le v.toModel.unpack = true) = true at h
    change ¬ v.toModel.unpack.isFinite = true at hfinite
    rw [decide_eq_true_eq] at h
    change v.toModel.unpack.isNaN = false ∧ _
    unfold extended
    cases hv : v.toModel.unpack with
    | infinity s =>
      rw [hv] at h
      cases s with
      | positive => exact ⟨rfl, le_top⟩
      | negative => cases h
    | notANumber => rw [hv] at h; cases h
    | zero s => exact absurd (by rw [hv]; rfl) hfinite
    | finite s m e hm => exact absurd (by rw [hv]; rfl) hfinite

end Number

/-! ## Sums -/

section Sums

variable {ι : Type*} {s : Finset ι}

theorem coe_sum (f : ι → ℝ) : ((∑ i ∈ s, f i : ℝ) : EReal) = ∑ i ∈ s, (f i : EReal) :=
  map_sum (⟨⟨Real.toEReal, EReal.coe_zero⟩, EReal.coe_add⟩ : ℝ →+ EReal) f s

theorem coe_mul_sum {c : ℝ} (hc : 0 ≤ c) (f : ι → EReal) :
    (c : EReal) * ∑ i ∈ s, f i = ∑ i ∈ s, (c : EReal) * f i := by
  classical
  induction s using Finset.induction_on with
  | empty => simp
  | insert i s hi ih =>
    rw [Finset.sum_insert hi, Finset.sum_insert hi, ← ih]
    exact EReal.left_distrib_of_nonneg_of_ne_top (EReal.coe_nonneg.2 hc) (EReal.coe_ne_top c) _ _

theorem neg_sum {f : ι → EReal} (h : ∀ i ∈ s, f i ≠ ⊤) :
    -∑ i ∈ s, f i = ∑ i ∈ s, -f i ∧ ∑ i ∈ s, f i ≠ ⊤ := by
  classical
  induction s using Finset.induction_on with
  | empty => simp
  | insert i s hi ih =>
    obtain ⟨hneg, htop⟩ := ih fun j hj => h j (Finset.mem_insert_of_mem hj)
    have hfi := h i (Finset.mem_insert_self i s)
    rw [Finset.sum_insert hi, Finset.sum_insert hi, ← hneg]
    exact ⟨EReal.neg_add (.inr htop) (.inl hfi), EReal.add_ne_top hfi htop⟩

theorem ne_bot_of_sum {f : ι → EReal} (h : ∑ i ∈ s, f i ≠ ⊥) : ∀ i ∈ s, f i ≠ ⊥ := by
  classical
  intro i hi hbot
  rw [← Finset.add_sum_erase s f hi, hbot, EReal.bot_add] at h
  exact h rfl

theorem coe_mul_ne_top {c : ℝ} (hc : 0 ≤ c) {x : EReal} (hx : x ≠ ⊤) : (c : EReal) * x ≠ ⊤ := by
  induction x with
  | top => exact absurd rfl hx
  | coe x =>
    rw [← EReal.coe_mul]
    exact EReal.coe_ne_top _
  | bot =>
    rcases hc.eq_or_lt with rfl | hc
    · rw [EReal.coe_zero, zero_mul]
      exact EReal.zero_ne_top
    · rw [EReal.coe_mul_bot_of_pos hc]
      exact bot_ne_top

/-- A sum over a square, by the pairs across the diagonal. -/
theorem sum_square {M : Type*} [AddCommMonoid M] (n : ℕ) (f : ℕ → ℕ → M) :
    ∑ i ∈ range n, ∑ j ∈ range n, f i j =
      ∑ i ∈ range n, f i i + ∑ i ∈ range n, ∑ j ∈ range i, (f i j + f j i) := by
  induction n with
  | zero => simp
  | succ n ih =>
    simp only [Finset.sum_range_succ, Finset.sum_add_distrib] at ih ⊢
    rw [ih]
    abel

end Sums

/-! ## Forms -/

/-- The quadratic form of a matrix with `n` rows at a point. -/
noncomputable def quadratic (n : ℕ) (A : ℕ → ℕ → EReal) (z : ℕ → ℝ) : EReal :=
  ∑ i ∈ range n, ∑ j ∈ range n, ((z i * z j : ℝ) : EReal) * A i j

/-- How far the two entries of each pair across the diagonal are apart, at a point. -/
noncomputable def skew (n : ℕ) (B : ℕ → ℕ → ℝ) (z : ℕ → ℝ) : ℝ :=
  ∑ i ∈ range n, ∑ j ∈ range i, |B i j - B j i| * |z i * z j|

variable {n : ℕ} {A L : ℕ → ℕ → EReal} {B : ℕ → ℕ → ℝ}

theorem quadratic_congr (h : ∀ i < n, ∀ j < n, A i j = L i j) (z : ℕ → ℝ) :
    quadratic n A z = quadratic n L z :=
  Finset.sum_congr rfl fun i hi => Finset.sum_congr rfl fun j hj => by
    rw [h i (Finset.mem_range.1 hi) j (Finset.mem_range.1 hj)]

theorem quadratic_eq_zero {z : ℕ → ℝ} (h : ∀ i < n, z i = 0) : quadratic n A z = 0 :=
  Finset.sum_eq_zero fun i hi => Finset.sum_eq_zero fun j _ => by
    rw [h i (Finset.mem_range.1 hi), zero_mul, EReal.coe_zero, zero_mul]

theorem quadratic_single {i : ℕ} (hi : i < n) : quadratic n A (Pi.single i 1) = A i i := by
  have hmem := Finset.mem_range.2 hi
  unfold quadratic
  rw [Finset.sum_eq_single_of_mem i hmem fun k _ hk => Finset.sum_eq_zero fun j _ => by
      rw [Pi.single_eq_of_ne hk, zero_mul, EReal.coe_zero, zero_mul],
    Finset.sum_eq_single_of_mem i hmem fun j _ hj => by
      rw [Pi.single_eq_of_ne hj, mul_zero, EReal.coe_zero, zero_mul],
    Pi.single_eq_same, one_mul, EReal.coe_one, one_mul]

theorem quadratic_one_nonneg (h : 0 ≤ A 0 0) (z : ℕ → ℝ) : 0 ≤ quadratic 1 A z := by
  simp only [quadratic, Finset.sum_range_one]
  exact mul_nonneg (EReal.coe_nonneg.2 (mul_self_nonneg _)) h

theorem quadratic_coe (h : ∀ i < n, ∀ j < n, A i j = (B i j : ℝ)) (z : ℕ → ℝ) :
    quadratic n A z = ((∑ i ∈ range n, ∑ j ∈ range n, z i * z j * B i j : ℝ) : EReal) := by
  unfold quadratic
  rw [coe_sum]
  refine Finset.sum_congr rfl fun i hi => ?_
  rw [coe_sum]
  refine Finset.sum_congr rfl fun j hj => ?_
  rw [h i (Finset.mem_range.1 hi) j (Finset.mem_range.1 hj), ← EReal.coe_mul]

/-- An infinite entry beside the diagonal would be met with both signs. -/
theorem finite_of_nonneg (h : ∀ z, 0 ≤ quadratic n A z) {i j : ℕ} (hi : i < n) (hj : j < n) :
    A i j ≠ ⊥ ∧ (i ≠ j → A i j ≠ ⊤) := by
  have hterm : ∀ z : ℕ → ℝ, ((z i * z j : ℝ) : EReal) * A i j ≠ ⊥ := by
    intro z
    have hsum : quadratic n A z ≠ ⊥ := (EReal.bot_lt_zero.trans_le (h z)).ne'
    exact ne_bot_of_sum (ne_bot_of_sum hsum i (Finset.mem_range.2 hi)) j (Finset.mem_range.2 hj)
  constructor
  · intro hbot
    have hone := hterm fun _ => 1
    rw [one_mul, EReal.coe_one, one_mul] at hone
    exact hone hbot
  · intro hne htop
    have hminus := hterm fun k => if k = i then 1 else -1
    rw [if_pos rfl, if_neg hne.symm, one_mul, htop,
      EReal.coe_mul_top_of_neg (by norm_num)] at hminus
    exact hminus rfl

/-- The entries above the diagonal matter as much as they differ from those below. -/
theorem quadratic_le_add_skew (hoff : ∀ i < n, ∀ j < n, i ≠ j → A i j = (B i j : ℝ)) (z : ℕ → ℝ) :
    quadratic n (fun i j => A (max i j) (min i j)) z ≤ quadratic n A z + skew n B z := by
  unfold quadratic skew
  simp only [sum_square, max_self, min_self]
  rw [coe_sum, add_assoc]
  refine add_le_add_right ?_ _
  rw [← Finset.sum_add_distrib]
  refine Finset.sum_le_sum fun i hi => ?_
  rw [coe_sum, ← Finset.sum_add_distrib]
  refine Finset.sum_le_sum fun j hj => ?_
  rw [Finset.mem_range] at hi hj
  have hji := hj.trans hi
  rw [max_eq_left hj.le, min_eq_right hj.le, max_eq_right hj.le, min_eq_left hj.le,
    hoff i hi j hji hj.ne', hoff j hji i hi hj.ne]
  have hdistance : z j * z i * (B i j - B j i) ≤ |B i j - B j i| * |z i * z j| := by
    rw [mul_comm (z j), mul_comm (z i * z j), ← abs_mul]
    exact le_abs_self ((B i j - B j i) * (z i * z j))
  exact_mod_cast (by linarith : z i * z j * B i j + z j * z i * B i j ≤
    z i * z j * B i j + z j * z i * B j i + |B i j - B j i| * |z i * z j|)

theorem quadratic_neg (hdiag : ∀ i < n, A i i ≠ ⊤)
    (hoff : ∀ i < n, ∀ j < n, i ≠ j → A i j = (B i j : ℝ)) (z : ℕ → ℝ) :
    quadratic n (fun i j => -A i j) z = -quadratic n A z := by
  have hterm : ∀ i ∈ range n, ∀ j ∈ range n, ((z i * z j : ℝ) : EReal) * A i j ≠ ⊤ := by
    intro i hi j hj
    rw [Finset.mem_range] at hi hj
    by_cases hij : i = j
    · subst hij
      exact coe_mul_ne_top (mul_self_nonneg (z i)) (hdiag i hi)
    · rw [hoff i hi j hj hij, ← EReal.coe_mul]
      exact EReal.coe_ne_top _
  unfold quadratic
  rw [(neg_sum fun i hi => (neg_sum (hterm i hi)).2).1]
  refine Finset.sum_congr rfl fun i hi => ?_
  rw [(neg_sum (hterm i hi)).1]
  exact Finset.sum_congr rfl fun j _ => mul_neg _ _

/-- Between two points the form bends as much as it has at their difference. -/
theorem quadratic_mix (hoff : ∀ i < n, ∀ j < n, i ≠ j → A i j = (B i j : ℝ)) {a b : ℝ} (ha : 0 ≤ a)
    (hb : 0 ≤ b) (hab : a + b = 1) (z w : ℕ → ℝ) :
    a * quadratic n A z + b * quadratic n A w =
      quadratic n A (a • z + b • w) + (a * b : ℝ) * quadratic n A (z - w) := by
  have hweight := mul_nonneg ha hb
  unfold quadratic
  rw [coe_mul_sum ha, coe_mul_sum hb, coe_mul_sum hweight, ← Finset.sum_add_distrib,
    ← Finset.sum_add_distrib]
  refine Finset.sum_congr rfl fun i hi => ?_
  rw [coe_mul_sum ha, coe_mul_sum hb, coe_mul_sum hweight, ← Finset.sum_add_distrib,
    ← Finset.sum_add_distrib]
  refine Finset.sum_congr rfl fun j hj => ?_
  simp only [Pi.add_apply, Pi.smul_apply, Pi.sub_apply, smul_eq_mul]
  have hreal : a * (z i * z j) + b * (w i * w j) =
      (a * z i + b * w i) * (a * z j + b * w j) + a * b * ((z i - w i) * (z j - w j)) := by
    obtain rfl : b = 1 - a := by linarith
    ring
  rw [Finset.mem_range] at hi hj
  by_cases hij : i = j
  · -- The coefficients of an infinite entry are squares.
    subst hij
    have hsquare : ∀ t : ℝ, (0 : EReal) ≤ ((t * t : ℝ) : EReal) := fun t =>
      EReal.coe_nonneg.2 (mul_self_nonneg t)
    have hpart : ∀ {c t : ℝ}, 0 ≤ c → (0 : EReal) ≤ ((c * (t * t) : ℝ) : EReal) := fun hc =>
      EReal.coe_nonneg.2 (mul_nonneg hc (mul_self_nonneg _))
    rw [← mul_assoc, ← mul_assoc, ← mul_assoc, ← EReal.coe_mul, ← EReal.coe_mul, ← EReal.coe_mul,
      ← EReal.right_distrib_of_nonneg (hpart ha) (hpart hb),
      ← EReal.right_distrib_of_nonneg (hsquare _) (hpart hweight), ← EReal.coe_add,
      ← EReal.coe_add, hreal]
  · rw [hoff i hi j hj hij]
    exact_mod_cast (by linear_combination B i j * hreal :
      a * (z i * z j * B i j) + b * (w i * w j * B i j) =
        (a * z i + b * w i) * (a * z j + b * w j) * B i j +
          a * b * ((z i - w i) * (z j - w j) * B i j))

/-! ## Forms that are bounded below -/

theorem skew_eq_zero (h : ∀ i < n, ∀ j < i, B i j = B j i) (z : ℕ → ℝ) : skew n B z = 0 :=
  Finset.sum_eq_zero fun i hi => Finset.sum_eq_zero fun j hj => by
    rw [h i (Finset.mem_range.1 hi) j (Finset.mem_range.1 hj), sub_self, abs_zero, zero_mul]

theorem skew_neg (z : ℕ → ℝ) : skew n (fun i j => -B i j) z = skew n B z := by
  unfold skew
  refine Finset.sum_congr rfl fun i _ => Finset.sum_congr rfl fun j _ => ?_
  rw [neg_sub_neg, abs_sub_comm]

/-- The same bound from above, for a matrix whose negation is read below the diagonal. -/
theorem quadratic_le_skew (hoff : ∀ i < n, ∀ j < n, i ≠ j → A i j = (B i j : ℝ))
    (h : ∀ z, 0 ≤ quadratic n (fun i j => -A (max i j) (min i j)) z) (z : ℕ → ℝ) :
    quadratic n A z ≤ skew n B z := by
  have hdiag : ∀ i < n, A i i ≠ ⊤ := by
    intro i hi htop
    have hbot := (finite_of_nonneg h hi hi).1
    rw [max_self, min_self, htop] at hbot
    exact hbot rfl
  have hneg : ∀ i < n, ∀ j < n, i ≠ j → -A i j = ((-B i j : ℝ) : EReal) := by
    intro i hi j hj hij
    rw [hoff i hi j hj hij]
    rfl
  have hle := (h z).trans (quadratic_le_add_skew (A := fun i j => -A i j) hneg z)
  rw [quadratic_neg hdiag hoff, skew_neg, add_comm, ← sub_eq_add_neg] at hle
  exact (EReal.sub_nonneg (.inl (EReal.coe_ne_top _)) (.inl (EReal.coe_ne_bot _))).1 hle

variable {a b : ℝ}

theorem quadratic_mix_le (hoff : ∀ i < n, ∀ j < n, i ≠ j → A i j = (B i j : ℝ))
    (h : ∀ z, 0 ≤ quadratic n A z + skew n B z) (ha : 0 ≤ a) (hb : 0 ≤ b) (hab : a + b = 1)
    (z w : ℕ → ℝ) :
    quadratic n A (a • z + b • w) ≤
      a * quadratic n A z + b * quadratic n A w + (a * b * skew n B (z - w) : ℝ) := by
  have hweight : (0 : EReal) ≤ (a * b : ℝ) := EReal.coe_nonneg.2 (mul_nonneg ha hb)
  have hbend : (0 : EReal) ≤ (a * b : ℝ) * quadratic n A (z - w) +
      (a * b * skew n B (z - w) : ℝ) := by
    rw [EReal.coe_mul (a * b),
      ← EReal.left_distrib_of_nonneg_of_ne_top hweight (EReal.coe_ne_top _)]
    exact mul_nonneg hweight (h _)
  rw [quadratic_mix hoff ha hb hab, add_assoc]
  exact le_add_of_nonneg_right hbend

theorem le_quadratic_mix (hoff : ∀ i < n, ∀ j < n, i ≠ j → A i j = (B i j : ℝ))
    (h : ∀ z, quadratic n A z ≤ skew n B z) (ha : 0 ≤ a) (hb : 0 ≤ b) (hab : a + b = 1)
    (z w : ℕ → ℝ) :
    a * quadratic n A z + b * quadratic n A w ≤
      quadratic n A (a • z + b • w) + (a * b * skew n B (z - w) : ℝ) := by
  have hweight : (0 : EReal) ≤ (a * b : ℝ) := EReal.coe_nonneg.2 (mul_nonneg ha hb)
  rw [quadratic_mix hoff ha hb hab, EReal.coe_mul (a * b)]
  exact add_le_add_right (mul_le_mul_of_nonneg_left (h _) hweight) _

end DisciplinedConvex
