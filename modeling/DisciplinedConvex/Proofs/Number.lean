import Mathlib.Algebra.Order.Field.Power
import Mathlib.Data.Rat.Cast.Order
import Mathlib.Tactic.Linarith
import Mathlib.Tactic.Positivity
import Mathlib.Tactic.Ring
import DisciplinedConvex.Decimal.Text

/-! # Exact values of numbers

* `Number.exact` is the rational number that a finite binary64 number stands for.
* Comparisons of finite numbers are comparisons of these values (`Number.lt_iff`, `Number.le_iff`,
  `Number.beq_iff`). The program compares exponents before significands, which is right because a
  number is stored in one form only (`Number.IsCanonical`).
* `Number.isEvenInteger` says that the value is an even integer (`Number.isEvenInteger_iff`).
-/

namespace DisciplinedConvex
set_option autoImplicit false

open Float.Model (Format UnpackedFloat)

namespace Number

/-- The value of a finite number, and zero for the others. -/
def exact (v : Float) : ℚ :=
  match v.toModel.unpack with
  | .finite .positive m e _ => m * 2 ^ e
  | .finite .negative m e _ => -(m * 2 ^ e)
  | _ => 0

/-! ## The stored form -/

/-- A significand of 53 bits, or of fewer at the least exponent. -/
structure IsCanonical (m : ℕ) (e : ℤ) : Prop where
  lt : m < 2 ^ 53
  le : -1074 ≤ e
  eq_of_lt : m < 2 ^ 52 → e = -1074

theorem toNat_one_append (m : BitVec 52) : (1#1 ++ m).toNat = 2 ^ 52 + m.toNat := by
  rw [BitVec.toNat_append, Nat.shiftLeft_eq]
  have h := Nat.two_pow_add_eq_or_of_lt m.isLt 1
  simpa using h.symm

theorem isCanonical_of_unpack {v : Float} {s : UnpackedFloat.Sign} {m : ℕ} {e : ℤ} {h : 0 < m}
    (hv : v.toModel.unpack = .finite s m e h) : IsCanonical m e := by
  have hbias : Format.binary64.exponentBias = 1023 := by rfl
  unfold Float.Model.unpack UnpackedFloat.unpack at hv
  dsimp only at hv
  have hm : (@UnpackedFloat.unpackMantissa .binary64 v.toModel.toBits.toBitVec).toNat < 2 ^ 52 :=
    BitVec.isLt _
  by_cases hlast : @UnpackedFloat.unpackExponent .binary64 v.toModel.toBits.toBitVec = -1#11
  · rw [if_pos hlast] at hv
    by_cases hzero : @UnpackedFloat.unpackMantissa .binary64 v.toModel.toBits.toBitVec = 0#52
    · rw [if_pos hzero] at hv
      cases hv
    · rw [if_neg hzero] at hv
      cases hv
  · rw [if_neg hlast] at hv
    by_cases hfirst : @UnpackedFloat.unpackExponent .binary64 v.toModel.toBits.toBitVec = 0#11
    · rw [if_pos hfirst] at hv
      by_cases hzero : @UnpackedFloat.unpackMantissa .binary64 v.toModel.toBits.toBitVec = 0#52
      · rw [dif_pos hzero] at hv
        cases hv
      · rw [dif_neg hzero] at hv
        injection hv with _ hm' he'
        rw [hfirst, hbias] at he'
        subst hm' he'
        exact ⟨by omega, by simp, fun _ => by simp⟩
    · rw [if_neg hfirst] at hv
      injection hv with _ hm' he'
      rw [toNat_one_append] at hm'
      rw [hbias] at he'
      have hpos := BitVec.toNat_pos_of_ne_zero hfirst
      subst hm' he'
      refine ⟨by omega, ?_, fun _ => by omega⟩
      push_cast
      omega

/-! ## Order -/

/-- Of two stored forms the one with the larger exponent is larger: its significand is full. -/
theorem IsCanonical.lt_of_exponent_lt {m₁ m₂ : ℕ} {e₁ e₂ : ℤ} (h₁ : IsCanonical m₁ e₁)
    (h₂ : IsCanonical m₂ e₂) (h : e₁ < e₂) : (m₁ * 2 ^ e₁ : ℚ) < m₂ * 2 ^ e₂ := by
  have hfull : 2 ^ 52 ≤ m₂ := by
    by_contra hlt
    have := h₂.eq_of_lt (by omega)
    have := h₁.le
    omega
  have hpow : (2 : ℚ) ^ (e₁ + 1) ≤ 2 ^ e₂ := zpow_le_zpow_right₀ (by norm_num) h
  have hm₁ : (m₁ : ℚ) < 2 ^ 53 := by exact_mod_cast h₁.lt
  have hm₂ : (2 ^ 52 : ℚ) ≤ m₂ := by exact_mod_cast hfull
  have he₁ : (0 : ℚ) < 2 ^ e₁ := by positivity
  calc (m₁ * 2 ^ e₁ : ℚ) < 2 ^ 53 * 2 ^ e₁ := mul_lt_mul_of_pos_right hm₁ he₁
    _ = 2 ^ 52 * 2 ^ (e₁ + 1) := by rw [zpow_add_one₀ (by norm_num)]; ring
    _ ≤ m₂ * 2 ^ e₂ := mul_le_mul hm₂ hpow (by positivity) (by positivity)

theorem IsCanonical.compare_eq {m₁ m₂ : ℕ} {e₁ e₂ : ℤ} (h₁ : IsCanonical m₁ e₁)
    (h₂ : IsCanonical m₂ e₂) :
    (compare e₁ e₂).then (compare m₁ m₂) = compare (m₁ * 2 ^ e₁ : ℚ) (m₂ * 2 ^ e₂) := by
  rcases lt_trichotomy e₁ e₂ with h | rfl | h
  · rw [compare_lt_iff_lt.2 h, compare_lt_iff_lt.2 (h₁.lt_of_exponent_lt h₂ h)]
    rfl
  · have hpow : (0 : ℚ) < 2 ^ e₁ := by positivity
    rw [compare_eq_iff_eq.2 rfl, Ordering.then]
    rcases lt_trichotomy m₁ m₂ with hm | rfl | hm
    · rw [compare_lt_iff_lt.2 hm, compare_lt_iff_lt.2]
      exact mul_lt_mul_of_pos_right (by exact_mod_cast hm) hpow
    · rw [compare_eq_iff_eq.2 rfl, compare_eq_iff_eq.2 rfl]
    · rw [compare_gt_iff_gt.2 hm, compare_gt_iff_gt.2]
      exact mul_lt_mul_of_pos_right (by exact_mod_cast hm) hpow
  · rw [compare_gt_iff_gt.2 h, compare_gt_iff_gt.2 (h₂.lt_of_exponent_lt h₁ h)]
    rfl

theorem swap_compare (a b : ℚ) : (compare a b).swap = compare (-a) (-b) := by
  rcases lt_trichotomy a b with h | rfl | h
  · rw [compare_lt_iff_lt.2 h, compare_gt_iff_gt.2 (neg_lt_neg h)]
    rfl
  · rw [compare_eq_iff_eq.2 rfl, compare_eq_iff_eq.2 rfl]
    rfl
  · rw [compare_gt_iff_gt.2 h, compare_lt_iff_lt.2 (neg_lt_neg h)]
    rfl

/-- Comparing the stored forms of finite numbers compares their values. -/
theorem compare_exact {v w : Float} (hv : v.isFinite = true) (hw : w.isFinite = true) :
    v.toModel.unpack.compare w.toModel.unpack = some (compare (exact v) (exact w)) := by
  unfold exact
  change v.toModel.unpack.isFinite = true at hv
  change w.toModel.unpack.isFinite = true at hw
  have hpos : ∀ {m : ℕ} {e : ℤ}, 0 < m → (0 : ℚ) < m * 2 ^ e := fun h => by positivity
  have hlt : ∀ {a b : ℚ}, a < b → some .lt = some (compare a b) := fun h => by
    rw [compare_lt_iff_lt.2 h]
  have hgt : ∀ {a b : ℚ}, b < a → some .gt = some (compare a b) := fun h => by
    rw [compare_gt_iff_gt.2 h]
  have hcanon : ∀ {u : Float} {s m e h}, u.toModel.unpack = .finite s m e h → IsCanonical m e :=
    isCanonical_of_unpack
  cases hv' : v.toModel.unpack with
  | infinity s => rw [hv'] at hv; cases hv
  | notANumber => rw [hv'] at hv; cases hv
  | zero s =>
    cases hw' : w.toModel.unpack with
    | infinity t => rw [hw'] at hw; cases hw
    | notANumber => rw [hw'] at hw; cases hw
    | zero t => rfl
    | finite t n f hn =>
      cases t with
      | positive => exact hlt (hpos hn)
      | negative => exact hgt (neg_lt_zero.2 (hpos hn))
  | finite s m e hm =>
    cases hw' : w.toModel.unpack with
    | infinity t => rw [hw'] at hw; cases hw
    | notANumber => rw [hw'] at hw; cases hw
    | zero t =>
      cases s with
      | positive => exact hgt (hpos hm)
      | negative => exact hlt (neg_lt_zero.2 (hpos hm))
    | finite t n f hn =>
      have hcmp := (hcanon hv').compare_eq (hcanon hw')
      cases s with
      | positive =>
        cases t with
        | positive => exact congrArg some hcmp
        | negative => exact hgt ((neg_lt_zero.2 (hpos hn)).trans (hpos hm))
      | negative =>
        cases t with
        | positive => exact hlt ((neg_lt_zero.2 (hpos hm)).trans (hpos hn))
        | negative => exact congrArg some ((congrArg Ordering.swap hcmp).trans (swap_compare _ _))

variable {v w : Float}

theorem lt_iff (hv : v.isFinite = true) (hw : w.isFinite = true) : v < w ↔ exact v < exact w := by
  change decide ((v.toModel.unpack.compare w.toModel.unpack == some .lt) = true) = true ↔ _
  rw [decide_eq_true_eq, compare_exact hv hw, ← compare_lt_iff_lt]
  cases compare (exact v) (exact w) <;> decide

theorem le_iff (hv : v.isFinite = true) (hw : w.isFinite = true) : v ≤ w ↔ exact v ≤ exact w := by
  change decide ((v.toModel.unpack.compare w.toModel.unpack).any (·.isLE) = true) = true ↔ _
  rw [decide_eq_true_eq, compare_exact hv hw, ← compare_le_iff_le]
  cases compare (exact v) (exact w) <;> decide

theorem beq_iff (hv : v.isFinite = true) (hw : w.isFinite = true) :
    (v == w) = true ↔ exact v = exact w := by
  change (v.toModel.unpack.compare w.toModel.unpack == some .eq) = true ↔ _
  rw [compare_exact hv hw, ← @compare_eq_iff_eq _ _ (exact v)]
  cases compare (exact v) (exact w) <;> decide

/-! ## Zero and one -/

@[simp] theorem isFinite_zero : (0 : Float).isFinite = true := by rfl

@[simp] theorem isFinite_one : (1 : Float).isFinite = true := by rfl

@[simp] theorem exact_zero : exact 0 = 0 := by rfl

@[simp] theorem exact_one : exact 1 = 1 := by
  have h : (1 : Float).toModel.unpack = .finite .positive (2 ^ 52) (-52) (by decide) := by rfl
  have hvalue : exact 1 = ((2 ^ 52 : ℕ) : ℚ) * 2 ^ (-52 : ℤ) := by rw [exact, h]
  rw [hvalue]
  norm_num

/-! ## Even integers -/

/-- The number is an integer, and even. -/
def IsEven (q : ℚ) : Prop := ∃ n : ℤ, q = 2 * n

theorem isEven_neg {q : ℚ} : IsEven (-q) ↔ IsEven q := by
  constructor <;> rintro ⟨n, hn⟩
  · exact ⟨-n, by push_cast; linarith⟩
  · exact ⟨-n, by push_cast; linarith⟩

theorem isEven_of_stored (m : ℕ) (e : ℤ) :
    IsEven (m * 2 ^ e) ↔ m * 2 ^ e.toNat % 2 ^ (1 + (-e).toNat) = 0 := by
  have hsplit : (2 : ℚ) ^ e * 2 ^ (-e).toNat = 2 ^ e.toNat := by
    rw [← zpow_natCast, ← zpow_natCast, ← zpow_add₀ (by norm_num)]
    congr 1
    omega
  have hpos : (0 : ℚ) < 2 ^ (-e).toNat := by positivity
  rw [← Nat.dvd_iff_mod_eq_zero, ← Int.natCast_dvd_natCast]
  constructor
  · rintro ⟨n, hn⟩
    refine ⟨n, ?_⟩
    have h : (m : ℚ) * 2 ^ e.toNat = 2 ^ (1 + (-e).toNat) * n := by
      rw [← hsplit, ← mul_assoc, hn, pow_add]
      ring
    exact_mod_cast h
  · rintro ⟨n, hn⟩
    refine ⟨n, mul_right_cancel₀ hpos.ne' ?_⟩
    have h : (m : ℚ) * 2 ^ e.toNat = 2 ^ (1 + (-e).toNat) * n := by exact_mod_cast hn
    rw [mul_assoc, hsplit, h, pow_add]
    ring

theorem isEvenInteger_iff (hv : v.isFinite = true) (h0 : exact v ≠ 0) :
    isEvenInteger v = true ↔ IsEven (exact v) := by
  change v.toModel.unpack.isFinite = true at hv
  unfold isEvenInteger
  unfold exact at h0 ⊢
  cases hu : v.toModel.unpack with
  | infinity s => rw [hu] at hv; cases hv
  | notANumber => rw [hu] at hv; cases hv
  | zero s => simp [hu] at h0
  | finite s m e hm =>
    cases s with
    | positive => simp only [isEven_of_stored, beq_iff_eq, Nat.pow_eq]
    | negative => simp only [isEven_neg, isEven_of_stored, beq_iff_eq, Nat.pow_eq]

end Number

end DisciplinedConvex
