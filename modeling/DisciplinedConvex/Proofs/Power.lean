import DisciplinedConvex.Atom.Curvature
import DisciplinedConvex.Atom.Shape
import DisciplinedConvex.Atom.Sign
import DisciplinedConvex.Proofs.Number

/-! # Exponents

The tables of atoms tell powers apart by comparing binary64 numbers. `PowerKind` lists the five
kinds of exponents by their exact values, with what the tables say of each, and
`Unary.powerKind` says that every exponent that passes its check is of one kind.
-/

namespace DisciplinedConvex
set_option autoImplicit false

open Number (exact)

/-- What sign, curvature and monotonicity of a power are, by its exponent. -/
inductive PowerKind (p : Float) : Prop where
  | one (value : exact p = 1) (sign : ∀ s, (Unary.power p).sign s = s)
    (curvature : (Unary.power p).curvature = .affine)
    (monotonicity : (Unary.power p).monotonicity = .increasing)
  | negative (value : exact p < 0) (sign : ∀ s, (Unary.power p).sign s = .positive)
    (curvature : (Unary.power p).curvature = .convex)
    (monotonicity : (Unary.power p).monotonicity = .decreasing)
  | root (pos : 0 < exact p) (lt_one : exact p < 1)
    (sign : ∀ s, (Unary.power p).sign s = s.magnitude)
    (curvature : (Unary.power p).curvature = .concave)
    (monotonicity : (Unary.power p).monotonicity = .increasing)
  | even (one_lt : 1 < exact p) (even : Number.IsEven (exact p))
    (sign : ∀ s, (Unary.power p).sign s = s.magnitude)
    (curvature : (Unary.power p).curvature = .convex)
    (monotonicity : (Unary.power p).monotonicity = .signed)
  | other (one_lt : 1 < exact p) (odd : ¬ Number.IsEven (exact p))
    (sign : ∀ s, (Unary.power p).sign s = s.magnitude)
    (curvature : (Unary.power p).curvature = .convex)
    (monotonicity : (Unary.power p).monotonicity = .increasing)

namespace Unary

variable {p : Float}

theorem of_checkParameter (h : (power p).checkParameter = .ok ()) :
    p.isFinite = true ∧ exact p ≠ 0 := by
  simp only [checkParameter] at h
  split at h
  case isTrue => cases h
  case isFalse hn =>
    rw [Bool.or_eq_true, not_or, Bool.not_eq_true', Bool.not_eq_false] at hn
    obtain ⟨hfin, h0⟩ := hn
    rw [Number.beq_iff hfin Number.isFinite_zero, Number.exact_zero] at h0
    exact ⟨hfin, h0⟩

theorem not_isEven_of_lt_one {q : ℚ} (hpos : 0 < q) (hlt : q < 1) : ¬ Number.IsEven q := by
  rintro ⟨n, rfl⟩
  have hn : 0 < n := by
    have h : (0 : ℚ) < n := by linarith
    exact_mod_cast h
  have hge : (1 : ℚ) ≤ n := by exact_mod_cast hn
  linarith

theorem powerKind (h : (power p).checkParameter = .ok ()) : PowerKind p := by
  obtain ⟨hfin, h0⟩ := of_checkParameter h
  have hone : (p == 1) = true ↔ exact p = 1 := by
    rw [Number.beq_iff hfin Number.isFinite_one, Number.exact_one]
  have hneg : p < 0 ↔ exact p < 0 := by
    rw [Number.lt_iff hfin Number.isFinite_zero, Number.exact_zero]
  have hpos : p > 0 ↔ 0 < exact p := by
    rw [gt_iff_lt, Number.lt_iff Number.isFinite_zero hfin, Number.exact_zero]
  have hlt : p < 1 ↔ exact p < 1 := by
    rw [Number.lt_iff hfin Number.isFinite_one, Number.exact_one]
  have hgt : p > 1 ↔ 1 < exact p := by
    rw [gt_iff_lt, Number.lt_iff Number.isFinite_one hfin, Number.exact_one]
  have heven : (decide (p > 1) && Number.isEvenInteger p) = true ↔
      1 < exact p ∧ Number.IsEven (exact p) := by
    rw [Bool.and_eq_true, decide_eq_true_eq, hgt, Number.isEvenInteger_iff hfin h0]
  have hsign : ∀ s, (power p).sign s =
      if p == 1 then s else if p < 0 then .positive else s.magnitude := fun _ => rfl
  have hcurv : (power p).curvature =
      if p == 1 then .affine else if p > 0 && p < 1 then .concave else .convex := rfl
  have hmono : (power p).monotonicity =
      if p < 0 then .decreasing
      else if p > 1 && Number.isEvenInteger p then .signed else .increasing := rfl
  simp only [Bool.and_eq_true, decide_eq_true_eq, hone, hneg, hpos, hlt] at hsign hcurv
  by_cases h1 : exact p = 1
  · refine .one h1 (fun s => ?_) ?_ ?_
    · rw [hsign, if_pos h1]
    · rw [hcurv, if_pos h1]
    · rw [hmono, if_neg (mt hneg.1 (by linarith)), if_neg (fun h => by linarith [(heven.1 h).1])]
  by_cases hn : exact p < 0
  · refine .negative hn (fun s => ?_) ?_ ?_
    · rw [hsign, if_neg h1, if_pos hn]
    · rw [hcurv, if_neg h1, if_neg (fun h => by linarith [h.1])]
    · rw [hmono, if_pos (hneg.2 hn)]
  have hp : 0 < exact p := lt_of_le_of_ne (not_lt.1 hn) (Ne.symm h0)
  by_cases hr : exact p < 1
  · refine .root hp hr (fun s => ?_) ?_ ?_
    · rw [hsign, if_neg h1, if_neg hn]
    · rw [hcurv, if_neg h1, if_pos ⟨hp, hr⟩]
    · rw [hmono, if_neg (mt hneg.1 hn), if_neg (fun h => by linarith [(heven.1 h).1])]
  have hg : 1 < exact p := lt_of_le_of_ne (not_lt.1 hr) (Ne.symm h1)
  by_cases he : Number.IsEven (exact p)
  · refine .even hg he (fun s => ?_) ?_ ?_
    · rw [hsign, if_neg h1, if_neg hn]
    · rw [hcurv, if_neg h1, if_neg (fun h => hr h.2)]
    · rw [hmono, if_neg (mt hneg.1 hn), if_pos (heven.2 ⟨hg, he⟩)]
  · refine .other hg he (fun s => ?_) ?_ ?_
    · rw [hsign, if_neg h1, if_neg hn]
    · rw [hcurv, if_neg h1, if_neg (fun h => hr h.2)]
    · rw [hmono, if_neg (mt hneg.1 hn), if_neg (fun h => he (heven.1 h).2)]

end Unary

end DisciplinedConvex
