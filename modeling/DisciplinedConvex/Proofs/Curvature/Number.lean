import Mathlib.Order.UpperLower.Basic
import DisciplinedConvex.Proofs.Curvature.Bound
import DisciplinedConvex.Proofs.Meaning.Shape
import DisciplinedConvex.Proofs.Power

/-! # What atoms declare of their functions

The atoms that work number by number have the curvature and the monotonicity that they declare, on
their domain.

* `Unary.curvature_onNumber` and `Unary.monotonicity_onNumber` are the two statements.
* Every domain is an upper set (`Unary.isUpperSet_domain`), so that a concave argument stays inside.
  A domain that is not everything asks for one (`Unary.isConcave_of_domain`).
-/

namespace DisciplinedConvex
set_option autoImplicit false

variable {K : Type*} [Field K] [LinearOrder K] {S : Textbook K}

structure Curvature.HoldsOn (c : Curvature) (D : Set K) (f : K → K) : Prop where
  convex : c.isConvex = true → ConvexOn K D f
  concave : c.isConcave = true → ConcaveOn K D f

theorem Curvature.HoldsOn.of_convex {D : Set K} {f : K → K} (h : ConvexOn K D f) :
    Curvature.convex.HoldsOn D f := ⟨fun _ => h, (nomatch ·)⟩

theorem Curvature.HoldsOn.of_concave {D : Set K} {f : K → K} (h : ConcaveOn K D f) :
    Curvature.concave.HoldsOn D f := ⟨(nomatch ·), fun _ => h⟩

theorem Curvature.HoldsOn.bound {c : Curvature} {D : Set K} {f : K → K} (h : c.HoldsOn D f)
    {a b s t : K} (hs : s ∈ D) (ht : t ∈ D) (ha : 0 ≤ a) (hb : 0 ≤ b) (hab : a + b = 1) :
    c.Bound (f (a * s + b * t)) (a * f s + b * f t) :=
  ⟨fun hc => (h.convex hc).2 hs ht ha hb hab, fun hc => (h.concave hc).2 hs ht ha hb hab⟩

/-! ## Domains of powers -/

theorem powerDomain_of_neg {q : ℚ} (h : q < 0) : powerDomain q = Set.Ioi (0 : K) := by
  ext t
  refine ⟨fun ht => ht.1 h, fun ht => ⟨fun _ => ht, fun hpos => absurd hpos h.asymm⟩⟩

theorem powerDomain_one : powerDomain 1 = (Set.univ : Set K) := by
  ext t
  refine ⟨fun _ => trivial, fun _ => ⟨fun h => ?_, fun _ h => absurd rfl h⟩⟩
  norm_num at h

theorem powerDomain_of_isEven {q : ℚ} (h : 0 < q) (heven : Number.IsEven q) :
    powerDomain q = (Set.univ : Set K) := by
  ext t
  refine ⟨fun _ => trivial, fun _ => ⟨fun hneg => ?_, fun _ _ hn => ?_⟩⟩
  · exact absurd hneg h.asymm
  · exact absurd heven hn

theorem powerDomain_of_pos {q : ℚ} (h : 0 < q) (hone : q ≠ 1) (hodd : ¬ Number.IsEven q) :
    powerDomain q = Set.Ici (0 : K) := by
  ext t
  exact ⟨fun ht => ht.2 h hone hodd, fun ht => ⟨fun hneg => absurd hneg h.asymm, fun _ _ _ => ht⟩⟩

namespace Unary

/-! ## Domains -/

theorem isUpperSet_domain (op : Unary) : IsUpperSet (op.domain : Set K) := by
  cases op
  case sqrt => exact isUpperSet_Ici 0
  case entropy => exact isUpperSet_Ici 0
  case log => exact isUpperSet_Ioi 0
  case power p =>
    intro s t hst hs
    exact ⟨fun h => (hs.1 h).trans_le hst, fun h h1 hodd => (hs.2 h h1 hodd).trans hst⟩
  all_goals exact isUpperSet_univ

/-- An atom that is not defined everywhere is certified for concave arguments alone. -/
theorem isConcave_of_domain {op : Unary} {c : Curvature} {σ : Sign}
    (hp : op.checkParameter = .ok ())
    (hpower : ∀ p, op = power p → 1 < Number.exact p → Number.IsEven (Number.exact p))
    (hdomain : op.domain ≠ (Set.univ : Set K))
    (h : (op.curvature.compose [(op.monotonicity, c, σ)]).isCertified = true) :
    c.isConcave = true := by
  have hroot : ((Curvature.concave).compose [(.increasing, c, σ)]).isCertified = true →
      c.isConcave = true := by
    cases c <;> first | exact fun _ => rfl | exact fun h => h
  cases op
  case sqrt => exact hroot h
  case log => exact hroot h
  case entropy => cases c <;> first | rfl | exact h
  case power p =>
    cases powerKind hp with
    | one value => exact absurd (by rw [domain, value, powerDomain_one]) hdomain
    | negative value _ curvature monotonicity =>
      rw [curvature, monotonicity] at h
      cases c <;> first | rfl | exact h
    | root pos lt_one _ curvature monotonicity =>
      rw [curvature, monotonicity] at h
      exact hroot h
    | even one_lt even =>
      exact absurd (by rw [domain, powerDomain_of_isEven (by linarith) even]) hdomain
    | other one_lt odd => exact absurd (hpower p rfl one_lt) odd
  all_goals exact absurd rfl hdomain

/-! ## Curvature -/

theorem curvature_power {p : Float} (hp : (power p).checkParameter = .ok ()) :
    (power p).curvature.HoldsOn (powerDomain (Number.exact p)) (S.power (Number.exact p)) := by
  cases powerKind hp with
  | one value _ curvature =>
    have hid : S.power 1 = id := funext S.power_one
    rw [curvature, value, powerDomain_one, hid]
    exact ⟨fun _ => convexOn_id convex_univ, fun _ => concaveOn_id convex_univ⟩
  | negative value _ curvature =>
    rw [curvature, powerDomain_of_neg value]
    exact .of_convex (S.power_neg_convex _ value)
  | root pos lt_one _ curvature =>
    rw [curvature, powerDomain_of_pos pos lt_one.ne (not_isEven_of_lt_one pos lt_one)]
    exact .of_concave (S.power_concave _ pos lt_one)
  | even one_lt even _ curvature =>
    have hpos : 0 < Number.exact p := by linarith
    rw [curvature, powerDomain_of_isEven hpos even]
    exact .of_convex (S.power_even_convex _ hpos even)
  | other one_lt odd _ curvature =>
    have hpos : 0 < Number.exact p := by linarith
    rw [curvature, powerDomain_of_pos hpos one_lt.ne' odd]
    exact .of_convex (S.power_convex _ one_lt)

variable [IsStrictOrderedRing K]

theorem convexOn_abs : ConvexOn K Set.univ fun t : K => |t| := by
  refine ⟨convex_univ, fun s _ t _ a b ha hb _ => ?_⟩
  simp only [smul_eq_mul]
  calc |a * s + b * t| ≤ |a * s| + |b * t| := abs_add_le _ _
    _ = a * |s| + b * |t| := by rw [abs_mul, abs_mul, abs_of_nonneg ha, abs_of_nonneg hb]

theorem convexOn_sq : ConvexOn K Set.univ fun t : K => t ^ 2 := by
  refine ⟨convex_univ, fun s _ t _ a b ha hb hab => ?_⟩
  simp only [smul_eq_mul]
  have hb' : b = 1 - a := by linarith
  have hcross : 0 ≤ a * b * (s - t) ^ 2 := mul_nonneg (mul_nonneg ha hb) (sq_nonneg _)
  subst hb'
  nlinarith only [hcross]

theorem curvature_onNumber {op : Unary} (hp : op.checkParameter = .ok ())
    (hg : op.gauge? S = none) : op.curvature.HoldsOn op.domain (op.onNumber S) := by
  have hneg : ConvexOn K Set.univ fun t : K => -t :=
    neg_convexOn_iff.2 (concaveOn_id convex_univ)
  have haffine : Curvature.affine.HoldsOn Set.univ (id : K → K) :=
    ⟨fun _ => convexOn_id convex_univ, fun _ => concaveOn_id convex_univ⟩
  have hzero : ConvexOn K Set.univ fun _ : K => (0 : K) := convexOn_const 0 convex_univ
  cases op
  case neg => exact ⟨fun _ => hneg, fun _ => neg_concaveOn_iff.2 (convexOn_id convex_univ)⟩
  case abs => exact .of_convex convexOn_abs
  case norm1 => exact .of_convex convexOn_abs
  case square => exact .of_convex convexOn_sq
  case sumSquares => exact .of_convex convexOn_sq
  case pos => exact .of_convex ((convexOn_id convex_univ).sup hzero)
  case negPart => exact .of_convex (hneg.sup hzero)
  case sqrt => exact .of_concave S.sqrt_concave
  case power p => exact curvature_power hp
  case exp => exact .of_convex S.exp_convex
  case log => exact .of_concave S.log_concave
  case entropy => exact .of_concave S.entropy_concave
  case norm2 => cases hg
  case normInf => cases hg
  case normFro => cases hg
  all_goals exact haffine

/-! ## Monotonicity -/

theorem monotonicity_power {p : Float} (hp : (power p).checkParameter = .ok ()) :
    (power p).monotonicity.HoldsOn (powerDomain (Number.exact p)) (S.power (Number.exact p)) := by
  cases powerKind hp with
  | one value _ _ monotonicity =>
    have hid : S.power 1 = id := funext S.power_one
    rw [monotonicity, value, hid]
    exact monotoneOn_id
  | negative value _ _ monotonicity =>
    rw [monotonicity, powerDomain_of_neg value]
    exact S.power_neg_anti _ value
  | root pos lt_one _ _ monotonicity =>
    rw [monotonicity, powerDomain_of_pos pos lt_one.ne (not_isEven_of_lt_one pos lt_one)]
    exact S.power_mono _ pos
  | even one_lt even _ _ monotonicity =>
    have hpos : 0 < Number.exact p := by linarith
    rw [monotonicity]
    refine ⟨fun s hs t ht hst => ?_, fun s hs t ht hst => ?_⟩
    · refine S.power_even_mono _ hpos even s t ?_
      rwa [abs_of_nonneg hs.2, abs_of_nonneg ht.2]
    · refine S.power_even_mono _ hpos even t s ?_
      rw [abs_of_nonpos hs.2, abs_of_nonpos ht.2]
      exact neg_le_neg hst
  | other one_lt odd _ _ monotonicity =>
    have hpos : 0 < Number.exact p := by linarith
    rw [monotonicity, powerDomain_of_pos hpos one_lt.ne' odd]
    exact S.power_mono _ hpos

theorem signed_abs (D : Set K) : Monotonicity.signed.HoldsOn D fun t : K => |t| := by
  refine ⟨fun s hs t ht hst => ?_, fun s hs t ht hst => ?_⟩
  · dsimp only
    rwa [abs_of_nonneg hs.2, abs_of_nonneg ht.2]
  · dsimp only
    rw [abs_of_nonpos hs.2, abs_of_nonpos ht.2]
    exact neg_le_neg hst

theorem signed_sq (D : Set K) : Monotonicity.signed.HoldsOn D fun t : K => t ^ 2 := by
  obtain ⟨hmono, hanti⟩ := signed_abs D
  exact ⟨fun s hs t ht hst => sq_le_sq.2 (hmono hs ht hst),
    fun s hs t ht hst => sq_le_sq.2 (hanti hs ht hst)⟩

theorem monotonicity_onNumber {op : Unary} (hp : op.checkParameter = .ok ())
    (hg : op.gauge? S = none) : op.monotonicity.HoldsOn op.domain (op.onNumber S) := by
  cases op
  case neg => exact fun s _ t _ hst => neg_le_neg hst
  case abs => exact signed_abs _
  case norm1 => exact signed_abs _
  case square => exact signed_sq _
  case sumSquares => exact signed_sq _
  case pos => exact fun s _ t _ hst => max_le_max_right 0 hst
  case negPart => exact fun s _ t _ hst => max_le_max_right 0 (neg_le_neg hst)
  case sqrt => exact S.sqrt_mono
  case power p => exact monotonicity_power hp
  case exp => exact S.exp_mono.monotoneOn _
  case log => exact S.log_mono
  case entropy => trivial
  case norm2 => cases hg
  case normInf => cases hg
  case normFro => cases hg
  all_goals exact monotoneOn_id

end Unary

end DisciplinedConvex
