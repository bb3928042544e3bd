import DisciplinedConvex.Proofs.Curvature.Sound

/-! # Powers of expressions

A power with an exponent above one that is not an even integer is increasing, and convex, where its
argument is not negative. The composition rule certifies such a power of every convex expression,
also of one that is negative between two points where it is not.

* `Expr.IsSound` says that the inferred sign and curvature of an expression are right in its region,
  and `Expr.Built.isSound` that they are for what the builders make.
* `Expr.isSoundOn_power`: on a convex part of its region, a power of a sound expression has the
  curvature that is inferred. What can be missing is that the region is convex
  (`Expr.isSound_power_iff_convex`).
* `Expr.isSound_power_iff` says for which exponents every power of a sound expression is sound. The
  others fail at `Expr.gap`, the square of a variable less one.
-/

namespace DisciplinedConvex
set_option autoImplicit false

variable {K : Type*} [Field K] [LinearOrder K]

namespace Expr

variable {S : Textbook K} {e y : Expr} {p : Float} {ρ : Point K}

/-! ## Right signs and curvatures -/

/-- The inferred sign and curvature are right on a set of points. -/
structure IsSoundOn (S : Textbook K) (C : Set (Point K)) (e : Expr) : Prop where
  sign : ∀ ρ ∈ C, (e.value S ρ).All e.sign.Allows
  region : e.isDcp = true → Convex K C
  convex : e.isConvex = true → ∀ q ∈ e.positions S, ConvexOn K C (e.entryAt S q)
  concave : e.isConcave = true → ∀ q ∈ e.positions S, ConcaveOn K C (e.entryAt S q)

/-- The inferred sign and curvature are right wherever the expression is looked at. -/
def IsSound (S : Textbook K) (e : Expr) : Prop := e.IsSoundOn S (e.region S)

variable [IsStrictOrderedRing K]

/-- What is inferred of the expressions that the builders make is right, powers above one that are
no even integers apart. -/
theorem Built.isSound (S : Textbook K) (hb : e.Built) (hfits : e.Everywhere FitsWord)
    (hfinite : e.Everywhere HasFiniteEntries) (hpower : e.Everywhere HasCertifiedPower)
    (hclassified : e.Everywhere (IsClassified K)) : e.IsSound S := by
  have he := hb.isRegular hfits hfinite hclassified
  have hinside : ∀ q ∈ e.positions S, q.1 < e.shape.rows.toNat ∧ q.2 < e.shape.cols.toNat := by
    intro q hq
    have hshape := he.hasShape S 0
    rwa [positions, Table.mem_positions, hshape.rows, hshape.cols] at hq
  exact {
    sign := fun ρ hρ => sign_value he hρ
    region := convex_region he hpower
    convex := fun h q hq => convexOn_entryAt he hpower h (hinside q hq)
    concave := fun h q hq => concaveOn_entryAt he hpower h (hinside q hq) }

omit [IsStrictOrderedRing K] in
theorem IsSoundOn.bound {C : Set (Point K)} (he : e.IsSoundOn S C) {q : ℕ × ℕ}
    (hq : q ∈ e.positions S) {a b : K} (ha : 0 ≤ a) (hb : 0 ≤ b) (hab : a + b = 1)
    {ρ₁ ρ₂ : Point K} (h₁ : ρ₁ ∈ C) (h₂ : ρ₂ ∈ C) :
    e.curvature.Bound (e.entryAt S q (a • ρ₁ + b • ρ₂))
      (a * e.entryAt S q ρ₁ + b * e.entryAt S q ρ₂) :=
  ⟨fun hc => (he.convex hc q hq).2 h₁ h₂ ha hb hab,
    fun hc => (he.concave hc q hq).2 h₁ h₂ ha hb hab⟩

/-! ## The region of a power -/

omit [IsStrictOrderedRing K] in
theorem mem_region_unary {label : Option ℕ} {op : Unary} :
    ρ ∈ (unary label op e).region S ↔
      ρ ∈ e.region S ∧ (e.value S ρ).All (· ∈ op.domain) := by
  constructor
  · intro h
    exact ⟨mem_region_args h (List.mem_singleton.2 rfl), (everywhere_unary.1 h.2).1⟩
  · rintro ⟨h, hd⟩
    exact ⟨h.1, everywhere_unary.2 ⟨hd, h.2⟩⟩

omit [IsStrictOrderedRing K] in
theorem power_eq_ok_iff :
    e.power p = .ok y ↔
      (Unary.power p).checkParameter = .ok () ∧ y = unary none (.power p) e := by
  have hmap : e.power p =
      (validate (.unary (.power p)) [e]).map fun _ => unary none (.power p) e := rfl
  have hvalidate : validate (.unary (.power p)) [e] =
      ((Unary.power p).checkParameter.mapError .domain).bind fun _ => .ok e.shape := rfl
  rw [hmap, hvalidate]
  cases (Unary.power p).checkParameter with
  | error fault => exact iff_of_false (nomatch ·) fun h => nomatch h.1
  | ok u =>
    constructor
    · intro h
      cases h
      exact ⟨rfl, rfl⟩
    · rintro ⟨-, rfl⟩
      rfl

/-- On its domain a power of a sound expression has the inferred sign. -/
theorem sign_power (he : e.IsSound S) (hp : (Unary.power p).checkParameter = .ok ())
    (hρ : ρ ∈ (unary none (.power p) e).region S) :
    ((unary none (.power p) e).value S ρ).All (unary none (.power p) e).sign.Allows := by
  obtain ⟨hρe, hd⟩ := mem_region_unary.1 hρ
  exact fun q hq => Unary.sign_power hp (hd q hq) (he.sign ρ hρe q hq)

/-- One segment: monotonicity takes the power from the argument at the mixture to the mixture of the
arguments, and curvature on to the mixture of the powers. -/
theorem bound_power (he : e.IsSound S) (hp : (Unary.power p).checkParameter = .ok ())
    (hc : e.curvature ≠ .constant) {q : ℕ × ℕ} (hq : q ∈ e.positions S) {a b : K} (ha : 0 ≤ a)
    (hb : 0 ≤ b) (hab : a + b = 1) {ρ₁ ρ₂ : Point K}
    (h₁ : ρ₁ ∈ (unary none (.power p) e).region S) (h₂ : ρ₂ ∈ (unary none (.power p) e).region S)
    (h : a • ρ₁ + b • ρ₂ ∈ (unary none (.power p) e).region S) :
    (unary none (.power p) e).curvature.Bound
      ((unary none (.power p) e).entryAt S q (a • ρ₁ + b • ρ₂))
      (a * (unary none (.power p) e).entryAt S q ρ₁ +
        b * (unary none (.power p) e).entryAt S q ρ₂) := by
  obtain ⟨h₁e, hd₁⟩ := mem_region_unary.1 h₁
  obtain ⟨h₂e, hd₂⟩ := mem_region_unary.1 h₂
  obtain ⟨hρe, hd⟩ := mem_region_unary.1 h
  have hmem : ∀ ρ, q ∈ (e.value S ρ).positions := fun ρ => e.positions_value S ρ ▸ hq
  have hbound := Unary.bound_onNumber (S := S) ha hb hab hp rfl (hd q (hmem _)) (hd₁ q (hmem _))
    (hd₂ q (hmem _)) (he.sign _ hρe q (hmem _)) (he.sign _ h₁e q (hmem _))
    (he.sign _ h₂e q (hmem _)) (he.bound hq ha hb hab h₁e h₂e)
  rw [curvature_unary]
  exact .compose_one hc hbound

/-- On a convex part of its region a power of a sound expression is sound. -/
theorem isSoundOn_power (he : e.IsSound S) (hy : e.power p = .ok y) {C : Set (Point K)}
    (hsub : C ⊆ y.region S) (hconvex : y.isDcp = true → Convex K C) : y.IsSoundOn S C := by
  obtain ⟨hp, rfl⟩ := power_eq_ok_iff.1 hy
  have hbound : (unary none (.power p) e).isDcp = true → ∀ q ∈ e.positions S,
      ∀ ρ₁ ∈ C, ∀ ρ₂ ∈ C, ∀ a b : K, 0 ≤ a → 0 ≤ b → a + b = 1 →
        (unary none (.power p) e).curvature.Bound
          ((unary none (.power p) e).entryAt S q (a • ρ₁ + b • ρ₂))
          (a * (unary none (.power p) e).entryAt S q ρ₁ +
            b * (unary none (.power p) e).entryAt S q ρ₂) := by
    intro hdcp q hq ρ₁ h₁ ρ₂ h₂ a b ha hb hab
    by_cases hc : e.curvature = .constant
    · have hsame : ∀ ρ, (unary none (.power p) e).entryAt S q ρ =
          (unary none (.power p) e).entryAt S q ρ₁ := by
        intro ρ
        rw [entryAt, entryAt, value_of_constant (constant_unary.2 hc) ρ ρ₁]
      refine .of_eq ?_ _
      rw [hsame, hsame ρ₂, ← add_mul, hab, one_mul]
    · exact bound_power he hp hc hq ha hb hab (hsub h₁) (hsub h₂)
        (hsub (hconvex hdcp h₁ h₂ ha hb hab))
  exact {
    sign := fun ρ hρ => sign_power he hp (hsub hρ)
    region := hconvex
    convex := fun h q hq => by
      have hdcp := Curvature.isCertified_iff.2 (.inl h)
      refine ⟨hconvex hdcp, fun ρ₁ h₁ ρ₂ h₂ a b ha hb hab => ?_⟩
      exact (hbound hdcp q hq ρ₁ h₁ ρ₂ h₂ a b ha hb hab).below h
    concave := fun h q hq => by
      have hdcp := Curvature.isCertified_iff.2 (.inr h)
      refine ⟨hconvex hdcp, fun ρ₁ h₁ ρ₂ h₂ a b ha hb hab => ?_⟩
      exact (hbound hdcp q hq ρ₁ h₁ ρ₂ h₂ a b ha hb hab).above h }

theorem isSound_power_iff_convex (he : e.IsSound S) (hy : e.power p = .ok y) :
    y.IsSound S ↔ (y.isDcp = true → Convex K (y.region S)) :=
  ⟨fun h => h.region, isSoundOn_power he hy Set.Subset.rfl⟩

/-- A concave expression is in the domain of a power on a convex set. -/
theorem convex_region_of_isConcave {op : Unary} (he : e.IsSound S) (hconcave : e.isConcave = true) :
    Convex K ((unary none op e).region S) := by
  intro ρ₁ h₁ ρ₂ h₂ a b ha hb hab
  obtain ⟨h₁e, hd₁⟩ := mem_region_unary.1 h₁
  obtain ⟨h₂e, hd₂⟩ := mem_region_unary.1 h₂
  have hdcp : e.isDcp = true := Curvature.isCertified_iff.2 (.inr hconcave)
  refine mem_region_unary.2 ⟨he.region hdcp h₁e h₂e ha hb hab, fun q hq => ?_⟩
  have hq : q ∈ e.positions S := e.positions_value S _ ▸ hq
  have hmem : ∀ ρ, q ∈ (e.value S ρ).positions := fun ρ => e.positions_value S ρ ▸ hq
  have hmix := (Unary.isUpperSet_domain op).ordConnected.convex (hd₁ q (hmem ρ₁)) (hd₂ q (hmem ρ₂))
    ha hb hab
  exact Unary.isUpperSet_domain op ((he.bound hq ha hb hab h₁e h₂e).above hconcave) hmix

omit [IsStrictOrderedRing K] in
/-- Where an expression always lies in the domain, nothing is cut off. -/
theorem convex_region_of_domain {op : Unary} (he : e.IsSound S)
    (hdcp : (unary none op e).isDcp = true)
    (hdomain : ∀ ρ ∈ e.region S, (e.value S ρ).All (· ∈ op.domain)) :
    Convex K ((unary none op e).region S) := by
  have heq : (unary none op e).region S = e.region S := by
    ext ρ
    exact mem_region_unary.trans (and_iff_left_of_imp (hdomain ρ))
  rw [heq]
  exact he.region (isDcp_of_mem_args hdcp (List.mem_singleton.2 rfl))

/-- A power of a sound expression is sound where the exponent is at most one or an even integer, and
where the expression is nonnegative or concave by inference. -/
theorem isSound_power (he : e.IsSound S) (hy : e.power p = .ok y)
    (h : Number.exact p ≤ 1 ∨ Number.IsEven (Number.exact p) ∨ e.isNonneg = true ∨
      e.isConcave = true) : y.IsSound S := by
  rw [isSound_power_iff_convex he hy]
  obtain ⟨hp, rfl⟩ := power_eq_ok_iff.1 hy
  intro hdcp
  by_cases hconcave : e.isConcave = true
  · exact convex_region_of_isConcave he hconcave
  by_cases hdomain : (Unary.power p).domain = (Set.univ : Set K)
  · exact convex_region_of_domain he hdcp fun ρ _ q _ => hdomain ▸ Set.mem_univ _
  by_cases hexponent : 1 < Number.exact p ∧ ¬ Number.IsEven (Number.exact p)
  · have hnonneg : e.isNonneg = true := by
      rcases h with h | h | h | h
      · exact absurd h (not_le.2 hexponent.1)
      · exact absurd h hexponent.2
      · exact h
      · exact absurd h hconcave
    refine convex_region_of_domain he hdcp fun ρ hρ q hq => ?_
    have hpos : 0 < Number.exact p := one_pos.trans hexponent.1
    rw [Unary.domain, powerDomain_of_pos hpos hexponent.1.ne' hexponent.2]
    exact (he.sign ρ hρ q hq).nonneg hnonneg
  · -- Every other exponent that leaves something out asks for a concave argument.
    have hcertified : ∀ r, Unary.power p = .power r → 1 < Number.exact r →
        Number.IsEven (Number.exact r) := by
      intro r hr hone
      cases hr
      exact not_not.1 fun hodd => hexponent ⟨hone, hodd⟩
    exact absurd (Unary.isConcave_of_domain hp hcertified hdomain hdcp) hconcave

/-! ## The square of a variable less one -/

/-- Convex, and negative between minus one and one. -/
def gap : Expr := binary none .add (square (var ⟨0, {}⟩)) (neg (const 1 (.scalar 1)))

theorem built_gap : gap.Built := by
  have hsquare : (square (var ⟨0, {}⟩)).Built := .unary (f := .square) (.var _) rfl
  have hone : (neg (const 1 (.scalar 1))).Built := .unary (f := .neg) (.const _ _) rfl
  exact hsquare.binary .add hone rfl

theorem everywhere_gap {P : Expr → Prop} : gap.Everywhere P ↔
    P gap ∧ (P (square (var ⟨0, {}⟩)) ∧ P (var ⟨0, {}⟩)) ∧
      P (neg (const 1 (.scalar 1))) ∧ P (const 1 (.scalar 1)) := by
  rw [gap, everywhere_binary, square, everywhere_unary, everywhere_var, neg, everywhere_unary,
    everywhere_const]

theorem isSound_gap (S : Textbook K) : gap.IsSound S :=
  built_gap.isSound S (everywhere_gap.2 ⟨by decide, ⟨by decide, by decide⟩, by decide, by decide⟩)
    (everywhere_gap.2
      ⟨trivial, ⟨trivial, trivial⟩, trivial, hasFiniteEntries_scalar rfl⟩)
    (everywhere_gap.2 ⟨trivial, ⟨trivial, trivial⟩, trivial, trivial⟩)
    (everywhere_gap.2 ⟨trivial, ⟨trivial, trivial⟩, trivial, trivial⟩)

theorem curvature_gap : gap.curvature = .convex := by rfl

omit [IsStrictOrderedRing K] in
theorem value_gap (S : Textbook K) (t : K) :
    (gap.value S fun _ _ => t).positions = {(0, 0)} ∧
      (gap.value S fun _ _ => t).entry (0, 0) = t ^ 2 - 1 := by
  refine ⟨rfl, ?_⟩
  have hone : (((Number.exact 1 : ℚ) : K)) = 1 := by rw [Number.exact_one, Rat.cast_one]
  calc (gap.value S fun _ _ => t).entry (0, 0)
      = t ^ 2 + -((Number.exact 1 : ℚ) : K) := rfl
    _ = t ^ 2 - 1 := by rw [hone, sub_eq_add_neg]

omit [IsStrictOrderedRing K] in
theorem mem_region_power_gap (S : Textbook K) (hone : 1 < Number.exact p)
    (hodd : ¬ Number.IsEven (Number.exact p)) (t : K) :
    (fun _ _ => t) ∈ (unary none (.power p) gap).region S ↔ 0 ≤ t ^ 2 - 1 := by
  have hgap : (fun _ _ => t) ∈ gap.region S := by
    refine ⟨fun v hv => ?_, everywhere_gap.2 ⟨trivial, ⟨fun _ _ => trivial, trivial⟩,
      fun _ _ => trivial, trivial⟩⟩
    cases List.mem_singleton.1 hv
    exact fun _ _ => Sign.allows_unknown
  obtain ⟨hpositions, hentry⟩ := value_gap S t
  have hpos : 0 < Number.exact p := one_pos.trans hone
  rw [mem_region_unary, and_iff_right hgap, Table.All, hpositions, Unary.domain,
    powerDomain_of_pos hpos hone.ne' hodd]
  simp only [Finset.mem_singleton, forall_eq, hentry, Set.mem_Ici]

/-- The power is certified as convex, and the points where it is defined leave out the origin
between two of them. -/
theorem not_convex_power_gap (S : Textbook K) (hp : (Unary.power p).checkParameter = .ok ())
    (hone : 1 < Number.exact p) (hodd : ¬ Number.IsEven (Number.exact p)) :
    (unary none (.power p) gap).curvature = .convex ∧
      ¬ Convex K ((unary none (.power p) gap).region S) := by
  constructor
  · rw [curvature_unary, curvature_gap]
    cases Unary.powerKind hp with
    | other _ _ _ curvature monotonicity =>
      rw [curvature, monotonicity]
      rfl
    | one value => linarith
    | negative value => linarith
    | root pos lt_one => linarith
    | even _ even => exact absurd even hodd
  · intro hconvex
    have hmem := mem_region_power_gap S hone hodd
    have hmix := hconvex ((hmem 1).2 (by norm_num)) ((hmem (-1)).2 (by norm_num))
      (show (0 : K) ≤ 1 / 2 by norm_num) (show (0 : K) ≤ 1 / 2 by norm_num) (by norm_num)
    have hzero : ((1 / 2 : K) • fun _ _ => 1 : Point K) + ((1 / 2 : K) • fun _ _ => -1 : Point K) =
        fun _ _ => 0 := by
      funext i q
      simp
    rw [hzero, hmem 0] at hmix
    norm_num at hmix

/-- The exponents for which every power of a sound expression is sound. -/
theorem isSound_power_iff (S : Textbook K) (hp : (Unary.power p).checkParameter = .ok ()) :
    (∀ e y : Expr, e.IsSound S → e.power p = .ok y → y.IsSound S) ↔
      Number.exact p ≤ 1 ∨ Number.IsEven (Number.exact p) := by
  constructor
  · intro h
    by_contra hexponent
    rw [not_or, not_le] at hexponent
    obtain ⟨hone, hodd⟩ := hexponent
    obtain ⟨hcurvature, hregion⟩ := not_convex_power_gap S hp hone hodd
    have hsound := h gap _ (isSound_gap S) (power_eq_ok_iff.2 ⟨hp, rfl⟩)
    exact hregion (hsound.region (by rw [isDcp, hcurvature]; rfl))
  · rintro h e y he hy
    exact isSound_power he hy (h.imp_right .inl)

/-! ### The third power -/

theorem exact_three : Number.exact 3 = 3 := by
  have h : (3 : Float).toModel.unpack = .finite .positive (3 * 2 ^ 51) (-51) (by decide) := by rfl
  have hvalue : Number.exact 3 = ((3 * 2 ^ 51 : ℕ) : ℚ) * 2 ^ (-51 : ℤ) := by
    rw [Number.exact, h]
  rw [hvalue]
  norm_num

theorem not_isEven_three : ¬ Number.IsEven 3 := by
  rintro ⟨n, hn⟩
  have h : (3 : ℤ) = 2 * n := by exact_mod_cast hn
  omega

/-- A sound expression whose third power is certified as convex, on points that do not form a convex
set. -/
theorem power_gap_three :
    gap.IsSound RealFunctions.textbook ∧
    gap.power 3 = .ok (unary none (.power 3) gap) ∧
    (unary none (.power 3) gap).isConvex = true ∧
    ¬ Convex ℝ ((unary none (.power 3) gap).region RealFunctions.textbook) := by
  have hodd : ¬ Number.IsEven (Number.exact 3) := exact_three ▸ not_isEven_three
  obtain ⟨hcurvature, hregion⟩ := not_convex_power_gap RealFunctions.textbook (p := 3) rfl
    (by rw [exact_three]; norm_num) hodd
  exact ⟨isSound_gap _, rfl, by rw [isConvex, hcurvature]; rfl, hregion⟩

/-- The exponent three fails for some sound expression. -/
theorem power_three_unsound :
    (Unary.power 3).checkParameter = .ok () ∧
    ¬ ∀ e y : Expr, e.IsSound RealFunctions.textbook → e.power 3 = .ok y →
      y.IsSound RealFunctions.textbook := by
  refine ⟨rfl, fun h => ?_⟩
  rcases (isSound_power_iff RealFunctions.textbook rfl).1 h with h | h
  · rw [exact_three] at h
    norm_num at h
  · rw [exact_three] at h
    exact not_isEven_three h

end Expr

end DisciplinedConvex
