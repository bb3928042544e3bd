import Mathlib.Algebra.BigOperators.Field
import Mathlib.Tactic.FieldSimp
import DisciplinedConvex.Proofs.Curvature.Number
import DisciplinedConvex.Proofs.Sign.Sound

/-! # Tables on a segment

`Table.OnChord` relates the table of an expression at a mixture of two points to its tables at the
two points, by a curvature. Each kind of atom carries it from its arguments to its result:

* `Unary.onChord_table`,
* `Binary.onChord_add`, `Binary.onChord_product`, `Binary.onChord_quadOverLin` and
  `Binary.onChord_quadForm`,
* `Variadic.onChord_table`.
-/

namespace DisciplinedConvex
set_option autoImplicit false

variable {K : Type*} [Field K] [LinearOrder K]

namespace Table

/-- Position by position, a curvature says what it says of the entry of `z` beside the mixture of
the entries of `x` and `y`. -/
structure OnChord (c : Curvature) (a b : K) (z x y : Table K) : Prop where
  left : x.rows = z.rows ∧ x.cols = z.cols
  right : y.rows = z.rows ∧ y.cols = z.cols
  entry : ∀ p ∈ z.positions, c.Bound (z.entry p) (a * x.entry p + b * y.entry p)

namespace OnChord

variable {c d : Curvature} {a b : K} {z x y z' x' y' : Table K}

theorem imp (h : OnChord c a b z x y)
    (hcd : ∀ t m : K, c.Bound t m → d.Bound t m) : OnChord d a b z x y :=
  ⟨h.left, h.right, fun p hp => hcd _ _ (h.entry p hp)⟩

theorem of_eq (hab : a + b = 1) (hx : z = x) (hy : z = y) (c : Curvature) :
    OnChord c a b z x y := by
  subst hx hy
  refine ⟨⟨rfl, rfl⟩, ⟨rfl, rfl⟩, fun p _ => .of_eq ?_ c⟩
  rw [← add_mul, hab, one_mul]

theorem broadcast {e : Curvature} {f : K → K → K} (h : OnChord c a b z x y)
    (k : OnChord d a b z' x' y') (hz : Compatible z z')
    (hf : ∀ t s u t' s' u' : K, c.Bound t (a * s + b * u) → d.Bound t' (a * s' + b * u') →
      e.Bound (f t t') (a * f s s' + b * f u u')) :
    OnChord e a b (.broadcast f z z') (.broadcast f x x') (.broadcast f y y') where
  left := by
    simp only [Table.broadcast, isScalar_congr h.left, h.left, k.left, and_self]
  right := by
    simp only [Table.broadcast, isScalar_congr h.right, h.right, k.right, and_self]
  entry p hp := by
    obtain ⟨hpz, hpz'⟩ := place_mem hz hp
    simp only [Table.broadcast, place_congr h.left, place_congr h.right, place_congr k.left,
      place_congr k.right]
    exact hf _ _ _ _ _ _ (h.entry _ hpz) (k.entry _ hpz')

theorem above (h : OnChord c a b z x y) (k : OnChord c a b z' x' y') (hc : z.cols = z'.cols) :
    OnChord c a b (.above z z') (.above x x') (.above y y') where
  left := ⟨congrArg₂ (· + ·) h.left.1 k.left.1, h.left.2⟩
  right := ⟨congrArg₂ (· + ·) h.right.1 k.right.1, h.right.2⟩
  entry := by
    rintro ⟨i, j⟩ hp
    simp only [mem_positions, Table.above] at hp
    simp only [Table.above, h.left.1, h.right.1]
    by_cases hi : i < z.rows
    · simp only [hi, if_true]
      exact h.entry _ (mem_positions.2 ⟨hi, hp.2⟩)
    · simp only [hi, if_false]
      exact k.entry _ (mem_positions.2 ⟨by dsimp only; omega, hc ▸ hp.2⟩)

theorem beside (h : OnChord c a b z x y) (k : OnChord c a b z' x' y') (hr : z.rows = z'.rows) :
    OnChord c a b (.beside z z') (.beside x x') (.beside y y') where
  left := ⟨h.left.1, congrArg₂ (· + ·) h.left.2 k.left.2⟩
  right := ⟨h.right.1, congrArg₂ (· + ·) h.right.2 k.right.2⟩
  entry := by
    rintro ⟨i, j⟩ hp
    simp only [mem_positions, Table.beside] at hp
    simp only [Table.beside, h.left.2, h.right.2]
    by_cases hj : j < z.cols
    · simp only [hj, if_true]
      exact h.entry _ (mem_positions.2 ⟨hp.1, hj⟩)
    · simp only [hj, if_false]
      exact k.entry _ (mem_positions.2 ⟨hr ▸ hp.1, by dsimp only; omega⟩)

theorem scalar {t s u : K} (h : c.Bound t (a * s + b * u)) :
    OnChord c a b (.scalar t) (.scalar s) (.scalar u) :=
  ⟨⟨rfl, rfl⟩, ⟨rfl, rfl⟩, fun _ _ => h⟩

end OnChord

end Table

variable [IsStrictOrderedRing K] {a b : K}

theorem Sign.Allows.mix {σ : Sign} {s t : K} (ha : 0 ≤ a) (hb : 0 ≤ b) (hs : σ.Allows s)
    (ht : σ.Allows t) : σ.Allows (a * s + b * t) := by
  constructor
  · intro h
    exact add_nonneg (mul_nonneg ha (hs.nonneg h)) (mul_nonneg hb (ht.nonneg h))
  · intro h
    exact add_nonpos (mul_nonpos_of_nonneg_of_nonpos ha (hs.nonpos h))
      (mul_nonpos_of_nonneg_of_nonpos hb (ht.nonpos h))

section

variable (ha : 0 ≤ a) (hb : 0 ≤ b) (hab : a + b = 1)

include ha hb hab

/-! ## One argument -/

namespace Unary

variable {S : Textbook K} {op : Unary} {c : Curvature} {σ : Sign} {z x y : Table K} {s r : Shape}

omit [Field K] [LinearOrder K] [IsStrictOrderedRing K] ha hb hab in
theorem sources_congr (op : Unary) (h : x.rows = z.rows ∧ x.cols = z.cols) :
    op.sources x = op.sources z := by
  funext p
  cases op <;> simp only [sources, reshaped, Table.positions_congr h, h.1, h.2]

/-- An entry of the argument at the mixture goes through the function in two steps: to the mixture
of the arguments by monotonicity, and on to the mixture of the values by curvature. -/
theorem bound_onNumber (hp : op.checkParameter = .ok ()) (hg : op.gauge? S = none) {t u v : K}
    (ht : t ∈ op.domain) (hu : u ∈ op.domain) (hv : v ∈ op.domain) (hσt : σ.Allows t)
    (hσu : σ.Allows u) (hσv : σ.Allows v) (h : c.Bound t (a * u + b * v)) :
    ((op.monotonicity.carry c σ).add op.curvature).Bound (op.onNumber S t)
      (a * op.onNumber S u + b * op.onNumber S v) := by
  have hmix : a * u + b * v ∈ op.domain :=
    (isUpperSet_domain op).ordConnected.convex hu hv ha hb hab
  have hcarry := Monotonicity.bound_carry (monotonicity_onNumber hp hg) ht hmix hσt
    (hσu.mix ha hb hσv) h
  exact hcarry.trans ((curvature_onNumber hp hg).bound hu hv ha hb hab)

/-- The same for a norm, whose entries go through the absolute value first. -/
theorem bound_gauge {T : Finset (ℕ × ℕ)} {N : (ℕ × ℕ → K) → K} (hN : IsGauge T N)
    {t u v : ℕ × ℕ → K} (hσt : ∀ p ∈ T, σ.Allows (t p)) (hσu : ∀ p ∈ T, σ.Allows (u p))
    (hσv : ∀ p ∈ T, σ.Allows (v p)) (h : ∀ p ∈ T, c.Bound (t p) (a * u p + b * v p)) :
    ((Monotonicity.signed.carry c σ).add .convex).Bound (N t) (a * N u + b * N v) := by
  have habs : ∀ p ∈ T, (Monotonicity.signed.carry c σ).Bound |t p| |a * u p + b * v p| :=
    fun p hp => Monotonicity.bound_carry (signed_abs Set.univ) trivial trivial (hσt p hp)
      ((hσu p hp).mix ha hb (hσv p hp)) (h p hp)
  have hcarry : (Monotonicity.signed.carry c σ).Bound (N t) (N fun p => a * u p + b * v p) :=
    ⟨fun hc => hN.mono _ _ fun p hp => (habs p hp).below hc,
      fun hc => hN.mono _ _ fun p hp => (habs p hp).above hc⟩
  refine hcarry.trans ⟨fun _ => ?_, (nomatch ·)⟩
  exact hN.convex.2 (Set.mem_univ u) (Set.mem_univ v) ha hb hab

omit [IsStrictOrderedRing K] ha hb hab in
theorem curvature_of_gauge {N : Finset (ℕ × ℕ) → (ℕ × ℕ → K) → K} (h : op.gauge? S = some N) :
    op.curvature = .convex ∧ op.monotonicity = .signed := by
  cases op <;> cases h <;> exact ⟨rfl, rfl⟩

theorem onChord_table (hp : op.checkParameter = .ok ()) (hr : op.shape? s = .ok r)
    (hz : z.HasShape s) (hσz : z.All σ.Allows) (hσx : x.All σ.Allows) (hσy : y.All σ.Allows)
    (hdz : z.All (· ∈ op.domain)) (hdx : x.All (· ∈ op.domain)) (hdy : y.All (· ∈ op.domain))
    (hc : c ≠ .constant) (h : Table.OnChord c a b z x y) :
    Table.OnChord (op.curvature.compose [(op.monotonicity, c, σ)]) a b
      (op.table S z) (op.table S x) (op.table S y) := by
  have hx : x.HasShape s := ⟨h.left.1.trans hz.rows, h.left.2.trans hz.cols⟩
  have hy : y.HasShape s := ⟨h.right.1.trans hz.rows, h.right.2.trans hz.cols⟩
  rw [Table.All, Table.positions_congr h.left] at hσx hdx
  rw [Table.All, Table.positions_congr h.right] at hσy hdy
  refine ⟨(hasShape_table S hr hx).congr (hasShape_table S hr hz),
    (hasShape_table S hr hy).congr (hasShape_table S hr hz), fun p hmem => ?_⟩
  refine .compose_one hc ?_
  cases hg : op.gauge? S with
  | some N =>
    obtain ⟨hcurv, hmono⟩ := curvature_of_gauge hg
    obtain ⟨htz, hN⟩ := table_eq_gauge hg z
    rw [htz, (table_eq_gauge hg x).1, (table_eq_gauge hg y).1, hcurv, hmono,
      Table.positions_congr h.left, Table.positions_congr h.right]
    exact bound_gauge ha hb hab hN hσz hσx hσy h.entry
  | none =>
    rw [table_eq_sum hg, table_eq_sum hg, table_eq_sum hg, sources_congr op h.left,
      sources_congr op h.right, Finset.mul_sum, Finset.mul_sum, ← Finset.sum_add_distrib]
    refine .sum fun q hq => ?_
    have hq := sources_subset hg hr hz hmem hq
    exact bound_onNumber ha hb hab hp hg (hdz q hq) (hdx q hq) (hdy q hq) (hσz q hq) (hσx q hq)
      (hσy q hq) (h.entry q hq)

end Unary

/-! ## Two arguments -/

namespace Binary

variable {c d : Curvature} {σ τ : Sign} {z x y z' x' y' : Table K}

omit ha hb hab in
theorem onChord_add (hz : z.Compatible z') (hc : c ≠ .constant ∨ d ≠ .constant)
    (h : Table.OnChord c a b z x y) (k : Table.OnChord d a b z' x' y') :
    Table.OnChord (Curvature.affine.compose [(.increasing, c, σ), (.increasing, d, τ)]) a b
      (add.table z z') (add.table x x') (add.table y y') := by
  refine h.broadcast k hz fun t s u t' s' u' ht ht' => ?_
  refine .compose_two hc (((ht.add ht').trans (.of_eq ?_ .affine)))
  ring

omit [Field K] [LinearOrder K] [IsStrictOrderedRing K] ha hb hab in
theorem factors_congr (op : Binary) (h : x.rows = z.rows ∧ x.cols = z.cols)
    (h' : x'.rows = z'.rows ∧ x'.cols = z'.cols) : op.factors x x' = op.factors z z' := by
  funext p
  simp only [factors, Table.isScalar_congr h, Table.isScalar_congr h', Table.place_congr h,
    Table.place_congr h', h.2]

omit ha hb hab in
theorem onChord_constant_mul {op : Binary} (hop : op = mul ∨ op = matmul) {k : Table K}
    {s t r : Shape} (hr : op.shape? s t = .ok r) (hk : k.HasShape s) (hz : z.HasShape t)
    (hσ : k.All σ.Allows) (h : Table.OnChord c a b z x y) :
    Table.OnChord ((Monotonicity.scaledBy σ).carry c τ) a b (op.table k z) (op.table k x)
      (op.table k y) := by
  have hx : x.HasShape t := ⟨h.left.1.trans hz.rows, h.left.2.trans hz.cols⟩
  have hy : y.HasShape t := ⟨h.right.1.trans hz.rows, h.right.2.trans hz.cols⟩
  refine ⟨(hasShape_table hr hk hx).congr (hasShape_table hr hk hz),
    (hasShape_table hr hk hy).congr (hasShape_table hr hk hz), fun p hp => ?_⟩
  rw [table_eq_products hop, table_eq_products hop, table_eq_products hop,
    factors_congr op (hk.congr hk) h.left, factors_congr op (hk.congr hk) h.right,
    Finset.mul_sum, Finset.mul_sum, ← Finset.sum_add_distrib]
  refine .sum fun q hq => ?_
  obtain ⟨hqk, hqz⟩ := factors_subset hop hr hk hz hp hq
  have hscaled := Monotonicity.bound_scaledBy (τ := τ) (hσ _ hqk) (h.entry _ hqz)
  have hmix : k.entry q.1 * (a * x.entry q.2 + b * y.entry q.2) =
      a * (k.entry q.1 * x.entry q.2) + b * (k.entry q.1 * y.entry q.2) := by ring
  rwa [hmix] at hscaled

omit ha hb hab in
theorem onChord_mul_constant {op : Binary} (hop : op = mul ∨ op = matmul) {k : Table K}
    {s t r : Shape} (hr : op.shape? s t = .ok r) (hz : z.HasShape s) (hk : k.HasShape t)
    (hσ : k.All σ.Allows) (h : Table.OnChord c a b z x y) :
    Table.OnChord ((Monotonicity.scaledBy σ).carry c τ) a b (op.table z k) (op.table x k)
      (op.table y k) := by
  have hx : x.HasShape s := ⟨h.left.1.trans hz.rows, h.left.2.trans hz.cols⟩
  have hy : y.HasShape s := ⟨h.right.1.trans hz.rows, h.right.2.trans hz.cols⟩
  refine ⟨(hasShape_table hr hx hk).congr (hasShape_table hr hz hk),
    (hasShape_table hr hy hk).congr (hasShape_table hr hz hk), fun p hp => ?_⟩
  rw [table_eq_products hop, table_eq_products hop, table_eq_products hop,
    factors_congr op h.left (hk.congr hk), factors_congr op h.right (hk.congr hk),
    Finset.mul_sum, Finset.mul_sum, ← Finset.sum_add_distrib]
  refine .sum fun q hq => ?_
  obtain ⟨hqz, hqk⟩ := factors_subset hop hr hz hk hp hq
  have hscaled := Monotonicity.bound_scaledBy (τ := τ) (hσ _ hqk) (h.entry _ hqz)
  have hmix : k.entry q.2 * (a * x.entry q.1 + b * y.entry q.1) =
      a * (x.entry q.1 * k.entry q.2) + b * (y.entry q.1 * k.entry q.2) := by ring
  rwa [hmix, mul_comm] at hscaled

/-! ### Squares over a number -/

/-- A square over a positive number is convex in both together. -/
theorem sq_div_le {s t u v : K} (hu : 0 < u) (hv : 0 < v) :
    (a * s + b * t) ^ 2 / (a * u + b * v) ≤ a * (s ^ 2 / u) + b * (t ^ 2 / v) := by
  have hpos : 0 < a * u + b * v := (convex_Ioi 0) hu hv ha hb hab
  have hrest : 0 ≤ a * b * (s * v - t * u) ^ 2 / (u * v) :=
    div_nonneg (mul_nonneg (mul_nonneg ha hb) (sq_nonneg _)) (mul_pos hu hv).le
  rw [div_le_iff₀ hpos]
  calc (a * s + b * t) ^ 2
      ≤ (a * s + b * t) ^ 2 + a * b * (s * v - t * u) ^ 2 / (u * v) := le_add_of_nonneg_right hrest
    _ = (a * (s ^ 2 / u) + b * (t ^ 2 / v)) * (a * u + b * v) := by
      field_simp
      ring

/-- In three steps: the squares by the sign of the first argument, the quotient by the second
argument, and both together by convexity. -/
theorem onChord_quadOverLin (hσz : z.All σ.Allows) (hσx : x.All σ.Allows) (hσy : y.All σ.Allows)
    (hτz : z'.All τ.Allows) (hτx : x'.All τ.Allows) (hτy : y'.All τ.Allows) (hscalar : z'.IsScalar)
    (hz : z'.All (0 < ·)) (hx : x'.All (0 < ·)) (hy : y'.All (0 < ·))
    (hc : c ≠ .constant ∨ d ≠ .constant) (h : Table.OnChord c a b z x y)
    (k : Table.OnChord d a b z' x' y') :
    Table.OnChord (Curvature.convex.compose [(.signed, c, σ), (.decreasing, d, τ)]) a b
      (quadOverLin.table z z') (quadOverLin.table x x') (quadOverLin.table y y') := by
  rw [Table.All, Table.positions_congr h.left] at hσx
  rw [Table.All, Table.positions_congr h.right] at hσy
  have hmem := Table.mem_of_isScalar hscalar
  have hmemx : (0, 0) ∈ x'.positions := Table.positions_congr k.left ▸ hmem
  have hmemy : (0, 0) ∈ y'.positions := Table.positions_congr k.right ▸ hmem
  have hw := hz _ hmem
  have hu := hx _ hmemx
  have hv := hy _ hmemy
  have hmix : 0 < a * x'.entry (0, 0) + b * y'.entry (0, 0) := (convex_Ioi 0) hu hv ha hb hab
  refine Table.OnChord.scalar (.compose_two hc ?_)
  rw [Table.positions_congr h.left, Table.positions_congr h.right]
  have hsquares : (Monotonicity.signed.carry c σ).Bound (∑ p ∈ z.positions, z.entry p ^ 2)
      (∑ p ∈ z.positions, (a * x.entry p + b * y.entry p) ^ 2) := by
    refine .sum fun p hp => ?_
    exact Monotonicity.bound_carry (Unary.signed_sq Set.univ) trivial trivial (hσz p hp)
      ((hσx p hp).mix ha hb (hσy p hp)) (h.entry p hp)
  have hanti : Monotonicity.decreasing.HoldsOn (Set.Ioi (0 : K)) fun w =>
      (∑ p ∈ z.positions, (a * x.entry p + b * y.entry p) ^ 2) / w := by
    intro s hs t _ hst
    exact div_le_div_of_nonneg_left (Finset.sum_nonneg fun p _ => sq_nonneg _) hs hst
  have hquotient := Monotonicity.bound_carry hanti hw hmix (hτz _ hmem)
    ((hτx _ hmemx).mix ha hb (hτy _ hmemy)) (k.entry _ hmem)
  refine ((hsquares.div_right hw.le).trans hquotient).trans ⟨fun _ => ?_, (nomatch ·)⟩
  simp only [Finset.sum_div, Finset.mul_sum]
  rw [← Finset.sum_add_distrib]
  exact Finset.sum_le_sum fun p _ => sq_div_le ha hb hab hu hv

/-! ### Quadratic forms -/

omit [LinearOrder K] [IsStrictOrderedRing K] ha hb in
theorem form_mix (v : Value) (s t : ℕ → K) :
    a * v.form K s + b * v.form K t - v.form K (fun i => a * s i + b * t i) =
      a * b * v.form K fun i => s i - t i := by
  have hb : b = 1 - a := by rw [← hab]; ring
  subst hb
  simp only [Value.form, Finset.mul_sum]
  rw [← Finset.sum_add_distrib, ← Finset.sum_sub_distrib]
  refine Finset.sum_congr rfl fun i _ => ?_
  rw [← Finset.sum_add_distrib, ← Finset.sum_sub_distrib]
  refine Finset.sum_congr rfl fun j _ => ?_
  ring

theorem bound_form {v : Value} (hpos : v.definiteness = .positive → ∀ w, 0 ≤ v.form K w)
    (hneg : v.definiteness = .negative → ∀ w, v.form K w ≤ 0) (s t : ℕ → K) :
    v.definiteness.curvature.Bound (v.form K fun i => a * s i + b * t i)
      (a * v.form K s + b * v.form K t) := by
  have hmix := form_mix hab v s t
  have hweight := mul_nonneg ha hb
  cases hd : v.definiteness with
  | positive =>
    have hnonneg := mul_nonneg hweight (hpos hd fun i => s i - t i)
    exact ⟨fun _ => by linarith, (nomatch ·)⟩
  | negative =>
    have hnonpos := mul_nonpos_of_nonneg_of_nonpos hweight (hneg hd fun i => s i - t i)
    exact ⟨(nomatch ·), fun _ => by linarith⟩
  | neither => exact Curvature.bound_unknown

theorem onChord_quadForm {v : Value} (hpos : v.definiteness = .positive → ∀ w, 0 ≤ v.form K w)
    (hneg : v.definiteness = .negative → ∀ w, v.form K w ≤ 0)
    (hrows : z.rows = v.shape.rows.toNat) (hcols : z.cols = 1) (hc : c ≠ .constant)
    (h : Table.OnChord c a b z x y) :
    Table.OnChord (v.definiteness.curvature.compose
        [(.nonmonotonic, c, σ), (.nonmonotonic, .constant, τ)]) a b
      (quadForm.table z (v.table K)) (quadForm.table x (v.table K))
      (quadForm.table y (v.table K)) := by
  rw [table_quadForm hrows, table_quadForm (h.left.1.trans hrows),
    table_quadForm (h.right.1.trans hrows)]
  refine .scalar (.compose_two (.inl hc) ?_)
  have hpoint : (Monotonicity.nonmonotonic.carry c σ).Bound (v.form K fun i => z.entry (i, 0))
      (v.form K fun i => a * x.entry (i, 0) + b * y.entry (i, 0)) := by
    unfold Monotonicity.carry Monotonicity.resolve
    by_cases haffine : c.isAffine = true
    · rw [if_pos haffine]
      refine .of_eq ?_ _
      have hentry : ∀ i ∈ Finset.range v.shape.rows.toNat,
          z.entry (i, 0) = a * x.entry (i, 0) + b * y.entry (i, 0) := by
        intro i hi
        refine (h.entry (i, 0) (Table.mem_positions.2 ?_)).eq haffine
        rw [hrows, hcols]
        exact ⟨Finset.mem_range.1 hi, Nat.zero_lt_one⟩
      refine Finset.sum_congr rfl fun i hi => Finset.sum_congr rfl fun j hj => ?_
      dsimp only
      rw [hentry i hi, hentry j hj]
    · rw [if_neg haffine]
      exact Curvature.bound_unknown
  have hmatrix : (Monotonicity.nonmonotonic.carry .constant τ).Bound
      (v.form K fun i => a * x.entry (i, 0) + b * y.entry (i, 0)) _ := .of_eq rfl _
  exact (hpoint.trans hmatrix).trans (bound_form ha hb hab hpos hneg _ _)

end Binary

/-! ## Many arguments -/

namespace Variadic

variable {op : Variadic} {z x y z' x' y' : Table K}

omit hab in
/-- One step of the fold keeps the curvature of the atom. -/
theorem onChord_combine (hagree : op.Agree z z') (h : Table.OnChord op.curvature a b z x y)
    (k : Table.OnChord op.curvature a b z' x' y') :
    Table.OnChord op.curvature a b (op.combine z z') (op.combine x x') (op.combine y y') := by
  cases op with
  | vstack => exact h.above k hagree
  | hstack => exact h.beside k hagree
  | maximum =>
    refine h.broadcast k hagree fun t s u t' s' u' ht ht' => ⟨fun hc => ?_, (nomatch ·)⟩
    refine max_le ((ht.below hc).trans ?_) ((ht'.below hc).trans ?_)
    · exact add_le_add (mul_le_mul_of_nonneg_left (le_max_left s s') ha)
        (mul_le_mul_of_nonneg_left (le_max_left u u') hb)
    · exact add_le_add (mul_le_mul_of_nonneg_left (le_max_right s s') ha)
        (mul_le_mul_of_nonneg_left (le_max_right u u') hb)
  | minimum =>
    refine h.broadcast k hagree fun t s u t' s' u' ht ht' => ⟨(nomatch ·), fun hc => ?_⟩
    refine le_min (le_trans ?_ (ht.above hc)) (le_trans ?_ (ht'.above hc))
    · exact add_le_add (mul_le_mul_of_nonneg_left (min_le_left s s') ha)
        (mul_le_mul_of_nonneg_left (min_le_left u u') hb)
    · exact add_le_add (mul_le_mul_of_nonneg_left (min_le_right s s') ha)
        (mul_le_mul_of_nonneg_left (min_le_right u u') hb)

omit hab in
/-- The whole fold, by induction on the arguments with what is combined so far. -/
theorem onChord_table {ι : Type*} {l : List ι} {f g h : ι → Table K}
    (hagree : op.AgreeAll z (l.map f)) (hz : Table.OnChord op.curvature a b z x y)
    (hl : ∀ i ∈ l, Table.OnChord op.curvature a b (f i) (g i) (h i)) :
    Table.OnChord op.curvature a b (op.table z (l.map f)) (op.table x (l.map g))
      (op.table y (l.map h)) := by
  induction l generalizing z x y with
  | nil => exact hz
  | cons i l ih =>
    obtain ⟨hi, hrest⟩ := hagree
    refine ih hrest (onChord_combine ha hb hi hz (hl i List.mem_cons_self)) fun j hj => ?_
    exact hl j (List.mem_cons_of_mem i hj)

end Variadic

end

omit [Field K] [IsStrictOrderedRing K] in
/-- Every argument of a certified application has the curvature of the atom, and so has the
application. -/
theorem Variadic.of_certified {op : Variadic} {args : List (Curvature × Sign)}
    (hne : ∃ q ∈ args, q.1 ≠ .constant)
    (h : (op.curvature.compose
      (args.map fun q => (op.monotonicity, q.1, q.2))).isCertified = true) :
    (∀ q ∈ args, ∀ t m : K, q.1.Bound t m → op.curvature.Bound t m) ∧
      ∀ t m : K, op.curvature.Bound t m →
        (op.curvature.compose (args.map fun q => (op.monotonicity, q.1, q.2))).Bound t m := by
  have hargs : ∃ p ∈ args.map fun q => (op.monotonicity, q.1, q.2), p.2.1 ≠ .constant := by
    obtain ⟨q, hq, hc⟩ := hne
    exact ⟨_, List.mem_map_of_mem hq, hc⟩
  constructor
  · intro q hq t m hb
    have hmem : (op.monotonicity, q.1, q.2) ∈ args.map fun q => (op.monotonicity, q.1, q.2) :=
      List.mem_map_of_mem hq
    have hpart : (op.curvature.isConvex = true ∧ (op.monotonicity.carry q.1 q.2).isConvex = true) ∨
        (op.curvature.isConcave = true ∧ (op.monotonicity.carry q.1 q.2).isConcave = true) := by
      rcases Curvature.isCertified_iff.1 h with h | h
      · obtain ⟨hbase, hcarry⟩ := Curvature.isConvex_of_compose hargs h
        exact .inl ⟨hbase, hcarry _ hmem⟩
      · obtain ⟨hbase, hcarry⟩ := Curvature.isConcave_of_compose hargs h
        exact .inr ⟨hbase, hcarry _ hmem⟩
    have hstack : (Monotonicity.nonmonotonic.carry q.1 q.2).isCertified = true →
        Curvature.affine.Bound t m := by
      intro hcertified
      unfold Monotonicity.carry Monotonicity.resolve at hcertified
      by_cases haffine : q.1.isAffine = true
      · exact .of_eq (hb.eq haffine) _
      · rw [if_neg haffine] at hcertified
        cases hcertified
    cases op with
    | vstack => exact hstack (Curvature.isCertified_iff.2 (hpart.imp And.right And.right))
    | hstack => exact hstack (Curvature.isCertified_iff.2 (hpart.imp And.right And.right))
    | maximum =>
      rcases hpart with ⟨-, hconvex⟩ | ⟨hbase, -⟩
      · exact hb.imp (fun _ => hconvex) (nomatch ·)
      · cases hbase
    | minimum =>
      rcases hpart with ⟨hbase, -⟩ | ⟨-, hconcave⟩
      · cases hbase
      · exact hb.imp (nomatch ·) fun _ => hconcave
  · intro t m hb
    exact hb.imp (fun hd => (Curvature.isConvex_of_compose hargs hd).1) fun hd =>
      (Curvature.isConcave_of_compose hargs hd).1

end DisciplinedConvex
