import DisciplinedConvex.Proofs.Meaning.Real
import DisciplinedConvex.Proofs.Meaning.Shape
import DisciplinedConvex.Proofs.Power
import DisciplinedConvex.Proofs.Sign.Basic

/-! # Inferred signs are right

* `Unary.sign_table`, `Binary.sign_table` and `Variadic.sign_table` are one step: an atom makes of
  entries with the signs of its arguments entries with its own sign.
* `Expr.sign_value` is the induction on expressions, and `Expr.entries_of_sign` the statement for
  what the builders make.
-/

namespace DisciplinedConvex
set_option autoImplicit false

variable {K : Type*} [Field K] [LinearOrder K] [IsStrictOrderedRing K] {S : Textbook K}

/-! ## One argument -/

namespace Unary

theorem sign_power {p : Float} {σ : Sign} {t : K} (hp : (power p).checkParameter = .ok ())
    (ht : t ∈ powerDomain (Number.exact p)) (hs : σ.Allows t) :
    ((power p).sign σ).Allows (S.power (Number.exact p) t) := by
  have hmagnitude : 0 < Number.exact p → 0 ≤ S.power (Number.exact p) t →
      σ.magnitude.Allows (S.power (Number.exact p) t) := by
    intro hpos hnonneg
    refine Sign.allows_magnitude hnonneg ?_
    rintro rfl
    rw [Sign.allows_zero.1 hs, S.power_zero _ hpos]
  have hnonneg : 0 < Number.exact p → 0 ≤ t → 0 ≤ S.power (Number.exact p) t := by
    intro hpos ht
    rw [← S.power_zero _ hpos]
    exact S.power_mono _ hpos (Set.mem_Ici.2 le_rfl) (Set.mem_Ici.2 ht) ht
  cases powerKind hp with
  | one value sign =>
    rw [sign, value, S.power_one]
    exact hs
  | negative value sign =>
    rw [sign, Sign.allows_positive]
    exact (S.power_neg_pos _ value t (ht.1 value)).le
  | root pos lt_one sign =>
    rw [sign]
    exact hmagnitude pos (hnonneg pos (ht.2 pos lt_one.ne (not_isEven_of_lt_one pos lt_one)))
  | even one_lt even sign =>
    have hpos : 0 < Number.exact p := by linarith
    rw [sign]
    refine hmagnitude hpos ?_
    rw [← S.power_zero _ hpos]
    exact S.power_even_mono _ hpos even 0 t (by rw [abs_zero]; exact abs_nonneg t)
  | other one_lt odd sign =>
    have hpos : 0 < Number.exact p := by linarith
    rw [sign]
    exact hmagnitude hpos (hnonneg hpos (ht.2 hpos one_lt.ne' odd))

theorem sign_onNumber {op : Unary} {σ : Sign} {t : K} (hp : op.checkParameter = .ok ())
    (hg : op.gauge? S = none) (ht : t ∈ op.domain) (hs : σ.Allows t) :
    (op.sign σ).Allows (op.onNumber S t) := by
  have hzero : σ = .zero → t = 0 := by
    rintro rfl
    exact Sign.allows_zero.1 hs
  have habs : σ.magnitude.Allows |t| :=
    Sign.allows_magnitude (abs_nonneg t) fun h => by rw [hzero h, abs_zero]
  have hsquare : σ.magnitude.Allows (t ^ 2) :=
    Sign.allows_magnitude (sq_nonneg t) fun h => by rw [hzero h, zero_pow two_ne_zero]
  cases op
  case neg => exact hs.neg
  case abs => exact habs
  case norm1 => exact habs
  case square => exact hsquare
  case sumSquares => exact hsquare
  case pos =>
    simp only [sign, onNumber]
    split
    case isTrue h => exact Sign.allows_zero.2 (max_eq_right (hs.nonpos h))
    case isFalse => exact Sign.allows_positive.2 (le_max_right t 0)
  case negPart =>
    simp only [sign, onNumber]
    split
    case isTrue h => exact Sign.allows_zero.2 (max_eq_right (neg_nonpos.2 (hs.nonneg h)))
    case isFalse => exact Sign.allows_positive.2 (le_max_right (-t) 0)
  case sqrt =>
    refine Sign.allows_magnitude ?_ fun h => by rw [hzero h]; exact S.sqrt_zero
    calc (0 : K) = S.sqrt 0 := S.sqrt_zero.symm
      _ ≤ S.sqrt t := S.sqrt_mono (Set.mem_Ici.2 le_rfl) ht ht
  case power p => exact sign_power hp ht hs
  case exp => exact Sign.allows_positive.2 (S.exp_pos t).le
  case log => exact Sign.allows_unknown
  case entropy => exact Sign.allows_unknown
  case norm2 => cases hg
  case normInf => cases hg
  case normFro => cases hg
  all_goals exact hs

omit [IsStrictOrderedRing K] in
theorem sign_of_gauge {op : Unary} {N : Finset (ℕ × ℕ) → (ℕ × ℕ → K) → K}
    (h : op.gauge? S = some N) (σ : Sign) : op.sign σ = σ.magnitude := by
  cases op <;> cases h <;> rfl

theorem sign_table {op : Unary} {x : Table K} {s t : Shape} {σ : Sign}
    (hp : op.checkParameter = .ok ()) (h : op.shape? s = .ok t) (hx : x.HasShape s)
    (hdomain : x.All (· ∈ op.domain)) (hs : x.All σ.Allows) :
    (op.table S x).All (op.sign σ).Allows := by
  cases hg : op.gauge? S with
  | some N =>
    obtain ⟨htable, hgauge⟩ := table_eq_gauge hg x
    rw [htable, Table.all_scalar, sign_of_gauge hg]
    refine Sign.allows_magnitude (hgauge.nonneg _) ?_
    rintro rfl
    exact hgauge.zero _ fun q hq => Sign.allows_zero.1 (hs q hq)
  | none =>
    intro p hmem
    rw [table_eq_sum hg]
    refine Sign.Allows.sum fun q hq => ?_
    have hq := sources_subset hg h hx hmem hq
    exact sign_onNumber hp hg (hdomain q hq) (hs q hq)

end Unary

/-! ## Two arguments -/

namespace Binary

theorem sign_quadOverLin {x y : Table K} {σ : Sign} (hx : x.All σ.Allows)
    (hy : 0 < y.entry (0, 0)) :
    (quadOverLin.table x y).All σ.magnitude.Allows := by
  rw [table, Table.all_scalar]
  refine Sign.allows_magnitude (div_nonneg (Finset.sum_nonneg fun p _ => sq_nonneg _) hy.le) ?_
  rintro rfl
  rw [Finset.sum_eq_zero, zero_div]
  intro p hp
  rw [Sign.allows_zero.1 (hx p hp), zero_pow two_ne_zero]

omit [LinearOrder K] [IsStrictOrderedRing K] in
/-- The table of a quadratic form is the form of its matrix at the column of the first argument. -/
theorem table_quadForm {x : Table K} {v : Value} (h : x.rows = v.shape.rows.toNat) :
    quadForm.table x (v.table K) = .scalar (v.form K fun i => x.entry (i, 0)) := by
  rw [table, Value.form, h]

omit [IsStrictOrderedRing K] in
theorem sign_quadForm {x y : Table K} {σ : Sign} {d : Definiteness} (hcols : x.cols = 1)
    (hx : x.All σ.Allows) (hd : d.sign.Allows ((quadForm.table x y).entry (0, 0))) :
    (quadForm.table x y).All (if σ.isZero then .zero else d.sign).Allows := by
  have hpoint : ∀ τ : Sign, τ.Allows ((quadForm.table x y).entry (0, 0)) →
      (quadForm.table x y).All τ.Allows := fun τ h => Table.all_scalar.2 h
  by_cases hzero : σ.isZero = true
  · have hσ : σ = .zero := by cases σ <;> first | rfl | cases hzero
    subst hσ
    rw [if_pos hzero]
    refine hpoint _ (Sign.allows_zero.2 ?_)
    simp only [table, Table.scalar]
    refine Finset.sum_eq_zero fun i hi => ?_
    refine Finset.sum_eq_zero fun j _ => ?_
    have hmem : (i, 0) ∈ x.positions := by
      rw [Table.mem_positions, hcols]
      exact ⟨Finset.mem_range.1 hi, Nat.zero_lt_one⟩
    rw [Sign.allows_zero.1 (hx _ hmem), zero_mul, zero_mul]
  · rw [if_neg hzero]
    exact hpoint _ hd

theorem sign_product {op : Binary} (hop : op = mul ∨ op = matmul) {x y : Table K} {s t r : Shape}
    {σ τ : Sign} (h : op.shape? s t = .ok r) (hx : x.HasShape s) (hy : y.HasShape t)
    (hsx : x.All σ.Allows) (hsy : y.All τ.Allows) : (op.table x y).All (σ.mul τ).Allows := by
  intro p hp
  rw [table_eq_products hop]
  refine Sign.Allows.sum fun q hq => ?_
  obtain ⟨hqx, hqy⟩ := factors_subset hop h hx hy hp hq
  exact (hsx _ hqx).mul (hsy _ hqy)

end Binary

/-! ## Many arguments -/

namespace Variadic

theorem sign_cons (op : Variadic) (σ τ : Sign) (τs : List Sign) :
    op.sign (σ :: τ :: τs) = op.sign (op.sign [σ, τ] :: τs) := by
  cases op <;> simp [sign, Sign.union, Sign.maximum, Sign.minimum, Bool.and_assoc, Bool.or_assoc]

theorem sign_singleton (op : Variadic) (σ : Sign) : op.sign [σ] = σ := by
  cases op <;> simp [sign, Sign.union, Sign.maximum, Sign.minimum]

omit [IsStrictOrderedRing K] in
theorem sign_combine {op : Variadic} {x y : Table K} {σ τ : Sign} (h : op.Agree x y)
    (hx : x.All σ.Allows) (hy : y.All τ.Allows) : (op.combine x y).All (op.sign [σ, τ]).Allows := by
  have hunion : ∀ a : K, σ.Allows a ∨ τ.Allows a → (Sign.union [σ, τ]).Allows a := by
    intro a ha
    have hboth : Sign.union [σ, τ] =
        .ofBounds (σ.isNonneg && τ.isNonneg) (σ.isNonpos && τ.isNonpos) := by
      simp [Sign.union]
    rw [hboth, Sign.allows_ofBounds, Bool.and_eq_true, Bool.and_eq_true]
    rcases ha with ha | ha
    · exact ⟨fun h => ha.nonneg h.1, fun h => ha.nonpos h.1⟩
    · exact ⟨fun h => ha.nonneg h.2, fun h => ha.nonpos h.2⟩
  cases op with
  | vstack =>
    exact Table.all_above h (hx.imp fun a ha => hunion a (.inl ha))
      (hy.imp fun a ha => hunion a (.inr ha))
  | hstack =>
    exact Table.all_beside h (hx.imp fun a ha => hunion a (.inl ha))
      (hy.imp fun a ha => hunion a (.inr ha))
  | maximum =>
    refine Table.all_broadcast h hx hy fun a b ha hb => ?_
    have hmax : maximum.sign [σ, τ] =
        .ofBounds (σ.isNonneg || τ.isNonneg) (σ.isNonpos && τ.isNonpos) := by
      simp [sign, Sign.maximum]
    rw [hmax, Sign.allows_ofBounds, Bool.or_eq_true, Bool.and_eq_true]
    refine ⟨?_, fun h => max_le (ha.nonpos h.1) (hb.nonpos h.2)⟩
    rintro (h | h)
    · exact le_max_of_le_left (ha.nonneg h)
    · exact le_max_of_le_right (hb.nonneg h)
  | minimum =>
    refine Table.all_broadcast h hx hy fun a b ha hb => ?_
    have hmin : minimum.sign [σ, τ] =
        .ofBounds (σ.isNonneg && τ.isNonneg) (σ.isNonpos || τ.isNonpos) := by
      simp [sign, Sign.minimum]
    rw [hmin, Sign.allows_ofBounds, Bool.or_eq_true, Bool.and_eq_true]
    refine ⟨fun h => le_min (ha.nonneg h.1) (hb.nonneg h.2), ?_⟩
    rintro (h | h)
    · exact min_le_of_left_le (ha.nonpos h)
    · exact min_le_of_right_le (hb.nonpos h)

omit [IsStrictOrderedRing K] in
/-- By induction on the tables, with the sign of what is combined so far. -/
theorem sign_table {op : Variadic} {x : Table K} {ys : List (Table K)} {σ : Sign} {τs : List Sign}
    (h : op.AgreeAll x ys) (hx : x.All σ.Allows)
    (hys : List.Forall₂ (fun y τ => y.All τ.Allows) ys τs) :
    (op.table x ys).All (op.sign (σ :: τs)).Allows := by
  induction hys generalizing x σ with
  | nil =>
    rw [sign_singleton]
    exact hx
  | cons hy _ ih =>
    rw [sign_cons]
    exact ih h.2 (sign_combine h.1 hx hy)

end Variadic

/-! ## Expressions -/

namespace Expr

omit [IsStrictOrderedRing K] in
theorem Everywhere.isValid {e : Expr} (h : e.Everywhere (IsRegular K)) : e.Everywhere IsValid :=
  fun y hy => (h y hy).valid

omit [IsStrictOrderedRing K] in
theorem Everywhere.hasShape {e : Expr} (h : e.Everywhere (IsRegular K)) (S : Textbook K)
    (ρ : Point K) : (e.value S ρ).HasShape e.shape :=
  hasShape_value S ρ h.isValid

omit [IsStrictOrderedRing K] in
theorem sign_form {label : Option Nat} {x : Expr} {id : ℕ} {v : Value}
    (h : (binary label .quadForm x (const id v)).IsClassified K) (z : ℕ → K) :
    (Definiteness.ofMatrix (some v)).sign.Allows (v.form K z) := by
  obtain ⟨hpos, hneg⟩ := h
  rw [Definiteness.ofMatrix]
  cases hd : v.definiteness with
  | positive => exact Sign.allows_positive.2 (hpos hd z)
  | negative => exact Sign.allows_negative.2 (hneg hd z)
  | neither => exact Sign.allows_unknown

/-- Every entry has the inferred sign. -/
theorem sign_value {ρ : Point K} {e : Expr} (he : e.Everywhere (IsRegular K))
    (hρ : ρ ∈ e.region S) : (e.value S ρ).All e.sign.Allows := by
  induction e with
  | var v => exact hρ.1 v (List.mem_singleton.2 rfl)
  | const id v => exact Value.sign_allows he.self.finite
  | unary label op x ih =>
    obtain ⟨hroot, hx⟩ := everywhere_unary.1 he
    obtain ⟨hp, hshape⟩ := isValid_unary.1 hroot.valid
    have hdomain : (x.value S ρ).All (· ∈ op.domain) := (everywhere_unary.1 hρ.2).1
    have hxρ : ρ ∈ x.region S := mem_region_args hρ (List.mem_singleton.2 rfl)
    exact Unary.sign_table hp hshape (hx.hasShape S ρ) hdomain (ih hx hxρ)
  | binary label op x y ihx ihy =>
    obtain ⟨hroot, hx, hy⟩ := everywhere_binary.1 he
    have hshape := isValid_binary.1 hroot.valid
    have hxs := hx.hasShape S ρ
    have hys := hy.hasShape S ρ
    have hsx := ihx hx (mem_region_args hρ List.mem_cons_self)
    have hsy := ihy hy (mem_region_args hρ (List.mem_cons_of_mem _ List.mem_cons_self))
    rw [sign_binary, value]
    cases op with
    | add =>
      have hc := (Binary.of_broadcast (.inl rfl) (· + ·) hshape hxs hys).1
      exact Table.all_broadcast hc hsx hsy fun a b ha hb => ha.add hb
    | mul => exact Binary.sign_product (.inl rfl) hshape hxs hys hsx hsy
    | matmul => exact Binary.sign_product (.inr rfl) hshape hxs hys hsx hsy
    | quadOverLin =>
      have hpos : (y.value S ρ).All (0 < ·) := (everywhere_binary.1 hρ.2).1
      have hscalar := Binary.isScalar_of_quadOverLin hshape hys
      exact Binary.sign_quadOverLin hsx (hpos _ (Table.mem_of_isScalar hscalar))
    | quadForm =>
      obtain ⟨hcols, hrows, -⟩ := Binary.of_quadForm hshape hxs hys
      refine Binary.sign_quadForm hcols hsx ?_
      cases y with
      | const id v =>
        rw [value, Binary.table_quadForm hrows.symm]
        exact sign_form hroot.classified _
      | _ => exact Sign.allows_unknown
  | variadic label op x xs ihx ihxs =>
    obtain ⟨hroot, hargs⟩ := everywhere_variadic.1 he
    have hagree := agreeAll_values S ρ he.isValid
    have hsign : ∀ y ∈ x :: xs, (y.value S ρ).All y.sign.Allows := by
      intro y hy
      have hyρ := mem_region_args hρ hy
      rcases List.mem_cons.1 hy with rfl | hmem
      · exact ihx (hargs _ hy) hyρ
      · exact ihxs y hmem (hargs _ hy) hyρ
    rw [sign_variadic, value, values_eq_map, List.map_cons]
    refine Variadic.sign_table hagree (hsign x List.mem_cons_self) ?_
    rw [List.forall₂_map_left_iff, List.forall₂_map_right_iff, List.forall₂_same]
    exact fun y hy => hsign y (List.mem_cons_of_mem x hy)

/-- The inferred sign is right: an expression that is nonnegative by inference has no negative entry
where it is defined, and one that is nonpositive no positive entry. -/
theorem entries_of_sign (S : Textbook K) {e : Expr} (hb : e.Built)
    (hfits : e.Everywhere FitsWord) (hfinite : e.Everywhere HasFiniteEntries)
    (hclassified : e.Everywhere (IsClassified K)) {ρ : Point K} (hsign : ρ ∈ e.respecting K)
    (hdomain : ρ ∈ e.domain S) :
    (e.sign = .positive ∨ e.sign = .zero → (e.value S ρ).All (0 ≤ ·)) ∧
      (e.sign = .negative ∨ e.sign = .zero → (e.value S ρ).All (· ≤ 0)) := by
  have hall := sign_value (hb.isRegular hfits hfinite hclassified) ⟨hsign, hdomain⟩
  constructor
  · intro h
    refine hall.imp fun t ht => ht.nonneg ?_
    rcases h with h | h <;> rw [h] <;> rfl
  · intro h
    refine hall.imp fun t ht => ht.nonpos ?_
    rcases h with h | h <;> rw [h] <;> rfl

/-! ### The root of a quadratic form -/

def weighted : Expr := binary none .quadForm (var ⟨0, { sign := .negative }⟩) (const 1 (.scalar 1))

theorem built_sqrt_weighted : weighted.sqrt.Built := by
  have hweighted : weighted.Built :=
    (Built.var ⟨0, { sign := .negative }⟩).binary .quadForm (.const 1 (.scalar 1)) rfl
  exact .unary (f := .sqrt) hweighted rfl

theorem everywhere_sqrt_weighted {P : Expr → Prop} : weighted.sqrt.Everywhere P ↔
    P weighted.sqrt ∧ P weighted ∧ P (var ⟨0, { sign := .negative }⟩) ∧
      P (const 1 (.scalar 1)) := by
  rw [sqrt, everywhere_unary, weighted, everywhere_binary, everywhere_var, everywhere_const]

/-- At minus two the form is four, and its root is not negative. -/
theorem entries_sqrt_weighted :
    (weighted.sqrt.value RealFunctions.textbook fun _ _ => -2).All (0 ≤ ·) := by
  have hform : ∀ z : ℕ → ℝ, (Value.scalar 1).form ℝ z = z 0 * z 0 := by
    intro z
    simp [Value.form, Value.table, Value.shape, Shape.scalar, Value.entry]
  refine (entries_of_sign RealFunctions.textbook built_sqrt_weighted
    (everywhere_sqrt_weighted.2 ⟨by decide, by decide, by decide, by decide⟩)
    (everywhere_sqrt_weighted.2 ⟨trivial, trivial, trivial, hasFiniteEntries_scalar rfl⟩)
    (everywhere_sqrt_weighted.2 ⟨trivial, ⟨fun _ z => ?_, fun h => by cases h⟩, trivial, trivial⟩)
    ?_ ?_).1 (.inl rfl)
  · rw [hform]
    exact mul_self_nonneg _
  · intro v hv
    cases List.mem_singleton.1 hv
    intro p _
    exact Sign.allows_negative.2 (by norm_num [Variable.table])
  · refine everywhere_sqrt_weighted.2 ⟨?_, trivial, trivial, trivial⟩
    intro p _
    have hvalue : (weighted.value RealFunctions.textbook fun _ _ => -2).entry p = (-2) * (-2) := by
      rw [weighted, value, value, value, Binary.table_quadForm rfl, hform]
      rfl
    rw [hvalue]
    exact Set.mem_Ici.2 (by norm_num)

end Expr

end DisciplinedConvex
