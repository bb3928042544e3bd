import DisciplinedConvex.Proofs.Curvature.Table
import DisciplinedConvex.Proofs.Meaning.Real

/-! # Inferred curvatures are right

* `Expr.value_of_constant` says that the value of a constant expression is the same at all points.
* `Expr.onChord_value` is the induction on certified expressions: the mixture of two points of the
  region of an expression lies in the region, and the value there is bounded as the curvature says.
* `Expr.convex_region` and `Expr.entries_of_curvature` are the statements in terms of convex sets
  and functions.
-/

namespace DisciplinedConvex
set_option autoImplicit false

/-! ## No atom is constant -/

theorem Unary.curvature_ne_constant (op : Unary) : op.curvature ≠ .constant := by
  cases op
  case power p =>
    simp only [curvature]
    split
    · exact (nomatch ·)
    · split <;> exact (nomatch ·)
  all_goals exact (nomatch ·)

theorem Binary.curvature_ne_constant (op : Binary) (c d : Curvature) (v : Option Value) :
    op.curvature c d v ≠ .constant := by
  have hproduct : (if c.isConstant || d.isConstant then .affine else .unknown : Curvature) ≠
      .constant := by
    split <;> exact (nomatch ·)
  cases op with
  | add => exact (nomatch ·)
  | mul => exact hproduct
  | matmul => exact hproduct
  | quadOverLin => exact (nomatch ·)
  | quadForm =>
    simp only [curvature]
    cases Definiteness.ofMatrix v <;> exact (nomatch ·)

theorem Variadic.curvature_ne_constant (op : Variadic) : op.curvature ≠ .constant := by
  cases op <;> exact (nomatch ·)

/-- A second argument of `quadOverLin` that is not constant has to be concave. -/
theorem Binary.isConcave_of_quadOverLin {c d : Curvature} {σ τ : Sign} (hd : d ≠ .constant)
    (h : (Curvature.convex.compose [(.signed, c, σ), (.decreasing, d, τ)]).isCertified = true) :
    d.isConcave = true := by
  have hmem : (Monotonicity.decreasing, d, τ) ∈
      [(Monotonicity.signed, c, σ), (.decreasing, d, τ)] :=
    List.mem_cons_of_mem _ List.mem_cons_self
  rcases Curvature.isCertified_iff.1 h with h | h
  · have hcarry := (Curvature.isConvex_of_compose ⟨_, hmem, hd⟩ h).2 _ hmem
    rwa [← Curvature.isConvex_negate]
  · cases (Curvature.isConcave_of_compose ⟨_, hmem, hd⟩ h).1

variable {K : Type*} [Field K] [LinearOrder K] {S : Textbook K}

namespace Expr

/-! ### Constants -/

theorem constant_unary {label : Option Nat} {op : Unary} {x : Expr} :
    (unary label op x).curvature = .constant ↔ x.curvature = .constant := by
  rw [curvature_unary, Curvature.compose_eq_constant op.curvature_ne_constant,
    List.forall_mem_singleton]

theorem constant_binary {label : Option Nat} {op : Binary} {x y : Expr} :
    (binary label op x y).curvature = .constant ↔
      x.curvature = .constant ∧ y.curvature = .constant := by
  rw [curvature_binary, Curvature.compose_eq_constant (op.curvature_ne_constant _ _ _),
    List.forall_mem_cons, List.forall_mem_singleton]

theorem constant_variadic {label : Option Nat} {op : Variadic} {x : Expr} {xs : List Expr} :
    (variadic label op x xs).curvature = .constant ↔
      x.curvature = .constant ∧ ∀ y ∈ xs, y.curvature = .constant := by
  rw [curvature_variadic, Curvature.compose_eq_constant op.curvature_ne_constant,
    List.forall_mem_map, List.forall_mem_cons]

/-- A constant expression has one value. -/
theorem value_of_constant {e : Expr} (h : e.curvature = .constant) (ρ σ : Point K) :
    e.value S ρ = e.value S σ := by
  induction e with
  | var v => cases h
  | const id v => rfl
  | unary label op x ih => rw [value, value, ih (constant_unary.1 h)]
  | binary label op x y ihx ihy =>
    obtain ⟨hx, hy⟩ := constant_binary.1 h
    rw [value, value, ihx hx, ihy hy]
  | variadic label op x xs ihx ihxs =>
    obtain ⟨hx, hxs⟩ := constant_variadic.1 h
    rw [value, value, values_eq_map, values_eq_map, ihx hx,
      List.map_congr_left fun y hy => ihxs y hy (hxs y hy)]

theorem mem_domain_iff {ρ : Point K} {e : Expr} :
    ρ ∈ e.domain S ↔ e.IsDefinedAt S ρ ∧ ∀ x ∈ e.args, ρ ∈ x.domain S :=
  everywhere_iff

theorem isDcp_of_mem_args {e x : Expr} (h : e.isDcp = true) (hx : x ∈ e.args) :
    x.isDcp = true := by
  cases e with
  | var v => cases hx
  | const id v => cases hx
  | unary label op y =>
    rw [args, List.mem_singleton] at hx
    subst hx
    rw [isDcp, curvature_unary] at h
    exact Curvature.isCertified_of_compose h _ List.mem_cons_self
  | binary label op y z =>
    rw [isDcp, curvature_binary] at h
    simp only [args, List.mem_cons, List.not_mem_nil, or_false] at hx
    rcases hx with rfl | rfl
    · exact Curvature.isCertified_of_compose h _ List.mem_cons_self
    · exact Curvature.isCertified_of_compose h _ (List.mem_cons_of_mem _ List.mem_cons_self)
  | variadic label op y ys =>
    rw [isDcp, curvature_variadic] at h
    exact Curvature.isCertified_of_compose h _
      (List.mem_map_of_mem (f := fun y => (op.monotonicity, y.curvature, y.sign)) hx)

/-! ## One node

The point `ρ` is one where the arguments have been looked at already; it will be the mixture of
`ρ₁` and `ρ₂`. -/

variable [IsStrictOrderedRing K] {a b : K} (ha : 0 ≤ a) (hb : 0 ≤ b) (hab : a + b = 1)
  {ρ ρ₁ ρ₂ : Point K} {label : Option Nat} {x y : Expr}

include ha hb hab

theorem onChord_unary {op : Unary} (he : (unary label op x).Everywhere (IsRegular K))
    (hpower : (unary label op x).HasCertifiedPower) (h₁ : ρ₁ ∈ (unary label op x).region S)
    (h₂ : ρ₂ ∈ (unary label op x).region S) (hdcp : (unary label op x).isDcp = true)
    (hρ : ρ ∈ x.region S)
    (h : Table.OnChord x.curvature a b (x.value S ρ) (x.value S ρ₁) (x.value S ρ₂)) :
    (unary label op x).IsDefinedAt S ρ ∧ Table.OnChord (unary label op x).curvature a b
      ((unary label op x).value S ρ) ((unary label op x).value S ρ₁)
      ((unary label op x).value S ρ₂) := by
  obtain ⟨hroot, hx⟩ := everywhere_unary.1 he
  obtain ⟨hp, hshape⟩ := isValid_unary.1 hroot.valid
  have hd₁ : (x.value S ρ₁).All (· ∈ op.domain) := (everywhere_unary.1 h₁.2).1
  have hd₂ : (x.value S ρ₂).All (· ∈ op.domain) := (everywhere_unary.1 h₂.2).1
  rw [isDcp, curvature_unary] at hdcp
  by_cases hc : x.curvature = .constant
  · have hv₁ := value_of_constant (S := S) hc ρ ρ₁
    have hv₂ := value_of_constant (S := S) hc ρ ρ₂
    refine ⟨by rwa [IsDefinedAt, hv₁], .of_eq hab ?_ ?_ _⟩
    · rw [value, value, hv₁]
    · rw [value, value, hv₂]
  · have hd : (x.value S ρ).All (· ∈ op.domain) := by
      by_cases hdomain : op.domain = (Set.univ : Set K)
      · rw [hdomain]
        exact fun _ _ => Set.mem_univ _
      · have hpowers : ∀ p, op = .power p → 1 < Number.exact p →
            Number.IsEven (Number.exact p) := by
          rintro p rfl
          exact hpower
        -- A concave argument is above the mixture, and the domain is closed upwards.
        have hconcave := Unary.isConcave_of_domain hp hpowers hdomain hdcp
        intro q hq
        have hmix := (Unary.isUpperSet_domain op).ordConnected.convex
          (hd₁ q (Table.positions_congr h.left ▸ hq)) (hd₂ q (Table.positions_congr h.right ▸ hq))
          ha hb hab
        exact Unary.isUpperSet_domain op ((h.entry q hq).above hconcave) hmix
    have hx₁ := mem_region_args h₁ (List.mem_singleton.2 rfl)
    have hx₂ := mem_region_args h₂ (List.mem_singleton.2 rfl)
    refine ⟨hd, ?_⟩
    rw [curvature_unary]
    exact Unary.onChord_table ha hb hab hp hshape (hx.hasShape S ρ) (sign_value hx hρ)
      (sign_value hx hx₁) (sign_value hx hx₂) hd hd₁ hd₂ hc h

/-- The second argument of `quadOverLin` stays positive. -/
theorem pos_of_quadOverLin (h₁ : ρ₁ ∈ (binary label .quadOverLin x y).domain S)
    (h₂ : ρ₂ ∈ (binary label .quadOverLin x y).domain S)
    (hdcp : (binary label .quadOverLin x y).isDcp = true)
    (h : Table.OnChord y.curvature a b (y.value S ρ) (y.value S ρ₁) (y.value S ρ₂)) :
    (y.value S ρ).All (0 < ·) := by
  have hd₁ : (y.value S ρ₁).All (0 < ·) := (everywhere_binary.1 h₁).1
  have hd₂ : (y.value S ρ₂).All (0 < ·) := (everywhere_binary.1 h₂).1
  by_cases hc : y.curvature = .constant
  · rwa [value_of_constant hc ρ ρ₁]
  · rw [isDcp, curvature_binary] at hdcp
    have hconcave := Binary.isConcave_of_quadOverLin hc hdcp
    intro q hq
    have hmix := (convex_Ioi (0 : K)) (hd₁ q (Table.positions_congr h.left ▸ hq))
      (hd₂ q (Table.positions_congr h.right ▸ hq)) ha hb hab
    exact lt_of_lt_of_le hmix ((h.entry q hq).above hconcave)

omit ha hb hab in
/-- A product is certified beside a constant factor alone. -/
theorem onChord_product {op : Binary} (hop : op = .mul ∨ op = .matmul)
    (he : (binary label op x y).Everywhere (IsRegular K))
    (h₁ : ρ₁ ∈ (binary label op x y).region S)
    (hdcp : (binary label op x y).isDcp = true)
    (hne : ¬ (x.curvature = .constant ∧ y.curvature = .constant))
    (hx : Table.OnChord x.curvature a b (x.value S ρ) (x.value S ρ₁) (x.value S ρ₂))
    (hy : Table.OnChord y.curvature a b (y.value S ρ) (y.value S ρ₁) (y.value S ρ₂)) :
    Table.OnChord (binary label op x y).curvature a b
      ((binary label op x y).value S ρ) ((binary label op x y).value S ρ₁)
      ((binary label op x y).value S ρ₂) := by
  obtain ⟨hroot, hxr, hyr⟩ := everywhere_binary.1 he
  have hshape := isValid_binary.1 hroot.valid
  have hσx := sign_value hxr (mem_region_args h₁ List.mem_cons_self)
  have hσy := sign_value hyr (mem_region_args h₁ (List.mem_cons_of_mem _ List.mem_cons_self))
  have hbase : op.curvature x.curvature y.curvature y.value? =
      if x.curvature.isConstant || y.curvature.isConstant then .affine else .unknown := by
    rcases hop with rfl | rfl <;> rfl
  have hleft : op.monotonicityLeft y.curvature y.sign = Binary.scaledBy y.curvature y.sign := by
    rcases hop with rfl | rfl <;> rfl
  have hright : op.monotonicityRight x.curvature x.sign = Binary.scaledBy x.curvature x.sign := by
    rcases hop with rfl | rfl <;> rfl
  rw [isDcp, curvature_binary, hbase, hleft, hright] at hdcp
  rw [curvature_binary, hbase, hleft, hright, value, value, value]
  by_cases hcx : x.curvature = .constant
  · have hcy : y.curvature ≠ .constant := fun hcy => hne ⟨hcx, hcy⟩
    have hchord := Binary.onChord_constant_mul (τ := y.sign) hop hshape (hxr.hasShape S ρ₁)
      (hyr.hasShape S ρ) hσx hy
    rw [value_of_constant hcx ρ ρ₁, value_of_constant hcx ρ₂ ρ₁, hcx]
    refine hchord.imp fun t m ht => .compose_two (.inr hcy) ?_
    rw [Curvature.carry_constant, Curvature.constant_add]
    exact ht.trans (.of_eq rfl .affine)
  by_cases hcy : y.curvature = .constant
  · have hchord := Binary.onChord_mul_constant (τ := x.sign) hop hshape (hxr.hasShape S ρ)
      (hyr.hasShape S ρ₁) hσy hx
    rw [value_of_constant hcy ρ ρ₁, value_of_constant hcy ρ₂ ρ₁, hcy, Bool.or_comm]
    refine hchord.imp fun t m ht => .compose_two (.inl hcx) ?_
    rw [Curvature.carry_constant, Curvature.add_constant]
    exact ht.trans (.of_eq rfl .affine)
  · rw [if_neg (by simp [Curvature.isConstant_iff, hcx, hcy]),
      Curvature.isCertified_unknown_compose ⟨_, List.mem_cons_self, hcx⟩] at hdcp
    cases hdcp

theorem onChord_quadForm (he : (binary label .quadForm x y).Everywhere (IsRegular K))
    (hdcp : (binary label .quadForm x y).isDcp = true)
    (hne : ¬ (x.curvature = .constant ∧ y.curvature = .constant))
    (hx : Table.OnChord x.curvature a b (x.value S ρ) (x.value S ρ₁) (x.value S ρ₂)) :
    Table.OnChord (binary label .quadForm x y).curvature a b
      ((binary label .quadForm x y).value S ρ) ((binary label .quadForm x y).value S ρ₁)
      ((binary label .quadForm x y).value S ρ₂) := by
  obtain ⟨hroot, hxr, hyr⟩ := everywhere_binary.1 he
  obtain ⟨hcols, hrows, -⟩ := Binary.of_quadForm (isValid_binary.1 hroot.valid)
    (hxr.hasShape S ρ) (hyr.hasShape S ρ)
  cases y with
  | const id v =>
    obtain ⟨hpos, hneg⟩ := hroot.classified
    have hcx : x.curvature ≠ .constant := fun hcx => hne ⟨hcx, rfl⟩
    rw [curvature_binary]
    exact Binary.onChord_quadForm ha hb hab hpos hneg hrows.symm hcols hcx hx
  | _ =>
    rw [isDcp, curvature_binary] at hdcp
    refine absurd hdcp (Bool.eq_false_iff.1 (Curvature.isCertified_unknown_compose ?_))
    rcases Classical.not_and_iff_not_or_not.1 hne with hc | hc
    · exact ⟨_, List.mem_cons_self, hc⟩
    · exact ⟨_, List.mem_cons_of_mem _ List.mem_cons_self, hc⟩

theorem onChord_binary {op : Binary} (he : (binary label op x y).Everywhere (IsRegular K))
    (h₁ : ρ₁ ∈ (binary label op x y).region S) (h₂ : ρ₂ ∈ (binary label op x y).region S)
    (hdcp : (binary label op x y).isDcp = true) (hρx : ρ ∈ x.region S) (hρy : ρ ∈ y.region S)
    (hx : Table.OnChord x.curvature a b (x.value S ρ) (x.value S ρ₁) (x.value S ρ₂))
    (hy : Table.OnChord y.curvature a b (y.value S ρ) (y.value S ρ₁) (y.value S ρ₂)) :
    (binary label op x y).IsDefinedAt S ρ ∧ Table.OnChord (binary label op x y).curvature a b
      ((binary label op x y).value S ρ) ((binary label op x y).value S ρ₁)
      ((binary label op x y).value S ρ₂) := by
  obtain ⟨hroot, hxr, hyr⟩ := everywhere_binary.1 he
  have hshape := isValid_binary.1 hroot.valid
  have hymem : y ∈ (binary label op x y).args := List.mem_cons_of_mem _ List.mem_cons_self
  constructor
  · cases op with
    | quadOverLin => exact pos_of_quadOverLin ha hb hab h₁.2 h₂.2 hdcp hy
    | _ => trivial
  by_cases hne : x.curvature = .constant ∧ y.curvature = .constant
  · obtain ⟨hcx, hcy⟩ := hne
    refine .of_eq hab ?_ ?_ _
    · rw [value, value, value_of_constant hcx ρ ρ₁, value_of_constant hcy ρ ρ₁]
    · rw [value, value, value_of_constant hcx ρ ρ₂, value_of_constant hcy ρ ρ₂]
  cases op with
  | add =>
    have hc := (Binary.of_broadcast (.inl rfl) (· + ·) hshape (hxr.hasShape S ρ)
      (hyr.hasShape S ρ)).1
    rw [curvature_binary]
    exact Binary.onChord_add hc (Classical.not_and_iff_not_or_not.1 hne) hx hy
  | mul => exact onChord_product (.inl rfl) he h₁ hdcp hne hx hy
  | matmul => exact onChord_product (.inr rfl) he h₁ hdcp hne hx hy
  | quadForm => exact onChord_quadForm ha hb hab he hdcp hne hx
  | quadOverLin =>
    have hscalar := Binary.isScalar_of_quadOverLin hshape (hyr.hasShape S ρ)
    have hpos := pos_of_quadOverLin ha hb hab h₁.2 h₂.2 hdcp hy
    have hx₁ := mem_region_args h₁ List.mem_cons_self
    have hx₂ := mem_region_args h₂ List.mem_cons_self
    have hy₁ := mem_region_args h₁ hymem
    have hy₂ := mem_region_args h₂ hymem
    rw [curvature_binary]
    exact Binary.onChord_quadOverLin ha hb hab (sign_value hxr hρx) (sign_value hxr hx₁)
      (sign_value hxr hx₂) (sign_value hyr hρy) (sign_value hyr hy₁) (sign_value hyr hy₂) hscalar
      hpos (everywhere_binary.1 h₁.2).1 (everywhere_binary.1 h₂.2).1
      (Classical.not_and_iff_not_or_not.1 hne) hx hy

theorem onChord_variadic {op : Variadic} {xs : List Expr}
    (he : (variadic label op x xs).Everywhere (IsRegular K))
    (hdcp : (variadic label op x xs).isDcp = true)
    (h : ∀ y ∈ x :: xs,
      Table.OnChord y.curvature a b (y.value S ρ) (y.value S ρ₁) (y.value S ρ₂)) :
    Table.OnChord (variadic label op x xs).curvature a b ((variadic label op x xs).value S ρ)
      ((variadic label op x xs).value S ρ₁) ((variadic label op x xs).value S ρ₂) := by
  have hagree := agreeAll_values S ρ he.isValid
  simp only [value, values_eq_map]
  by_cases hconst : ∀ y ∈ x :: xs, y.curvature = .constant
  · have hmap : ∀ σ, xs.map (value S ρ) = xs.map (value S σ) := fun σ =>
      List.map_congr_left fun y hy => value_of_constant (hconst y (List.mem_cons_of_mem x hy)) ρ σ
    have hx := hconst x List.mem_cons_self
    refine .of_eq hab ?_ ?_ _
    · rw [hmap ρ₁, value_of_constant hx ρ ρ₁]
    · rw [hmap ρ₂, value_of_constant hx ρ ρ₂]
  · push Not at hconst
    obtain ⟨z, hz, hcz⟩ := hconst
    have hargs : ∃ q ∈ (x :: xs).map fun y => (y.curvature, y.sign), q.1 ≠ .constant :=
      ⟨_, List.mem_map_of_mem hz, hcz⟩
    have hmap : (x :: xs).map (fun y => (op.monotonicity, y.curvature, y.sign)) =
        ((x :: xs).map fun y => (y.curvature, y.sign)).map
          fun q => (op.monotonicity, q.1, q.2) := by
      rw [List.map_map]
      rfl
    rw [isDcp, curvature_variadic, hmap] at hdcp
    obtain ⟨hsub, hsup⟩ := Variadic.of_certified (K := K) hargs hdcp
    have hall : ∀ y ∈ x :: xs,
        Table.OnChord op.curvature a b (y.value S ρ) (y.value S ρ₁) (y.value S ρ₂) :=
      fun y hy => (h y hy).imp (hsub _ (List.mem_map_of_mem hy))
    rw [curvature_variadic, hmap]
    exact (Variadic.onChord_table ha hb hagree (hall x List.mem_cons_self)
      fun y hy => hall y (List.mem_cons_of_mem x hy)).imp hsup

/-! ## All nodes -/

omit hab in
theorem mix_mem_respecting {e : Expr} (h₁ : ρ₁ ∈ e.respecting K) (h₂ : ρ₂ ∈ e.respecting K) :
    a • ρ₁ + b • ρ₂ ∈ e.respecting K :=
  fun v hv p hp => (h₁ v hv p hp).mix ha hb (h₂ v hv p hp)

/-- By induction on the expression: the mixture of two points lies in the domain, and the table
there is bounded by the mixture of the tables as the curvature says. -/
theorem onChord_value {e : Expr} (he : e.Everywhere (IsRegular K))
    (hpower : e.Everywhere HasCertifiedPower) (h₁ : ρ₁ ∈ e.region S) (h₂ : ρ₂ ∈ e.region S)
    (hdcp : e.isDcp = true) :
    a • ρ₁ + b • ρ₂ ∈ e.domain S ∧ Table.OnChord e.curvature a b (e.value S (a • ρ₁ + b • ρ₂))
      (e.value S ρ₁) (e.value S ρ₂) := by
  induction e with
  | var v =>
    exact ⟨mem_domain_iff.2 ⟨trivial, fun x hx => nomatch hx⟩,
      ⟨rfl, rfl⟩, ⟨rfl, rfl⟩, fun p _ => .of_eq rfl _⟩
  | const id v =>
    exact ⟨mem_domain_iff.2 ⟨trivial, fun x hx => nomatch hx⟩, .of_eq hab rfl rfl _⟩
  | unary label op x ih =>
    have hmem : x ∈ (unary label op x).args := List.mem_singleton.2 rfl
    obtain ⟨hpx, hpxs⟩ := everywhere_unary.1 hpower
    have hx₁ := mem_region_args h₁ hmem
    have hx₂ := mem_region_args h₂ hmem
    obtain ⟨hd, hx⟩ := ih (everywhere_unary.1 he).2 hpxs hx₁ hx₂ (isDcp_of_mem_args hdcp hmem)
    have hρ : a • ρ₁ + b • ρ₂ ∈ x.region S := ⟨mix_mem_respecting ha hb hx₁.1 hx₂.1, hd⟩
    obtain ⟨hroot, hchord⟩ := onChord_unary ha hb hab he hpx h₁ h₂ hdcp hρ hx
    exact ⟨everywhere_unary.2 ⟨hroot, hd⟩, hchord⟩
  | binary label op x y ihx ihy =>
    have hxmem : x ∈ (binary label op x y).args := List.mem_cons_self
    have hymem : y ∈ (binary label op x y).args := List.mem_cons_of_mem _ List.mem_cons_self
    obtain ⟨-, hrx, hry⟩ := everywhere_binary.1 he
    obtain ⟨-, hpx, hpy⟩ := everywhere_binary.1 hpower
    have hx₁ := mem_region_args h₁ hxmem
    have hx₂ := mem_region_args h₂ hxmem
    have hy₁ := mem_region_args h₁ hymem
    have hy₂ := mem_region_args h₂ hymem
    obtain ⟨hdx, hx⟩ := ihx hrx hpx hx₁ hx₂ (isDcp_of_mem_args hdcp hxmem)
    obtain ⟨hdy, hy⟩ := ihy hry hpy hy₁ hy₂ (isDcp_of_mem_args hdcp hymem)
    obtain ⟨hroot, hchord⟩ := onChord_binary ha hb hab he h₁ h₂ hdcp
      ⟨mix_mem_respecting ha hb hx₁.1 hx₂.1, hdx⟩ ⟨mix_mem_respecting ha hb hy₁.1 hy₂.1, hdy⟩ hx hy
    exact ⟨everywhere_binary.2 ⟨hroot, hdx, hdy⟩, hchord⟩
  | variadic label op x xs ihx ihxs =>
    obtain ⟨-, hargs⟩ := everywhere_variadic.1 he
    obtain ⟨-, hpargs⟩ := everywhere_variadic.1 hpower
    have hall : ∀ y ∈ x :: xs, a • ρ₁ + b • ρ₂ ∈ y.domain S ∧
        Table.OnChord y.curvature a b (y.value S (a • ρ₁ + b • ρ₂)) (y.value S ρ₁)
          (y.value S ρ₂) := by
      intro y hy
      have hy₁ := mem_region_args h₁ hy
      have hy₂ := mem_region_args h₂ hy
      have hdcpy := isDcp_of_mem_args hdcp hy
      rcases List.mem_cons.1 hy with rfl | hmem
      · exact ihx (hargs _ hy) (hpargs _ hy) hy₁ hy₂ hdcpy
      · exact ihxs y hmem (hargs _ hy) (hpargs _ hy) hy₁ hy₂ hdcpy
    exact ⟨everywhere_variadic.2 ⟨trivial, fun y hy => (hall y hy).1⟩,
      onChord_variadic ha hb hab he hdcp fun y hy => (hall y hy).2⟩

theorem bound_entryAt {e : Expr} (he : e.Everywhere (IsRegular K))
    (hpower : e.Everywhere HasCertifiedPower) (hdcp : e.isDcp = true) {p : ℕ × ℕ}
    (hp : p.1 < e.shape.rows.toNat ∧ p.2 < e.shape.cols.toNat) (h₁ : ρ₁ ∈ e.region S)
    (h₂ : ρ₂ ∈ e.region S) :
    e.curvature.Bound (e.entryAt S p (a • ρ₁ + b • ρ₂))
      (a * e.entryAt S p ρ₁ + b * e.entryAt S p ρ₂) := by
  have hchord := (onChord_value ha hb hab he hpower h₁ h₂ hdcp).2
  have hshape := he.hasShape S (a • ρ₁ + b • ρ₂)
  refine hchord.entry p ?_
  rwa [Table.mem_positions, hshape.rows, hshape.cols]

omit ha hb hab

theorem convex_region {e : Expr} (he : e.Everywhere (IsRegular K))
    (hpower : e.Everywhere HasCertifiedPower) (hdcp : e.isDcp = true) :
    Convex K (e.region S) := by
  intro ρ₁ h₁ ρ₂ h₂ a b ha hb hab
  exact ⟨mix_mem_respecting ha hb h₁.1 h₂.1, (onChord_value ha hb hab he hpower h₁ h₂ hdcp).1⟩

theorem convexOn_entryAt {e : Expr} (he : e.Everywhere (IsRegular K))
    (hpower : e.Everywhere HasCertifiedPower) (hconvex : e.isConvex = true) {p : ℕ × ℕ}
    (hp : p.1 < e.shape.rows.toNat ∧ p.2 < e.shape.cols.toNat) :
    ConvexOn K (e.region S) (e.entryAt S p) := by
  have hdcp : e.isDcp = true := Curvature.isCertified_iff.2 (.inl hconvex)
  refine ⟨convex_region he hpower hdcp, fun ρ₁ h₁ ρ₂ h₂ a b ha hb hab => ?_⟩
  exact (bound_entryAt ha hb hab he hpower hdcp hp h₁ h₂).below hconvex

theorem concaveOn_entryAt {e : Expr} (he : e.Everywhere (IsRegular K))
    (hpower : e.Everywhere HasCertifiedPower) (hconcave : e.isConcave = true) {p : ℕ × ℕ}
    (hp : p.1 < e.shape.rows.toNat ∧ p.2 < e.shape.cols.toNat) :
    ConcaveOn K (e.region S) (e.entryAt S p) := by
  have hdcp : e.isDcp = true := Curvature.isCertified_iff.2 (.inr hconcave)
  refine ⟨convex_region he hpower hdcp, fun ρ₁ h₁ ρ₂ h₂ a b ha hb hab => ?_⟩
  exact (bound_entryAt ha hb hab he hpower hdcp hp h₁ h₂).above hconcave

/-- The inferred curvature is right. Where something is certified, the points at which an expression
is looked at form a convex set, and every entry is constant, affine, convex or concave there as the
curvature says. -/
theorem entries_of_curvature (S : Textbook K) {e : Expr} (hb : e.Built)
    (hfits : e.Everywhere FitsWord) (hfinite : e.Everywhere HasFiniteEntries)
    (hpower : e.Everywhere HasCertifiedPower) (hclassified : e.Everywhere (IsClassified K)) :
    (e.isDcp = true → Convex K (e.region S)) ∧
    (e.curvature = .constant → ∀ ρ σ, e.value S ρ = e.value S σ) ∧
    ∀ i < e.shape.rows.toNat, ∀ j < e.shape.cols.toNat,
      (e.curvature = .affine → ∀ ρ ∈ e.region S, ∀ σ ∈ e.region S, ∀ a b : K, 0 ≤ a → 0 ≤ b →
        a + b = 1 → e.entryAt S (i, j) (a • ρ + b • σ) =
          a * e.entryAt S (i, j) ρ + b * e.entryAt S (i, j) σ) ∧
      (e.isConvex = true → ConvexOn K (e.region S) (e.entryAt S (i, j))) ∧
      (e.isConcave = true → ConcaveOn K (e.region S) (e.entryAt S (i, j))) := by
  have he := hb.isRegular hfits hfinite hclassified
  refine ⟨convex_region he hpower, value_of_constant, fun i hi j hj => ?_⟩
  have hconvex : e.isConvex = true → ConvexOn K (e.region S) (e.entryAt S (i, j)) :=
    fun h => convexOn_entryAt he hpower h ⟨hi, hj⟩
  have hconcave : e.isConcave = true → ConcaveOn K (e.region S) (e.entryAt S (i, j)) :=
    fun h => concaveOn_entryAt he hpower h ⟨hi, hj⟩
  refine ⟨fun h ρ hρ σ hσ a b ha hb hab => ?_, hconvex, hconcave⟩
  have hle := (hconvex (by rw [isConvex, h]; rfl)).2 hρ hσ ha hb hab
  have hge := (hconcave (by rw [isConcave, h]; rfl)).2 hρ hσ ha hb hab
  exact le_antisymm hle hge

/-! ### The logarithmic barrier -/

def barrier : Expr := neg (log (var ⟨0, {}⟩))

theorem built_barrier : barrier.Built :=
  .unary (f := .neg) (.unary (f := .log) (.var _) rfl) rfl

theorem everywhere_barrier {P : Expr → Prop} : barrier.Everywhere P ↔
    P barrier ∧ P (log (var ⟨0, {}⟩)) ∧ P (var ⟨0, {}⟩) := by
  rw [barrier, neg, everywhere_unary, log, everywhere_unary, everywhere_var]

/-- The barrier is convex on the positive numbers. -/
theorem convexOn_barrier :
    (fun _ _ => 1) ∈ barrier.region RealFunctions.textbook ∧
    Convex ℝ (barrier.region RealFunctions.textbook) ∧
    ConvexOn ℝ (barrier.region RealFunctions.textbook)
      (barrier.entryAt RealFunctions.textbook (0, 0)) := by
  obtain ⟨hregion, -, hentries⟩ := entries_of_curvature RealFunctions.textbook built_barrier
    (everywhere_barrier.2 ⟨by decide, by decide, by decide⟩)
    (everywhere_barrier.2 ⟨trivial, trivial, trivial⟩)
    (everywhere_barrier.2 ⟨trivial, trivial, trivial⟩)
    (everywhere_barrier.2 ⟨trivial, trivial, trivial⟩)
  refine ⟨⟨?_, ?_⟩, hregion rfl, (hentries 0 (by decide) 0 (by decide)).2.1 rfl⟩
  · intro v hv
    cases List.mem_singleton.1 hv
    exact fun _ _ => Sign.allows_unknown
  · refine everywhere_barrier.2 ⟨fun _ _ => trivial, fun _ _ => ?_, trivial⟩
    exact Set.mem_Ioi.2 one_pos

end Expr

end DisciplinedConvex
