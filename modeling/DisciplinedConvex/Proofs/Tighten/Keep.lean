import DisciplinedConvex.Proofs.Feasible
import DisciplinedConvex.Proofs.Tighten.Mirror

/-! # What tighter signs keep

A lower sign of a variable makes every sign lower. It keeps every certificate but one kind: a
concave argument of a signed atom may have been nonpositive, where the atom is decreasing, and
become zero, which counts as nonnegative.

* `Expr.Flips` says that this happens at a node.
* `Expr.Mirrors.sign_le` and `Expr.Mirrors.curvature_subset` are the inductions on the tree.
* `Problem.certificates_kept_iff` says exactly when expressions and problems keep their
  certificates, and `Problem.certificate_lost` is one that does not.
-/

namespace DisciplinedConvex
set_option autoImplicit false

namespace Expr

variable {e' e : Expr}

/-! ## Signs and constants -/

theorem Mirrors.value?_eq (h : Mirrors e' e) : e'.value? = e.value? := by
  cases h <;> rfl

theorem Mirrors.sign_le (h : Mirrors e' e) : e'.sign ≤ e.sign := by
  induction h with
  | var id d h => exact h
  | const id v => exact Sign.le_refl _
  | unary label' label hp hx ih => exact Unary.sign_le _ ih
  | binary label' label hx hy ihx ihy =>
    rw [sign_binary, sign_binary, hy.value?_eq]
    exact Binary.sign_le _ _ ihx ihy
  | @variadic label' label op x' x pairs hx hpairs ihx ihpairs =>
    have hle := op.sign_le (List.forall_mem_map.2 (List.forall_mem_cons.2 ⟨ihx, ihpairs⟩) :
      ∀ s ∈ ((x', x) :: pairs).map fun q => (q.1.sign, q.2.sign), s.1 ≤ s.2)
    rw [sign_variadic, sign_variadic]
    simpa only [List.map_map, List.map_cons, Function.comp_def] using hle

theorem Mirrors.constant_iff (h : Mirrors e' e) :
    e'.curvature = .constant ↔ e.curvature = .constant := by
  induction h with
  | var id d h => rfl
  | const id v => rfl
  | unary label' label hp hx ih => rw [constant_unary, constant_unary, ih]
  | binary label' label hx hy ihx ihy => rw [constant_binary, constant_binary, ihx, ihy]
  | variadic label' label hx hpairs ihx ihpairs =>
    rw [constant_variadic, constant_variadic, List.forall_mem_map, List.forall_mem_map, ihx]
    exact and_congr_right fun _ => forall₂_congr ihpairs

/-- There is no variable in a constant, so its sign stays. -/
theorem Mirrors.sign_eq (h : Mirrors e' e) (hc : e.curvature = .constant) : e'.sign = e.sign := by
  induction h with
  | var id d h => cases hc
  | const id v => rfl
  | unary label' label hp hx ih => rw [sign_unary, sign_unary, ih (constant_unary.1 hc)]
  | binary label' label hx hy ihx ihy =>
    obtain ⟨hcx, hcy⟩ := constant_binary.1 hc
    rw [sign_binary, sign_binary, hy.value?_eq, ihx hcx, ihy hcy]
  | variadic label' label hx hpairs ihx ihpairs =>
    obtain ⟨hcx, hcs⟩ := constant_variadic.1 hc
    rw [List.forall_mem_map] at hcs
    rw [sign_variadic, sign_variadic, List.map_cons, List.map_cons, ihx hcx, List.map_map,
      List.map_map]
    exact congrArg (fun s => Variadic.sign _ (_ :: s))
      (List.map_congr_left fun q hq => ihpairs q hq (hcs q hq))

/-! ## Where certificates are lost -/

/-- The argument that an atom is signed in. -/
def signedArg? : Expr → Option Expr
  | unary _ op x => if op.monotonicity = .signed then some x else none
  | binary _ .quadOverLin x _ => some x
  | _ => none

/-- A concave argument of a signed atom goes from nonpositive to zero. -/
def Flips (e' e : Expr) : Prop :=
  match e'.signedArg?, e.signedArg? with
  | some x', some x =>
    x'.sign = .zero ∧ x.sign = .negative ∧ x'.curvature = .concave ∧ x.curvature = .concave
  | _, _ => False

instance (e' e : Expr) : Decidable (Flips e' e) := by
  unfold Flips
  split <;> infer_instance

theorem flips_unary {label' label : Option Nat} {op : Unary} {x' x : Expr} :
    Flips (unary label' op x') (unary label op x) ↔ op.monotonicity = .signed ∧
      x'.sign = .zero ∧ x.sign = .negative ∧ x'.curvature = .concave ∧
        x.curvature = .concave := by
  by_cases hop : op.monotonicity = .signed <;> simp [Flips, signedArg?, hop]

/-- After a flip nothing is certified. -/
theorem Mirrors.not_flips (h : Mirrors e' e) (hdcp : e'.isDcp = true) : ¬ Flips e' e := by
  intro hflips
  cases h with
  | var id d h => exact hflips
  | const id v => exact hflips
  | @unary label' label op x' x hp hx =>
    obtain ⟨hop, hsign, -, hcurvature, -⟩ := flips_unary.1 hflips
    rw [isDcp, curvature_unary, Unary.curvature_of_signed hp hop, hop, hsign, hcurvature] at hdcp
    cases hdcp
  | @binary label' label op x' x y' y hx hy =>
    cases op with
    | quadOverLin =>
      obtain ⟨hsign, -, hcurvature, -⟩ := hflips
      rw [isDcp, curvature_binary] at hdcp
      have hcontribution := Curvature.isCertified_contribution hdcp _ List.mem_cons_self
      rw [hsign, hcurvature] at hcontribution
      cases hcontribution
    | _ => exact hflips
  | variadic label' label hx hpairs => exact hflips

theorem Mirrors.of_mem_places (h : Mirrors e' e) : ∀ q ∈ places e' e, Mirrors q.1 q.2 := by
  induction h with
  | var id d h => exact List.forall_mem_singleton.2 (.var id d h)
  | const id v => exact List.forall_mem_singleton.2 (.const id v)
  | unary label' label hp hx ih =>
    rw [places_unary, List.forall_mem_cons]
    exact ⟨.unary _ _ hp hx, ih⟩
  | binary label' label hx hy ihx ihy =>
    rw [places_binary _ _ _ _ _ _ hx, List.forall_mem_cons, List.forall_mem_append]
    exact ⟨.binary _ _ hx hy, ihx, ihy⟩
  | variadic label' label hx hpairs ihx ihpairs =>
    rw [places_variadic _ _ _ _ hx hpairs, List.forall_mem_cons, List.forall_mem_append]
    refine ⟨.variadic _ _ hx hpairs, ihx, fun r hr => ?_⟩
    obtain ⟨q, hq, hrq⟩ := List.mem_flatMap.1 hr
    exact ihpairs q hq r hrq

theorem Mirrors.not_flips_places (h : Mirrors e' e) (hdcp : e'.isDcp = true) :
    ∀ q ∈ places e' e, ¬ Flips q.1 q.2 := by
  have hnodes : e'.Everywhere (isDcp · = true) :=
    .of_args (fun _ hx _ => isDcp_of_mem_args hx) hdcp
  exact fun q hq => (h.of_mem_places q hq).not_flips (hnodes q.1 (List.of_mem_zip hq).1)

/-! ## Where they are kept -/

/-- The monotonicity of a product in one factor stays, as constants keep their sign. -/
theorem Mirrors.scaledBy_eq (h : Mirrors e' e) :
    Binary.scaledBy e'.curvature e'.sign = Binary.scaledBy e.curvature e.sign := by
  unfold Binary.scaledBy
  by_cases hc : e.curvature = .constant
  · rw [h.constant_iff.2 hc, hc, h.sign_eq hc]
  · rw [if_neg (mt Curvature.isConstant_iff.1 hc),
      if_neg (mt (h.constant_iff.1 ∘ Curvature.isConstant_iff.1) hc)]

theorem Mirrors.isConstant_eq (h : Mirrors e' e) :
    e'.curvature.isConstant = e.curvature.isConstant := by
  rw [Bool.eq_iff_iff, Curvature.isConstant_iff, Curvature.isConstant_iff, h.constant_iff]

section Binary

variable {x' x y' y : Expr} (op : Binary)

theorem base_eq (hx : Mirrors x' x) (hy : Mirrors y' y) :
    op.curvature x'.curvature y'.curvature y'.value? =
      op.curvature x.curvature y.curvature y.value? := by
  cases op <;> simp only [Binary.curvature, hx.isConstant_eq, hy.isConstant_eq, hy.value?_eq]

theorem monotonicityLeft_eq (hy : Mirrors y' y) :
    op.monotonicityLeft y'.curvature y'.sign = op.monotonicityLeft y.curvature y.sign := by
  cases op <;> simp only [Binary.monotonicityLeft, hy.scaledBy_eq]

theorem monotonicityRight_eq (hx : Mirrors x' x) :
    op.monotonicityRight x'.curvature x'.sign = op.monotonicityRight x.curvature x.sign := by
  cases op <;> simp only [Binary.monotonicityRight, hx.scaledBy_eq]

end Binary

theorem Mirrors.curvature_subset (h : Mirrors e' e) (hdcp : e.isDcp = true)
    (hkeep : ∀ q ∈ places e' e, ¬ Flips q.1 q.2) :
    e'.curvature.isSubsetOf e.curvature = true := by
  induction h with
  | var id d h => rfl
  | const id v => rfl
  | @unary label' label op x' x hp hx ih =>
    rw [places_unary, List.forall_mem_cons, flips_unary] at hkeep
    have hsub := ih (isDcp_of_mem_args hdcp List.mem_cons_self) hkeep.2
    rw [curvature_unary, curvature_unary]
    refine Curvature.compose_subset (.cons ?_ .nil)
    exact Curvature.contribution_subset_of_keep (Unary.curvature_of_signed hp) hsub hx.sign_le
      fun hop hflip => hkeep.1 ⟨hop, hflip⟩
  | @binary label' label op x' x y' y hx hy ihx ihy =>
    rw [places_binary _ _ _ _ _ _ hx, List.forall_mem_cons, List.forall_mem_append] at hkeep
    obtain ⟨hroot, hkeepx, hkeepy⟩ := hkeep
    have hsubx := ihx (isDcp_of_mem_args hdcp List.mem_cons_self) hkeepx
    have hsuby := ihy (isDcp_of_mem_args hdcp (List.mem_cons_of_mem _ List.mem_cons_self)) hkeepy
    rw [curvature_binary, curvature_binary, base_eq op hx hy, monotonicityLeft_eq op hy,
      monotonicityRight_eq op hx]
    -- The sign of an argument matters for the first one of quadOverLin alone.
    refine Curvature.compose_subset (.cons ?_ (.cons ?_ .nil))
    · refine Curvature.contribution_subset_of_keep (fun hop => ?_) hsubx hx.sign_le fun hop => ?_
      · rw [Binary.eq_quadOverLin_of_signed hop]
        rfl
      · obtain rfl := Binary.eq_quadOverLin_of_signed hop
        exact hroot
    · exact Curvature.contribution_subset _ _ (op.monotonicityRight_ne_signed _ _) hsuby
  | @variadic label' label op x' x pairs hx hpairs ihx ihpairs =>
    rw [places_variadic _ _ _ _ hx hpairs, List.forall_mem_cons, List.forall_mem_append] at hkeep
    obtain ⟨-, hkeepx, hkeeps⟩ := hkeep
    have hop : op.monotonicity ≠ .signed := by
      cases op <;> exact (nomatch ·)
    rw [curvature_variadic, curvature_variadic]
    refine Curvature.compose_subset (.cons ?_ ?_)
    · exact Curvature.contribution_subset _ _ hop
        (ihx (isDcp_of_mem_args hdcp List.mem_cons_self) hkeepx)
    · rw [List.map_map, List.map_map, List.forall₂_map_left_iff, List.forall₂_map_right_iff,
        List.forall₂_same]
      intro q hq
      have hdcpq : q.2.isDcp = true :=
        isDcp_of_mem_args hdcp (List.mem_cons_of_mem _ (List.mem_map_of_mem hq))
      exact Curvature.contribution_subset _ _ hop
        (ihpairs q hq hdcpq fun r hr => hkeeps r (List.mem_flatMap.2 ⟨q, hq, hr⟩))

theorem Mirrors.kept_iff (h : Mirrors e' e) {p : Curvature → Bool}
    (hdown : ∀ c d : Curvature, c.isSubsetOf d = true → p d = true → p c = true)
    (hcertified : ∀ c, p c = true → c.isCertified = true) (hp : p e.curvature = true) :
    p e'.curvature = true ↔ ∀ q ∈ places e' e, ¬ Flips q.1 q.2 := by
  constructor
  · exact fun hp' => h.not_flips_places (hcertified _ hp')
  · exact fun hkeep => hdown _ _ (h.curvature_subset (hcertified _ hp) hkeep) hp

theorem Mirrors.isConvex_iff (h : Mirrors e' e) (hconvex : e.isConvex = true) :
    e'.isConvex = true ↔ ∀ q ∈ places e' e, ¬ Flips q.1 q.2 :=
  h.kept_iff (fun _ _ hsub => (Curvature.isSubsetOf_iff.1 hsub).1)
    (fun _ hc => Curvature.isCertified_iff.2 (.inl hc)) hconvex

theorem Mirrors.isConcave_iff (h : Mirrors e' e) (hconcave : e.isConcave = true) :
    e'.isConcave = true ↔ ∀ q ∈ places e' e, ¬ Flips q.1 q.2 :=
  h.kept_iff (fun _ _ hsub => (Curvature.isSubsetOf_iff.1 hsub).2.1)
    (fun _ hc => Curvature.isCertified_iff.2 (.inr hc)) hconcave

theorem Mirrors.isDcp_iff (h : Mirrors e' e) (hdcp : e.isDcp = true) :
    e'.isDcp = true ↔ ∀ q ∈ places e' e, ¬ Flips q.1 q.2 :=
  h.kept_iff (fun _ _ => Curvature.isCertified_of_subset) (fun _ hc => hc) hdcp

theorem Mirrors.isAffine_iff (h : Mirrors e' e) (haffine : e.isAffine = true) :
    e'.isAffine = true ↔ ∀ q ∈ places e' e, ¬ Flips q.1 q.2 := by
  obtain ⟨hconvex, hconcave⟩ := Curvature.isAffine_iff.1 haffine
  rw [isAffine, Curvature.isAffine_iff]
  exact (and_congr (h.isConvex_iff hconvex) (h.isConcave_iff hconcave)).trans and_self_iff

/-- A lower curvature is kept unless there is a flip below a certificate. -/
theorem Mirrors.curvature_subset_iff (h : Mirrors e' e) :
    e'.curvature.isSubsetOf e.curvature = true ↔
      (e.isDcp = true → ∀ q ∈ places e' e, ¬ Flips q.1 q.2) := by
  by_cases hdcp : e.isDcp = true
  · constructor
    · exact fun hsub _ => (h.isDcp_iff hdcp).1 (Curvature.isCertified_of_subset hsub hdcp)
    · exact fun hkeep => h.curvature_subset hdcp (hkeep hdcp)
  · rw [Curvature.not_isCertified_iff.1 hdcp]
    exact iff_of_true (Curvature.subset_unknown _) fun hdcp' => absurd hdcp' hdcp

end Expr

/-! ## Problems -/

namespace Constraint

/-- Both are made by the same builder of relations. -/
def Tightens (c' c : Constraint) : Prop :=
  ∃ (r : Relation) (x' x y' y : Expr), x'.Tightens x ∧ y'.Tightens y ∧ r.build x' y' = .ok c' ∧
    r.build x y = .ok c

inductive Mirrors : Constraint → Constraint → Prop where
  | zero {e' e : Expr} (h : e'.Mirrors e) : Mirrors (zero e') (zero e)
  | nonneg {e' e : Expr} (h : e'.Mirrors e) : Mirrors (nonneg e') (nonneg e)
  | cone {t' t x' x : Expr} (ht : t'.Mirrors t) (hx : x'.Mirrors x) :
    Mirrors (cone t' x') (cone t x)

theorem mirrors_sub {x' x y' y e' e : Expr} (hx : x'.Tightens x) (hy : y'.Tightens y)
    (h' : x'.sub y' = .ok e') (h : x.sub y = .ok e) : e'.Mirrors e := by
  have hneg : y'.neg.Tightens y.neg := .unary (f := .neg) hy rfl rfl
  have hpairs : ∀ q ∈ [(x', x), (y'.neg, y.neg)], q.1.Mirrors q.2 :=
    List.forall_mem_cons.2 ⟨hx.mirrors, List.forall_mem_singleton.2 hneg.mirrors⟩
  exact .of_apply hpairs h' h

theorem Tightens.mirrors {c' c : Constraint} (h : Tightens c' c) : Mirrors c' c := by
  obtain ⟨r, x', x, y', y, hx, hy, h', h⟩ := h
  cases r with
  | eq =>
    obtain ⟨d', hd', rfl⟩ := Relation.of_build h'
    obtain ⟨d, hd, rfl⟩ := Relation.of_build h
    exact .zero (mirrors_sub hx hy hd' hd)
  | leq =>
    obtain ⟨d', hd', rfl⟩ := Relation.of_build h'
    obtain ⟨d, hd, rfl⟩ := Relation.of_build h
    exact .nonneg (mirrors_sub hy hx hd' hd)
  | geq =>
    obtain ⟨d', hd', rfl⟩ := Relation.of_build h'
    obtain ⟨d, hd, rfl⟩ := Relation.of_build h
    exact .nonneg (mirrors_sub hx hy hd' hd)
  | soc =>
    obtain ⟨-, rfl⟩ := Relation.of_build h'
    obtain ⟨-, rfl⟩ := Relation.of_build h
    exact .cone hx.mirrors hy.mirrors

def places (c' c : Constraint) : List (Expr × Expr) :=
  (c'.expressions.zip c.expressions).flatMap fun q => Expr.places q.1 q.2

theorem Mirrors.isDcp_iff {c' c : Constraint} (h : Mirrors c' c) (hdcp : c.isDcp = true) :
    c'.isDcp = true ↔ ∀ q ∈ places c' c, ¬ Expr.Flips q.1 q.2 := by
  cases h with
  | zero h =>
    rw [places, expressions, expressions, List.zip_cons_cons, List.zip_nil_left,
      List.flatMap_singleton]
    exact h.isAffine_iff hdcp
  | nonneg h =>
    rw [places, expressions, expressions, List.zip_cons_cons, List.zip_nil_left,
      List.flatMap_singleton]
    exact h.isConcave_iff hdcp
  | cone ht hx =>
    rw [isDcp, Bool.and_eq_true] at hdcp ⊢
    rw [places, expressions, expressions, List.zip_cons_cons, List.zip_cons_cons,
      List.zip_nil_left, List.flatMap_cons, List.flatMap_singleton, List.forall_mem_append]
    exact and_congr (ht.isAffine_iff hdcp.1) (hx.isAffine_iff hdcp.2)

theorem all_isDcp_iff {cs' cs : List Constraint} (h : List.Forall₂ Mirrors cs' cs)
    (hdcp : cs.all isDcp = true) :
    cs'.all isDcp = true ↔
      ∀ q ∈ (cs'.zip cs).flatMap fun q => places q.1 q.2, ¬ Expr.Flips q.1 q.2 := by
  induction h with
  | nil => exact iff_of_true rfl fun _ hq => nomatch hq
  | cons hc _ ih =>
    rw [List.all_cons, Bool.and_eq_true] at hdcp ⊢
    rw [List.zip_cons_cons, List.flatMap_cons, List.forall_mem_append]
    exact and_congr (hc.isDcp_iff hdcp.1) (ih hdcp.2)

end Constraint

namespace Problem

/-- The same objective under the same constraints, of tighter leaves. -/
structure Tightens (p' p : Problem) : Prop where
  sense : p'.objective.sense = p.objective.sense
  objective : p'.objective.expr.Tightens p.objective.expr
  constraints : List.Forall₂ Constraint.Tightens p'.constraints p.constraints

def places (p' p : Problem) : List (Expr × Expr) :=
  Expr.places p'.objective.expr p.objective.expr ++
    (p'.constraints.zip p.constraints).flatMap fun q => Constraint.places q.1 q.2

theorem Tightens.isDcp_objective_iff {p' p : Problem} (h : Tightens p' p)
    (hdcp : p.objective.isDcp = true) : p'.objective.isDcp = true ↔
      ∀ q ∈ Expr.places p'.objective.expr p.objective.expr, ¬ Expr.Flips q.1 q.2 := by
  unfold Objective.isDcp at hdcp ⊢
  rw [h.sense]
  cases hsense : p.objective.sense with
  | minimize =>
    rw [hsense] at hdcp
    exact h.objective.mirrors.isConvex_iff hdcp
  | maximize =>
    rw [hsense] at hdcp
    exact h.objective.mirrors.isConcave_iff hdcp

/-- Tighter leaves make lower signs. They keep a certificate if and only if no concave argument of a
signed atom goes from nonpositive to zero. -/
theorem certificates_kept_iff :
    (∀ e' e : Expr, e'.Tightens e → e'.sign ≤ e.sign ∧
      (e'.curvature.isSubsetOf e.curvature = true ↔
        (e.isDcp = true → ∀ q ∈ Expr.places e' e, ¬ Expr.Flips q.1 q.2))) ∧
    ∀ p' p : Problem, p'.Tightens p → p.isDcp = true →
      (p'.isDcp = true ↔ ∀ q ∈ places p' p, ¬ Expr.Flips q.1 q.2) := by
  refine ⟨fun e' e h => ⟨h.mirrors.sign_le, h.mirrors.curvature_subset_iff⟩, ?_⟩
  intro p' p h hdcp
  rw [isDcp, Bool.and_eq_true] at hdcp ⊢
  have hconstraints := Constraint.all_isDcp_iff
    (h.constraints.imp fun _ _ => Constraint.Tightens.mirrors) hdcp.2
  rw [h.isDcp_objective_iff hdcp.1, hconstraints, places, List.forall_mem_append]

/-! ### The magnitude of a negated square -/

def leaf (s : Sign) : Expr := .var ⟨0, { sign := s }⟩

def magnitude (s : Sign) : Expr := (leaf s).square.neg.abs

/-- The magnitude is minimized where the square is at most the variable. -/
def bowl (s : Sign) : Problem :=
  ⟨⟨.minimize, magnitude s⟩, [.nonneg (.binary none .add (leaf s) (leaf s).square.neg)]⟩

theorem tightens_leaf {s t : Sign} (h : s ≤ t) : (leaf s).Tightens (leaf t) :=
  .var 0 { sign := t } h

theorem tightens_square {s t : Sign} (h : s ≤ t) : (leaf s).square.Tightens (leaf t).square :=
  .unary (f := .square) (tightens_leaf h) rfl rfl

theorem tightens_magnitude {s t : Sign} (h : s ≤ t) : (magnitude s).Tightens (magnitude t) :=
  .unary (f := .abs) (.unary (f := .neg) (tightens_square h) rfl rfl) rfl rfl

theorem tightens_bowl {s t : Sign} (h : s ≤ t) : (bowl s).Tightens (bowl t) where
  sense := rfl
  objective := tightens_magnitude h
  constraints := .cons ⟨.leq, _, _, _, _, tightens_square h, tightens_leaf h, rfl, rfl⟩ .nil

/-- A variable that is declared nonnegative keeps the certificate. -/
theorem certificate_kept : (magnitude .positive).sign ≤ (magnitude .unknown).sign ∧
    (magnitude .positive).curvature.isSubsetOf (magnitude .unknown).curvature = true ∧
    (bowl .positive).isDcp = true := by
  obtain ⟨hexpr, hproblem⟩ := certificates_kept_iff
  obtain ⟨hsign, hcurvature⟩ := hexpr _ _ (tightens_magnitude (.inr (.inr rfl)))
  exact ⟨hsign, hcurvature.2 fun _ => by decide,
    (hproblem _ _ (tightens_bowl (.inr (.inr rfl))) rfl).2 (by decide)⟩

/-- A variable that is declared zero loses it, as the negated square is zero too. -/
theorem certificate_lost : (magnitude .zero).Tightens (magnitude .unknown) ∧
    (magnitude .zero).curvature.isSubsetOf (magnitude .unknown).curvature = false ∧
    (bowl .zero).Tightens (bowl .unknown) ∧ (bowl .unknown).isDcp = true ∧
    (bowl .zero).isDcp = false :=
  ⟨tightens_magnitude (.inr (.inr rfl)), rfl, tightens_bowl (.inr (.inr rfl)), rfl, rfl⟩

end Problem

end DisciplinedConvex
