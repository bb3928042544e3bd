import DisciplinedConvex.Problem
import DisciplinedConvex.Proofs.Curvature.Sound

/-! # Problems that keep the rules are convex

* `Constraint.HoldsAt` is what a constraint asks of a point, and `Problem.feasible` are the points
  in the region of every expression where every constraint holds.
* `Constraint.holdsAt_mix` is the step: the constraints that keep the rules hold at a mixture of two
  points where they hold. `Problem.convex_feasible` puts them together, and
  `Problem.isConvex_of_isDcp` adds the objective.
-/

namespace DisciplinedConvex
set_option autoImplicit false

/-! ## Constraints and problems from the builders -/

/-- Both sides come from the builders, and the bound of a cone is a scalar. -/
structure Constraint.Built (c : Constraint) : Prop where
  expressions : ∀ e ∈ c.expressions, e.Built
  bound : ∀ t x, c = .cone t x → t.shape.isScalar = true

theorem Expr.built_sub {x y e : Expr} (hx : x.Built) (hy : y.Built) (h : x.sub y = .ok e) :
    e.Built :=
  hx.binary .add (.unary (f := .neg) hy rfl) h

/-- What the builders of relations make has the form that is asked for. -/
theorem Constraint.built_of_build {r : Relation} {x y : Expr} {c : Constraint} (hx : x.Built)
    (hy : y.Built) (h : r.build x y = .ok c) : c.Built := by
  cases r with
  | eq =>
    obtain ⟨e, he, rfl⟩ := Relation.of_build h
    exact ⟨List.forall_mem_singleton.2 (Expr.built_sub hx hy he), fun _ _ => (nomatch ·)⟩
  | leq =>
    obtain ⟨e, he, rfl⟩ := Relation.of_build h
    exact ⟨List.forall_mem_singleton.2 (Expr.built_sub hy hx he), fun _ _ => (nomatch ·)⟩
  | geq =>
    obtain ⟨e, he, rfl⟩ := Relation.of_build h
    exact ⟨List.forall_mem_singleton.2 (Expr.built_sub hx hy he), fun _ _ => (nomatch ·)⟩
  | soc =>
    obtain ⟨hscalar, rfl⟩ := Relation.of_build h
    refine ⟨List.forall_mem_cons.2 ⟨hx, List.forall_mem_singleton.2 hy⟩, ?_⟩
    rintro t z ⟨⟩
    exact hscalar

namespace Problem

structure Built (p : Problem) : Prop where
  objective : p.objective.expr.Built
  constraints : ∀ c ∈ p.constraints, c.Built

/-- Something is true of every node of every expression. -/
def Everywhere (P : Expr → Prop) (p : Problem) : Prop := ∀ e ∈ p.expressions, e.Everywhere P

theorem Built.expressions {p : Problem} (h : p.Built) : ∀ e ∈ p.expressions, e.Built := by
  intro e he
  rcases List.mem_cons.1 he with rfl | he
  · exact h.objective
  · obtain ⟨c, hc, hec⟩ := List.mem_flatMap.1 he
    exact (h.constraints c hc).expressions e hec

end Problem

variable {K : Type*} [Field K] [LinearOrder K]

/-! ## Feasible points -/

def Constraint.HoldsAt (S : Textbook K) (ρ : Point K) : Constraint → Prop
  | zero e => (e.value S ρ).All (· = 0)
  | nonneg e => (e.value S ρ).All (0 ≤ ·)
  | cone t x => S.norm2 (x.value S ρ).positions (x.value S ρ).entry ≤ t.entryAt S (0, 0) ρ

/-- The points where every variable has its declared sign, every expression is defined and every
constraint holds. -/
def Problem.feasible (S : Textbook K) (p : Problem) : Set (Point K) :=
  {ρ | (∀ e ∈ p.expressions, ρ ∈ e.region S) ∧ ∀ c ∈ p.constraints, c.HoldsAt S ρ}

variable [IsStrictOrderedRing K] {S : Textbook K}

namespace Constraint

open DisciplinedConvex.Expr

theorem certified_of_isAffine {e : Expr} (h : e.isAffine = true) : e.isDcp = true :=
  Curvature.isCertified_iff.2 (.inl (Curvature.isAffine_iff.1 h).1)

theorem certified_of_isDcp {c : Constraint} (h : c.isDcp = true) :
    ∀ e ∈ c.expressions, e.isDcp = true := by
  intro e he
  cases c with
  | zero u =>
    cases List.mem_singleton.1 he
    exact certified_of_isAffine h
  | nonneg u =>
    cases List.mem_singleton.1 he
    exact Curvature.isCertified_iff.2 (.inr h)
  | cone t x =>
    rw [isDcp, Bool.and_eq_true] at h
    simp only [expressions, List.mem_cons, List.not_mem_nil, or_false] at he
    rcases he with rfl | rfl
    · exact certified_of_isAffine h.1
    · exact certified_of_isAffine h.2

/-- A constraint that keeps the rules and holds at two points holds between them. -/
theorem holdsAt_mix {a b : K} (ha : 0 ≤ a) (hb : 0 ≤ b) (hab : a + b = 1) {c : Constraint}
    (hc : c.Built) (hregular : ∀ e ∈ c.expressions, e.Everywhere (IsRegular K))
    (hpower : ∀ e ∈ c.expressions, e.Everywhere HasCertifiedPower) (hdcp : c.isDcp = true)
    {ρ₁ ρ₂ : Point K} (h₁ : ∀ e ∈ c.expressions, ρ₁ ∈ e.region S)
    (h₂ : ∀ e ∈ c.expressions, ρ₂ ∈ e.region S) (hold₁ : c.HoldsAt S ρ₁)
    (hold₂ : c.HoldsAt S ρ₂) : c.HoldsAt S (a • ρ₁ + b • ρ₂) := by
  have hchord : ∀ e ∈ c.expressions, Table.OnChord e.curvature a b
      (e.value S (a • ρ₁ + b • ρ₂)) (e.value S ρ₁) (e.value S ρ₂) := fun e he =>
    (onChord_value ha hb hab (hregular e he) (hpower e he) (h₁ e he) (h₂ e he)
      (certified_of_isDcp hdcp e he)).2
  cases c with
  | zero e =>
    have he := hchord e List.mem_cons_self
    intro q hq
    rw [(he.entry q hq).eq hdcp, hold₁ q (Table.positions_congr he.left ▸ hq),
      hold₂ q (Table.positions_congr he.right ▸ hq), mul_zero, mul_zero, add_zero]
  | nonneg e =>
    have he := hchord e List.mem_cons_self
    intro q hq
    have hx := mul_nonneg ha (hold₁ q (Table.positions_congr he.left ▸ hq))
    have hy := mul_nonneg hb (hold₂ q (Table.positions_congr he.right ▸ hq))
    exact (add_nonneg hx hy).trans ((he.entry q hq).above hdcp)
  | cone t x =>
    rw [isDcp, Bool.and_eq_true] at hdcp
    obtain ⟨ht, hx⟩ := hdcp
    have htchord := hchord t List.mem_cons_self
    have hxchord := hchord x (List.mem_cons_of_mem _ List.mem_cons_self)
    have hmem : (0, 0) ∈ (t.value S (a • ρ₁ + b • ρ₂)).positions := by
      have hshape := (hregular t List.mem_cons_self).hasShape S (a • ρ₁ + b • ρ₂)
      exact Table.mem_of_isScalar (hshape.isScalar_iff.2 (hc.bound t x rfl))
    rw [HoldsAt, Table.positions_congr hxchord.left] at hold₁
    rw [HoldsAt, Table.positions_congr hxchord.right] at hold₂
    -- The norm reads the argument at its positions alone, where it is the mixture.
    have hnorm : S.norm2 (x.value S (a • ρ₁ + b • ρ₂)).positions
        (x.value S (a • ρ₁ + b • ρ₂)).entry =
          S.norm2 (x.value S (a • ρ₁ + b • ρ₂)).positions
            (a • (x.value S ρ₁).entry + b • (x.value S ρ₂).entry) :=
      (S.norm2_gauge _).congr fun q hq => (hxchord.entry q hq).eq hx
    rw [HoldsAt, hnorm, entryAt, (htchord.entry _ hmem).eq ht]
    refine ((S.norm2_gauge _).convex.2 (Set.mem_univ _) (Set.mem_univ _) ha hb hab).trans ?_
    exact add_le_add (mul_le_mul_of_nonneg_left hold₁ ha) (mul_le_mul_of_nonneg_left hold₂ hb)

end Constraint

namespace Problem

open DisciplinedConvex.Expr

theorem certified_of_isDcp {p : Problem} (h : p.isDcp = true) :
    ∀ e ∈ p.expressions, e.isDcp = true := by
  rw [isDcp, Bool.and_eq_true, List.all_eq_true] at h
  obtain ⟨hobjective, hconstraints⟩ := h
  intro e he
  rcases List.mem_cons.1 he with rfl | he
  · unfold Objective.isDcp at hobjective
    split at hobjective
    · exact Curvature.isCertified_iff.2 (.inl hobjective)
    · exact Curvature.isCertified_iff.2 (.inr hobjective)
  · obtain ⟨c, hc, hec⟩ := List.mem_flatMap.1 he
    exact Constraint.certified_of_isDcp (hconstraints c hc) e hec

/-- The feasible points of a problem that keeps the rules form a convex set. -/
theorem convex_feasible {p : Problem} (hp : p.Built)
    (hregular : ∀ e ∈ p.expressions, e.Everywhere (IsRegular K))
    (hpower : ∀ e ∈ p.expressions, e.Everywhere HasCertifiedPower) (hdcp : p.isDcp = true) :
    Convex K (p.feasible S) := by
  rintro ρ₁ ⟨h₁, hold₁⟩ ρ₂ ⟨h₂, hold₂⟩ a b ha hb hab
  refine ⟨fun e he => ?_, fun c hc => ?_⟩
  · exact Expr.convex_region (hregular e he) (hpower e he) (certified_of_isDcp hdcp e he)
      (h₁ e he) (h₂ e he) ha hb hab
  · have hmem : ∀ e ∈ c.expressions, e ∈ p.expressions := fun e he =>
      List.mem_cons_of_mem _ (List.mem_flatMap.2 ⟨c, hc, he⟩)
    rw [isDcp, Bool.and_eq_true, List.all_eq_true] at hdcp
    exact Constraint.holdsAt_mix ha hb hab (hp.constraints c hc)
      (fun e he => hregular e (hmem e he)) (fun e he => hpower e (hmem e he)) (hdcp.2 c hc)
      (fun e he => h₁ e (hmem e he)) (fun e he => h₂ e (hmem e he)) (hold₁ c hc) (hold₂ c hc)

/-- A problem that keeps the rules is convex: its feasible points form a convex set, on which every
entry of the objective is convex if it is minimized and concave if it is maximized. -/
theorem isConvex_of_isDcp (S : Textbook K) {p : Problem} (hp : p.Built)
    (hfits : p.Everywhere FitsWord) (hfinite : p.Everywhere HasFiniteEntries)
    (hpower : p.Everywhere HasCertifiedPower) (hclassified : p.Everywhere (IsClassified K))
    (hdcp : p.isDcp = true) :
    Convex K (p.feasible S) ∧
    ∀ i < p.objective.expr.shape.rows.toNat, ∀ j < p.objective.expr.shape.cols.toNat,
      match p.objective.sense with
      | .minimize => ConvexOn K (p.feasible S) (p.objective.expr.entryAt S (i, j))
      | .maximize => ConcaveOn K (p.feasible S) (p.objective.expr.entryAt S (i, j)) := by
  have hregular : ∀ e ∈ p.expressions, e.Everywhere (IsRegular K) := fun e he =>
    (hp.expressions e he).isRegular (hfits e he) (hfinite e he) (hclassified e he)
  have hconvex : Convex K (p.feasible S) := convex_feasible hp hregular hpower hdcp
  have hmem : p.objective.expr ∈ p.expressions := List.mem_cons_self
  have hsub : p.feasible S ⊆ p.objective.expr.region S := fun ρ hρ => hρ.1 _ hmem
  refine ⟨hconvex, fun i hi j hj => ?_⟩
  rw [isDcp, Bool.and_eq_true] at hdcp
  have hobjective := hdcp.1
  unfold Objective.isDcp at hobjective
  cases hsense : p.objective.sense with
  | minimize =>
    rw [hsense] at hobjective
    exact (convexOn_entryAt (hregular _ hmem) (hpower _ hmem) hobjective ⟨hi, hj⟩).subset hsub
      hconvex
  | maximize =>
    rw [hsense] at hobjective
    exact (concaveOn_entryAt (hregular _ hmem) (hpower _ hmem) hobjective ⟨hi, hj⟩).subset hsub
      hconvex

/-! ### The barrier below a bound -/

def slack : Expr := binary none .add (const 1 (.scalar 1)) (neg (var ⟨0, {}⟩))

/-- The barrier is minimized where the variable is at most one. -/
def bounded : Problem := ⟨⟨.minimize, barrier⟩, [.nonneg slack]⟩

theorem built_bounded : bounded.Built := by
  refine ⟨built_barrier, fun c hc => ?_⟩
  cases List.mem_singleton.1 hc
  exact Constraint.built_of_build (r := .leq) (.var ⟨0, {}⟩) (.const 1 (.scalar 1)) rfl

theorem everywhere_bounded {P : Expr → Prop} (hbarrier : P barrier) (hlog : P (log (var ⟨0, {}⟩)))
    (hvar : P (var ⟨0, {}⟩)) (hslack : P slack) (hneg : P (neg (var ⟨0, {}⟩)))
    (hconst : P (const 1 (.scalar 1))) : bounded.Everywhere P := by
  intro e he
  have hcases : e = barrier ∨ e = slack := by
    simpa [expressions, bounded, Constraint.expressions] using he
  rcases hcases with rfl | rfl
  · exact everywhere_barrier.2 ⟨hbarrier, hlog, hvar⟩
  · rw [slack, everywhere_binary, neg, everywhere_unary, everywhere_const, everywhere_var]
    exact ⟨hslack, hconst, hneg, hvar⟩

/-- The point one is feasible, and the problem is convex. -/
theorem isConvex_bounded :
    (fun _ _ => 1) ∈ bounded.feasible RealFunctions.textbook ∧
    Convex ℝ (bounded.feasible RealFunctions.textbook) ∧
    ConvexOn ℝ (bounded.feasible RealFunctions.textbook)
      (barrier.entryAt RealFunctions.textbook (0, 0)) := by
  obtain ⟨hfeasible, hobjective⟩ := isConvex_of_isDcp RealFunctions.textbook built_bounded
    (everywhere_bounded (by decide) (by decide) (by decide) (by decide) (by decide) (by decide))
    (everywhere_bounded trivial trivial trivial trivial trivial (hasFiniteEntries_scalar rfl))
    (everywhere_bounded trivial trivial trivial trivial trivial trivial)
    (everywhere_bounded trivial trivial trivial trivial trivial trivial) rfl
  have hdomain : bounded.Everywhere (IsDefinedAt RealFunctions.textbook fun _ _ => 1) :=
    everywhere_bounded (fun _ _ => trivial) (fun _ _ => Set.mem_Ioi.2 one_pos) trivial trivial
      (fun _ _ => trivial) trivial
  have hsigns : ∀ e ∈ bounded.expressions, (fun _ _ => 1) ∈ e.respecting ℝ := by
    intro e he v hv
    have hleaf : v = ⟨0, {}⟩ := by
      simp only [expressions, bounded, Constraint.expressions, List.flatMap_cons,
        List.flatMap_nil, List.append_nil, List.mem_cons, List.not_mem_nil, or_false] at he
      rcases he with rfl | rfl <;> exact List.mem_singleton.1 hv
    subst hleaf
    exact fun _ _ => Sign.allows_unknown
  refine ⟨⟨fun e he => ⟨hsigns e he, hdomain e he⟩, fun c hc => ?_⟩, hfeasible,
    hobjective 0 (by decide) 0 (by decide)⟩
  cases List.mem_singleton.1 hc
  intro q _
  have hvalue : (slack.value RealFunctions.textbook fun _ _ => 1).entry q = 1 + -1 := by
    simp [slack, neg, value, Binary.table, Unary.table, Table.broadcast, Table.map, Value.table,
      Value.entry, Variable.table]
  rw [hvalue, add_neg_cancel]

end Problem

end DisciplinedConvex
