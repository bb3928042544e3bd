import DisciplinedConvex.Proofs.Feasible
import DisciplinedConvex.Proofs.Reach

/-! # Curvature and the nodes below

* `Expr.certified_below` says that a certified expression is certified at every node: no atom, sign
  or constant factor makes up for an argument of which nothing is known.
* `Expr.constant_iff_no_variable` says that the constant expressions are those without variables.
-/

namespace DisciplinedConvex
set_option autoImplicit false

namespace Expr

/-! ## Certified nodes -/

theorem isDcp_iff {e : Expr} : e.isDcp = true ↔ e.curvature ≠ .unknown := by
  rw [Ne, ← Curvature.not_isCertified_iff, not_not, isDcp]

theorem isDcp_of_reaches {e y : Expr} (hy : e.Reaches y) (h : e.isDcp = true) :
    y.isDcp = true :=
  hy.keep (P := (isDcp · = true)) (fun _ h _ hx => isDcp_of_mem_args h hx) h

theorem not_isDcp_of_reaches {e y : Expr} (hy : e.Reaches y) (h : y.curvature = .unknown) :
    e.isDcp = false := by
  by_contra he
  exact isDcp_iff.1 (isDcp_of_reaches hy (Bool.not_eq_false _ ▸ he)) h

/-- Every node of a certified expression is certified. One node of which nothing is known is enough
to spoil each expression above it and each problem that it occurs in. -/
theorem certified_below :
    (∀ e y : Expr, e.Reaches y → e.curvature ≠ .unknown → y.curvature ≠ .unknown) ∧
    (∀ e y : Expr, e.Reaches y → y.curvature = .unknown → e.isDcp = false) ∧
    ∀ p : Problem, ∀ e ∈ p.expressions, ∀ y : Expr, e.Reaches y → y.curvature = .unknown →
      p.isDcp = false := by
  refine ⟨fun e y hy h => ?_, fun e y hy h => not_isDcp_of_reaches hy h, ?_⟩
  · exact isDcp_iff.1 (isDcp_of_reaches hy (isDcp_iff.2 h))
  · intro p e he y hy h
    by_contra hp
    have hcertified := Problem.certified_of_isDcp (Bool.not_eq_false _ ▸ hp) e he
    rw [not_isDcp_of_reaches hy h] at hcertified
    cases hcertified

/-! ### A product of variables that is cancelled -/

def product : Expr := binary none .mul (var ⟨0, {}⟩) (var ⟨1, {}⟩)

/-- The larger of one and zero times the product. -/
def cancelled : Expr :=
  variadic none .maximum (const 3 (.scalar 1)) [binary none .mul (const 2 (.scalar 0)) product]

theorem cancelled_reaches_product : cancelled.Reaches product :=
  .head (b := binary none .mul (const 2 (.scalar 0)) product)
    (List.mem_cons_of_mem _ List.mem_cons_self)
    (.head (List.mem_cons_of_mem _ List.mem_cons_self) .refl)

/-- The barrier is certified and so is the logarithm in it. Nothing is known of the product of two
variables, nor of what it is cancelled in, and a problem with that in a constraint breaks the
rules. -/
theorem certified_below_barrier :
    (log (var ⟨0, {}⟩)).curvature ≠ .unknown ∧ cancelled.isDcp = false ∧
    Problem.isDcp ⟨⟨.minimize, barrier⟩, [.nonneg cancelled.neg]⟩ = false := by
  obtain ⟨hcertified, hunknown, hproblem⟩ := certified_below
  refine ⟨hcertified barrier _ (.single List.mem_cons_self) (by decide),
    hunknown _ product cancelled_reaches_product rfl, ?_⟩
  exact hproblem _ cancelled.neg (List.mem_cons_of_mem _ List.mem_cons_self) product
    (.head (b := cancelled) List.mem_cons_self cancelled_reaches_product) rfl

/-! ## Constants -/

theorem constant_iff_leaves {e : Expr} : e.curvature = .constant ↔ e.leaves = [] := by
  induction e with
  | var v => exact iff_of_false (nomatch ·) (nomatch ·)
  | const id v => exact iff_of_true rfl rfl
  | unary label op x ih => exact constant_unary.trans ih
  | binary label op x y ihx ihy =>
    rw [constant_binary, ihx, ihy, leaves, List.append_eq_nil_iff]
  | variadic label op x xs ihx ihxs =>
    rw [constant_variadic, ihx, forall₂_congr ihxs, leaves, leavesOf_eq_flatMap,
      List.append_eq_nil_iff, List.flatMap_eq_nil_iff]

/-- An expression is constant exactly if no variable occurs in it. -/
theorem constant_iff_no_variable (e : Expr) :
    (e.curvature = .constant ↔ e.variableIds = []) ∧
      (e.variableIds = [] ↔ ¬ ∃ v, e.Reaches (var v)) := by
  rw [variableIds_eq_nil_iff, not_exists]
  exact ⟨constant_iff_leaves, leaves_eq_nil_iff⟩

end Expr

end DisciplinedConvex
