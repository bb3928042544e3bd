import Mathlib.Logic.Relation
import DisciplinedConvex.Proofs.Built

/-! # Nodes below an expression

* `Expr.Reaches` goes from an expression to its arguments, any number of times. What it reaches are
  the nodes (`Expr.reaches_iff`), and what is handed down to the arguments is handed down to all of
  them (`Expr.Reaches.keep`).
* The variable leaves are the variables that are reached (`Expr.mem_leaves_iff`), and no id of a
  variable is listed when there are none (`Expr.variableIds_eq_nil_iff`).
-/

namespace DisciplinedConvex
set_option autoImplicit false

namespace Expr

/-- A node that is found by going from arguments to arguments. -/
def Reaches : Expr → Expr → Prop := Relation.ReflTransGen fun e x => x ∈ e.args

theorem everywhere_reaches (e : Expr) : e.Everywhere e.Reaches :=
  .of_args (fun _ hy _ hx => hy.tail hx) .refl

theorem reaches_iff {e y : Expr} : e.Reaches y ↔ y ∈ e.nodes := by
  constructor
  · intro h
    induction h using Relation.ReflTransGen.head_induction_on with
    | refl => exact y.self_mem_nodes
    | head hx _ ih =>
      rw [nodes_eq]
      exact List.mem_cons_of_mem _ (List.mem_flatMap.2 ⟨_, hx, ih⟩)
  · exact e.everywhere_reaches y

theorem Reaches.keep {P : Expr → Prop} (hstep : ∀ e, P e → ∀ x ∈ e.args, P x) {e y : Expr}
    (hy : e.Reaches y) (h : P e) : P y :=
  Everywhere.of_args hstep h y (reaches_iff.1 hy)

/-! ## Variables -/

theorem mem_leaves_iff_of_args {e : Expr} (h : e.atom? ≠ none) {v : Variable} :
    v ∈ e.leaves ↔ ∃ x ∈ e.args, v ∈ x.leaves := by
  cases e with
  | var w => exact absurd rfl h
  | const id w => exact absurd rfl h
  | unary label op x => simp [leaves, args]
  | binary label op x y => simp [leaves, args]
  | variadic label op x xs => simp [leaves, args]

theorem mem_leaves_of_mem_args {e x : Expr} (hx : x ∈ e.args) {v : Variable}
    (hv : v ∈ x.leaves) : v ∈ e.leaves := by
  refine (mem_leaves_iff_of_args ?_).2 ⟨x, hx, hv⟩
  intro h
  cases e with
  | var w => cases hx
  | const id w => cases hx
  | unary label op x => cases h
  | binary label op x y => cases h
  | variadic label op x xs => cases h

/-- The variable leaves are the variables that are reached. -/
theorem mem_leaves_iff {e : Expr} {v : Variable} : v ∈ e.leaves ↔ e.Reaches (var v) := by
  constructor
  · intro h
    induction e with
    | var w =>
      rw [List.mem_singleton.1 h]
      exact .refl
    | const id w => cases h
    | unary label op x ih =>
      exact .head (b := x) List.mem_cons_self (ih h)
    | binary label op x y ihx ihy =>
      rcases List.mem_append.1 h with h | h
      · exact .head (b := x) List.mem_cons_self (ihx h)
      · exact .head (b := y) (List.mem_cons_of_mem _ List.mem_cons_self) (ihy h)
    | variadic label op x xs ihx ihxs =>
      rw [leaves, List.mem_append, leavesOf_eq_flatMap, List.mem_flatMap] at h
      rcases h with h | ⟨y, hy, h⟩
      · exact .head (b := x) List.mem_cons_self (ihx h)
      · exact .head (b := y) (List.mem_cons_of_mem _ hy) (ihxs y hy h)
  · intro h
    induction h using Relation.ReflTransGen.head_induction_on with
    | refl => exact List.mem_singleton.2 rfl
    | head hx _ ih => exact mem_leaves_of_mem_args hx ih

theorem variableIds_eq_nil_iff {e : Expr} : e.variableIds = [] ↔ e.leaves = [] := by
  rw [variableIds, collectBy_eq_nil_iff, List.map_eq_nil_iff]

theorem leaves_eq_nil_iff {e : Expr} : e.leaves = [] ↔ ∀ v, ¬ e.Reaches (var v) := by
  rw [List.eq_nil_iff_forall_not_mem]
  exact forall_congr' fun v => not_congr mem_leaves_iff

end Expr

end DisciplinedConvex
