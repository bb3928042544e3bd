import DisciplinedConvex.Proofs.Arguments.Order

/-! # Many arguments in closed form

The curvature of an application is added up from what each argument contributes. For the atoms of
many arguments there is nothing to add up: it is enough to ask all arguments the same question.

* `Variadic.admits` is the question that an atom asks, and `Variadic.closedForm` the answer.
* `Variadic.joined_eq_closedForm` goes through the arguments one after another. One argument that is
  not admitted decides, wherever it stands.
* `Expr.application_closed_form` adds the signs, and that an application is accepted if its shapes
  are.
-/

namespace DisciplinedConvex
set_option autoImplicit false

namespace Curvature

theorem unknown_add (c : Curvature) : unknown.add c = unknown := by
  cases c <;> rfl

theorem add_unknown (c : Curvature) : c.add unknown = unknown := by
  cases c <;> rfl

end Curvature

namespace Variadic

/-- The curvatures of arguments that do not spoil the curvature of the atom. -/
def admits : Variadic → Curvature → Bool
  | vstack | hstack => Curvature.isAffine
  | maximum => Curvature.isConvex
  | minimum => Curvature.isConcave

/-- The curvature of an application, said of all arguments at once. -/
def closedForm (op : Variadic) (cs : List Curvature) : Curvature :=
  if cs.all Curvature.isConstant then .constant
  else match op with
    | maximum => if cs.all Curvature.isConvex then .convex else .unknown
    | minimum => if cs.all Curvature.isConcave then .concave else .unknown
    | vstack | hstack => if cs.all Curvature.isAffine then .affine else .unknown

variable (op : Variadic) (c : Curvature) (cs : List Curvature)

theorem closedForm_eq : op.closedForm cs =
    if cs.all Curvature.isConstant then .constant
    else if cs.all op.admits then op.curvature else .unknown := by
  cases op <;> rfl

theorem admits_of_isConstant {op : Variadic} {c : Curvature} (h : c.isConstant = true) :
    op.admits c = true := by
  rw [Curvature.isConstant_iff.1 h]
  cases op <;> rfl

theorem part_eq : op.part c =
    if c.isConstant then .constant else if op.admits c then op.curvature else .unknown := by
  cases op <;> cases c <;> rfl

/-- The arguments are added up from the last to the first: the rest is constant, or has the
curvature of the atom, or is spoiled already. -/
theorem joined_eq_closedForm : op.joined cs = op.closedForm cs := by
  rw [closedForm_eq]
  induction cs with
  | nil => rfl
  | cons c cs ih =>
    rw [joined_cons, ih, part_eq, List.all_cons, List.all_cons]
    by_cases hc : c.isConstant = true
    · simp [hc, admits_of_isConstant hc]
    by_cases ha : op.admits c = true
    · by_cases hcs : cs.all Curvature.isConstant = true
      · have hadmits : cs.all op.admits = true := by
          rw [List.all_eq_true] at hcs ⊢
          exact fun d hd => admits_of_isConstant (hcs d hd)
        simp [hc, ha, hcs, hadmits]
      · by_cases hadmits : cs.all op.admits = true
        · simp [hc, ha, hcs, hadmits]
        · simp [hc, ha, hcs, hadmits, Curvature.add_unknown]
    · simp [hc, ha, Curvature.unknown_add]

end Variadic

namespace Expr

/-- An application of an atom of many arguments whose shapes are accepted. It is constant if all
arguments are; else it has the curvature of the atom if all arguments are convex (for the largest
entry), concave (for the smallest) or affine (for a stack), and otherwise nothing is known. The
largest entry is nonnegative exactly if some argument is, the smallest nonpositive exactly if some
argument is, and in all other cases all arguments have to be. -/
theorem application_closed_form {op : Variadic} {xs : List Expr} {s : Shape}
    (h : validate (.variadic op) xs = .ok s) :
    ∃ e, apply (.variadic op) xs = .ok e ∧ e.shape = s ∧
      e.curvature = op.closedForm (xs.map curvature) ∧
      (e.isNonneg = true ↔ if op = .maximum then ∃ x ∈ xs, x.isNonneg = true
        else ∀ x ∈ xs, x.isNonneg = true) ∧
      (e.isNonpos = true ↔ if op = .minimum then ∃ x ∈ xs, x.isNonpos = true
        else ∀ x ∈ xs, x.isNonpos = true) := by
  obtain ⟨e, he, -, -, hshape⟩ := exists_apply_of_validate h
  have hne : xs.map sign ≠ [] :=
    mt List.map_eq_nil_iff.1 (apply_variadic_succeeds_iff.1 ⟨e, he⟩).1
  refine ⟨e, he, hshape, ?_, ?_, ?_⟩
  · rw [curvature_eq_joined he, Variadic.joined_eq_closedForm]
  · rw [isNonneg, sign_of_apply he, Variadic.isNonneg_sign hne]
    simp only [List.mem_map, exists_exists_and_eq_and, forall_exists_index, and_imp,
      forall_apply_eq_imp_iff₂, isNonneg]
  · rw [isNonpos, sign_of_apply he, Variadic.isNonpos_sign hne]
    simp only [List.mem_map, exists_exists_and_eq_and, forall_exists_index, and_imp,
      forall_apply_eq_imp_iff₂, isNonpos]

/-- The largest of a number, a floor and a convex column is convex. Stacked on the number, the
column spoils the stack. -/
theorem closed_form_column :
    (∃ e, maximum [floor, unit, column] = .ok e ∧ e.shape = .vector 3 ∧ e.curvature = .convex ∧
      e.isNonneg = true) ∧
    ∃ e, vstack [unit, column] = .ok e ∧ e.shape = .vector 4 ∧ e.curvature = .unknown := by
  have hmaximum : validate (.variadic .maximum) [floor, unit, column] = .ok (.vector 3) := by rfl
  have hstack : validate (.variadic .vstack) [unit, column] = .ok (.vector 4) := by rfl
  obtain ⟨e, he, hshape, hcurvature, hnonneg, -⟩ := application_closed_form hmaximum
  obtain ⟨f, hf, hshape', hcurvature', -⟩ := application_closed_form hstack
  refine ⟨⟨e, he, hshape, hcurvature, hnonneg.2 ?_⟩, f, hf, hshape', hcurvature'⟩
  exact ⟨floor, List.mem_cons_self, rfl⟩

end Expr

end DisciplinedConvex
