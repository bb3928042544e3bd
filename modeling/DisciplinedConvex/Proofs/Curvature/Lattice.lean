import Mathlib.Order.Bounds.Basic
import Mathlib.Order.BoundedOrder.Lattice
import DisciplinedConvex.Proofs.Arguments.Duality

/-! # The lattice of curvatures

Curvatures form a join-semilattice: `Curvature.isSubsetOf` is its order and `Curvature.add` its join,
with constant at the bottom and unknown at the top.

* `Curvature.contribution_mono`: what an argument adds is monotone in the curvature of the atom and
  in that of the argument.
* `Curvature.sum_le_iff`: a sum is below exactly what all of its terms are below.
* `Curvature.compose_isLUB` says what follows for the composition rule.
-/

namespace DisciplinedConvex
set_option autoImplicit false

namespace Curvature

/-! ## The order -/

instance : SemilatticeSup Curvature where
  le c d := c.isSubsetOf d = true
  sup := add
  le_refl c := (isSubsetOf_iff_add c c).2 (add_self c)
  le_trans c d e hcd hde := by
    rw [isSubsetOf_iff_add] at hcd hde ⊢
    rw [← hde, ← add_assoc, hcd]
  le_antisymm c d hcd hdc := by
    rw [isSubsetOf_iff_add] at hcd hdc
    rw [← hdc, add_comm, hcd]
  le_sup_left c d := by rw [isSubsetOf_iff_add, ← add_assoc, add_self]
  le_sup_right c d := by rw [isSubsetOf_iff_add, add_comm c, ← add_assoc, add_self]
  sup_le c d e hce hde := by
    rw [isSubsetOf_iff_add] at hce hde ⊢
    rw [add_assoc, hde, hce]

instance : BoundedOrder Curvature where
  bot := constant
  bot_le c := (isSubsetOf_iff_add constant c).2 (constant_add c)
  top := unknown
  le_top := subset_unknown

instance : DecidableLE Curvature := fun c d => inferInstanceAs (Decidable (c.isSubsetOf d = true))

theorem le_iff_isSubsetOf {c d : Curvature} : c ≤ d ↔ c.isSubsetOf d = true := Iff.rfl

theorem add_eq_sup (c d : Curvature) : c.add d = c ⊔ d := rfl

/-! ## Contributions -/

theorem negate_mono : Monotone negate := by
  intro c d h
  rw [le_iff_isSubsetOf, isSubsetOf_iff_add] at h ⊢
  rw [← negate_add, h]

variable {base base' c c' : Curvature}

/-- A larger base and a larger argument of the same monotonicity and sign. -/
theorem contribution_mono (hbase : base ≤ base') (hc : c ≤ c') (m : Monotonicity) (s : Sign) :
    base.contribution m c s ≤ base'.contribution m c' s := by
  obtain ⟨hconvex, hconcave, hconstant⟩ := isSubsetOf_iff.1 hc
  unfold contribution
  by_cases h : c.isConstant = true
  · rw [if_pos h]
    exact bot_le
  rw [if_neg h, if_neg (mt hconstant h)]
  -- Without a direction the argument has to be affine, and so is all that is below it.
  have husable : (if c.isAffine then base else unknown) ≤ if c'.isAffine then base' else unknown := by
    by_cases h' : c'.isAffine = true
    · rw [isAffine_iff] at h'
      rw [if_pos (isAffine_iff.2 h'), if_pos (isAffine_iff.2 ⟨hconvex h'.1, hconcave h'.2⟩)]
      exact hbase
    · rw [if_neg h']
      exact le_top
  cases m.resolve s with
  | increasing => exact sup_le_sup hbase hc
  | decreasing => exact sup_le_sup hbase (negate_mono hc)
  | signed => exact husable
  | nonmonotonic => exact husable

/-! ## Sums -/

theorem sum_le_iff {cs : List Curvature} {u : Curvature} : sum cs ≤ u ↔ ∀ c ∈ cs, c ≤ u := by
  induction cs with
  | nil => exact iff_of_true bot_le fun _ h => (List.not_mem_nil h).elim
  | cons c cs ih => rw [sum_cons, add_eq_sup, sup_le_iff, ih, List.forall_mem_cons]

theorem sum_le_sum {cs ds : List Curvature} (h : List.Forall₂ (· ≤ ·) cs ds) : sum cs ≤ sum ds := by
  induction h with
  | nil => exact le_rfl
  | cons hc _ ih => exact sup_le_sup hc ih

/-! ## The composition rule -/

variable {args args' : List (Monotonicity × Curvature × Sign)}

theorem compose_le_iff {u : Curvature} :
    base.compose args ≤ u ↔ ∀ a ∈ args, base.contribution a.1 a.2.1 a.2.2 ≤ u := by
  rw [compose_eq_sum, sum_le_iff, List.forall_mem_map]

theorem compose_congr_mem (h : ∀ a, a ∈ args' ↔ a ∈ args) :
    base.compose args' = base.compose args :=
  eq_of_forall_ge_iff fun u => by simp only [compose_le_iff, h]

theorem compose_mono (hbase : base ≤ base') (h : List.Forall₂
    (fun a a' => a.1 = a'.1 ∧ a.2.1 ≤ a'.2.1 ∧ a.2.2 = a'.2.2) args args') :
    base.compose args ≤ base'.compose args' := by
  rw [compose_eq_sum, compose_eq_sum]
  refine sum_le_sum ?_
  rw [List.forall₂_map_left_iff, List.forall₂_map_right_iff]
  refine h.imp ?_
  rintro ⟨m, c, s⟩ ⟨m', c', s'⟩ ⟨rfl, hc, rfl⟩
  exact contribution_mono hbase hc m s

/-- The curvature of an application is the least one above what each argument adds, constant if
there are none. Hence neither the order of the arguments nor repetitions count, and a larger
curvature of the atom or of arguments makes for a larger one of the application. -/
theorem compose_isLUB (base : Curvature) (args : List (Monotonicity × Curvature × Sign)) :
    IsLUB {c | ∃ a ∈ args, base.contribution a.1 a.2.1 a.2.2 = c} (base.compose args) ∧
    base.compose [] = constant ∧
    (∀ args' : List (Monotonicity × Curvature × Sign), (∀ a, a ∈ args' ↔ a ∈ args) →
      base.compose args' = base.compose args) ∧
    ∀ (base' : Curvature) (args' : List (Monotonicity × Curvature × Sign)), base ≤ base' →
      List.Forall₂ (fun a a' => a.1 = a'.1 ∧ a.2.1 ≤ a'.2.1 ∧ a.2.2 = a'.2.2) args args' →
      base.compose args ≤ base'.compose args' := by
  refine ⟨isLUB_iff_le_iff.2 fun u => ?_, rfl, fun args' => compose_congr_mem,
    fun base' args' => compose_mono⟩
  rw [compose_le_iff]
  constructor
  · rintro h c ⟨a, ha, rfl⟩
    exact h a ha
  · exact fun h a ha => h ⟨a, ha, rfl⟩

/-! ### Three arguments, one of them constant -/

def threeArguments : List (Monotonicity × Curvature × Sign) :=
  [(.increasing, affine, .unknown), (.signed, convex, .positive), (.decreasing, constant, .negative)]

def shuffledArguments : List (Monotonicity × Curvature × Sign) :=
  [(.signed, convex, .positive), (.decreasing, constant, .negative), (.increasing, affine, .unknown),
    (.signed, convex, .positive)]

def raisedArguments : List (Monotonicity × Curvature × Sign) :=
  [(.increasing, convex, .unknown), (.signed, convex, .positive), (.decreasing, concave, .negative)]

/-- The signed argument makes the application convex, in any order and if it comes up twice. Two
arguments are raised after that, one of them behind a decreasing monotonicity. -/
theorem compose_isLUB_three :
    affine.compose threeArguments = convex ∧
    (∀ a, a ∈ shuffledArguments ↔ a ∈ threeArguments) ∧
    affine.compose shuffledArguments = convex ∧
    affine ≤ convex ∧
    List.Forall₂ (fun a a' => a.1 = a'.1 ∧ a.2.1 ≤ a'.2.1 ∧ a.2.2 = a'.2.2)
      threeArguments raisedArguments ∧
    affine.compose threeArguments ≤ convex.compose raisedArguments := by
  obtain ⟨-, -, hcongr, hmono⟩ := compose_isLUB affine threeArguments
  have hmem : ∀ a, a ∈ shuffledArguments ↔ a ∈ threeArguments := by
    intro a
    simp only [shuffledArguments, threeArguments, List.mem_cons, List.not_mem_nil, or_false]
    tauto
  have hraised : List.Forall₂ (fun a a' => a.1 = a'.1 ∧ a.2.1 ≤ a'.2.1 ∧ a.2.2 = a'.2.2)
      threeArguments raisedArguments :=
    .cons (by decide) (.cons (by decide) (.cons (by decide) .nil))
  have hvalue : affine.compose threeArguments = convex := by decide
  have hle : affine ≤ convex := by decide
  exact ⟨hvalue, hmem, (hcongr _ hmem).trans hvalue, hle, hraised, hmono _ _ hle hraised⟩

end Curvature

end DisciplinedConvex
