import DisciplinedConvex.Expr.Inference
import DisciplinedConvex.Proofs.Curvature.Bound
import DisciplinedConvex.Proofs.Power

/-! # Inference and the orders on signs and curvatures

Zero is the lowest sign and unknown the highest; curvatures are ordered by `Curvature.isSubsetOf`.

* `Unary.sign_le`, `Binary.sign_le` and `Variadic.sign_le`: of lower signs every atom makes a lower
  sign.
* `Curvature.contribution_subset`: a lower curvature contributes a lower curvature, whatever the
  sign, unless the monotonicity is signed. `Curvature.contribution_signed_subset` says when a signed
  one does: all but where a concave argument goes from nonpositive to zero.
-/

namespace DisciplinedConvex
set_option autoImplicit false

/-! ## Signs -/

namespace Sign

instance : LE Sign := ⟨fun s t => s = t ∨ s = zero ∨ t = unknown⟩

instance (s t : Sign) : Decidable (s ≤ t) := inferInstanceAs (Decidable (_ ∨ _))

/-- A lower sign says more. -/
theorem le_iff {s t : Sign} : s ≤ t ↔
    (t.isNonneg = true → s.isNonneg = true) ∧ (t.isNonpos = true → s.isNonpos = true) := by
  cases s <;> cases t <;> decide

protected theorem le_refl (s : Sign) : s ≤ s := .inl rfl

protected theorem zero_le (s : Sign) : zero ≤ s := .inr (.inl rfl)

protected theorem le_trans {s t u : Sign} (h : s ≤ t) (k : t ≤ u) : s ≤ u := by
  rw [le_iff] at *
  exact ⟨h.1 ∘ k.1, h.2 ∘ k.2⟩

variable {s s' t t' : Sign}

theorem eq_zero_of_le (h : s' ≤ s) (hs : s.isZero = true) : s' = zero := by
  cases s with
  | zero => exact h.elim id fun h => h.elim id (nomatch ·)
  | _ => cases hs

theorem negate_le (h : s' ≤ s) : s'.negate ≤ s.negate := by
  rw [le_iff, isNonneg_negate, isNonneg_negate, isNonpos_negate, isNonpos_negate]
  exact (le_iff.1 h).symm

theorem magnitude_le (h : s' ≤ s) : s'.magnitude ≤ s.magnitude := by
  by_cases hs : s.isZero = true
  · rw [eq_zero_of_le h hs]
    exact Sign.zero_le _
  · by_cases hs' : s'.isZero = true
    · rw [magnitude, if_pos hs']
      exact Sign.zero_le _
    · rw [magnitude, magnitude, if_neg hs, if_neg hs']
      exact Sign.le_refl _

theorem isNonneg_add (s t : Sign) : (s.add t).isNonneg = (s.isNonneg && t.isNonneg) := by
  cases s <;> cases t <;> rfl

theorem isNonpos_add (s t : Sign) : (s.add t).isNonpos = (s.isNonpos && t.isNonpos) := by
  cases s <;> cases t <;> rfl

theorem add_le (hs : s' ≤ s) (ht : t' ≤ t) : s'.add t' ≤ s.add t := by
  rw [le_iff] at hs ht ⊢
  simp only [isNonneg_add, isNonpos_add, Bool.and_eq_true]
  exact ⟨And.imp hs.1 ht.1, And.imp hs.2 ht.2⟩

theorem mul_comm (s t : Sign) : s.mul t = t.mul s := by
  cases s <;> cases t <;> rfl

theorem mul_le_right (h : s' ≤ s) (t : Sign) : s'.mul t ≤ s.mul t := by
  cases s' <;> cases s <;> cases t <;> revert h <;> decide

theorem mul_le (hs : s' ≤ s) (ht : t' ≤ t) : s'.mul t' ≤ s.mul t := by
  have hleft := mul_le_right ht s'
  rw [mul_comm t', mul_comm t] at hleft
  exact Sign.le_trans hleft (mul_le_right hs t)

end Sign

namespace Unary

theorem sign_le (op : Unary) {s s' : Sign} (h : s' ≤ s) : op.sign s' ≤ op.sign s := by
  obtain ⟨hnonneg, hnonpos⟩ := Sign.le_iff.1 h
  have hclip : ∀ p p' : Bool, (p = true → p' = true) →
      (if p' then .zero else .positive : Sign) ≤ if p then .zero else .positive := by
    intro p p' hp
    cases p <;> cases p' <;> first | decide | exact absurd (hp rfl) (nomatch ·)
  cases op
  case neg => exact Sign.negate_le h
  case pos => exact hclip _ _ hnonpos
  case negPart => exact hclip _ _ hnonneg
  case power p =>
    simp only [sign]
    split
    · exact h
    · split
      · exact Sign.le_refl _
      · exact Sign.magnitude_le h
  case exp => exact Sign.le_refl _
  case log => exact Sign.le_refl _
  case entropy => exact Sign.le_refl _
  all_goals first | exact h | exact Sign.magnitude_le h

/-- A signed atom is convex. -/
theorem curvature_of_signed {op : Unary} (hp : op.checkParameter = .ok ())
    (h : op.monotonicity = .signed) : op.curvature = .convex := by
  cases op
  case power p =>
    cases powerKind hp with
    | one _ _ _ monotonicity => rw [monotonicity] at h; cases h
    | negative _ _ _ monotonicity => rw [monotonicity] at h; cases h
    | root _ _ _ _ monotonicity => rw [monotonicity] at h; cases h
    | even _ _ _ curvature _ => exact curvature
    | other _ _ _ _ monotonicity => rw [monotonicity] at h; cases h
  all_goals first | rfl | cases h

end Unary

theorem Binary.scaledBy_ne_signed (c : Curvature) (s : Sign) : Binary.scaledBy c s ≠ .signed := by
  unfold Binary.scaledBy
  split
  · cases s <;> exact (nomatch ·)
  · exact (nomatch ·)

theorem Binary.eq_quadOverLin_of_signed {op : Binary} {c : Curvature} {s : Sign}
    (h : op.monotonicityLeft c s = .signed) : op = .quadOverLin := by
  cases op with
  | quadOverLin => rfl
  | mul => exact absurd h (scaledBy_ne_signed c s)
  | matmul => exact absurd h (scaledBy_ne_signed c s)
  | add => cases h
  | quadForm => cases h

theorem Binary.monotonicityRight_ne_signed (op : Binary) (c : Curvature) (s : Sign) :
    op.monotonicityRight c s ≠ .signed := by
  cases op with
  | mul => exact scaledBy_ne_signed c s
  | matmul => exact scaledBy_ne_signed c s
  | _ => exact (nomatch ·)

theorem Binary.sign_le (op : Binary) {a a' b b' : Sign} (v : Option Value) (ha : a' ≤ a)
    (hb : b' ≤ b) : op.sign a' b' v ≤ op.sign a b v := by
  cases op with
  | add => exact Sign.add_le ha hb
  | mul => exact Sign.mul_le ha hb
  | matmul => exact Sign.mul_le ha hb
  | quadOverLin => exact Sign.magnitude_le ha
  | quadForm =>
    simp only [sign]
    by_cases hzero' : a'.isZero = true
    · rw [if_pos hzero']
      exact Sign.zero_le _
    · have hzero : ¬ a.isZero = true := fun h => hzero' (by rw [Sign.eq_zero_of_le ha h]; rfl)
      rw [if_neg hzero', if_neg hzero]
      exact Sign.le_refl _

theorem Variadic.sign_le (op : Variadic) {pairs : List (Sign × Sign)}
    (h : ∀ q ∈ pairs, q.1 ≤ q.2) :
    op.sign (pairs.map Prod.fst) ≤ op.sign (pairs.map Prod.snd) := by
  by_cases hnil : pairs = []
  · subst hnil
    exact Sign.le_refl _
  have hall : ∀ p : Sign → Bool, (∀ q ∈ pairs, p q.2 = true → p q.1 = true) →
      ((pairs.map Prod.snd).all p = true → (pairs.map Prod.fst).all p = true) := by
    intro p hp hsnd
    rw [List.all_map, List.all_eq_true] at hsnd ⊢
    exact fun q hq => hp q hq (hsnd q hq)
  have hany : ∀ p : Sign → Bool, (∀ q ∈ pairs, p q.2 = true → p q.1 = true) →
      ((pairs.map Prod.snd).any p = true → (pairs.map Prod.fst).any p = true) := by
    intro p hp hsnd
    rw [List.any_map, List.any_eq_true] at hsnd ⊢
    obtain ⟨q, hq, hpq⟩ := hsnd
    exact ⟨q, hq, hp q hq hpq⟩
  have hnonneg : ∀ q ∈ pairs, q.2.isNonneg = true → q.1.isNonneg = true :=
    fun q hq => (Sign.le_iff.1 (h q hq)).1
  have hnonpos : ∀ q ∈ pairs, q.2.isNonpos = true → q.1.isNonpos = true :=
    fun q hq => (Sign.le_iff.1 (h q hq)).2
  have hempty : ∀ f : Sign × Sign → Sign, (pairs.map f).isEmpty = false := by
    intro f
    rw [List.isEmpty_map, List.isEmpty_eq_false_iff]
    exact hnil
  rw [Sign.le_iff]
  cases op with
  | vstack =>
    simp only [sign, Sign.union, hempty, Bool.false_eq_true, if_false, Sign.isNonneg_ofBounds,
      Sign.isNonpos_ofBounds]
    exact ⟨hall _ hnonneg, hall _ hnonpos⟩
  | hstack =>
    simp only [sign, Sign.union, hempty, Bool.false_eq_true, if_false, Sign.isNonneg_ofBounds,
      Sign.isNonpos_ofBounds]
    exact ⟨hall _ hnonneg, hall _ hnonpos⟩
  | maximum =>
    simp only [sign, Sign.maximum, hempty, Bool.false_eq_true, if_false, Sign.isNonneg_ofBounds,
      Sign.isNonpos_ofBounds]
    exact ⟨hany _ hnonneg, hall _ hnonpos⟩
  | minimum =>
    simp only [sign, Sign.minimum, hempty, Bool.false_eq_true, if_false, Sign.isNonneg_ofBounds,
      Sign.isNonpos_ofBounds]
    exact ⟨hall _ hnonneg, hany _ hnonpos⟩

/-! ## Curvatures -/

namespace Curvature

theorem isSubsetOf_iff {a b : Curvature} : a.isSubsetOf b = true ↔
    (b.isConvex = true → a.isConvex = true) ∧ (b.isConcave = true → a.isConcave = true) ∧
      (b.isConstant = true → a.isConstant = true) := by
  cases a <;> cases b <;> decide

theorem subset_unknown (a : Curvature) : a.isSubsetOf unknown = true := by
  cases a <;> rfl

theorem isCertified_of_subset {a b : Curvature} (h : a.isSubsetOf b = true)
    (hb : b.isCertified = true) : a.isCertified = true := by
  obtain ⟨hconvex, hconcave, -⟩ := isSubsetOf_iff.1 h
  exact isCertified_iff.2 ((isCertified_iff.1 hb).imp hconvex hconcave)

theorem contribution_subset {base c c' : Curvature} {m : Monotonicity} (s s' : Sign)
    (hm : m ≠ .signed) (h : c'.isSubsetOf c = true) :
    (base.contribution m c' s').isSubsetOf (base.contribution m c s) = true := by
  cases m with
  | signed => exact absurd rfl hm
  | increasing => cases base <;> cases c' <;> cases c <;> first | rfl | cases h
  | decreasing => cases base <;> cases c' <;> cases c <;> first | rfl | cases h
  | nonmonotonic => cases base <;> cases c' <;> cases c <;> first | rfl | cases h

/-- A signed monotonicity is decreasing for nonpositive arguments and counts as increasing for zero,
where a concave argument is no use. -/
theorem contribution_signed_subset {c c' : Curvature} {s s' : Sign} (h : c'.isSubsetOf c = true)
    (hs : s' ≤ s) (hkeep : ¬ (s' = .zero ∧ s = .negative ∧ c' = concave ∧ c = concave)) :
    (convex.contribution .signed c' s').isSubsetOf (convex.contribution .signed c s) = true := by
  cases s' <;> cases s <;> cases c' <;> cases c <;>
    first
    | rfl
    | exact absurd h (by decide)
    | exact absurd hs (by decide)
    | exact absurd ⟨rfl, rfl, rfl, rfl⟩ hkeep

/-- A lower curvature contributes a lower curvature to an atom that is convex wherever it is
signed. -/
theorem contribution_subset_of_keep {base c c' : Curvature} {m : Monotonicity} {s s' : Sign}
    (hbase : m = .signed → base = convex) (h : c'.isSubsetOf c = true) (hs : s' ≤ s)
    (hkeep : m = .signed → ¬ (s' = .zero ∧ s = .negative ∧ c' = concave ∧ c = concave)) :
    (base.contribution m c' s').isSubsetOf (base.contribution m c s) = true := by
  by_cases hm : m = .signed
  · rw [hm, hbase hm]
    exact contribution_signed_subset h hs (hkeep hm)
  · exact contribution_subset s s' hm h

theorem add_subset {c c' d d' : Curvature} (hc : c'.isSubsetOf c = true)
    (hd : d'.isSubsetOf d = true) : (c'.add d').isSubsetOf (c.add d) = true := by
  rw [isSubsetOf_iff] at hc hd ⊢
  simp only [isConvex_add, isConcave_add, isConstant_add, Bool.and_eq_true]
  exact ⟨And.imp hc.1 hd.1, And.imp hc.2.1 hd.2.1, And.imp hc.2.2 hd.2.2⟩

theorem compose_subset {base : Curvature} {args' args : List (Monotonicity × Curvature × Sign)}
    (h : List.Forall₂ (fun a' a => (base.contribution a'.1 a'.2.1 a'.2.2).isSubsetOf
      (base.contribution a.1 a.2.1 a.2.2) = true) args' args) :
    (base.compose args').isSubsetOf (base.compose args) = true := by
  suffices hfold : ∀ c' c : Curvature, c'.isSubsetOf c = true →
      ((args'.map fun a => base.contribution a.1 a.2.1 a.2.2).foldl add c').isSubsetOf
        ((args.map fun a => base.contribution a.1 a.2.1 a.2.2).foldl add c) = true from
    hfold constant constant rfl
  induction h with
  | nil => exact fun c' c hc => hc
  | cons ha _ ih => exact fun c' c hc => ih _ _ (add_subset hc ha)

end Curvature

end DisciplinedConvex
