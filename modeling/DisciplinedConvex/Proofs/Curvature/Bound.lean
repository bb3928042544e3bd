import DisciplinedConvex.Curvature
import DisciplinedConvex.Proofs.Sign.Basic

/-! # What curvatures say of numbers

A function on a convex set is looked at on one segment: `z` is its value at a mixture of two points
and `m` the mixture of its values there. A convex function has `z ≤ m`, a concave one `m ≤ z`.

* `Curvature.Bound` is what a curvature says of `z` and `m`. It is carried along a chain of numbers
  by `Curvature.add`.
* `Monotonicity.carry` is what remains of the curvature of an argument behind a function with the
  given monotonicity; the composition rule adds these to the curvature of the atom
  (`Curvature.Bound.compose_one`, `Curvature.Bound.compose_two`).
-/

namespace DisciplinedConvex
set_option autoImplicit false

namespace Curvature

/-! ## Two directions -/

@[simp] theorem isConvex_add (c d : Curvature) :
    (c.add d).isConvex = (c.isConvex && d.isConvex) := by
  cases c <;> cases d <;> rfl

@[simp] theorem isConcave_add (c d : Curvature) :
    (c.add d).isConcave = (c.isConcave && d.isConcave) := by
  cases c <;> cases d <;> rfl

theorem isConstant_add (c d : Curvature) :
    (c.add d).isConstant = (c.isConstant && d.isConstant) := by
  cases c <;> cases d <;> rfl

@[simp] theorem isConvex_negate (c : Curvature) : c.negate.isConvex = c.isConcave := by
  cases c <;> rfl

@[simp] theorem isConcave_negate (c : Curvature) : c.negate.isConcave = c.isConvex := by
  cases c <;> rfl

theorem isCertified_iff {c : Curvature} :
    c.isCertified = true ↔ c.isConvex = true ∨ c.isConcave = true := by
  cases c <;> decide

theorem not_isCertified_iff {c : Curvature} : ¬ c.isCertified = true ↔ c = unknown := by
  cases c <;> decide

theorem isAffine_iff {c : Curvature} :
    c.isAffine = true ↔ c.isConvex = true ∧ c.isConcave = true := by
  cases c <;> decide

theorem isConstant_iff {c : Curvature} : c.isConstant = true ↔ c = constant := by
  cases c <;> decide

/-! ## Chains of numbers -/

section Bound

variable {K : Type*} [LinearOrder K]

structure Bound (c : Curvature) (z m : K) : Prop where
  below : c.isConvex = true → z ≤ m
  above : c.isConcave = true → m ≤ z

variable {c d : Curvature} {z w m : K}

theorem bound_unknown : unknown.Bound z m := ⟨(nomatch ·), (nomatch ·)⟩

/-- A curvature that claims less holds too. -/
theorem Bound.imp (h : c.Bound z m) (hbelow : d.isConvex = true → c.isConvex = true)
    (habove : d.isConcave = true → c.isConcave = true) : d.Bound z m :=
  ⟨fun hd => h.below (hbelow hd), fun hd => h.above (habove hd)⟩

theorem Bound.of_eq (h : z = m) (c : Curvature) : c.Bound z m := ⟨fun _ => h.le, fun _ => h.ge⟩

theorem Bound.eq (h : c.Bound z m) (hc : c.isAffine = true) : z = m := by
  obtain ⟨hconvex, hconcave⟩ := isAffine_iff.1 hc
  exact le_antisymm (h.below hconvex) (h.above hconcave)

theorem Bound.trans (h : c.Bound z w) (k : d.Bound w m) : (c.add d).Bound z m := by
  constructor
  · rw [isConvex_add, Bool.and_eq_true]
    rintro ⟨hc, hd⟩
    exact (h.below hc).trans (k.below hd)
  · rw [isConcave_add, Bool.and_eq_true]
    rintro ⟨hc, hd⟩
    exact (k.above hd).trans (h.above hc)

variable [Field K] [IsStrictOrderedRing K]

theorem Bound.add {z' m' : K} (h : c.Bound z m) (k : d.Bound z' m') :
    (c.add d).Bound (z + z') (m + m') := by
  constructor
  · rw [isConvex_add, Bool.and_eq_true]
    rintro ⟨hc, hd⟩
    exact add_le_add (h.below hc) (k.below hd)
  · rw [isConcave_add, Bool.and_eq_true]
    rintro ⟨hc, hd⟩
    exact add_le_add (h.above hc) (k.above hd)

theorem Bound.sum {ι : Type*} {u : Finset ι} {f g : ι → K} (h : ∀ i ∈ u, c.Bound (f i) (g i)) :
    c.Bound (∑ i ∈ u, f i) (∑ i ∈ u, g i) :=
  ⟨fun hc => Finset.sum_le_sum fun i hi => (h i hi).below hc,
    fun hc => Finset.sum_le_sum fun i hi => (h i hi).above hc⟩

theorem Bound.mul_left {k : K} (h : c.Bound z m) (hk : 0 ≤ k) : c.Bound (k * z) (k * m) :=
  ⟨fun hc => mul_le_mul_of_nonneg_left (h.below hc) hk,
    fun hc => mul_le_mul_of_nonneg_left (h.above hc) hk⟩

theorem Bound.div_right {k : K} (h : c.Bound z m) (hk : 0 ≤ k) : c.Bound (z / k) (m / k) :=
  ⟨fun hc => div_le_div_of_nonneg_right (h.below hc) hk,
    fun hc => div_le_div_of_nonneg_right (h.above hc) hk⟩

end Bound

end Curvature

/-! ## Behind a monotone function -/

namespace Monotonicity

/-- What is left of the curvature of an argument. -/
def carry (m : Monotonicity) (c : Curvature) (s : Sign) : Curvature :=
  match m.resolve s with
  | increasing => c
  | decreasing => c.negate
  | signed | nonmonotonic => if c.isAffine then .constant else .unknown

variable {K : Type*} [Field K] [LinearOrder K]

def HoldsOn (m : Monotonicity) (D : Set K) (f : K → K) : Prop :=
  match m with
  | increasing => MonotoneOn f D
  | decreasing => AntitoneOn f D
  | signed => MonotoneOn f (D ∩ Set.Ici 0) ∧ AntitoneOn f (D ∩ Set.Iic 0)
  | nonmonotonic => True

theorem bound_carry {m : Monotonicity} {D : Set K} {f : K → K} {c : Curvature} {σ : Sign} {z w : K}
    (h : m.HoldsOn D f) (hz : z ∈ D) (hw : w ∈ D) (hσz : σ.Allows z) (hσw : σ.Allows w)
    (hb : c.Bound z w) : (m.carry c σ).Bound (f z) (f w) := by
  have hinc : ∀ {E : Set K}, MonotoneOn f E → z ∈ E → w ∈ E → c.Bound (f z) (f w) :=
    fun hf hz hw => ⟨fun hc => hf hz hw (hb.below hc), fun hc => hf hw hz (hb.above hc)⟩
  have hdec : ∀ {E : Set K}, AntitoneOn f E → z ∈ E → w ∈ E → c.negate.Bound (f z) (f w) := by
    intro E hf hz hw
    constructor
    · rw [Curvature.isConvex_negate]
      exact fun hc => hf hw hz (hb.above hc)
    · rw [Curvature.isConcave_negate]
      exact fun hc => hf hz hw (hb.below hc)
  have hnone : (if c.isAffine then .constant else .unknown : Curvature).Bound (f z) (f w) := by
    by_cases hc : c.isAffine = true
    · rw [if_pos hc, hb.eq hc]
      exact .of_eq rfl _
    · rw [if_neg hc]
      exact Curvature.bound_unknown
  cases m with
  | increasing => exact hinc h hz hw
  | decreasing => exact hdec h hz hw
  | nonmonotonic => exact hnone
  | signed =>
    unfold carry resolve scaledBy
    by_cases hnonneg : σ.isNonneg = true
    · rw [if_pos hnonneg]
      exact hinc h.1 ⟨hz, hσz.nonneg hnonneg⟩ ⟨hw, hσw.nonneg hnonneg⟩
    by_cases hnonpos : σ.isNonpos = true
    · rw [if_neg hnonneg, if_pos hnonpos]
      exact hdec h.2 ⟨hz, hσz.nonpos hnonpos⟩ ⟨hw, hσw.nonpos hnonpos⟩
    · rw [if_neg hnonneg, if_neg hnonpos]
      exact hnone

/-- A factor with a sign, in front of the other one. -/
theorem bound_scaledBy [IsStrictOrderedRing K] {c : Curvature} {σ τ : Sign} {k z w : K}
    (hk : σ.Allows k) (hb : c.Bound z w) :
    ((scaledBy σ).carry c τ).Bound (k * z) (k * w) := by
  unfold scaledBy
  by_cases hnonneg : σ.isNonneg = true
  · rw [if_pos hnonneg]
    exact hb.mul_left (hk.nonneg hnonneg)
  by_cases hnonpos : σ.isNonpos = true
  · rw [if_neg hnonneg, if_pos hnonpos]
    have hle := hk.nonpos hnonpos
    refine ⟨fun hc => ?_, fun hc => ?_⟩
    · exact mul_le_mul_of_nonpos_left (hb.above (by simpa [carry, resolve] using hc)) hle
    · exact mul_le_mul_of_nonpos_left (hb.below (by simpa [carry, resolve] using hc)) hle
  · rw [if_neg hnonneg, if_neg hnonpos]
    by_cases hc : c.isAffine = true
    · rw [hb.eq hc]
      exact .of_eq rfl _
    · simp only [carry, resolve, hc]
      exact Curvature.bound_unknown

end Monotonicity

/-! ## The composition rule -/

namespace Curvature

theorem contribution_eq (base : Curvature) (m : Monotonicity) (c : Curvature) (s : Sign) :
    base.contribution m c s = if c.isConstant then constant else base.add (m.carry c s) := by
  unfold contribution Monotonicity.carry
  by_cases hc : c.isConstant = true
  · rw [if_pos hc, if_pos hc]
  · rw [if_neg hc, if_neg hc]
    cases m.resolve s with
    | increasing => rfl
    | decreasing => rfl
    | signed => cases base <;> cases c <;> rfl
    | nonmonotonic => cases base <;> cases c <;> rfl

theorem carry_constant (m : Monotonicity) (s : Sign) : m.carry constant s = constant := by
  unfold Monotonicity.carry
  cases m.resolve s <;> rfl

variable {base : Curvature} {args : List (Monotonicity × Curvature × Sign)}

/-- One direction of a composed curvature, from the same direction of its parts. -/
theorem foldl_add (p : Curvature → Bool) (hp : ∀ c d, p (c.add d) = (p c && p d))
    (hconstant : p constant = true) (cs : List Curvature) :
    p (cs.foldl add constant) = cs.all p := by
  suffices h : ∀ c, p (cs.foldl add c) = (p c && cs.all p) by simpa [hconstant] using h constant
  induction cs with
  | nil => simp
  | cons d cs ih =>
    intro c
    rw [List.foldl_cons, ih, hp, List.all_cons, Bool.and_assoc]

theorem of_compose (p : Curvature → Bool) (hp : ∀ c d, p (c.add d) = (p c && p d))
    (hconstant : p constant = true) (hargs : ∃ a ∈ args, a.2.1 ≠ constant)
    (h : p (base.compose args) = true) :
    p base = true ∧ ∀ a ∈ args, p (a.1.carry a.2.1 a.2.2) = true := by
  rw [compose, foldl_add p hp hconstant, List.all_map, List.all_eq_true] at h
  have hpart : ∀ a ∈ args, a.2.1 = constant ∨
      p base = true ∧ p (a.1.carry a.2.1 a.2.2) = true := by
    intro a ha
    have hpa := h a ha
    simp only [Function.comp_apply, contribution_eq] at hpa
    by_cases hc : a.2.1 = constant
    · exact .inl hc
    · rw [if_neg (mt isConstant_iff.1 hc), hp, Bool.and_eq_true] at hpa
      exact .inr hpa
  obtain ⟨a, ha, hne⟩ := hargs
  refine ⟨((hpart a ha).resolve_left hne).1, fun b hb => ?_⟩
  rcases hpart b hb with hc | hc
  · rw [hc, carry_constant, hconstant]
  · exact hc.2

theorem isConvex_of_compose (hargs : ∃ a ∈ args, a.2.1 ≠ constant)
    (h : (base.compose args).isConvex = true) :
    base.isConvex = true ∧ ∀ a ∈ args, (a.1.carry a.2.1 a.2.2).isConvex = true :=
  of_compose isConvex isConvex_add rfl hargs h

theorem isConcave_of_compose (hargs : ∃ a ∈ args, a.2.1 ≠ constant)
    (h : (base.compose args).isConcave = true) :
    base.isConcave = true ∧ ∀ a ∈ args, (a.1.carry a.2.1 a.2.2).isConcave = true :=
  of_compose isConcave isConcave_add rfl hargs h

/-- Every argument of a certified application contributes a certified curvature. -/
theorem isCertified_contribution (h : (base.compose args).isCertified = true) :
    ∀ a ∈ args, (base.contribution a.1 a.2.1 a.2.2).isCertified = true := by
  intro a ha
  rw [isCertified_iff, compose, foldl_add isConvex isConvex_add rfl,
    foldl_add isConcave isConcave_add rfl, List.all_map, List.all_map, List.all_eq_true,
    List.all_eq_true] at h
  exact isCertified_iff.2 (h.imp (fun h => h a ha) fun h => h a ha)

/-- Nothing is certified of an application to an argument of which nothing is certified. -/
theorem isCertified_of_compose (h : (base.compose args).isCertified = true) :
    ∀ a ∈ args, a.2.1.isCertified = true := by
  rintro ⟨m, c, s⟩ ha
  have hcontribution := isCertified_contribution h _ ha
  cases c with
  | unknown =>
    unfold contribution at hcontribution
    cases hm : m.resolve s <;> cases base <;> simp only [hm] at hcontribution <;>
      cases hcontribution
  | _ => rfl

/-- An atom of which nothing is certified has to be applied to constants. -/
theorem isCertified_unknown_compose (hargs : ∃ a ∈ args, a.2.1 ≠ constant) :
    (unknown.compose args).isCertified = false := by
  by_contra h
  rw [Bool.not_eq_false, isCertified_iff] at h
  rcases h with h | h
  · cases (isConvex_of_compose hargs h).1
  · cases (isConcave_of_compose hargs h).1

/-- Only an application to constants is constant. -/
theorem compose_eq_constant (hbase : base ≠ constant) :
    base.compose args = constant ↔ ∀ a ∈ args, a.2.1 = constant := by
  rw [← isConstant_iff, compose, foldl_add isConstant isConstant_add rfl, List.all_map,
    List.all_eq_true]
  refine forall₂_congr fun a _ => ?_
  simp only [Function.comp_apply, contribution_eq]
  by_cases hc : a.2.1 = constant
  · rw [hc]
    exact iff_of_true rfl rfl
  · rw [if_neg (mt isConstant_iff.1 hc), isConstant_add, Bool.and_eq_true, isConstant_iff]
    exact iff_of_false (fun h => hbase h.1) hc

section

variable {K : Type*} [LinearOrder K] {z m : K} {m₁ m₂ : Monotonicity}
  {c c₁ c₂ : Curvature} {s₁ s₂ : Sign}

theorem Bound.compose_one (hc : c ≠ constant) (h : ((m₁.carry c s₁).add base).Bound z m) :
    (base.compose [(m₁, c, s₁)]).Bound z m := by
  have hargs : ∃ a ∈ [(m₁, c, s₁)], a.2.1 ≠ constant := ⟨_, List.mem_cons_self, hc⟩
  refine h.imp (fun hd => ?_) fun hd => ?_
  · obtain ⟨hbase, hcarry⟩ := isConvex_of_compose hargs hd
    rw [isConvex_add, hbase, hcarry _ List.mem_cons_self]
    rfl
  · obtain ⟨hbase, hcarry⟩ := isConcave_of_compose hargs hd
    rw [isConcave_add, hbase, hcarry _ List.mem_cons_self]
    rfl

theorem Bound.compose_two (hc : c₁ ≠ constant ∨ c₂ ≠ constant)
    (h : (((m₁.carry c₁ s₁).add (m₂.carry c₂ s₂)).add base).Bound z m) :
    (base.compose [(m₁, c₁, s₁), (m₂, c₂, s₂)]).Bound z m := by
  have hargs : ∃ a ∈ [(m₁, c₁, s₁), (m₂, c₂, s₂)], a.2.1 ≠ constant := by
    rcases hc with hc | hc
    · exact ⟨_, List.mem_cons_self, hc⟩
    · exact ⟨_, List.mem_cons_of_mem _ List.mem_cons_self, hc⟩
  have hmem : (m₂, c₂, s₂) ∈ [(m₁, c₁, s₁), (m₂, c₂, s₂)] :=
    List.mem_cons_of_mem _ List.mem_cons_self
  refine h.imp (fun hd => ?_) fun hd => ?_
  · obtain ⟨hbase, hcarry⟩ := isConvex_of_compose hargs hd
    rw [isConvex_add, isConvex_add, hbase, hcarry _ List.mem_cons_self, hcarry _ hmem]
    rfl
  · obtain ⟨hbase, hcarry⟩ := isConcave_of_compose hargs hd
    rw [isConcave_add, isConcave_add, hbase, hcarry _ List.mem_cons_self, hcarry _ hmem]
    rfl

end

end Curvature

end DisciplinedConvex
