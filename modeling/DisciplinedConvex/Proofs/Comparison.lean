import DisciplinedConvex.Proofs.Feasible
import DisciplinedConvex.Proofs.Meaning.Agreement

/-! # Comparisons in normal form

A comparison of two sides is stored as a condition on the entries of one difference.

* `Grid.Related` compares two grids entry by entry, and `Grid.exists_combine?_iff` reads a condition
  on the entries of a combination as such a comparison.
* `Constraint.MetAt` is what a stored constraint asks of a valuation. For what the builders make it
  is what `Constraint.HoldsAt` asks of the tables (`Constraint.metAt_iff_holdsAt`).
* `Expr.sub_eq` says where a difference exists, `Expr.exists_eval_difference_iff` what its entries
  are and `Expr.curvature_difference` what is certified of it.
* `Constraint.Normalizes` is what is expected of a constructor, and `Constraint.normalizes` is the
  statement for the three comparisons.
-/

namespace DisciplinedConvex
set_option autoImplicit false

/-! ## Grids entry by entry -/

namespace Grid

variable {K : Type*}

def All (P : K → Prop) (x : Grid K) : Prop := ∀ i j, P (x.entry i j)

/-- Every entry is related to the one at its position, where a grid of one entry stands for a grid
of any dimensions. Other grids of different dimensions are not related. -/
def Related (R : K → K → Prop) (x y : Grid K) : Prop :=
  match x.single?, y.single? with
  | some a, _ => y.All (R a)
  | none, some b => x.All (R · b)
  | none, none => ∃ (hrows : x.rows = y.rows) (hcols : x.cols = y.cols),
      ∀ i j, R (x.entry i j) (y.entry (i.cast hrows) (j.cast hcols))

variable {P : K → Prop} {R : K → K → Prop} {x y : Grid K}

theorem all_of_single? {a : K} (h : x.single? = some a) : x.All P ↔ P a := by
  unfold single? at h
  split at h
  case isTrue hdims =>
    cases h
    refine ⟨fun h => h _ _, fun h i j => ?_⟩
    have hi : i = ⟨0, hdims.1 ▸ one_pos⟩ := Fin.ext (by omega)
    have hj : j = ⟨0, hdims.2 ▸ one_pos⟩ := Fin.ext (by omega)
    rwa [hi, hj]
  case isFalse => cases h

theorem single?_map (f : K → K) (x : Grid K) : (x.map f).single? = x.single?.map f := by
  by_cases h : x.rows = 1 ∧ x.cols = 1 <;> simp [single?, map, h]

theorem related_swap : Related R x y ↔ Related (fun b a => R a b) y x := by
  unfold Related
  cases hx : x.single? with
  | some a =>
    cases hy : y.single? with
    | some b => exact (all_of_single? (P := R a) hy).trans (all_of_single? (P := (R · b)) hx).symm
    | none => exact Iff.rfl
  | none =>
    cases hy : y.single? with
    | some b => exact Iff.rfl
    | none =>
      constructor
      · rintro ⟨hrows, hcols, h⟩
        exact ⟨hrows.symm, hcols.symm, fun i j => h (i.cast hrows.symm) (j.cast hcols.symm)⟩
      · rintro ⟨hrows, hcols, h⟩
        exact ⟨hrows.symm, hcols.symm, fun i j => h (i.cast hrows.symm) (j.cast hcols.symm)⟩

theorem related_map_right {g : K → K} :
    Related R x (y.map g) ↔ Related (fun a b => R a (g b)) x y := by
  unfold Related
  rw [single?_map]
  cases x.single? <;> cases y.single? <;> exact Iff.rfl

theorem related_congr {Q : K → K → Prop} (h : ∀ a b, R a b ↔ Q a b) :
    Related R x y ↔ Related Q x y := by
  have heq : R = Q := funext₂ fun a b => propext (h a b)
  rw [heq]

/-- Two grids that do not go together have no combination, and are not related either. -/
theorem exists_combine?_iff (f : K → K → K) :
    (∃ z, combine? f x y = some z ∧ z.All P) ↔ Related (fun a b => P (f a b)) x y := by
  unfold combine? promote? Related
  cases x.single? with
  | some a => simp only [Option.some.injEq, exists_eq_left']; rfl
  | none =>
    cases y.single? with
    | some b => simp only [Option.some.injEq, exists_eq_left']; rfl
    | none =>
      simp only [zip?, Option.dite_none_right_eq_some, Option.some.injEq]
      constructor
      · rintro ⟨z, ⟨⟨hrows, hcols⟩, rfl⟩, hall⟩
        exact ⟨hrows, hcols, hall⟩
      · rintro ⟨hrows, hcols, hall⟩
        exact ⟨_, ⟨⟨hrows, hcols⟩, rfl⟩, hall⟩

end Grid

/-! ## What a constraint asks of a valuation -/

section

variable {K : Type*} [Field K] [LinearOrder K]

/-- A constraint on an expression without a value is not met. -/
def Constraint.MetAt (F : Functions K) (ρ : Valuation K) : Constraint → Prop
  | zero e => ∃ z, e.eval F ρ = some z ∧ z.All (· = 0)
  | nonneg e => ∃ z, e.eval F ρ = some z ∧ z.All (0 ≤ ·)
  | cone t x => ∃ z w d, x.eval F ρ = some z ∧ t.eval F ρ = some w ∧ w.single? = some d ∧
      F.sqrt (z.map fun s => s ^ 2).total ≤ d

theorem Grid.Matches.all_iff {K : Type*} {x : Grid K} {a : Table K} {P : K → Prop}
    (h : x.Matches a) : x.All P ↔ a.All P := by
  constructor
  · intro hall p hp
    rw [Table.mem_positions, ← h.rows, ← h.cols] at hp
    rw [← h.entry ⟨p.1, hp.1⟩ ⟨p.2, hp.2⟩]
    exact hall _ _
  · intro hall i j
    rw [h.entry]
    exact hall _ (Table.mem_positions.2 ⟨h.rows ▸ i.2, h.cols ▸ j.2⟩)

/-- On what the builders make, a constraint asks the same of the entries that evaluation finds as of
the tables. -/
theorem Constraint.metAt_iff_holdsAt {S : Textbook K} (hS : S.IsEuclidean) (ρ : Point K)
    {c : Constraint} (hc : c.Built) (hfits : ∀ e ∈ c.expressions, e.Everywhere Expr.FitsWord) :
    c.MetAt S.functions ρ.valuation ↔ c.HoldsAt S ρ := by
  have heval : ∀ e ∈ c.expressions,
      ∃ z, e.eval S.functions ρ.valuation = some z ∧ z.Matches (e.value S ρ) ∧
        z.HasShape e.shape := by
    intro e he
    obtain ⟨z, hz, hshape⟩ := Expr.ends_eval S.functions ρ.valuation
      ((hc.expressions e he).isValid (hfits e he))
    exact ⟨z, hz, Expr.finds_eval ρ hS e z hz, hshape⟩
  cases c with
  | zero e =>
    obtain ⟨z, hz, hmatches, -⟩ := heval e List.mem_cons_self
    simp only [MetAt, HoldsAt, hz, Option.some.injEq, exists_eq_left']
    exact hmatches.all_iff
  | nonneg e =>
    obtain ⟨z, hz, hmatches, -⟩ := heval e List.mem_cons_self
    simp only [MetAt, HoldsAt, hz, Option.some.injEq, exists_eq_left']
    exact hmatches.all_iff
  | cone t x =>
    obtain ⟨w, hw, hbound, hshape⟩ := heval t List.mem_cons_self
    obtain ⟨z, hz, hmatches, -⟩ := heval x (List.mem_cons_of_mem _ List.mem_cons_self)
    have hscalar : (t.value S ρ).IsScalar := by
      rw [← hbound.isScalar_iff, hshape.rows, hshape.cols]
      exact Shape.isScalar_iff_toNat.1 (hc.bound t x rfl)
    have hsingle : w.single? = some ((t.value S ρ).entry (0, 0)) := by
      rw [hbound.single?_eq, if_pos hscalar]
    simp only [MetAt, HoldsAt, hz, hw, hsingle, Option.some.injEq, exists_eq_left',
      exists_and_left, Expr.entryAt, hS.norm2, (hmatches.map _).total_eq]
    rfl

end

/-! ## Differences -/

theorem Shape.exists_broadcast?_iff {a b : Shape} : (∃ r, a.broadcast? b = some r) ↔
    a = b ∨ a.isScalar = true ∨ b.isScalar = true := by
  simp only [broadcast?_eq_some_iff]
  by_cases ha : a.isScalar = true
  · simp [ha]
  · by_cases hb : b.isScalar = true
    · simp [ha, hb]
    · simp [ha, hb]

namespace Expr

/-- The difference of two sides, whether their shapes go together or not. -/
def difference (x y : Expr) : Expr := binary none .add x y.neg

theorem sub_eq (x y : Expr) : x.sub y =
    match x.shape.broadcast? y.shape with
    | some _ => .ok (x.difference y)
    | none => .error (.shape (.incompatible (.binary .add) x.shape y.shape)) := by
  have hneg : y.neg.shape = y.shape := rfl
  simp only [sub, apply, validate, List.map_cons, List.map_nil, Atom.validate, Binary.shape?,
    Atom.broadcast, hneg]
  cases x.shape.broadcast? y.shape <;> rfl

/-- A difference is certified for whatever is certified of the first side and, upside down, of the
second. -/
theorem curvature_difference (x y : Expr) :
    (x.difference y).curvature = x.curvature.add y.curvature.negate := by
  simp only [difference, neg, curvature_binary, curvature_unary]
  cases x.curvature <;> cases y.curvature <;> rfl

section

variable {K : Type*} [Field K] [LinearOrder K] {F : Functions K} {ρ : Valuation K}
  {x y : Expr} {a b : Grid K}

theorem eval_difference (ha : x.eval F ρ = some a) (hb : y.eval F ρ = some b) :
    (x.difference y).eval F ρ = Grid.combine? (· + ·) a (b.map fun t => -t) := by
  rw [difference, neg, eval, eval, ha, hb]
  rfl

theorem ends_difference {r : Shape} (h : x.shape.broadcast? y.shape = some r)
    (hx : Grid.Ends (x.eval F ρ) x.shape) (hy : Grid.Ends (y.eval F ρ) y.shape) :
    Grid.Ends ((x.difference y).eval F ρ) (x.difference y).shape := by
  obtain ⟨a, ha, hashape⟩ := hx
  obtain ⟨b, hb, hbshape⟩ := hy
  have hshape : (x.difference y).shape = r := Binary.shape_eq (Atom.broadcast_eq_ok.2 h)
  rw [eval_difference ha hb, hshape]
  exact Grid.ends_combine? _ hashape (hbshape.map _) h

/-- A condition on the entries of a difference compares the entries of the two sides. -/
theorem exists_eval_difference_iff (ha : x.eval F ρ = some a) (hb : y.eval F ρ = some b)
    (P : K → Prop) : (∃ z, (x.difference y).eval F ρ = some z ∧ z.All P) ↔
      a.Related (fun s t => P (s - t)) b := by
  rw [eval_difference ha hb, Grid.exists_combine?_iff, Grid.related_map_right]
  exact Grid.related_congr fun s t => by rw [sub_eq_add_neg]

end

end Expr

/-! ## The three comparisons -/

namespace Constraint

variable {K : Type*} [Field K] [LinearOrder K]

/-- What a constructor makes of two sides that `R` compares. It keeps the rules of disciplined
convex programming if `rule` says so. -/
structure Normalizes (R : K → K → Prop) (rule : Bool) (fault : ShapeFault) (x y : Expr)
    (made : Except Error Constraint) : Prop where
  succeeds : (∃ c, made = .ok c) ↔
    x.shape = y.shape ∨ x.shape.isScalar = true ∨ y.shape.isScalar = true
  fails : ∀ e, made = .error e → e = .shape fault
  /-- Where both sides have a value of their shape, so has what is stored. -/
  ends : ∀ c, made = .ok c → ∀ (F : Functions K) (ρ : Valuation K),
    Grid.Ends (x.eval F ρ) x.shape → Grid.Ends (y.eval F ρ) y.shape →
      ∀ e ∈ c.expressions, Grid.Ends (e.eval F ρ) e.shape
  meaning : ∀ c, made = .ok c → ∀ (F : Functions K) (ρ : Valuation K) (a b : Grid K),
    x.eval F ρ = some a → y.eval F ρ = some b → (c.MetAt F ρ ↔ a.Related R b)
  isDcp : ∀ c, made = .ok c → c.isDcp = rule

variable {R : K → K → Prop} {rule : Bool} {fault : ShapeFault} {x y : Expr}
  {made : Except Error Constraint}

theorem Normalizes.swap (h : Normalizes R rule fault x y made) :
    Normalizes (fun s t => R t s) rule fault y x made where
  succeeds := by rw [h.succeeds, eq_comm, or_comm (a := y.shape.isScalar = true)]
  fails := h.fails
  ends c hc F ρ hy hx := h.ends c hc F ρ hx hy
  meaning c hc F ρ b a hb ha := (h.meaning c hc F ρ a b ha hb).trans Grid.related_swap
  isDcp := h.isDcp

/-- A difference under a form that asks `P` of every entry. -/
theorem normalizes_difference {form : Expr → Constraint} {P : K → Prop}
    (hform : ∀ e, (form e).expressions = [e])
    (hmet : ∀ (F : Functions K) (ρ : Valuation K) e,
      (form e).MetAt F ρ ↔ ∃ z, e.eval F ρ = some z ∧ z.All P)
    (hR : ∀ s t, P (s - t) ↔ R s t) :
    Normalizes R (form (x.difference y)).isDcp (.incompatible (.binary .add) x.shape y.shape) x y
      ((x.sub y).map form) := by
  rw [Expr.sub_eq]
  cases hr : x.shape.broadcast? y.shape with
  | none =>
    have hincompatible : ¬ ∃ r, x.shape.broadcast? y.shape = some r := by simp [hr]
    rw [Shape.exists_broadcast?_iff] at hincompatible
    refine ⟨iff_of_false (fun h => ?_) hincompatible, ?_, ?_, ?_, ?_⟩
    · obtain ⟨c, hc⟩ := h
      cases hc
    · rintro e ⟨⟩
      rfl
    all_goals exact fun c hc => nomatch hc
  | some r =>
    refine ⟨iff_of_true ⟨_, rfl⟩ (Shape.exists_broadcast?_iff.1 ⟨r, hr⟩), ?_, ?_, ?_, ?_⟩
    · rintro e ⟨⟩
    · rintro c ⟨⟩ F ρ hx hy e he
      rw [hform, List.mem_singleton] at he
      subst he
      exact Expr.ends_difference hr hx hy
    · rintro c ⟨⟩ F ρ a b ha hb
      rw [hmet, Expr.exists_eval_difference_iff ha hb]
      exact Grid.related_congr hR
    · rintro c ⟨⟩
      rfl

/-- A comparison succeeds where the shapes are equal or one side is a scalar. What it stores is met
where the two sides are so related entry by entry, and keeps the rules where the sides have the
curvatures that the comparison asks for. -/
theorem normalizes (K : Type*) [Field K] [LinearOrder K] [IsStrictOrderedRing K] (lhs rhs : Expr) :
    Normalizes (K := K) (· = ·) (lhs.isAffine && rhs.isAffine)
        (.incompatible (.binary .add) lhs.shape rhs.shape) lhs rhs (eq lhs rhs) ∧
      Normalizes (K := K) (· ≤ ·) (lhs.isConvex && rhs.isConcave)
        (.incompatible (.binary .add) rhs.shape lhs.shape) lhs rhs (leq lhs rhs) ∧
      Normalizes (K := K) (· ≥ ·) (lhs.isConcave && rhs.isConvex)
        (.incompatible (.binary .add) lhs.shape rhs.shape) lhs rhs (geq lhs rhs) := by
  have haffine : (zero (lhs.difference rhs)).isDcp = (lhs.isAffine && rhs.isAffine) := by
    rw [isDcp, Expr.isAffine, Expr.curvature_difference, Expr.isAffine, Expr.isAffine]
    cases lhs.curvature <;> cases rhs.curvature <;> rfl
  have hconcave : ∀ x y : Expr,
      (nonneg (x.difference y)).isDcp = (x.isConcave && y.isConvex) := by
    intro x y
    rw [isDcp, Expr.isConcave, Expr.curvature_difference, Curvature.isConcave_add,
      Curvature.isConcave_negate]
    rfl
  refine ⟨?_, ?_, ?_⟩
  · rw [← haffine]
    exact normalizes_difference (fun _ => rfl) (fun _ _ _ => Iff.rfl) fun _ _ => sub_eq_zero
  · rw [Bool.and_comm, ← hconcave]
    exact (normalizes_difference (fun _ => rfl) (fun _ _ _ => Iff.rfl)
      fun _ _ => sub_nonneg).swap
  · rw [← hconcave]
    exact normalizes_difference (fun _ => rfl) (fun _ _ _ => Iff.rfl) fun _ _ => sub_nonneg

/-- The square of every entry of a column is at most one. -/
theorem normalizes_unit_square :
    ∃ c, leq (Expr.var ⟨0, { shape := .vector 2 }⟩).square (.const 1 (.scalar 1)) = .ok c ∧
      c.isDcp = true ∧ ∀ (F : Functions ℚ) (ρ : Valuation ℚ),
        c.MetAt F ρ ↔ ∀ i j, ρ ⟨0, { shape := .vector 2 }⟩ i j ^ 2 ≤ 1 := by
  obtain ⟨-, h, -⟩ :=
    normalizes ℚ (Expr.var ⟨0, { shape := .vector 2 }⟩).square (.const 1 (.scalar 1))
  obtain ⟨c, hc⟩ := h.succeeds.2 (.inr (.inr rfl))
  refine ⟨c, hc, h.isDcp c hc, fun F ρ => ?_⟩
  have hone : ((Value.scalar 1).grid ℚ).single? = some 1 := by
    simp [Grid.single?, Value.grid, Value.shape, Shape.scalar, Value.entry]
  rw [h.meaning c hc F ρ _ _ rfl rfl, Grid.Related, hone]
  rfl

end Constraint

end DisciplinedConvex
