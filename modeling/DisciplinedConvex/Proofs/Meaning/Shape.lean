import DisciplinedConvex.Proofs.Meaning.Expr
import DisciplinedConvex.Proofs.Shape

/-! # Tables have the inferred shapes

An application that passes its check reads only positions inside of its arguments, and its table has
the inferred shape.

* `Unary.hasShape_table`, `Binary.hasShape_table` and `Variadic.hasShape_table` are the cases, and
  `Expr.hasShape_value` is the statement for expressions.
* `Unary.sources_subset` and `Binary.factors_subset` say which positions are read.
* `Variadic.AgreeAll` says that the tables can be combined one after the other.
-/

namespace DisciplinedConvex
set_option autoImplicit false

variable {K : Type*}

namespace Table

theorem HasShape.isScalar_iff {x : Table K} {s : Shape} (h : x.HasShape s) :
    x.IsScalar ↔ s.isScalar = true := by
  rw [Shape.isScalar_iff_toNat, IsScalar, h.rows, h.cols]

theorem hasShape_scalar (v : K) : (scalar v).HasShape .scalar := ⟨rfl, rfl⟩

theorem HasShape.cols_eq_one_iff {x : Table K} {s : Shape} (h : x.HasShape s) :
    x.cols = 1 ↔ s.isColumn = true := by
  rw [h.cols, Shape.isColumn_iff_toNat]

theorem HasShape.broadcast_left {x y : Table K} {s : Shape} (f : K → K → K) (hx : x.HasShape s)
    (h : ¬ x.IsScalar) : (broadcast f x y).HasShape s := by
  rw [broadcast_of_not_isScalar f h]
  exact ⟨hx.rows, hx.cols⟩

theorem HasShape.broadcast_right {x y : Table K} {s : Shape} (f : K → K → K) (hy : y.HasShape s)
    (h : x.IsScalar) : (broadcast f x y).HasShape s := by
  rw [broadcast_of_isScalar f h]
  exact ⟨hy.rows, hy.cols⟩

theorem of_broadcast? {x y : Table K} {s t r : Shape} (f : K → K → K) (hx : x.HasShape s)
    (hy : y.HasShape t) (h : s.broadcast? t = some r) :
    Compatible x y ∧ (broadcast f x y).HasShape r := by
  rw [Shape.broadcast?_eq_some_iff] at h
  split at h
  case isTrue hs =>
    subst h
    rw [← hx.isScalar_iff] at hs
    exact ⟨.inl hs, hy.broadcast_right f hs⟩
  case isFalse hs =>
    rw [← hx.isScalar_iff] at hs
    have hleft := hx.broadcast_left (y := y) f hs
    split at h
    case isTrue ht =>
      subst h
      rw [← hy.isScalar_iff] at ht
      exact ⟨.inr (.inl ht), hleft⟩
    case isFalse =>
      obtain ⟨rfl, rfl⟩ := h
      exact ⟨.inr (.inr (hx.congr hy)), hleft⟩

end Table

/-! ## One argument -/

namespace Unary

variable [Field K] [LinearOrder K] {op : Unary} {x : Table K} {s t : Shape}

theorem hasShape_table (S : Textbook K) (h : op.shape? s = .ok t) (hx : x.HasShape s) :
    (op.table S x).HasShape t := by
  cases op
  case reshape target =>
    obtain ⟨rfl, -⟩ := of_reshape h
    exact ⟨rfl, rfl⟩
  case index r =>
    obtain ⟨⟨hr, -⟩, hc, -⟩ := of_index h
    exact ⟨hr.symm, hc.symm⟩
  case trace =>
    obtain ⟨rfl, -⟩ := of_trace h
    exact Table.hasShape_scalar _
  case diag =>
    rcases of_diag h with ⟨hone, rfl⟩ | ⟨hone, -, rfl⟩
    · rw [table, if_pos (hx.cols_eq_one_iff.2 hone)]
      exact ⟨hx.rows, hx.rows⟩
    · rw [table, if_neg (mt hx.cols_eq_one_iff.1 hone)]
      exact ⟨hx.rows, rfl⟩
  case transpose =>
    cases h
    exact ⟨hx.cols, hx.rows⟩
  all_goals
    cases h
    first | exact Table.hasShape_scalar _ | exact ⟨hx.rows, hx.cols⟩

omit [Field K] [LinearOrder K] in
theorem reshaped_mem {p : ℕ × ℕ} (h : s.count = t.count) (hx : x.HasShape s)
    (hp : p.1 < t.rows.toNat ∧ p.2 < t.cols.toNat) : reshaped t x p ∈ x.positions := by
  have hcount : p.2 * t.rows.toNat + p.1 < x.rows * x.cols := by
    rw [hx.rows, hx.cols]
    change _ < s.count
    calc p.2 * t.rows.toNat + p.1 < p.2 * t.rows.toNat + t.rows.toNat :=
          Nat.add_lt_add_left hp.1 _
      _ = (p.2 + 1) * t.rows.toNat := (Nat.succ_mul _ _).symm
      _ ≤ t.cols.toNat * t.rows.toNat := Nat.mul_le_mul_right _ hp.2
      _ = s.count := by rw [h, Shape.count, Nat.mul_comm]
  have hpos : 0 < x.rows := Nat.pos_of_ne_zero fun h0 => by simp [h0] at hcount
  exact Table.mem_positions.2 ⟨Nat.mod_lt _ hpos, Nat.div_lt_of_lt_mul hcount⟩

omit [Field K] [LinearOrder K] in
theorem sources_diag_subset (h : diag.shape? s = .ok t) (hx : x.HasShape s) {p : ℕ × ℕ}
    (hp : p.1 < t.rows.toNat ∧ p.2 < t.cols.toNat) : diag.sources x p ⊆ x.positions := by
  have hcases := of_diag h
  rw [sources]
  rw [← hx.cols_eq_one_iff] at hcases
  rcases hcases with ⟨hone, rfl⟩ | ⟨hone, hsquare, rfl⟩
  · rw [if_pos hone]
    split
    · rw [Finset.singleton_subset_iff, Table.mem_positions, hx.rows, hone]
      exact ⟨hp.1, Nat.zero_lt_one⟩
    · exact Finset.empty_subset _
  · rw [if_neg hone, Finset.singleton_subset_iff, Table.mem_positions, hx.rows, hx.cols, ← hsquare]
    exact ⟨hp.1, hp.1⟩

/-- An accepted application reads positions inside of its argument. -/
theorem sources_subset {S : Textbook K} (hg : op.gauge? S = none) (h : op.shape? s = .ok t)
    (hx : x.HasShape s) {p : ℕ × ℕ} (hp : p ∈ (op.table S x).positions) :
    op.sources x p ⊆ x.positions := by
  have hshape := hasShape_table S h hx
  rw [Table.mem_positions, hshape.rows, hshape.cols] at hp
  have hself : t = s → p ∈ x.positions := by
    rintro rfl
    rwa [Table.mem_positions, hx.rows, hx.cols]
  cases op
  case reshape target =>
    obtain ⟨rfl, hcount⟩ := of_reshape h
    exact Finset.singleton_subset_iff.2 (reshaped_mem hcount hx hp)
  case index r =>
    obtain ⟨⟨hr, hrows⟩, hc, hcols⟩ := of_index h
    rw [hr, hc] at hp
    rw [sources, Finset.singleton_subset_iff, Table.mem_positions, hx.rows, hx.cols]
    constructor <;> dsimp only <;> omega
  case trace =>
    obtain ⟨-, hsquare⟩ := of_trace h
    intro q hq
    rw [sources, Finset.mem_image] at hq
    obtain ⟨i, hi, rfl⟩ := hq
    rw [Finset.mem_range] at hi
    rw [Table.mem_positions, hx.cols, ← hsquare, ← hx.rows]
    exact ⟨hi, hi⟩
  case diag => exact sources_diag_subset h hx hp
  case transpose =>
    cases h
    rw [sources, Finset.singleton_subset_iff, Table.mem_positions, hx.rows, hx.cols]
    exact ⟨hp.2, hp.1⟩
  case sum => exact Finset.Subset.refl _
  case norm1 => exact Finset.Subset.refl _
  case sumSquares => exact Finset.Subset.refl _
  case norm2 => cases hg
  case normInf => cases hg
  case normFro => cases hg
  all_goals
    cases h
    exact Finset.singleton_subset_iff.2 (hself rfl)

end Unary

/-! ## Two arguments -/

namespace Binary

variable {op : Binary} {x y : Table K} {s t r : Shape}

theorem of_broadcast (hop : op = add ∨ op = mul) (f : K → K → K) (h : op.shape? s t = .ok r)
    (hx : x.HasShape s) (hy : y.HasShape t) :
    x.Compatible y ∧ (Table.broadcast f x y).HasShape r :=
  Table.of_broadcast? f hx hy (shape?_entrywise hop h)

theorem isScalar_of_quadOverLin (h : quadOverLin.shape? s t = .ok r) (hy : y.HasShape t) :
    y.IsScalar :=
  hy.isScalar_iff.2 (shape?_quadOverLin h).1

theorem of_quadForm (h : quadForm.shape? s t = .ok r) (hx : x.HasShape s) (hy : y.HasShape t) :
    x.cols = 1 ∧ y.rows = x.rows ∧ y.cols = x.rows := by
  obtain ⟨hc, rfl, -⟩ := shape?_quadForm h
  exact ⟨hx.cols_eq_one_iff.2 hc, hy.rows.trans hx.rows.symm, hy.cols.trans hx.rows.symm⟩

variable [Field K]

/-- A matrix product has a scalar factor, or the inner dimensions are equal. -/
theorem of_matmul (h : matmul.shape? s t = .ok r) (hx : x.HasShape s) (hy : y.HasShape t) :
    (matmul.table x y).HasShape r ∧ (¬ (x.IsScalar ∨ y.IsScalar) → x.cols = y.rows) := by
  have hr := Shape.matmul?_eq_some_iff.1 (shape?_matmul h)
  rw [table]
  split at hr
  case isTrue hs =>
    subst hr
    rw [← hx.isScalar_iff] at hs
    rw [if_pos (.inl hs)]
    exact ⟨hy.broadcast_right _ hs, fun hn => absurd (.inl hs) hn⟩
  case isFalse hs =>
    rw [← hx.isScalar_iff] at hs
    split at hr
    case isTrue ht =>
      subst hr
      rw [← hy.isScalar_iff] at ht
      rw [if_pos (.inr ht)]
      exact ⟨hx.broadcast_left _ hs, fun hn => absurd (.inr ht) hn⟩
    case isFalse ht =>
      rw [← hy.isScalar_iff] at ht
      obtain ⟨hinner, rfl⟩ := hr
      rw [if_neg (not_or.2 ⟨hs, ht⟩)]
      exact ⟨⟨hx.rows, hy.cols⟩, fun _ => by rw [hx.cols, hy.rows, hinner]⟩

theorem hasShape_table (h : op.shape? s t = .ok r) (hx : x.HasShape s) (hy : y.HasShape t) :
    (op.table x y).HasShape r := by
  cases op with
  | add => exact (of_broadcast (.inl rfl) _ h hx hy).2
  | mul => exact (of_broadcast (.inr rfl) _ h hx hy).2
  | matmul => exact (of_matmul h hx hy).1
  | quadOverLin =>
    rw [(shape?_quadOverLin h).2]
    exact Table.hasShape_scalar _
  | quadForm =>
    rw [(shape?_quadForm h).2.2]
    exact Table.hasShape_scalar _

/-- An accepted product reads positions inside of its factors. -/
theorem factors_subset (hop : op = mul ∨ op = matmul) (h : op.shape? s t = .ok r)
    (hx : x.HasShape s) (hy : y.HasShape t) {p : ℕ × ℕ} (hp : p ∈ (op.table x y).positions)
    {q : (ℕ × ℕ) × (ℕ × ℕ)} (hq : q ∈ op.factors x y p) :
    q.1 ∈ x.positions ∧ q.2 ∈ y.positions := by
  by_cases hm : op = matmul ∧ ¬ (x.IsScalar ∨ y.IsScalar)
  · obtain ⟨rfl, hs⟩ := hm
    have hinner := (of_matmul h hx hy).2 hs
    rw [table, if_neg hs, Table.mem_positions] at hp
    rw [factors, if_pos ⟨rfl, hs⟩, Finset.mem_image] at hq
    obtain ⟨k, hk, rfl⟩ := hq
    rw [Finset.mem_range] at hk
    exact ⟨Table.mem_positions.2 ⟨hp.1, hk⟩, Table.mem_positions.2 ⟨hinner ▸ hk, hp.2⟩⟩
  · rw [factors, if_neg hm, Finset.mem_singleton] at hq
    subst hq
    rcases hop with rfl | rfl
    · exact Table.place_mem (of_broadcast (.inr rfl) (· * ·) h hx hy).1 hp
    · have hs : x.IsScalar ∨ y.IsScalar := by
        by_contra hs
        exact hm ⟨rfl, hs⟩
      rw [table, if_pos hs] at hp
      refine Table.place_mem ?_ hp
      rcases hs with hs | hs
      · exact .inl hs
      · exact .inr (.inl hs)

end Binary

/-! ## Many arguments -/

namespace Variadic

def Agree (op : Variadic) (x y : Table K) : Prop :=
  match op with
  | vstack => x.cols = y.cols
  | hstack => x.rows = y.rows
  | maximum | minimum => x.Compatible y

variable {op : Variadic} {x y : Table K} {ys : List (Table K)} {s t r : Shape} {ts : List Shape}

variable [LinearOrder K]

/-- Every table agrees with what the ones before it make together. -/
def AgreeAll (op : Variadic) : Table K → List (Table K) → Prop
  | _, [] => True
  | x, y :: ys => op.Agree x y ∧ op.AgreeAll (op.combine x y) ys

/-- One step: two tables agree, and make a table of the inferred shape. -/
theorem agree_of_shape? (hx : x.HasShape s) (hy : y.HasShape t) (h : op.shape? s [t] = .ok r) :
    op.Agree x y ∧ (op.combine x y).HasShape r := by
  have hr := shape?_pair h
  cases op with
  | maximum => exact Table.of_broadcast? max hx hy hr
  | minimum => exact Table.of_broadcast? min hx hy hr
  | vstack =>
    obtain ⟨hcols, hrows, hkept⟩ := hr
    refine ⟨by rw [Agree, hx.cols, hy.cols, hcols], ?_, hkept ▸ hx.cols⟩
    rw [combine, Table.above, hx.rows, hy.rows]
    exact hrows
  | hstack =>
    obtain ⟨hrows, hcols, hkept⟩ := hr
    refine ⟨by rw [Agree, hx.rows, hy.rows, hrows], hkept ▸ hx.rows, ?_⟩
    rw [combine, Table.beside, hx.cols, hy.cols]
    exact hcols

/-- All steps, by induction on the tables with the shape so far. -/
theorem hasShape_table (hx : x.HasShape s) (hys : List.Forall₂ Table.HasShape ys ts)
    (h : op.shape? s ts = .ok r) : op.AgreeAll x ys ∧ (op.table x ys).HasShape r := by
  induction hys generalizing x s with
  | nil =>
    exact ⟨trivial, shape?_nil h ▸ hx⟩
  | @cons y t ys ts hy _ ih =>
    obtain ⟨u, hu, hrest⟩ := shape?_cons h
    obtain ⟨hagree, hshape⟩ := agree_of_shape? hx hy hu
    obtain ⟨hall, htable⟩ := ih hshape hrest
    exact ⟨⟨hagree, hall⟩, htable⟩

end Variadic

/-! ## Expressions -/

namespace Expr

variable [Field K] [LinearOrder K] (S : Textbook K) (ρ : Point K)

theorem forall₂_hasShape {xs : List Expr} (h : ∀ x ∈ xs, (x.value S ρ).HasShape x.shape) :
    List.Forall₂ Table.HasShape (xs.map (value S ρ)) (xs.map shape) := by
  induction xs with
  | nil => exact .nil
  | cons x xs ih =>
    exact .cons (h x List.mem_cons_self) (ih fun y hy => h y (List.mem_cons_of_mem x hy))

/-- Every table has the inferred shape. -/
theorem hasShape_value {e : Expr} (hv : e.Everywhere IsValid) :
    (e.value S ρ).HasShape e.shape := by
  induction e with
  | var v => exact ⟨rfl, rfl⟩
  | const id v => exact ⟨rfl, rfl⟩
  | unary label op x ih =>
    obtain ⟨hroot, hx⟩ := everywhere_unary.1 hv
    exact Unary.hasShape_table S (isValid_unary.1 hroot).2 (ih hx)
  | binary label op x y ihx ihy =>
    obtain ⟨hroot, hx, hy⟩ := everywhere_binary.1 hv
    exact Binary.hasShape_table (isValid_binary.1 hroot) (ihx hx) (ihy hy)
  | variadic label op x xs ihx ihxs =>
    obtain ⟨hroot, hargs⟩ := everywhere_variadic.1 hv
    have hxs := forall₂_hasShape S ρ fun y hy => ihxs y hy (hargs y (List.mem_cons_of_mem x hy))
    rw [value, values_eq_map, shape, shapes_eq_map]
    exact (Variadic.hasShape_table (ihx (hargs x List.mem_cons_self)) hxs
      (isValid_variadic.1 hroot)).2

/-- The tables of the arguments of a valid application can be combined. -/
theorem agreeAll_values {label : Option Nat} {op : Variadic} {x : Expr} {xs : List Expr}
    (hv : (variadic label op x xs).Everywhere IsValid) :
    op.AgreeAll (x.value S ρ) (xs.map (value S ρ)) := by
  obtain ⟨hroot, hargs⟩ := everywhere_variadic.1 hv
  have hx := hasShape_value S ρ (hargs x List.mem_cons_self)
  have hxs := forall₂_hasShape S ρ fun y hy =>
    hasShape_value S ρ (hargs y (List.mem_cons_of_mem x hy))
  exact (Variadic.hasShape_table hx hxs (isValid_variadic.1 hroot)).1

end Expr

end DisciplinedConvex
