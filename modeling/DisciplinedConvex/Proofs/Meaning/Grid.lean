import Mathlib.Data.Finset.Fold
import Mathlib.Data.Matrix.Mul
import Mathlib.Logic.Equiv.Fin.Basic
import DisciplinedConvex.Proofs.Shape

/-! # Grids

Matrices that have no entry outside of their dimensions, so that every entry that is read is there.

* An operation on grids is absent where the dimensions do not go together, or where a block reaches
  out of the grid.
* `Grid.promote?` lets a grid of one entry stand for a grid of any dimensions.
* `Grid.Ends` says that a computation is not stuck, and which shape it ends in. Below each group of
  operations stand the shapes for which they end.
-/

namespace DisciplinedConvex
set_option autoImplicit false

structure Grid (K : Type*) where
  rows : ℕ
  cols : ℕ
  entry : Matrix (Fin rows) (Fin cols) K

namespace Grid

variable {K : Type*}

structure HasShape (x : Grid K) (s : Shape) : Prop where
  rows : x.rows = s.rows.toNat
  cols : x.cols = s.cols.toNat

/-- The computation ends in a grid of the shape. -/
def Ends (o : Option (Grid K)) (s : Shape) : Prop := ∃ x, o = some x ∧ x.HasShape s

theorem HasShape.ends {x : Grid K} {s : Shape} (h : x.HasShape s) : Ends (some x) s := ⟨x, rfl, h⟩

/-- One step after another. -/
theorem Ends.bind {o : Option (Grid K)} {f : Grid K → Option (Grid K)} {s t : Shape}
    (h : Ends o s) (hf : ∀ x, x.HasShape s → Ends (f x) t) : Ends (o.bind f) t := by
  obtain ⟨x, rfl, hx⟩ := h
  exact hf x hx

theorem Ends.map {o : Option (Grid K)} {f : Grid K → Grid K} {s t : Shape} (h : Ends o s)
    (hf : ∀ x, x.HasShape s → (f x).HasShape t) : Ends (o.map f) t := by
  obtain ⟨x, rfl, hx⟩ := h
  exact (hf x hx).ends

variable {x y : Grid K} {s t r : Shape}

/-! ## One grid -/

def scalar (v : K) : Grid K := ⟨1, 1, fun _ _ => v⟩

def map (f : K → K) (x : Grid K) : Grid K := ⟨x.rows, x.cols, x.entry.map f⟩

def transpose (x : Grid K) : Grid K := ⟨x.cols, x.rows, x.entry.transpose⟩

/-- The entry of a grid that has no other. -/
def single? (x : Grid K) : Option K :=
  if h : x.rows = 1 ∧ x.cols = 1 then some (x.entry ⟨0, h.1 ▸ one_pos⟩ ⟨0, h.2 ▸ one_pos⟩)
  else none

/-- As many entries in other dimensions, counted column by column. -/
def reshape? (x : Grid K) (rows cols : ℕ) : Option (Grid K) :=
  if h : cols * rows = x.cols * x.rows then
    some ⟨rows, cols, fun i j =>
      let p := finProdFinEquiv.symm (Fin.cast h (finProdFinEquiv (j, i)))
      x.entry p.2 p.1⟩
  else none

/-- The rows from `top` to `bottom` and the columns from `left` to `right`. -/
def block? (x : Grid K) (top bottom left right : ℕ) : Option (Grid K) :=
  if h : bottom ≤ x.rows ∧ right ≤ x.cols then
    some ⟨bottom - top, right - left, fun i j =>
      x.entry ⟨top + i, by omega⟩ ⟨left + j, by omega⟩⟩
  else none

/-- The diagonal matrix of a column, or the diagonal of a square matrix. -/
def diag? [Zero K] (x : Grid K) : Option (Grid K) :=
  if h : x.cols = 1 then
    some ⟨x.rows, x.rows, Matrix.diagonal fun i => x.entry i ⟨0, h ▸ one_pos⟩⟩
  else if h : x.rows = x.cols then some ⟨x.rows, 1, fun i _ => x.entry i (i.cast h)⟩
  else none

section Reduction

variable [AddCommMonoid K]

def total (x : Grid K) : K := ∑ i, ∑ j, x.entry i j

def trace? (x : Grid K) : Option (Grid K) :=
  if h : x.rows = x.cols then some (scalar (∑ i, x.entry i (i.cast h))) else none

end Reduction

/-- The largest absolute value, zero of nothing. -/
def maxAbs [AddGroup K] [LinearOrder K] (x : Grid K) : K :=
  Finset.univ.fold max 0 fun p : Fin x.rows × Fin x.cols => |x.entry p.1 p.2|

theorem hasShape_scalar (v : K) : (scalar v).HasShape .scalar := ⟨rfl, rfl⟩

theorem HasShape.map (f : K → K) (hx : x.HasShape s) : (x.map f).HasShape s := ⟨hx.rows, hx.cols⟩

theorem HasShape.transpose (hx : x.HasShape s) : x.transpose.HasShape s.transpose :=
  ⟨hx.cols, hx.rows⟩

theorem HasShape.cols_eq_one_iff (hx : x.HasShape s) : x.cols = 1 ↔ s.isColumn = true := by
  rw [hx.cols, Shape.isColumn_iff_toNat]

theorem HasShape.isSome_single? (hx : x.HasShape s) : x.single?.isSome = s.isScalar := by
  rw [Bool.eq_iff_iff, Shape.isScalar_iff_toNat, ← hx.rows, ← hx.cols, single?]
  split
  case isTrue h => exact iff_of_true rfl h
  case isFalse h => exact iff_of_false Bool.false_ne_true h

theorem ends_reshape? (hx : x.HasShape s) (h : s.count = t.count) :
    Ends (x.reshape? t.rows.toNat t.cols.toNat) t := by
  have hcount : t.cols.toNat * t.rows.toNat = x.cols * x.rows := by
    rw [hx.rows, hx.cols, Nat.mul_comm, Nat.mul_comm s.cols.toNat]
    exact h.symm
  exact ⟨_, dif_pos hcount, rfl, rfl⟩

theorem ends_block? {top bottom left right : ℕ} (hx : x.HasShape s)
    (hrows : t.rows.toNat = bottom - top ∧ bottom ≤ s.rows.toNat)
    (hcols : t.cols.toNat = right - left ∧ right ≤ s.cols.toNat) :
    Ends (x.block? top bottom left right) t := by
  rw [← hx.rows] at hrows
  rw [← hx.cols] at hcols
  exact ⟨_, dif_pos ⟨hrows.2, hcols.2⟩, hrows.1.symm, hcols.1.symm⟩

theorem ends_trace? [AddCommMonoid K] (hx : x.HasShape s) (h : s.rows = s.cols) :
    Ends x.trace? .scalar := by
  have hsquare : x.rows = x.cols := by rw [hx.rows, hx.cols, h]
  exact ⟨_, dif_pos hsquare, hasShape_scalar _⟩

theorem ends_diag? [Zero K] (hx : x.HasShape s) (h : Unary.diag.shape? s = .ok t) :
    Ends x.diag? t := by
  unfold diag?
  rcases Unary.of_diag h with ⟨hs, rfl⟩ | ⟨hs, hsquare, rfl⟩
  · rw [dif_pos (hx.cols_eq_one_iff.2 hs)]
    exact ⟨_, rfl, hx.rows, hx.rows⟩
  · have hrows : x.rows = x.cols := by rw [hx.rows, hx.cols, hsquare]
    rw [dif_neg (mt hx.cols_eq_one_iff.1 hs), dif_pos hrows]
    exact ⟨_, rfl, hx.rows, rfl⟩

/-! ## Two grids -/

/-- A grid of one entry is combined with every entry of the other; what is done with two grids of
more entries is given. -/
def promote? (f : K → K → K) (rest : Option (Grid K)) (x y : Grid K) : Option (Grid K) :=
  match x.single?, y.single? with
  | some a, _ => some (y.map (f a))
  | none, some b => some (x.map (f · b))
  | none, none => rest

/-- Entry by entry, for equal dimensions. -/
def zip? (f : K → K → K) (x y : Grid K) : Option (Grid K) :=
  if h : x.rows = y.rows ∧ x.cols = y.cols then
    some ⟨x.rows, x.cols, fun i j => f (x.entry i j) (y.entry (i.cast h.1) (j.cast h.2))⟩
  else none

def combine? (f : K → K → K) (x y : Grid K) : Option (Grid K) := promote? f (zip? f x y) x y

def above? (x y : Grid K) : Option (Grid K) :=
  if h : x.cols = y.cols then
    some ⟨x.rows + y.rows, x.cols, fun i j =>
      i.addCases (fun i => x.entry i j) fun i => y.entry i (j.cast h)⟩
  else none

def beside? (x y : Grid K) : Option (Grid K) :=
  (x.transpose.above? y.transpose).map transpose

section Product

variable [AddCommMonoid K] [Mul K]

/-- The matrix product, for equal inner dimensions. -/
def product? (x y : Grid K) : Option (Grid K) :=
  if h : x.cols = y.rows then
    some ⟨x.rows, y.cols, x.entry * y.entry.submatrix (Fin.cast h) id⟩
  else none

def matmul? (x y : Grid K) : Option (Grid K) := promote? (· * ·) (product? x y) x y

/-- The quadratic form of a square matrix at a column. -/
def form? (x y : Grid K) : Option (Grid K) :=
  if h : x.cols = 1 ∧ y.rows = x.rows ∧ y.cols = x.rows then
    let z i := x.entry i ⟨0, h.1 ▸ one_pos⟩
    some (scalar (∑ i, ∑ j, z i * y.entry (i.cast h.2.1.symm) (j.cast h.2.2.symm) * z j))
  else none

end Product

/-- The shapes are those of `Shape.broadcast?` and `Shape.matmul?`, which differ in what they ask of
two shapes that are no scalars. -/
theorem ends_promote? (f : K → K → K) {rest : Option (Grid K)} {P : Prop} (hx : x.HasShape s)
    (hy : y.HasShape t) (h : if s.isScalar then t = r else if t.isScalar then s = r else P)
    (hrest : P → Ends rest r) : Ends (promote? f rest x y) r := by
  rw [← hx.isSome_single?, ← hy.isSome_single?] at h
  unfold promote?
  cases hsx : x.single? with
  | some a =>
    rw [hsx, Option.isSome_some, if_pos rfl] at h
    subst h
    exact (hy.map (f a)).ends
  | none =>
    rw [hsx, Option.isSome_none, if_neg Bool.false_ne_true] at h
    cases hsy : y.single? with
    | some b =>
      rw [hsy, Option.isSome_some, if_pos rfl] at h
      subst h
      exact (hx.map (f · b)).ends
    | none =>
      rw [hsy, Option.isSome_none, if_neg Bool.false_ne_true] at h
      exact hrest h

theorem ends_combine? (f : K → K → K) (hx : x.HasShape s) (hy : y.HasShape t)
    (h : s.broadcast? t = some r) : Ends (combine? f x y) r := by
  refine ends_promote? f hx hy (Shape.broadcast?_eq_some_iff.1 h) ?_
  rintro ⟨rfl, rfl⟩
  have hdims : x.rows = y.rows ∧ x.cols = y.cols :=
    ⟨hx.rows.trans hy.rows.symm, hx.cols.trans hy.cols.symm⟩
  exact ⟨_, dif_pos hdims, hx.rows, hx.cols⟩

theorem ends_above? (hx : x.HasShape s) (hy : y.HasShape t) (hcols : s.cols = t.cols)
    (hrows : s.rows.toNat + t.rows.toNat = r.rows.toNat) (hr : s.cols = r.cols) :
    Ends (above? x y) r := by
  have hdims : x.cols = y.cols := by rw [hx.cols, hy.cols, hcols]
  have hsum : x.rows + y.rows = r.rows.toNat := by rw [← hrows, hx.rows, hy.rows]
  exact ⟨_, dif_pos hdims, hsum, hr ▸ hx.cols⟩

theorem ends_beside? (hx : x.HasShape s) (hy : y.HasShape t) (hrows : s.rows = t.rows)
    (hcols : s.cols.toNat + t.cols.toNat = r.cols.toNat) (hr : s.rows = r.rows) :
    Ends (beside? x y) r :=
  (@ends_above? K _ _ _ _ r.transpose hx.transpose hy.transpose hrows hcols hr).map
    fun _ hz => hz.transpose

section Product

variable [AddCommMonoid K] [Mul K]

theorem ends_matmul? (hx : x.HasShape s) (hy : y.HasShape t) (h : s.matmul? t = some r) :
    Ends (matmul? x y) r := by
  refine ends_promote? _ hx hy (Shape.matmul?_eq_some_iff.1 h) ?_
  rintro ⟨hinner, rfl⟩
  have hdims : x.cols = y.rows := by rw [hx.cols, hy.rows, hinner]
  exact ⟨_, dif_pos hdims, hx.rows, hy.cols⟩

theorem ends_form? (hx : x.HasShape s) (hy : y.HasShape ⟨s.rows, s.rows⟩)
    (h : s.isColumn = true) : Ends (form? x y) .scalar := by
  have hdims : x.cols = 1 ∧ y.rows = x.rows ∧ y.cols = x.rows :=
    ⟨hx.cols_eq_one_iff.2 h, hy.rows.trans hx.rows.symm, hy.cols.trans hx.rows.symm⟩
  exact ⟨_, dif_pos hdims, hasShape_scalar _⟩

end Product

end Grid

end DisciplinedConvex
